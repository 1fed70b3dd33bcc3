import Xv6.Fs.Dirs

/-!
# Paths

A path is a list of components, and what it stands for is found by going from one directory to the
next. `walk` does this on the nodes of the file system; `namex` does it with references and locks,
and gives back all of them but the reference to what it returns.
-/

namespace Xv6.Fs

open Lib Function List

/-- The components of a path. -/
def components (path : List UInt8) : List (List UInt8) := (path.splitOn 47).filter (· ≠ [])

/-- The inode that a component names in the directory `i`. -/
def lookIn (f : Nat → Node) (i : Nat) (c : List UInt8) : Option Nat :=
  if (f i).type = T_DIR then (dir (f i).data).look (c.take DIRSIZ) else none

/-- Where the components lead to from inode `i`. -/
def walk (f : Nat → Node) (i : Nat) (cs : List (List UInt8)) : Option Nat :=
  cs.foldlM (lookIn f) i

/-- The directory that the components but the last lead to, and the last. -/
def walkParent (f : Nat → Node) (i : Nat) (cs : List (List UInt8)) : Option (Nat × List UInt8) :=
  cs.getLast?.bind fun c => (walk f i cs.dropLast).bind fun j =>
    if (f j).type = T_DIR then some (j, c.take DIRSIZ) else none

variable {sb : Superblock} {s₀ s s' : State} {E : Option String → Prop} {f F : Nat → Node}
  {g : Nat → Nat} {L : Nat → Option Nat} {path rest c : List UInt8} {cs : List (List UInt8)}
  {name : Bytes} {ip e i j m t : Nat} {parent : Bool}

/-! ## Components -/

theorem components_slash : components (47 :: path) = components path := by
  have h : (47 :: path).splitOn 47 = [] :: path.splitOn 47 :=
    splitOn_append_cons_self_of_not_mem not_mem_nil path
  rw [components, h, filter_cons_of_neg (by simp), components]

theorem components_dropWhile : components (path.dropWhile (· = 47)) = components path := by
  induction path with
  | nil => rfl
  | cons a path ih =>
    by_cases ha : a = 47
    · rw [dropWhile_cons_of_pos (by simpa using ha), ih, ha, components_slash]
    · rw [dropWhile_cons_of_neg (by simpa using ha)]

/-- A component, and what is after it. -/
theorem components_cons (hc : c ≠ []) (hs : 47 ∉ c) (hrest : rest.head? = none ∨ rest.head? = some 47) :
    components (c ++ rest) = c :: components rest := by
  cases rest with
  | nil =>
    rw [append_nil, components, splitOn_eq_singleton hs,
      filter_cons_of_pos (by simpa using hc)]
    rfl
  | cons a rest =>
    obtain rfl : a = 47 := by simpa using hrest
    rw [components_slash, components, splitOn_append_cons_self_of_not_mem hs,
      filter_cons_of_pos (by simpa using hc), components]

/-- A path that does not start with a slash starts with a component. -/
theorem components_takeWhile (hne : path ≠ []) (hhead : path.head? ≠ some 47) :
    path.takeWhile (· ≠ 47) ≠ [] ∧
    components path = path.takeWhile (· ≠ 47) :: components (path.dropWhile (· ≠ 47)) := by
  have hc : path.takeWhile (· ≠ 47) ≠ [] := by
    cases path with
    | nil => exact absurd rfl hne
    | cons a path =>
      have ha : a ≠ 47 := fun hc => hhead (by rw [hc]; rfl)
      rw [takeWhile_cons_of_pos (by simpa using ha)]
      exact cons_ne_nil _ _
  refine ⟨hc, ?_⟩
  have hsplit : path.takeWhile (· ≠ 47) ++ path.dropWhile (· ≠ 47) = path :=
    takeWhile_append_dropWhile
  rw [← components_cons hc, hsplit]
  · intro hmem
    have := mem_takeWhile_imp hmem
    simp at this
  · cases hd : path.dropWhile (· ≠ 47) with
    | nil => exact .inl rfl
    | cons a rest =>
      refine .inr ?_
      have := head?_dropWhile_not (· ≠ (47 : UInt8)) path
      rw [hd] at this
      simpa using this

theorem head_dropWhile : (path.dropWhile (· = 47)).head? ≠ some 47 := by
  intro hc
  have := head?_dropWhile_not (· = (47 : UInt8)) path
  rw [hc] at this
  simp at this

/-- `skipelem` takes the first component. -/
theorem skipelem_cases (path : List UInt8) (name : Bytes) : components path = [] ∧ skipelem path name = none ∨
    ∃ c rest, components path = c :: components rest ∧ skipelem path name = some (rest, elemName c name) ∧
      (rest = [] ↔ components rest = []) ∧ rest.length < path.length ∧ (∀ a ∈ c, a ∈ path) ∧
      ∀ a ∈ rest, a ∈ path := by
  rw [skipelem]
  generalize hp : path.dropWhile (· = 47) = p
  have hcomp : components path = components p := by rw [← hp, components_dropWhile]
  have hhead : p.head? ≠ some 47 := hp ▸ head_dropWhile
  have hsub : ∀ a ∈ p, a ∈ path := fun a ha => (dropWhile_sublist _).mem (hp ▸ ha)
  by_cases h0 : p = []
  · exact .inl ⟨by rw [hcomp, h0]; rfl, if_pos h0⟩
  · refine .inr ⟨p.takeWhile (· ≠ 47), (p.dropWhile (· ≠ 47)).dropWhile (· = 47), ?_, ?_, ?_, ?_, ?_, ?_⟩
    · rw [hcomp, components_dropWhile, (components_takeWhile h0 hhead).2]
    · simp only [if_neg h0]
      rfl
    · generalize hr : (p.dropWhile (· ≠ 47)).dropWhile (· = 47) = r
      have hrhead : r.head? ≠ some 47 := hr ▸ head_dropWhile
      refine ⟨fun h => by rw [h]; rfl, fun h => by_contra fun hne => ?_⟩
      rw [(components_takeWhile hne hrhead).2] at h
      exact cons_ne_nil _ _ h
    · have h1 := (dropWhile_sublist (· = (47 : UInt8)) (l := p.dropWhile (· ≠ 47))).length_le
      have h2 : p.length ≤ path.length := hp ▸ (dropWhile_sublist _).length_le
      have h3 : (p.takeWhile (· ≠ 47)).length + (p.dropWhile (· ≠ 47)).length = p.length := by
        rw [← length_append, takeWhile_append_dropWhile]
      have h4 := length_pos_of_ne_nil (components_takeWhile h0 hhead).1
      omega
    · exact fun a ha => hsub a ((takeWhile_sublist _).mem ha)
    · exact fun a ha => hsub a ((dropWhile_sublist _).mem ((dropWhile_sublist _).mem ha))

/-! ## Resolving a path -/

/-- What `namex` finds, component by component. -/
def resolve (f : Nat → Node) (parent : Bool) : Nat → List (List UInt8) → Option (Nat × List UInt8)
  | i, [] => if parent then none else some (i, [])
  | i, c :: cs =>
    if (f i).type ≠ T_DIR then none
    else if parent ∧ cs = [] then some (i, c.take DIRSIZ)
    else ((dir (f i).data).look (c.take DIRSIZ)).bind fun j => resolve f parent j cs

theorem resolve_walk : (resolve f false i cs).map Prod.fst = walk f i cs := by
  induction cs generalizing i with
  | nil => rfl
  | cons c cs ih =>
    rw [resolve, walk, foldlM_cons, lookIn]
    by_cases hdir : (f i).type = T_DIR
    · rw [if_neg (not_not.mpr hdir), if_neg (by simp), if_pos hdir]
      cases (dir (f i).data).look (c.take DIRSIZ) with
      | none => rfl
      | some j => exact ih
    · rw [if_pos hdir, if_neg hdir]
      rfl

theorem resolve_walkParent : resolve f true i cs = walkParent f i cs := by
  induction cs generalizing i with
  | nil => rfl
  | cons c cs ih =>
    rw [resolve]
    cases cs with
    | nil =>
      show _ = if (f i).type = T_DIR then some (i, c.take DIRSIZ) else none
      by_cases hdir : (f i).type = T_DIR
      · rw [if_neg (not_not.mpr hdir), if_pos hdir, if_pos ⟨rfl, rfl⟩]
      · rw [if_pos hdir, if_neg hdir]
    | cons c' cs =>
      rw [walkParent, getLast?_cons_cons, dropLast_cons_cons, walk, foldlM_cons, lookIn]
      by_cases hdir : (f i).type = T_DIR
      · rw [if_neg (not_not.mpr hdir), if_neg (by simp), if_pos hdir]
        cases (dir (f i).data).look (c.take DIRSIZ) with
        | none => simp
        | some j => exact ih
      · rw [if_pos hdir, if_neg hdir]
        simp

/-! ## `namex` -/

/-- One more reference to the entry `ip`. -/
abbrev bump (g : Nat → Nat) (ip : Nat) : Nat → Nat := update g ip (g ip + 1)

theorem bump_put : update (bump g ip) ip (bump g ip ip - 1) = g := by
  rw [bump, update_idem, update_self, Nat.add_sub_cancel]
  exact update_eq_self ..

/-- A reference to `e` in place of the one to `ip`. -/
theorem bump_next : update (bump (bump g ip) e) ip (bump (bump g ip) e ip - 1) =
    bump g e := by
  funext k
  by_cases hk : k = ip
  · subst hk
    by_cases he : k = e
    · subst he
      simp [bump]
    · simp [bump, he]
  · by_cases he : k = e
    · subst he
      simp [bump, hk]
    · simp [bump, hk, he]

/-- What has to be known of the inodes `P` that a walk from one of them can come to, and how it may
    stop short. -/
structure Walkable (sb : Superblock) (s₀ : State) (E : Option String → Prop) (P : Nat → Prop) :
    Prop where
  inside : 1 ≤ s₀.outstanding
  whole : ∀ d, P d → (files sb s₀.disk d).type = T_DIR → (files sb s₀.disk d).data.length % 16 = 0
  next : ∀ d e n v, P d → (files sb s₀.disk d).type = T_DIR →
    e < (dir (files sb s₀.disk d).data).size → (dir (files sb s₀.disk d).data).slot e = some (n, v) →
    v < sb.ninodes ∧ P v
  wait : ∀ e, (s₀.inode e).lock ≠ none → E none
  full : (∀ e < NINODE, ∀ e' < NINODE, (s₀.inode e).ref = 0 → (s₀.inode e').ref = 0 → e = e') →
    E (some "iget: no inodes")
  dead : ∀ i, P i → (files sb s₀.disk i).type = 0 ∨
    Idle s₀ i ∧ (files sb s₀.disk i).nlink = 0 →
    E (some "ilock: no type") ∧ E (some "too big a transaction")

section

variable {P : Nat → Prop} {Q : Option Nat × Bytes → State → Prop} (hsb : sb.Ok)
  (hw : Walkable sb s₀ E P)
include hsb hw

theorem namexLoop_since
    (hs : Since sb s₀ s (files sb s₀.disk) (bump (fun e => (s₀.inode e).ref) ip)
      (fun e => (s₀.inode e).lock)) (hr : Refs s ip i) (hP : P i) (hm : path.length < m)
    (h0 : 0 ∉ path)
    (fail : resolve (files sb s₀.disk) parent i (components path) = none → ∀ name' s',
      Since sb s₀ s' (files sb s₀.disk) (fun e => (s₀.inode e).ref) (fun e => (s₀.inode e).lock) →
      Q (none, name') s')
    (done : ∀ j n, resolve (files sb s₀.disk) parent i (components path) = some (j, n) →
      ∀ ip' name' s', Since sb s₀ s' (files sb s₀.disk) (bump (fun e => (s₀.inode e).ref) ip')
        (fun e => (s₀.inode e).lock) → Refs s' ip' j → P j →
      (parent = true → nameOf name' = n) → Q (some ip', name') s') :
    (namexLoop sb t parent m ip path name).Runs s E Q := by
  induction m generalizing s ip i path name with
  | zero => omega
  | succ m ih =>
    have hlt : (s₀.inode ip).ref < bump (fun e => (s₀.inode e).ref) ip ip := by
      rw [bump, update_self]
      exact Nat.lt_succ_self _
    have hput : Idle s₀ i → (files sb s₀.disk i).nlink = 0 → E (some "too big a transaction") :=
      fun hidle hnl => (hw.dead i hP (.inr ⟨hidle, hnl⟩)).2
    unfold namexLoop
    rcases skipelem_cases path name with ⟨hnil, hskip⟩ |
      ⟨c, rest, hcons, hskip, hrest, hlen, hc0, hrest0⟩
    · rw [hskip]
      rw [hnil] at fail done
      cases parent with
      | true =>
        refine .seq (iput_since hsb hs hr (hw.wait ip) hw.inside hlt hput fun s' hs' _ => ?_)
        rw [bump_put] at hs'
        exact .ret (fail rfl name s' hs')
      | false => exact .ret (done i [] rfl ip name s hs hr hP fun hc => by cases hc)
    · rw [hskip]
      rw [hcons] at fail done
      refine .seq (ilock_since hs hr (hw.wait ip) (fun hz => ?_)
        fun s₁ hlock hs₁ hr₁ _ hv₁ _ => ?_)
      · refine (hw.dead i hP ?_).1
        rcases hs.nodes i with hn | ⟨hidle, hnl, -⟩
        · exact .inl (hn ▸ hz)
        · exact .inr ⟨hidle, hnl⟩
      have htype : (s₁.inode ip).din.type = (files sb s₀.disk i).type := by
        rw [← hs₁.node hr₁ hv₁, (hs₁.table.holds hr₁ hv₁).node]
        rfl
      have hunlock : update (update (fun e => (s₀.inode e).lock) ip (some t)) ip
          none = fun e => (s₀.inode e).lock := by
        rw [update_idem, ← hlock]
        exact update_eq_self ..
      have hname : nameOf (elemName c name) = c.take DIRSIZ :=
        nameOf_elemName fun hc => h0 (hc0 0 hc)
      -- give up: unlock and put
      have hgive : resolve (files sb s₀.disk) parent i (c :: components rest) = none →
          (iunlockput sb t ip >>= fun _ => (Prog.ret (none, elemName c name))).Runs s₁ E Q := by
        intro hnone
        refine .seq (iunlockput_since hsb hs₁ hr₁ (update_self ..) hw.inside hlt hput
          fun s' hs' _ => ?_)
        rw [bump_put, hunlock] at hs'
        exact .ret (fail hnone _ s' hs')
      refine .seq (inodeAt_runs ?_)
      rw [htype]
      by_cases hdir : (files sb s₀.disk i).type = T_DIR
      · rw [if_neg (not_not.mpr hdir)]
        split
        · next hstop =>
          refine .seq (iunlock_since hs₁ hr₁ (update_self ..) fun σ hσ _ hst => ?_)
          rw [hunlock] at hσ
          have hrσ := hr₁.steady hst (by rw [hσ.ref]; exact (Nat.zero_le _).trans_lt hlt)
          refine .ret (done i (c.take DIRSIZ) ?_ ip _ σ hσ hrσ hP fun _ => hname)
          rw [resolve, if_neg (not_not.mpr hdir), if_pos ⟨hstop.1, hrest.mp hstop.2⟩]
        · next hstop =>
          have hres : resolve (files sb s₀.disk) parent i (c :: components rest) =
              ((dir (files sb s₀.disk i).data).look (c.take DIRSIZ)).bind fun j =>
                resolve (files sb s₀.disk) parent j (components rest) := by
            rw [resolve, if_neg (not_not.mpr hdir), if_neg fun hc => hstop ⟨hc.1, hrest.mpr hc.2⟩]
          refine .seq (dirlookup_since hs₁ hr₁ hv₁ (hw.whole i hP hdir) hdir
            (fun e n v he hsl => (hw.next i e n v hP hdir he hsl).1)
            (fun hall => hw.full fun e he e' he' hz hz' => ?_)
            (fun hf => ?_) fun e v hf hsl ip' σ hσ hrσ _ hst _ => ?_)
          · have honly : ∀ k < NINODE, (s₀.inode k).ref = 0 → k = ip := by
              intro k hk hz
              by_contra hne
              have := hall k hk
              rw [bump, update_of_ne hne, hz] at this
              exact absurd this (lt_irrefl 0)
            rw [honly e he hz, honly e' he' hz']
          · rw [hname, ← Slots.look_eq_none] at hf
            exact hgive (by rw [hres, hf]; rfl)
          · rw [hname] at hf hsl
            have hlook := Slots.look_of_find hf hsl
            have hPv := (hw.next i e _ v hP hdir (Slots.find_eq_some.mp hf).1 hsl).2
            have hltσ : (s₀.inode ip).ref < bump (bump (fun e => (s₀.inode e).ref) ip) ip' ip := by
              by_cases he : ip = ip'
              · rw [← he, bump, update_self]
                exact Nat.lt_succ_of_lt hlt
              · rw [bump, update_of_ne he]
                exact hlt
            have hrip : Refs σ ip i :=
              hr₁.steady hst (by rw [hσ.ref]; exact (Nat.zero_le _).trans_lt hltσ)
            refine .seq (iunlockput_since hsb hσ hrip (update_self ..) hw.inside hltσ hput
              fun τ hτ hst' => ?_)
            rw [bump_next, hunlock] at hτ
            have hrτ := hrσ.steady hst' (by rw [hτ.ref, bump, update_self]; exact Nat.succ_pos _)
            refine ih hτ hrτ hPv (by omega) (fun hc => h0 (hrest0 0 hc)) (fun hn => ?_)
              fun j n hn => ?_
            · exact fail (by rw [hres, hlook]; exact hn)
            · exact done j n (by rw [hres, hlook]; exact hn)
      · rw [if_pos hdir]
        exact hgive (by rw [resolve, if_pos hdir])

/-- The inode that a path starts from. -/
def startOf (cwd : Nat) (path : List UInt8) : Nat := if path.head? = some 47 then ROOTINO else cwd

theorem namex_since {cwd c : Nat} (hc : Consistent sb s₀.disk) (ht : Table sb s₀)
    (hcwd : Refs s₀ cwd c) (hPc : P c) (hroot : ROOTINO < sb.ninodes) (hPr : P ROOTINO)
    (h0 : 0 ∉ path)
    (fail : resolve (files sb s₀.disk) parent (startOf c path) (components path) = none →
      ∀ name' s', Since sb s₀ s' (files sb s₀.disk) (fun e => (s₀.inode e).ref)
        (fun e => (s₀.inode e).lock) → Q (none, name') s')
    (done : ∀ j n, resolve (files sb s₀.disk) parent (startOf c path) (components path) =
        some (j, n) →
      ∀ ip' name' s', Since sb s₀ s' (files sb s₀.disk) (bump (fun e => (s₀.inode e).ref) ip')
        (fun e => (s₀.inode e).lock) → Refs s' ip' j → P j →
      (parent = true → nameOf name' = n) → Q (some ip', name') s') :
    (namex sb t cwd parent path name).Runs s₀ E Q := by
  have hs := Since.refl hc ht
  have hloop : ∀ ip σ, Since sb s₀ σ (files sb s₀.disk) (bump (fun e => (s₀.inode e).ref) ip)
      (fun e => (s₀.inode e).lock) → Refs σ ip (startOf c path) → P (startOf c path) →
      (namexLoop sb t parent (path.length + 1) ip path name).Runs σ E Q :=
    fun ip σ hσ hr hP => namexLoop_since hsb hw hσ hr hP (Nat.lt_succ_self _) h0 fail done
  rw [startOf] at hloop
  unfold namex
  by_cases hhead : path.head? = some 47
  · rw [if_pos hhead] at hloop ⊢
    refine .seq (iget_since hs hroot (fun hall => hw.full fun e he _ _ hz => ?_)
      fun ip σ hσ hr _ _ _ => hloop ip σ hσ hr hPr)
    exact absurd hz (hall e he).ne'
  · rw [if_neg hhead] at hloop ⊢
    exact .seq (idup_since hs hcwd fun σ hσ hr _ _ => hloop _ σ hσ hr hPc)

end

end Xv6.Fs
