import Xv6.Fs.Inodes

/-!
# What a call has done so far

A system call takes references and locks, changes nodes, and gives the references and locks back.
The reference that is given back may be the last one of an inode without links, which is freed then.
`Since sb s₀ s F g L` says what has become of the state `s₀` after a part of a call: the nodes are
`F`, but for inodes that were freed in this way, the reference counts are `g` and the locks are `L`.
References that there were in `s₀` are still there, to the same inodes.

There is one rule for each function that a call uses, for a state that is known in this form.
-/

namespace Xv6.Fs

open Lib Function

variable {sb : Superblock} {s₀ s₁ s s' : State} {E : Option String → Prop} {F G : Nat → Node}
  {g g' : Nat → Nat} {L M : Nat → Option Nat} {ip e i j t type : Nat} {x : Node}

/-- No entry of the table refers to inode `j`. -/
def Idle (s : State) (j : Nat) : Prop := ∀ e < NINODE, 0 < (s.inode e).ref → (s.inode e).inum ≠ j

/-- Entries that are still referred to are for the same inodes, and what was read has been read. -/
def Steady (s s' : State) : Prop := ∀ e, 0 < (s.inode e).ref → 0 < (s'.inode e).ref →
  (s'.inode e).inum = (s.inode e).inum ∧ ((s.inode e).valid = true → (s'.inode e).valid = true)

theorem Steady.setInode {y : Inode} (h : 0 < (s.inode ip).ref → 0 < y.ref →
    y.inum = (s.inode ip).inum ∧ ((s.inode ip).valid = true → y.valid = true)) :
    Steady s (s.setInode ip y) := by
  intro e he he'
  by_cases hip : e = ip
  · subst hip
    rw [setInode_self] at he' ⊢
    exact h he he'
  · rw [setInode_ne _ hip]
    exact ⟨rfl, id⟩

theorem Refs.steady (hr : Refs s ip i) (h : Steady s s') (h0 : 0 < (s'.inode ip).ref) :
    Refs s' ip i := ⟨hr.lt, h0, (h ip hr.ref h0).1.trans hr.inum⟩

structure Since (sb : Superblock) (s₀ s : State) (F : Nat → Node) (g : Nat → Nat)
    (L : Nat → Option Nat) : Prop where
  consistent : Consistent sb s.disk
  table : Table sb s
  nodes : ∀ j, files sb s.disk j = F j ∨
    Idle s₀ j ∧ (F j).nlink = 0 ∧ files sb s.disk j = Node.free
  ref : ∀ e, (s.inode e).ref = g e
  lock : ∀ e, (s.inode e).lock = L e
  kept : ∀ e, (s₀.inode e).ref ≤ g e
  stays : ∀ e, 0 < (s₀.inode e).ref → (s.inode e).inum = (s₀.inode e).inum ∧
    ((s₀.inode e).valid = true → (s.inode e).valid = true)
  rest : s.outstanding = s₀.outstanding ∧ s.safe = s₀.safe

theorem Since.refl (hc : Consistent sb s.disk) (ht : Table sb s) :
    Since sb s s (files sb s.disk) (fun e => (s.inode e).ref) (fun e => (s.inode e).lock) :=
  ⟨hc, ht, fun _ => .inl rfl, fun _ => rfl, fun _ => rfl, fun _ => le_rfl,
    fun _ _ => ⟨rfl, id⟩, rfl, rfl⟩

/-- A node that is in use has not been freed. -/
theorem Since.file_used (hs : Since sb s₀ s F g L) (hi : (files sb s.disk i).type ≠ 0) :
    files sb s.disk i = F i :=
  (hs.nodes i).resolve_right fun hc => hi (by rw [hc.2.2]; rfl)

/-- An inode that has been read is in use. -/
theorem Since.node (hs : Since sb s₀ s F g L) (hr : Refs s ip i) (hv : (s.inode ip).valid = true) :
    files sb s.disk i = F i := hs.file_used (hs.table.holds hr hv).type_ne

/-! ## Entries of the table -/

/-- An entry is changed, but not the inode that it is for. -/
theorem Since.setInode {y : Inode} (hs : Since sb s₀ s F g L) (ht : Table sb (s.setInode ip y))
    (hkept : (s₀.inode ip).ref ≤ y.ref)
    (hstays : 0 < (s₀.inode ip).ref → y.inum = (s.inode ip).inum ∧
      ((s.inode ip).valid = true → y.valid = true)) :
    Since sb s₀ (s.setInode ip y) F (update g ip y.ref)
      (update L ip y.lock) := by
  refine ⟨hs.consistent, ht, hs.nodes, fun e => ?_, fun e => ?_, fun e => ?_, fun e he => ?_,
    hs.rest⟩
  · by_cases hip : e = ip
    · rw [hip, setInode_self, update_self]
    · rw [setInode_ne _ hip, update_of_ne hip, hs.ref]
  · by_cases hip : e = ip
    · rw [hip, setInode_self, update_self]
    · rw [setInode_ne _ hip, update_of_ne hip, hs.lock]
  · by_cases hip : e = ip
    · rw [hip, update_self]
      exact hkept
    · rw [update_of_ne hip]
      exact hs.kept e
  · by_cases hip : e = ip
    · subst hip
      rw [setInode_self]
      obtain ⟨hi, hv⟩ := hs.stays e he
      exact ⟨(hstays he).1.trans hi, fun h => (hstays he).2 (hv h)⟩
    · rw [setInode_ne _ hip]
      exact hs.stays e he

theorem Since.update_ref (hs : Since sb s₀ s F g L) (e : Nat) :
    update g e (s.inode e).ref = g := by
  rw [hs.ref]
  exact update_eq_self ..

theorem Since.update_lock (hs : Since sb s₀ s F g L) (e : Nat) :
    update L e (s.inode e).lock = L := by
  rw [hs.lock]
  exact update_eq_self ..

theorem iget_since {Q : Nat → State → Prop} (hs : Since sb s₀ s F g L) (hi : i < sb.ninodes)
    (full : (∀ e < NINODE, 0 < g e) → E (some "iget: no inodes"))
    (next : ∀ e s', Since sb s₀ s' F (update g e (g e + 1)) L → Refs s' e i →
      s'.disk = s.disk → Steady s s' → (g e = 0 ↔ Idle s i) → Q e s') :
    (iget i).Runs s E Q := by
  refine iget_runs (fun e he hr hinum => ?_) (fun hno e he hr => ?_)
    fun hall => full fun e he => hs.ref e ▸ hall e he
  · have hrefs : Refs s e i := ⟨he, hr, hinum⟩
    have ht := hs.table.same (y := { s.inode e with ref := (s.inode e).ref + 1 }) hrefs hinum
      fun hv => ⟨(hs.table.holds hrefs hv).din, (hs.table.holds hrefs hv).type⟩
    have hs' := hs.setInode ht ((hs.kept e).trans (by rw [hs.ref]; exact Nat.le_succ _))
      fun _ => ⟨rfl, id⟩
    refine next e _ ?_ ⟨he, by rw [setInode_self]; exact Nat.succ_pos _, by rw [setInode_self]; exact hinum⟩
      rfl (.setInode fun _ _ => ⟨rfl, id⟩) (iff_of_false (fun h0 => ?_) fun hc => hc e he hr hinum)
    · have := hs.update_lock e
      rw [hs.ref, this] at hs'
      rwa [hs.ref]
    · rw [hs.ref, h0] at hr
      exact absurd hr (lt_irrefl 0)
  · have hg : g e = 0 := by rw [← hs.ref, hr]
    have h0 : (s₀.inode e).ref = 0 := Nat.le_zero.mp (hg ▸ hs.kept e)
    have ht : Table sb (s.setInode e { s.inode e with inum := i, ref := 1, valid := false }) :=
      hs.table.setInode (fun _ hv => absurd hv (by simp)) (fun _ => hi)
        fun _ e' he' _ hr' => hno e' he' hr'
    have hs' := hs.setInode ht (by rw [h0]; exact Nat.zero_le _) fun hc => absurd h0 (Nat.ne_of_gt hc)
    refine next e _ ?_ ⟨he, by rw [setInode_self]; exact Nat.one_pos, by rw [setInode_self]⟩ rfl
      (.setInode fun hc => absurd hr (Nat.ne_of_gt hc)) (iff_of_true hg hno)
    have := hs.update_lock e
    rw [this] at hs'
    rwa [hg]

theorem idup_since {Q : Nat → State → Prop} (hs : Since sb s₀ s F g L) (hr : Refs s ip i)
    (next : ∀ s', Since sb s₀ s' F (update g ip (g ip + 1)) L → Refs s' ip i →
      s'.disk = s.disk → Steady s s' → Q ip s') :
    (idup ip).Runs s E Q := by
  refine idup_runs (next _ ?_ ⟨hr.lt, by rw [setInode_self]; exact Nat.succ_pos _,
    by rw [setInode_self]; exact hr.inum⟩ rfl (.setInode fun _ _ => ⟨rfl, id⟩))
  have ht := hs.table.same (y := { s.inode ip with ref := (s.inode ip).ref + 1 }) hr hr.inum
    fun hv => ⟨(hs.table.holds hr hv).din, (hs.table.holds hr hv).type⟩
  have hs' := hs.setInode ht ((hs.kept ip).trans (by rw [hs.ref]; exact Nat.le_succ _))
    fun _ => ⟨rfl, id⟩
  have := hs.update_lock ip
  rw [hs.ref, this] at hs'
  rwa [hs.ref]

/-! ## Locks -/

theorem ilock_since {Q : Unit → State → Prop} (hs : Since sb s₀ s F g L) (hr : Refs s ip i)
    (hwait : L ip ≠ none → E none)
    (htype : (files sb s.disk i).type = 0 → E (some "ilock: no type"))
    (next : ∀ s', L ip = none → Since sb s₀ s' F g (update L ip (some t)) →
      Refs s' ip i → s'.disk = s.disk → (s'.inode ip).valid = true → Steady s s' → Q () s') :
    (ilock sb t ip).Runs s E Q := by
  refine ilock_cases hr.ref (by rw [hs.lock]; exact hwait) (fun _ h0 => ?_) fun hlock hne => ?_
  · rw [hr.inum] at h0
    exact htype (by_contra fun hc => (files_type.mp hc).2 h0)
  rw [hr.inum] at hne ⊢
  -- the copy in memory is the one on disk, whether it was read before or is read now
  obtain ⟨hy, htype⟩ : (s.inode ip).locked t (dinodeOf sb s.disk i) = { s.inode ip with
      lock := some t, din := dinodeOf sb s.disk i, valid := true } ∧
      (dinodeOf sb s.disk i).type ≠ 0 := by
    rw [Inode.locked]
    cases hv : (s.inode ip).valid with
    | true =>
      have hh := hs.table.holds hr hv
      rw [if_pos rfl, hh.din]
      exact ⟨rfl, hh.type⟩
    | false => exact ⟨rfl, hne hv⟩
  rw [hy]
  have ht := hs.table.same (y := { s.inode ip with
    lock := some t, din := dinodeOf sb s.disk i, valid := true }) hr hr.inum fun _ => ⟨rfl, htype⟩
  have hs' := hs.setInode ht (by rw [hs.ref]; exact hs.kept ip) fun _ => ⟨rfl, fun _ => rfl⟩
  have hst : Steady s (s.setInode ip { s.inode ip with
      lock := some t, din := dinodeOf sb s.disk i, valid := true }) :=
    .setInode fun _ _ => ⟨rfl, fun _ => rfl⟩
  refine next _ ((hs.lock ip).symm.trans hlock) ?_ (hr.steady hst (by rw [setInode_self]; exact hr.ref))
    rfl (by rw [setInode_self]) hst
  have := hs.update_ref ip
  rwa [this] at hs'

theorem iunlock_since {Q : Unit → State → Prop} (hs : Since sb s₀ s F g L) (hr : Refs s ip i)
    (hlock : L ip = some t)
    (next : ∀ s', Since sb s₀ s' F g (update L ip none) → s'.disk = s.disk →
      Steady s s' → Q () s') :
    (iunlock t ip).Runs s E Q := by
  refine iunlock_runs ((hs.lock ip).trans hlock) hr.ref
    (next _ ?_ rfl (.setInode fun _ _ => ⟨rfl, id⟩))
  · have ht := hs.table.same (y := { s.inode ip with lock := none }) hr hr.inum
      fun hv => ⟨(hs.table.holds hr hv).din, (hs.table.holds hr hv).type⟩
    have hs' := hs.setInode ht (by rw [hs.ref]; exact hs.kept ip) fun _ => ⟨rfl, id⟩
    have := hs.update_ref ip
    rwa [this] at hs'

/-! ## Giving a reference back -/

theorem Freed.steady (hf : Freed sb ip i s s') : Steady s s' := by
  obtain ⟨y, hmem, hy, -, -⟩ := hf.entry
  intro e _ he
  have hip : e ≠ ip := by
    rintro rfl
    rw [hmem, update_self, hy] at he
    exact absurd he (lt_irrefl 0)
  rw [hmem, update_of_ne hip]
  exact ⟨rfl, id⟩

theorem Since.freed (hs : Since sb s₀ s F g L) (hr : Refs s ip i) (h0 : (s₀.inode ip).ref = 0)
    (hf : Freed sb ip i s s') :
    Since sb s₀ s' (update F i Node.free) (update g ip 0) L := by
  obtain ⟨y, hmem, hy, -, hlock⟩ := hf.entry
  have hne : ∀ e ≠ ip, s'.inode e = s.inode e := fun e he => by
    rw [hmem, update_of_ne he]
  have hself : s'.inode ip = y := by rw [hmem, update_self]
  refine ⟨hf.consistent, hf.table, fun j => ?_, fun e => ?_, fun e => ?_, fun e => ?_,
    fun e he => ?_, hf.rest.1.trans hs.rest.1, hf.rest.2.trans hs.rest.2⟩
  · by_cases hj : j = i
    · subst hj
      rw [hf.nodes, update_self, update_self]
      exact .inl rfl
    · rw [hf.nodes, update_of_ne hj, update_of_ne hj]
      exact hs.nodes j
  · by_cases hip : e = ip
    · rw [hip, hself, hy, update_self]
    · rw [hne e hip, update_of_ne hip, hs.ref]
  · by_cases hip : e = ip
    · rw [hip, hself, hlock, hs.lock]
    · rw [hne e hip, hs.lock]
  · by_cases hip : e = ip
    · rw [hip, h0]
      exact Nat.zero_le _
    · rw [update_of_ne hip]
      exact hs.kept e
  · have hip : e ≠ ip := by
      rintro rfl
      rw [h0] at he
      exact absurd he (lt_irrefl 0)
    rw [hne e hip]
    exact hs.stays e he

/-- A node that is freed because it had no links counts as one of those that were. -/
theorem Since.reap (hs : Since sb s₀ s (update F i Node.free) g L) (hidle : Idle s₀ i)
    (hl : (F i).nlink = 0) : Since sb s₀ s F g L := by
  refine ⟨hs.consistent, hs.table, fun j => ?_, hs.ref, hs.lock, hs.kept, hs.stays, hs.rest⟩
  have hn := hs.nodes j
  by_cases hj : j = i
  · subst hj
    rw [update_self] at hn
    exact .inr ⟨hidle, hl, hn.elim id fun hc => hc.2.2⟩
  · rwa [update_of_ne hj] at hn

theorem iput_since {Q : Unit → State → Prop} (hsb : sb.Ok) (hs : Since sb s₀ s F g L)
    (hr : Refs s ip i) (hwait : L ip ≠ none → E none) (hout : 1 ≤ s₀.outstanding)
    (hlt : (s₀.inode ip).ref < g ip)
    (hfree : Idle s₀ i → (F i).nlink = 0 → E (some "too big a transaction"))
    (next : ∀ s', Since sb s₀ s' F (update g ip (g ip - 1)) L → Steady s s' → Q () s') :
    (iput sb t ip).Runs s E Q := by
  refine iput_cases hsb hs.consistent hs.table hr (by rwa [hs.lock])
    (hs.rest.1 ▸ hout) (fun _ => next _ ?_ (.setInode fun _ _ => ⟨rfl, id⟩)) fun h1 htype hnl => ?_
  · have ht := hs.table.same (y := { s.inode ip with ref := (s.inode ip).ref - 1 }) hr hr.inum
      fun hv => ⟨(hs.table.holds hr hv).din, (hs.table.holds hr hv).type⟩
    have hle : (s₀.inode ip).ref ≤ (s.inode ip).ref - 1 := by
      rw [hs.ref]
      omega
    have hs' := hs.setInode ht hle fun _ => ⟨rfl, id⟩
    have := hs.update_lock ip
    rw [hs.ref, this] at hs'
    rwa [hs.ref]
  · have hg : g ip = 1 := hs.ref ip ▸ h1
    have h0 : (s₀.inode ip).ref = 0 := by omega
    have hidle : Idle s₀ i := by
      intro e he hre hi
      obtain ⟨hinum, -⟩ := hs.stays e hre
      have hpos : 0 < (s.inode e).ref := by
        rw [hs.ref]
        exact hre.trans_le (hs.kept e)
      have := hs.table.uniq e he ip hr.lt hpos hr.ref ((hinum.trans hi).trans hr.inum.symm)
      rw [this, h0] at hre
      exact absurd hre (lt_irrefl 0)
    have hF : (F i).nlink = 0 := by rw [← hs.file_used htype, hnl]
    refine ⟨hfree hidle hF, fun s' hf => next s' ?_ hf.steady⟩
    have hs' := (hs.freed hr h0 hf).reap hidle hF
    rwa [hg]

theorem iunlockput_since {Q : Unit → State → Prop} (hsb : sb.Ok) (hs : Since sb s₀ s F g L)
    (hr : Refs s ip i) (hlock : L ip = some t) (hout : 1 ≤ s₀.outstanding)
    (hlt : (s₀.inode ip).ref < g ip)
    (hfree : Idle s₀ i → (F i).nlink = 0 → E (some "too big a transaction"))
    (next : ∀ s', Since sb s₀ s' F (update g ip (g ip - 1)) (update L ip none) →
      Steady s s' → Q () s') :
    (iunlockput sb t ip).Runs s E Q := by
  refine .seq (iunlock_since hs hr hlock fun s₁ hs₁ _ hst => ?_)
  have href : ∀ e, (s₁.inode e).ref = (s.inode e).ref := fun e => by rw [hs₁.ref, hs.ref]
  refine iput_since hsb hs₁ (hr.steady hst (by rw [href]; exact hr.ref))
    (fun hc => absurd (update_self ..) hc) hout hlt hfree fun s' hs' hst' => next s' hs' fun e he he' => ?_
  obtain ⟨hi, hv⟩ := hst e he (by rwa [href])
  obtain ⟨hi', hv'⟩ := hst' e (by rwa [href]) he'
  exact ⟨hi'.trans hi, fun h => hv' (hv h)⟩

end Xv6.Fs
