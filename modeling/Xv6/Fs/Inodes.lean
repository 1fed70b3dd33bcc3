import Xv6.Fs.Nodes

/-!
# Rules for inodes

What the functions of `fs.c` that work on one inode do, in terms of nodes and of the table: changing
and writing back, truncating, writing, locking, allocating, and dropping a reference, which may free
the inode.
-/

namespace Xv6.Fs

open Lib Function

variable {sb : Superblock} {s s' : State} {E : Option String → Prop}
  {ip e i j k n off t type : Nat} {src : Src} {x : Node} {α : Type}

/-! ## Changing an inode -/

theorem itrunc_runs (hsb : sb.Ok) (hc : Consistent sb s.disk) (hh : Holds sb s ip i)
    (hE : E (some "too big a transaction")) (hout : 1 ≤ s.outstanding) :
    (itrunc sb ip).Runs s E fun _ s' => Sets sb ip i s s' { files sb s.disk i with data := [] } ∧
      ∀ k, (s'.inode ip).din.addrs k = 0 := by
  refine truncBlocks_runs hsb hE hc.blocks hh.live.symm hout fun s₁ D₁ hs hz => ?_
  have hout₁ : 1 ≤ s₁.outstanding := hs.rest.1 ▸ hout
  have hD : D₁ i = { live sb s.disk i with addrs := (D₁ i).addrs } := by
    have := congrFun hs.inodes i
    rwa [update_self] at this
  refine .seq (onDin_runs ?_)
  rw [hs.din]
  refine iupdate_runs (.inl hE) hout₁ ⟨?_, fun k => ?_⟩
  · have hfits : ({ D₁ i with size := 0 } : Dinode).Fits := by
      refine hs.blocks.fits hsb (show (dinodeOf sb s.disk i).Fits from dinodeOf_fits) rfl ?_
        (Nat.two_pow_pos 32)
      rw [hD, live_of hh.lt hh.type]
    have htype : ({ D₁ i with size := 0 } : Dinode).type ≠ 0 := by
      rw [hD, hh.live, hh.din]
      exact hh.type
    have hsets := updated_sets hsb hc hh hs.blocks (fun j hj => ?_) hs.memory hs.dinodes hfits
      (.inl ⟨htype, rfl⟩) rfl (fun j k v hj hk => hs.has j k v hj hk)
      (fun bn hbn => absurd hbn (Nat.not_lt_zero _)) hs.rest
    · have hnode : nodeOf s₁.disk { D₁ i with size := 0 } =
          { files sb s.disk i with data := [] } := by
        rw [nodeOf, hD]
        rfl
      rwa [hnode] at hsets
    · rw [hs.inodes, update_of_ne hj]
  · show ((s₁.setDin ip { D₁ i with size := 0 }).inode ip).din.addrs k = 0
    rw [State.setDin, setInode_self]
    exact hz k

/-- `writei` with a source that can be read in full. -/
theorem writei_sets {Q : Option Nat → State → Prop} (hsb : sb.Ok) (hc : Consistent sb s.disk)
    (hh : Holds sb s ip i) (hroom : Room sb E s (6 * rounds off n + 1)) (hout : 1 ≤ s.outstanding)
    (hoff : off < 2 ^ 32) (hn : n < 2 ^ 32) (hreach : n ≤ src.reach)
    (bad : BadRange (live sb s.disk i) off n → Q none s)
    (done : ¬ BadRange (live sb s.disk i) off n → ∀ k s', k ≤ n →
      (k < n → ∀ c < sb.size, InUse sb s'.disk c) → (k = 0 ∨ k = n ∨ (off + k) % BSIZE = 0) →
      Sets sb ip i s s' { files sb s.disk i with
        data := splice (files sb s.disk i).data off (src.first k) } → Q (some k) s') :
    (writei sb ip src off n).Runs s E Q := by
  refine writei_runs hsb hc.blocks hh.live.symm hoff hn hroom hout bad ?_
  intro hgood tot s₁ s₂ D' hl
  have hrange : off ≤ (live sb s.disk i).size ∧ off + n ≤ MAXFILE * BSIZE := by
    unfold BadRange at hgood
    omega
  have hle := hl.le
  obtain ⟨m, hw, ⟨rfl, rfl, hwhy⟩ | ⟨rfl, hf⟩⟩ := hl.stored hsb
  · have hmax : off + tot ≤ MAXFILE * BSIZE := by omega
    have hfin := hw.finish hsb hc hh hmax
    rw [add_zero] at hfin
    refine done hgood tot _ hle (fun hlt c hc' => ?_) hl.whole
      ⟨hfin.consistent hc hrange.1 (Nat.le_refl tot), ?_, ?_, hfin.dinodes, hl.logs.outstanding,
        hl.logs.safe⟩
    · refine (updated_inUse hsb ?_ hc').mpr ((hwhy.resolve_left (by omega)).1 c hc')
      exact hfin.holds.inum.symm ▸ hh.lt
    · funext j
      by_cases hj : j = i
      · rw [hj, update_self, hfin.file hc hrange.1]
      · rw [update_of_ne hj, hfin.others hc hj]
    · rw [hfin.inode, live_of hfin.holds.lt hfin.holds.type]
  · obtain ⟨-, hlt, -⟩ := hf
    omega

/-! ## Dropping a reference -/

/-- The last reference of an inode without links was dropped. -/
structure Freed (sb : Superblock) (ip i : Nat) (s s' : State) : Prop where
  consistent : Consistent sb s'.disk
  table : Table sb s'
  nodes : files sb s'.disk = update (files sb s.disk) i Node.free
  entry : ∃ y : Inode, s'.inode = update s.inode ip y ∧ y.ref = 0 ∧
    y.inum = (s.inode ip).inum ∧ y.lock = (s.inode ip).lock
  rest : s'.outstanding = s.outstanding ∧ s'.safe = s.safe

/-- An entry that nothing refers to any more need not be the same as on disk. -/
theorem Table.drop {y : Inode} (ht : Table sb s) (hr : Refs s ip i) (hy : y.ref = 0)
    (hmem : s'.inode = update s.inode ip y)
    (hd : ∀ j < sb.ninodes, j ≠ i → dinodeOf sb s'.disk j = dinodeOf sb s.disk j) :
    Table sb s' := by
  have hne : ∀ e, 0 < (s'.inode e).ref → e ≠ ip ∧ s'.inode e = s.inode e := by
    intro e he
    have hip : e ≠ ip := by
      rintro rfl
      rw [hmem, update_self, hy] at he
      exact absurd he (lt_irrefl 0)
    exact ⟨hip, by rw [hmem, update_of_ne hip]⟩
  refine ⟨fun e he hr' hv => ?_, fun e he hr' => ?_, fun e he e' he' hr₁ hr₂ heq => ?_⟩
  · obtain ⟨hip, hsame⟩ := hne e hr'
    rw [hsame] at hr' hv ⊢
    obtain ⟨h1, h2, h3, h4⟩ := ht.copy e he hr' hv
    have hj : (s.inode e).inum ≠ i := fun hc =>
      hip (ht.uniq e he ip hr.lt hr' hr.ref (hc.trans hr.inum.symm))
    have hd := hd _ h2 hj
    exact ⟨by rw [hsame], h2, by rw [hsame, hd]; exact h3, by rw [hd]; exact h4⟩
  · obtain ⟨-, hsame⟩ := hne e hr'
    rw [hsame] at hr' ⊢
    exact ht.lt e he hr'
  · have h₁ := (hne e hr₁).2
    have h₂ := (hne e' hr₂).2
    rw [h₁] at hr₁
    rw [h₂] at hr₂
    rw [h₁, h₂] at heq
    exact ht.uniq e he e' he' hr₁ hr₂ heq

theorem ifree_runs (hsb : sb.Ok) (hc : Consistent sb s.disk) (hh : Holds sb s ip i)
    (hE : E (some "too big a transaction")) (hout : 1 ≤ s.outstanding) :
    (ifree sb t ip true).Runs s E fun _ s' => ∃ d σ, Sets sb ip i s σ Node.free ∧ s' = σ.setInode ip
      { s.inode ip with din := d, valid := false, lock := none, ref := (s.inode ip).ref - 1 } := by
  refine .seq (.ret ?_)
  refine .bind (itrunc_runs hsb hc hh hE hout) ?_
  rintro _ s₁ ⟨h₁, hz⟩
  have hh₁ : Holds sb s₁ ip i := h₁.holds hh hh.type_ne
  have hout₁ : 1 ≤ s₁.outstanding := h₁.rest.1 ▸ hout
  refine .seq (onDin_runs ?_)
  change Prog.Runs _ (s₁.setDin ip { (s₁.inode ip).din with type := 0 }) E _
  have hset := updated_sets (d := { (s₁.inode ip).din with type := 0 }) hsb h₁.consistent hh₁
    h₁.consistent.blocks (fun _ _ => rfl) ?_ (fun _ _ => rfl) ?_ (.inr ⟨rfl, rfl⟩) ?_
    (fun j k v _ hk => hk) (fun bn hbn => absurd hbn (Nat.not_lt_zero _)) ⟨rfl, rfl⟩
  rotate_left
  · rw [hh₁.live]
    exact (update_eq_self ..).symm
  · have hf : (s₁.inode ip).din.Fits := hh₁.din ▸ dinodeOf_fits
    exact ⟨Nat.two_pow_pos 16, hf.major, hf.minor, hf.nlink, hf.size, hf.addrs, hf.rest⟩
  · rw [hh₁.live]
    exact (funext hz).symm
  refine .seq (iupdate_runs (.inl hE) hout₁ ?_)
  have htrans := h₁.trans hset
  generalize (s₁.setDin ip { (s₁.inode ip).din with type := 0 }).updated sb ip = σ at htrans ⊢
  refine .seq (onInode_runs (.seq (onInode_runs ?_)))
  refine onInode_runs ⟨dinodeOf sb σ.disk i, σ, htrans, ?_⟩
  simp only [setInode_self, setInode_setInode]
  rw [htrans.memory, update_self]

/-- The two ways in which a reference is dropped. -/
theorem iput_cases {Q : Unit → State → Prop} (hsb : sb.Ok) (hc : Consistent sb s.disk)
    (ht : Table sb s) (hr : Refs s ip i) (hwait : (s.inode ip).lock ≠ none → E none)
    (hout : 1 ≤ s.outstanding)
    (keep : ¬ ((s.inode ip).ref = 1 ∧ (s.inode ip).valid = true ∧ (s.inode ip).din.nlink = 0) →
      Q () (s.setInode ip { s.inode ip with ref := (s.inode ip).ref - 1 }))
    (free : (s.inode ip).ref = 1 → (files sb s.disk i).type ≠ 0 → (files sb s.disk i).nlink = 0 →
      E (some "too big a transaction") ∧ ∀ s', Freed sb ip i s s' → Q () s') :
    (iput sb t ip).Runs s E Q := by
  by_cases hlast : (s.inode ip).ref = 1 ∧ (s.inode ip).valid = true ∧ (s.inode ip).din.nlink = 0
  · by_cases hlock : (s.inode ip).lock = none
    rotate_left
    · -- the lock is waited for
      refine .seq (.atomic (if_pos hlast) ?_)
      rw [State.tryLock, if_neg hlock]
      exact .stop (sleepLock_waits hlock (hwait hlock))
    have hh := ht.holds hr hlast.2.1
    obtain ⟨hE, hQ⟩ := free hlast.1 hh.type_ne (by rw [hh.node]; exact hlast.2.2)
    generalize hσ : s.setInode ip { s.inode ip with lock := some t } = σ
    have htry : s.tryLock t ip = (true, σ) := by rw [State.tryLock, if_pos hlock, hσ]
    refine .seq (.atomic (if_pos hlast) ?_)
    rw [htry]
    have hself : σ.inode ip = { s.inode ip with lock := some t } := by rw [← hσ, setInode_self]
    have hdisk : σ.disk = s.disk := by rw [← hσ]; rfl
    have hhσ : Holds sb σ ip i := by
      refine ⟨?_, hh.lt, ?_, ?_⟩
      · rw [hself]
        exact hh.inum
      · rw [hself, hdisk]
        exact hh.din
      · rw [hdisk]
        exact hh.type
    have houtσ : 1 ≤ σ.outstanding := by rw [← hσ]; exact hout
    refine (ifree_runs hsb (hdisk ▸ hc) hhσ hE houtσ).mono ?_
    rintro _ _ ⟨d, τ, hset, rfl⟩
    have hmem : (τ.setInode ip { σ.inode ip with
        din := d, valid := false, lock := none, ref := (σ.inode ip).ref - 1 }).inode =
        update s.inode ip { s.inode ip with
          din := d, valid := false, lock := none, ref := 0 } := by
      show update τ.inode ip _ = _
      rw [hset.memory, update_idem, hself, ← hσ]
      show update (update s.inode ip _) ip _ = _
      rw [update_idem, hlast.1]
    refine hQ _ ⟨hset.consistent, ?_, ?_, ⟨_, hmem, rfl, rfl, hlock.symm⟩, ?_, ?_⟩
    · refine ht.drop hr rfl hmem fun j hj hne => ?_
      exact (hset.dinodes j hj hne).trans (by rw [hdisk])
    · show files sb τ.disk = _
      rw [hset.nodes, hdisk]
    · exact hset.rest.1.trans (by rw [← hσ]; rfl)
    · exact hset.rest.2.trans (by rw [← hσ]; rfl)
  · exact iput_runs hlast (keep hlast)

end Xv6.Fs
