import Xv6.Mem.Kalloc

/-!
# Three-level page tables in memory

A page table of level 0 holds leaf entries; one of a higher level holds pointers to page tables of
the level below. Everything here is read off the bytes of memory: `ptPages` are the pages of the
tree below a table, `slot` is the address of the leaf entry of a virtual page (what `walk` returns
without allocating), `entry` is the value there, and `look` is the partial map from virtual pages
to physical pages and flags that the tree represents.

The tree depends only on its own pages (`Alike`). One subtree can be exchanged for another
(`recompose`), and storing a leaf entry changes the map at one virtual page (`Put`).
-/

namespace Xv6.Mem

open Lib Function Multiset

/-! ## Reading a tree -/

/-- The `i`-th entry of the page table at `pt`. -/
@[irreducible] def pte (m : Bytes) (pt i : Nat) : Nat := leGet 8 m (pt + 8 * i)

/-- The indices of the entries of a page table. -/
@[irreducible] def entries : Finset Nat := Finset.range 512

theorem mem_entries {i : Nat} : i ∈ entries ↔ i < 512 := by
  unfold entries
  exact Finset.mem_range

/-- The pages of the tree below a page table, itself included. -/
def ptPages (m : Bytes) : (level pt : Nat) → Multiset Nat
  | 0, pt => {pt}
  | l + 1, pt => {pt} + ∑ i ∈ entries,
      if Valid (pte m pt i) then ptPages m l (pte2pa (pte m pt i)) else 0

/-- Interior entries point to tables and have none of the leaf bits. -/
def Wf (m : Bytes) : (level pt : Nat) → Prop
  | 0, _ => True
  | l + 1, pt => ∀ i < 512, Valid (pte m pt i) →
      pte m pt i &&& (PTE_R ||| PTE_W ||| PTE_X) = 0 ∧ Wf m l (pte2pa (pte m pt i))

/-- The address of the leaf entry of virtual page `v`, if there is a table for it. -/
def slot (m : Bytes) : (level pt v : Nat) → Option Nat
  | 0, pt, v => some (pt + 8 * idx 0 v)
  | l + 1, pt, v =>
    if Valid (pte m pt (idx (l + 1) v)) then slot m l (pte2pa (pte m pt (idx (l + 1) v))) v
    else none

/-- The leaf entry of virtual page `v`; zero, which is not valid, if there is no table for it. -/
def entry (m : Bytes) : (level pt v : Nat) → Nat
  | 0, pt, v => pte m pt (idx 0 v)
  | l + 1, pt, v =>
    if Valid (pte m pt (idx (l + 1) v)) then entry m l (pte2pa (pte m pt (idx (l + 1) v))) v
    else 0

/-- The physical page and the flags in an entry. -/
def decode (e : Nat) : Option (Nat × Nat) :=
  if Valid e then some (pte2pa e, pteFlags e) else none

/-- The map that the page table at `root` represents. -/
def look (m : Bytes) (root v : Nat) : Option (Nat × Nat) :=
  if v < NPAGES then decode (entry m 2 root v) else none

/-- The pages below entry `i` of a table. -/
def kid (m : Bytes) (l pt i : Nat) : Multiset Nat :=
  if Valid (pte m pt i) then ptPages m l (pte2pa (pte m pt i)) else 0

section

variable {m m' : Bytes} {l pt p v w i j a x : Nat} {A : Multiset Nat}

theorem pte_eq (m : Bytes) (pt i : Nat) : pte m pt i = leGet 8 m (pt + 8 * i) := by
  unfold pte
  rfl

theorem ptPages_zero (m : Bytes) (pt : Nat) : ptPages m 0 pt = {pt} := rfl

theorem ptPages_succ (m : Bytes) (l pt : Nat) :
    ptPages m (l + 1) pt = {pt} + ∑ i ∈ entries, kid m l pt i := rfl

attribute [irreducible] ptPages

theorem pt_mem_ptPages : pt ∈ ptPages m l pt := by
  cases l with
  | zero =>
    rw [ptPages_zero]
    exact mem_singleton_self pt
  | succ l =>
    rw [ptPages_succ, mem_add]
    exact .inl (mem_singleton_self pt)

theorem mem_of_mem_kid (hi : i < 512) (hp : p ∈ kid m l pt i) : p ∈ ptPages m (l + 1) pt := by
  rw [ptPages_succ, mem_add, mem_sum]
  exact .inr ⟨i, mem_entries.mpr hi, hp⟩

theorem mem_kid (hv : Valid (pte m pt i)) (hp : p ∈ ptPages m l (pte2pa (pte m pt i))) :
    p ∈ kid m l pt i := by
  rw [kid, if_pos hv]
  exact hp

/-- Page tables are page-aligned, as the pointers to them are. -/
theorem ptPages_aligned (h : pt % PGSIZE = 0) (hp : p ∈ ptPages m l pt) : p % PGSIZE = 0 := by
  induction l generalizing pt with
  | zero =>
    rw [ptPages_zero] at hp
    rwa [mem_singleton.mp hp]
  | succ l ih =>
    rw [ptPages_succ, mem_add, mem_sum] at hp
    rcases hp with hp | ⟨i, -, hp⟩
    · rwa [mem_singleton.mp hp]
    · rw [kid] at hp
      split at hp
      · exact ih (pte2pa_mod _) hp
      · exact absurd hp (notMem_zero p)

/-- The subtree below entry `i`, and the rest. -/
theorem ptPages_split (m : Bytes) (l pt : Nat) (hi : i < 512) :
    ptPages m (l + 1) pt = kid m l pt i +
      ({pt} + ∑ j ∈ entries.erase i, kid m l pt j) := by
  rw [ptPages_succ, ← Finset.add_sum_erase _ _ (mem_entries.mpr hi)]
  exact add_left_comm _ _ _

/-! ### A tree without shared pages -/

theorem root_not_mem_kid (h : (ptPages m (l + 1) pt).Nodup) (hi : i < 512) :
    pt ∉ kid m l pt i := by
  intro hm
  rw [ptPages_split m l pt hi, nodup_add] at h
  refine disjoint_left.mp h.2.2 hm ?_
  rw [mem_add]
  exact .inl (mem_singleton_self pt)

theorem kid_nodup (h : (ptPages m (l + 1) pt).Nodup) (hi : i < 512) : (kid m l pt i).Nodup := by
  rw [ptPages_split m l pt hi, nodup_add] at h
  exact h.1

theorem kids_disjoint (h : (ptPages m (l + 1) pt).Nodup) (hi : i < 512) (hj : j < 512)
    (hij : i ≠ j) (hp : p ∈ kid m l pt i) : p ∉ kid m l pt j := by
  intro hm
  rw [ptPages_split m l pt hi, nodup_add] at h
  refine disjoint_left.mp h.2.2 hp ?_
  rw [mem_add, mem_sum]
  exact .inr ⟨j, Finset.mem_erase.mpr ⟨hij.symm, mem_entries.mpr hj⟩, hm⟩

/-! ### A tree depends on its own pages -/

theorem Same.pte (h : Same pt m m') (hi : i < 512) : pte m' pt i = pte m pt i := by
  rw [pte_eq, pte_eq]
  exact h.leGet (8 * i) (by simp only [PGSIZE]; omega)

/-- What two memories have in common in which a tree is the same. -/
structure Alike (l pt : Nat) (m m' : Bytes) : Prop where
  pages : ptPages m' l pt = ptPages m l pt
  wf : Wf m l pt → Wf m' l pt
  slot : ∀ v, slot m' l pt v = slot m l pt v
  entry : ∀ v, entry m' l pt v = entry m l pt v

theorem alike (h : ∀ p ∈ ptPages m l pt, Same p m m') : Alike l pt m m' := by
  induction l generalizing pt with
  | zero =>
    have hs := h pt pt_mem_ptPages
    refine ⟨?_, id, fun _ => rfl, fun v => hs.pte (idx_lt 0 v)⟩
    rw [ptPages_zero, ptPages_zero]
  | succ l ih =>
    have hs := h pt pt_mem_ptPages
    have hkid : ∀ i < 512, Valid (pte m pt i) → Alike l (pte2pa (pte m pt i)) m m' :=
      fun i hi hv => ih fun p hp => h p (mem_of_mem_kid hi (mem_kid hv hp))
    refine ⟨?_, fun hw i hi hv => ?_, fun v => ?_, fun v => ?_⟩
    · rw [ptPages_succ, ptPages_succ]
      refine congrArg (fun k : Multiset Nat => {pt} + k) (Finset.sum_congr rfl fun i hi => ?_)
      have hi := mem_entries.mp hi
      rw [kid, kid, hs.pte hi]
      by_cases hv : Valid (pte m pt i)
      · rw [if_pos hv, if_pos hv, (hkid i hi hv).pages]
      · rw [if_neg hv, if_neg hv]
    · rw [hs.pte hi] at hv ⊢
      exact ⟨(hw i hi hv).1, (hkid i hi hv).wf (hw i hi hv).2⟩
    · simp only [Mem.slot, hs.pte (idx_lt _ v)]
      split
      · next hv => exact (hkid _ (idx_lt _ v) hv).slot v
      · rfl
    · simp only [Mem.entry, hs.pte (idx_lt _ v)]
      split
      · next hv => exact (hkid _ (idx_lt _ v) hv).entry v
      · rfl

theorem alike_of_frame (h : Frame A m m') (hal : ∀ p ∈ ptPages m l pt, p % PGSIZE = 0)
    (hA : ∀ p ∈ ptPages m l pt, p ∉ A) : Alike l pt m m' :=
  alike fun p hp => h p (hal p hp) (hA p hp)

theorem Alike.look (h : Alike 2 pt m m') : look m' pt = look m pt := by
  funext v
  rw [Mem.look, Mem.look, h.entry]

/-- Two trees with the same entries but for the subtree below entry `i`. -/
structure Recomposed (l pt i : Nat) (m m' : Bytes) : Prop where
  pages : ptPages m' (l + 1) pt + kid m l pt i = ptPages m (l + 1) pt + kid m' l pt i
  wf : Wf m (l + 1) pt → (Valid (pte m' pt i) →
    pte m' pt i &&& (PTE_R ||| PTE_W ||| PTE_X) = 0 ∧ Wf m' l (pte2pa (pte m' pt i))) →
    Wf m' (l + 1) pt
  slot : ∀ v, idx (l + 1) v ≠ i → slot m' (l + 1) pt v = slot m (l + 1) pt v
  entry : ∀ v, idx (l + 1) v ≠ i → entry m' (l + 1) pt v = entry m (l + 1) pt v

theorem recompose (hi : i < 512) (hpte : ∀ j < 512, j ≠ i → pte m' pt j = pte m pt j)
    (hkid : ∀ j < 512, j ≠ i → ∀ p ∈ kid m l pt j, Same p m m') : Recomposed l pt i m m' := by
  have hal : ∀ j < 512, j ≠ i → Valid (pte m pt j) → Alike l (pte2pa (pte m pt j)) m m' :=
    fun j hj hji hv => alike fun p hp => hkid j hj hji p (mem_kid hv hp)
  have hsum : ∑ j ∈ entries.erase i, kid m' l pt j
      = ∑ j ∈ entries.erase i, kid m l pt j := by
    refine Finset.sum_congr rfl fun j hj => ?_
    obtain ⟨hji, hj⟩ := Finset.mem_erase.mp hj
    rw [kid, kid, hpte j (mem_entries.mp hj) hji]
    split
    · next hv => exact (hal j (mem_entries.mp hj) hji hv).pages
    · rfl
  refine ⟨?_, fun hw hnew j hj hv => ?_, fun v hv => ?_, fun v hv => ?_⟩
  · rw [ptPages_split m' l pt hi, ptPages_split m l pt hi, hsum]
    abel
  · by_cases hji : j = i
    · subst hji
      exact hnew hv
    · rw [hpte j hj hji] at hv ⊢
      exact ⟨(hw j hj hv).1, (hal j hj hji hv).wf (hw j hj hv).2⟩
  · simp only [Mem.slot, hpte _ (idx_lt _ v) hv]
    split
    · next hval => exact (hal _ (idx_lt _ v) hv hval).slot v
    · rfl
  · simp only [Mem.entry, hpte _ (idx_lt _ v) hv]
    split
    · next hval => exact (hal _ (idx_lt _ v) hv hval).entry v
    · rfl

/-! ### An empty table -/

/-- All bytes of page `p` are zero. -/
def Zero (p : Nat) (m : Bytes) : Prop := ∀ i < PGSIZE, m (p + i) = 0

theorem zero_fill (p : Nat) (m : Bytes) : Zero p (fill m p 0 PGSIZE) := by
  intro i hi
  exact if_pos ⟨Nat.le_add_right p i, by omega⟩

theorem Zero.same (h : Zero p m) (hs : Same p m m') : Zero p m' :=
  fun i hi => (hs i hi).trans (h i hi)

theorem Zero.pte (h : Zero p m) (hi : i < 512) : pte m p i = 0 := by
  rw [pte_eq]
  refine leGet_eq_zero fun k hk hlt => ?_
  have := h (k - p) (by simp only [PGSIZE]; omega)
  rwa [show p + (k - p) = k by omega] at this

theorem Zero.kid (h : Zero p m) (hi : i < 512) : kid m l p i = 0 := by
  rw [Mem.kid, h.pte hi, if_neg not_valid_zero]

theorem Zero.ptPages (h : Zero p m) : ptPages m l p = {p} := by
  cases l with
  | zero => rw [ptPages_zero]
  | succ l =>
    rw [ptPages_succ, Finset.sum_eq_zero fun i hi => h.kid (mem_entries.mp hi), add_zero]

theorem Zero.wf (h : Zero p m) : Wf m l p := by
  cases l with
  | zero => trivial
  | succ l =>
    intro i hi hv
    rw [h.pte hi] at hv
    exact absurd hv not_valid_zero

theorem Zero.entry (h : Zero p m) : entry m l p v = 0 := by
  cases l with
  | zero => exact h.pte (idx_lt 0 v)
  | succ l => rw [Mem.entry, h.pte (idx_lt _ v), if_neg not_valid_zero]

/-! ### Storing a leaf entry -/

theorem slot_page (h : slot m l pt v = some a) :
    ∃ p ∈ ptPages m l pt, a = p + 8 * idx 0 v := by
  induction l generalizing pt with
  | zero => exact ⟨pt, pt_mem_ptPages, (Option.some.inj h).symm⟩
  | succ l ih =>
    rw [slot] at h
    split at h
    · next hv =>
      obtain ⟨p, hp, ha⟩ := ih h
      exact ⟨p, mem_of_mem_kid (idx_lt _ v) (mem_kid hv hp), ha⟩
    · cases h

theorem entry_of_slot (h : slot m l pt v = some a) : entry m l pt v = leGet 8 m a := by
  induction l generalizing pt with
  | zero => rw [← Option.some.inj h, entry, pte_eq]
  | succ l ih =>
    rw [slot] at h
    split at h
    · next hv =>
      rw [entry, if_pos hv]
      exact ih h
    · cases h

theorem entry_of_no_slot (h : slot m l pt v = none) : entry m l pt v = 0 := by
  induction l generalizing pt with
  | zero => cases h
  | succ l ih =>
    rw [slot] at h
    rw [entry]
    split at h
    · next hv =>
      rw [if_pos hv]
      exact ih h
    · next hv => exact if_neg hv

theorem entry_lt : entry m l pt v < 2 ^ 64 := by
  cases hs : slot m l pt v with
  | none =>
    rw [entry_of_no_slot hs]
    decide
  | some a =>
    rw [entry_of_slot hs]
    exact leGet_lt 8 m a

/-- The virtual pages `v` and `w` have their leaf entries in the same place. -/
def SameSlot (l v w : Nat) : Prop := ∀ k ≤ l, idx k w = idx k v

instance (l v w : Nat) : Decidable (SameSlot l v w) :=
  decidable_of_iff (∀ k < l + 1, idx k w = idx k v)
    ⟨fun h k hk => h k (by omega), fun h k hk => h k (by omega)⟩

theorem sameSlot_succ : SameSlot (l + 1) v w ↔ idx (l + 1) w = idx (l + 1) v ∧ SameSlot l v w := by
  refine ⟨fun h => ⟨h _ le_rfl, fun k hk => h k (by omega)⟩, fun h k hk => ?_⟩
  rcases lt_or_eq_of_le hk with hk | rfl
  · exact h.2 k (by omega)
  · exact h.1

/-- The tree after the value `x` was stored as the leaf entry of `v`. -/
structure Put (l pt v x : Nat) (m m' : Bytes) : Prop where
  pages : ptPages m' l pt = ptPages m l pt
  wf : Wf m l pt → Wf m' l pt
  slot : ∀ w, slot m' l pt w = slot m l pt w
  entry : ∀ w, entry m' l pt w = if SameSlot l v w then x else entry m l pt w

theorem put (h : slot m l pt v = some a) (hal : ∀ p ∈ ptPages m l pt, p % PGSIZE = 0)
    (hnd : (ptPages m l pt).Nodup) (hx : x < 2 ^ 64) : Put l pt v x m (lePut 8 m a x) := by
  induction l generalizing pt with
  | zero =>
    obtain rfl := Option.some.inj h
    refine ⟨by rw [ptPages_zero, ptPages_zero], id, fun _ => rfl, fun w => ?_⟩
    rw [entry, entry, pte_eq, pte_eq]
    by_cases hw : idx 0 w = idx 0 v
    · have hs : SameSlot 0 v w := fun k hk => by rwa [Nat.le_zero.mp hk]
      rw [if_pos hs, hw, leGet_lePut_self]
      exact Nat.mod_eq_of_lt hx
    · rw [if_neg fun hs => hw (hs 0 le_rfl), leGet_lePut_of_disjoint]
      omega
  | succ l ih =>
    rw [slot] at h
    split at h
    case isFalse => cases h
    case isTrue hv =>
    -- only a page of the subtree has changed
    have hi := idx_lt (l + 1) v
    have hk : ∀ p ∈ ptPages m l (pte2pa (pte m pt (idx (l + 1) v))), p ∈ kid m l pt _ :=
      fun p hp => mem_kid hv hp
    obtain ⟨q, hq, rfl⟩ := slot_page h
    have hframe : Frame {q} m (lePut 8 m (q + 8 * idx 0 v) x) := by
      refine frame_lePut (hal q (mem_of_mem_kid hi (hk q hq))) _ ?_
      have := idx_lt 0 v
      simp only [PGSIZE]
      omega
    have hroot : Same pt m (lePut 8 m (q + 8 * idx 0 v) x) := by
      refine hframe pt (hal pt pt_mem_ptPages) fun hm => ?_
      rw [mem_singleton] at hm
      exact root_not_mem_kid hnd hi (hm ▸ hk q hq)
    have hput := ih h (fun p hp => hal p (mem_of_mem_kid hi (hk p hp))) (by
      have := kid_nodup hnd hi
      rwa [kid, if_pos hv] at this)
    have hrec : Recomposed l pt (idx (l + 1) v) m (lePut 8 m (q + 8 * idx 0 v) x) := by
      refine recompose hi (fun j hj _ => hroot.pte hj) fun j hj hji p hp => ?_
      refine hframe p (hal p (mem_of_mem_kid hj hp)) fun hm => ?_
      rw [mem_singleton] at hm
      exact kids_disjoint hnd hi hj hji.symm (hk q hq) (hm ▸ hp)
    refine ⟨?_, fun hw => ?_, fun w => ?_, fun w => ?_⟩
    · have hp := hrec.pages
      rw [kid, kid, hroot.pte hi, if_pos hv, if_pos hv, hput.pages] at hp
      exact add_right_cancel hp
    · refine hrec.wf hw fun _ => ?_
      rw [hroot.pte hi]
      exact ⟨(hw _ hi hv).1, hput.wf (hw _ hi hv).2⟩
    · by_cases hwi : idx (l + 1) w = idx (l + 1) v
      · rw [slot, slot, hwi, hroot.pte hi, if_pos hv, if_pos hv, hput.slot]
      · exact hrec.slot w hwi
    · by_cases hwi : idx (l + 1) w = idx (l + 1) v
      · rw [entry, entry, hwi, hroot.pte hi, if_pos hv, if_pos hv, hput.entry]
        simp only [sameSlot_succ, hwi, true_and]
      · rw [hrec.entry w hwi, if_neg fun hs => hwi (hs _ le_rfl)]

/-- Storing an entry changes the map at one page. -/
theorem Put.look (h : Put 2 pt v x m m') (hv : v < NPAGES) :
    look m' pt = update (look m pt) v (decode x) := by
  funext w
  rw [Mem.look, h.entry]
  by_cases hw : w = v
  · subst hw
    have hs : SameSlot 2 w w := fun _ _ => rfl
    rw [update_self, if_pos hv, if_pos hs]
  · rw [update_of_ne hw, Mem.look]
    by_cases hwn : w < NPAGES
    · have hs : ¬ SameSlot 2 v w := fun hs => hw (idx_inj hwn hv hs)
      rw [if_pos hwn, if_pos hwn, if_neg hs]
    · rw [if_neg hwn, if_neg hwn]

end

end Xv6.Mem
