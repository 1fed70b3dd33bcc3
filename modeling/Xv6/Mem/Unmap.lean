import Xv6.Mem.Mapping

/-!
# Removing mappings and freeing page tables

`uvmunmap` removes the bindings of its range, `uvmclear` changes the flags of one binding, and
`freewalk` gives the pages of a tree without bindings to the free list, each of them once.
-/

namespace Xv6.Mem

open Lib Function Multiset

section

variable {img : Image} {s s' : Phys} {fs fs' : List Nat} {l pt p v w va a n x stop : Nat}
  {m m' : Bytes} {f g : Nat → Option (Nat × Nat)} {E : Option String → Prop} {doFree : Bool}

/-! ## `uvmunmap` -/

/-- The physical pages that `uvmunmap` frees. -/
def freed (f : Nat → Option (Nat × Nat)) (v n : Nat) (doFree : Bool) : Multiset Nat :=
  if doFree then frames f v n else 0

theorem freed_succ : freed f v (n + 1) doFree
    = (if doFree then frameOf (f v) else 0) + freed f (v + 1) n doFree := by
  cases doFree with
  | false => rfl
  | true => exact frames_head f v n

/-- A page that is freed outside of the tree. -/
theorem Table.kfree_runs (h : Table img s fs pt) (hp : img.Page p)
    (hn : p ∉ foot fs s.mem 2 pt) : (kfree img p).Runs s E fun _ s' =>
      Table img s' (p :: fs) pt ∧ Alike 2 pt s.mem s'.mem ∧
      Kept (foot fs s.mem 2 pt + {p}) (foot (p :: fs) s'.mem 2 pt) s.mem s'.mem := by
  refine (Mem.kfree_runs h.free hp fun hf => hn (mem_foot.mpr (.inl hf))).mono ?_
  rintro _ s' ⟨hfree, hf⟩
  have hal : Alike 2 pt s.mem s'.mem := by
    refine alike_of_frame hf (fun q hq => (h.page q hq).aligned) fun q hq hm => hn ?_
    rw [← mem_singleton.mp hm]
    exact mem_foot.mpr (.inr hq)
  have hpages : foot (p :: fs) s'.mem 2 pt = foot fs s.mem 2 pt + {p} := by
    rw [foot, foot, hal.pages, ← cons_coe, ← singleton_add]
    abel
  refine ⟨⟨⟨hfree, hal.wf h.wf, ?_, fun q hq => h.page q (hal.pages ▸ hq)⟩, fun v hv => ?_⟩, hal,
    hpages, hf.mono fun q hq => mem_add.mpr (.inr hq)⟩
  · have hnd : (foot fs s.mem 2 pt + {p}).Nodup := by
      rw [add_comm, singleton_add, nodup_cons]
      exact ⟨hn, h.foot_nodup⟩
    rwa [← hpages] at hnd
  · rw [hal.entry]
    exact h.high v hv

/-- `uvmunmap` removes the bindings of its range, which must all be leaves. -/
theorem uvmunmapFrom_runs (h : Table img s fs pt) (hstop : stop = a + n * PGSIZE)
    (ha : a % PGSIZE = 0)
    (hnd : (foot fs s.mem 2 pt + freed (look s.mem pt) (a / PGSIZE) n doFree).Nodup)
    (hpage : ∀ p ∈ freed (look s.mem pt) (a / PGSIZE) n doFree, img.Page p)
    (hE : (∃ w, a / PGSIZE ≤ w ∧ w < a / PGSIZE + n ∧
      ∀ pa fl, look s.mem pt w = some (pa, fl) → fl = PTE_V) → ∀ e, E e) :
    (uvmunmapFrom img pt doFree stop a).Runs s E fun _ s' => ∃ fs', Table img s' fs' pt ∧
      Kept (foot fs s.mem 2 pt + freed (look s.mem pt) (a / PGSIZE) n doFree)
        (foot fs' s'.mem 2 pt) s.mem s'.mem ∧
      look s'.mem pt = unmapRange (look s.mem pt) (a / PGSIZE) n := by
  induction n generalizing a s fs with
  | zero =>
    rw [uvmunmapFrom, if_neg (by omega)]
    refine .ret ⟨fs, h, ?_, unmapRange_zero.symm⟩
    have hz : freed (look s.mem pt) (a / PGSIZE) 0 doFree = 0 := by cases doFree <;> rfl
    rw [hz, add_zero]
    exact .refl ..
  | succ n ih =>
    have hlt : a < stop := by simp only [PGSIZE] at *; omega
    have hdiv : (a + PGSIZE) / PGSIZE = a / PGSIZE + 1 := Nat.add_div_right a (by decide)
    rw [uvmunmapFrom, if_pos hlt]
    by_cases hmax : a < MAXVA
    swap
    · -- `walk` refuses the address
      have hout : look s.mem pt (a / PGSIZE) = none := by
        rw [look, if_neg]
        simp only [PGSIZE, NPAGES, MAXVA] at *
        omega
      refine .stop ?_
      rw [walk, if_pos (not_lt.mp hmax)]
      refine .panic (hE ⟨a / PGSIZE, le_rfl, by omega, fun pa fl hl => ?_⟩ _)
      rw [hout] at hl
      cases hl
    have hav : a / PGSIZE < NPAGES := by simp only [PGSIZE, NPAGES, MAXVA] at *; omega
    refine .bind (walk_slot hmax) ?_
    rintro _ s ⟨rfl, rfl⟩
    cases hslot : slot s.mem 2 pt (a / PGSIZE) with
    | none =>
      refine .panic (hE ⟨a / PGSIZE, le_rfl, by omega, fun pa fl hl => ?_⟩ _)
      rw [look, if_pos hav, entry_of_no_slot hslot] at hl
      cases hl
    | some pte =>
    refine .seq (load_runs ?_)
    rw [← entry_of_slot hslot]
    by_cases hval : Valid (entry s.mem 2 pt (a / PGSIZE))
    swap
    · rw [if_pos hval]
      refine .panic (hE ⟨a / PGSIZE, le_rfl, by omega, fun pa fl hl => ?_⟩ _)
      rw [look, if_pos hav, decode, if_neg hval] at hl
      cases hl
    have hlook : look s.mem pt (a / PGSIZE) = some (pte2pa (entry s.mem 2 pt (a / PGSIZE)),
        pteFlags (entry s.mem 2 pt (a / PGSIZE))) := by
      rw [look, if_pos hav, decode, if_pos hval]
    rw [if_neg (not_not.mpr hval)]
    split
    · next hfl =>
      refine .panic (hE ⟨a / PGSIZE, le_rfl, by omega, fun pa fl hl => ?_⟩ _)
      rw [hlook] at hl
      cases hl
      exact hfl
    rw [freed_succ, hlook] at hnd hpage ⊢
    -- the optional `kfree`
    refine .bind (R := fun _ s₁ => ∃ fs₁, Table img s₁ fs₁ pt ∧ Alike 2 pt s.mem s₁.mem ∧
      Kept (foot fs s.mem 2 pt + if doFree then {pte2pa (entry s.mem 2 pt (a / PGSIZE))} else 0)
        (foot fs₁ s₁.mem 2 pt) s.mem s₁.mem) ?_ ?_
    · refine .when (fun hd => ?_) fun hd => ?_
      · rw [if_pos hd] at hnd hpage ⊢
        refine (h.kfree_runs (hpage _ ?_) ?_).mono fun _ s₁ h₁ => ⟨_, h₁⟩
        · exact mem_add.mpr (.inl (mem_singleton_self _))
        · intro hm
          rw [nodup_add] at hnd
          refine disjoint_left.mp hnd.2.2 hm ?_
          exact mem_add.mpr (.inl (mem_singleton_self _))
      · rw [if_neg hd, add_zero]
        exact ⟨fs, h, alike fun _ _ _ _ => rfl, .refl ..⟩
    rintro _ s₁ ⟨fs₁, h₁, hal, hkept₁⟩
    rw [← hal.slot] at hslot
    have hs₂ : (Phys.mk (lePut 8 s₁.mem pte 0) s₁.freelist).mem = lePut 8 s₁.mem pte 0 := rfl
    obtain ⟨h₂, hput, hkept₂⟩ := h₁.put hslot hav (by decide) hs₂ rfl
    have hlook₂ := hput.look hav
    rw [hal.look] at hlook₂
    refine .seq (.modify ?_)
    have hrest : freed (look (lePut 8 s₁.mem pte 0) pt) ((a + PGSIZE) / PGSIZE) n doFree
        = freed (look s.mem pt) (a / PGSIZE + 1) n doFree := by
      rw [hlook₂, hdiv, freed, freed, frames_congr]
      exact fun w hw _ => update_of_ne (by omega) ..
    have hfoot : foot fs₁ (lePut 8 s₁.mem pte 0) 2 pt
        = foot fs s.mem 2 pt + if doFree then {pte2pa (entry s.mem 2 pt (a / PGSIZE))} else 0 :=
      hkept₂.pages.trans hkept₁.pages
    refine (ih h₂ (by simp only [PGSIZE] at *; omega) (by simp only [PGSIZE] at *; omega) ?_ ?_
      fun hP => hE ?_).mono ?_
    · show (foot fs₁ (lePut 8 s₁.mem pte 0) 2 pt + freed _ _ n doFree).Nodup
      rw [hrest, hfoot, add_assoc]
      exact hnd
    · show ∀ p ∈ freed (look (lePut 8 s₁.mem pte 0) pt) _ n doFree, img.Page p
      rw [hrest]
      exact fun p hp => hpage p (mem_add.mpr (.inr hp))
    · obtain ⟨w, hw, hwn, hc⟩ := hP
      refine ⟨w, by omega, by omega, fun pa fl hl => hc pa fl ?_⟩
      show look (lePut 8 s₁.mem pte 0) pt w = _
      rw [hlook₂, update_of_ne (by omega)]
      exact hl
    · rintro _ s' ⟨fs', h', hkept', hlook'⟩
      refine ⟨fs', h', ?_, ?_⟩
      · rw [hrest] at hkept'
        have := (hkept₁.trans hkept₂).add (freed (look s.mem pt) (a / PGSIZE + 1) n doFree)
        rw [add_assoc] at this
        exact this.trans hkept'
      · rw [hlook', hdiv]
        show unmapRange (look (lePut 8 s₁.mem pte 0) pt) _ n = _
        rw [hlook₂, decode, if_neg not_valid_zero, unmapRange_succ]

theorem uvmunmap_runs (h : Table img s fs pt) (hva : va % PGSIZE = 0)
    (hlt : va + n * PGSIZE < 2 ^ 64)
    (hnd : (foot fs s.mem 2 pt + freed (look s.mem pt) (va / PGSIZE) n doFree).Nodup)
    (hpage : ∀ p ∈ freed (look s.mem pt) (va / PGSIZE) n doFree, img.Page p)
    (hE : (∃ w, va / PGSIZE ≤ w ∧ w < va / PGSIZE + n ∧
      ∀ pa fl, look s.mem pt w = some (pa, fl) → fl = PTE_V) → ∀ e, E e) :
    (uvmunmap img pt va n doFree).Runs s E fun _ s' => ∃ fs', Table img s' fs' pt ∧
      Kept (foot fs s.mem 2 pt + freed (look s.mem pt) (va / PGSIZE) n doFree)
        (foot fs' s'.mem 2 pt) s.mem s'.mem ∧
      look s'.mem pt = unmapRange (look s.mem pt) (va / PGSIZE) n := by
  rw [uvmunmap, if_neg (not_not.mpr hva), Nat.mod_eq_of_lt hlt]
  exact uvmunmapFrom_runs h rfl hva hnd hpage hE

/-! ## `uvmclear` -/

theorem decode_clearU (hx : x < 2 ^ 64) : decode (clearU x)
    = (decode x).map fun b => (b.1, b.2 &&& (0x3FF - PTE_U)) := by
  unfold decode
  by_cases hv : Valid x
  · rw [if_pos hv, if_pos (valid_clearU.mpr hv), pte2pa_clearU hx, pteFlags_clearU]
    rfl
  · rw [if_neg hv, if_neg fun hc => hv (valid_clearU.mp hc)]
    rfl

theorem uvmclear_runs (h : Table img s fs pt)
    (hE : look s.mem pt (va / PGSIZE) = none → ∀ e, E e) :
    (uvmclear pt va).Runs s E fun _ s' => Table img s' fs pt ∧
      Kept (foot fs s.mem 2 pt) (foot fs s'.mem 2 pt) s.mem s'.mem ∧
      look s'.mem pt = update (look s.mem pt) (va / PGSIZE)
        ((look s.mem pt (va / PGSIZE)).map fun b => (b.1, b.2 &&& (0x3FF - PTE_U))) := by
  unfold uvmclear
  by_cases hmax : va < MAXVA
  swap
  · refine .stop ?_
    rw [walk, if_pos (not_lt.mp hmax)]
    refine .panic (hE ?_ _)
    rw [look, if_neg]
    simp only [PGSIZE, NPAGES, MAXVA] at hmax ⊢
    omega
  have hav : va / PGSIZE < NPAGES := by simp only [PGSIZE, NPAGES, MAXVA] at hmax ⊢; omega
  refine .bind (walk_slot hmax) ?_
  rintro _ s ⟨rfl, rfl⟩
  cases hslot : slot s.mem 2 pt (va / PGSIZE) with
  | none =>
    refine .panic (hE ?_ _)
    rw [look, if_pos hav, entry_of_no_slot hslot]
    exact if_neg not_valid_zero
  | some pte =>
    refine .seq (load_runs ?_)
    rw [← entry_of_slot hslot]
    have hs' : (Phys.mk (lePut 8 s.mem pte (clearU (entry s.mem 2 pt (va / PGSIZE))))
        s.freelist).mem = lePut 8 s.mem pte (clearU (entry s.mem 2 pt (va / PGSIZE))) := rfl
    obtain ⟨h', hput, hkept⟩ := h.put hslot hav (clearU_lt entry_lt) hs' rfl
    refine .modify ⟨h', hkept, ?_⟩
    rw [hput.look hav, decode_clearU entry_lt]
    congr 2
    rw [look, if_pos hav]

/-! ## `freewalk` -/

theorem entry_congr_idx (h : ∀ k ≤ l, idx k w = idx k v) : entry m l pt w = entry m l pt v := by
  induction l generalizing pt with
  | zero => rw [entry, entry, h 0 le_rfl]
  | succ l ih =>
    rw [entry, entry, h (l + 1) le_rfl]
    split
    · exact ih fun k hk => h k (by omega)
    · rfl

/-- Every entry of a subtree is an entry of the tree. -/
theorem entry_kid (hi : a < 512) (hv : Valid (pte m pt a)) (v : Nat) :
    ∃ w, entry m (l + 1) pt w = entry m l (pte2pa (pte m pt a)) v := by
  have hpos : 0 < 512 ^ (l + 1) := pos_of_ne_zero (pow_ne_zero _ (by decide))
  refine ⟨a * 512 ^ (l + 1) + v % 512 ^ (l + 1), ?_⟩
  have htop : idx (l + 1) (a * 512 ^ (l + 1) + v % 512 ^ (l + 1)) = a := by
    rw [idx, add_comm, Nat.add_mul_div_right _ _ hpos, Nat.div_eq_of_lt (Nat.mod_lt _ hpos),
      zero_add, Nat.mod_eq_of_lt hi]
  rw [entry, htop, if_pos hv]
  refine entry_congr_idx fun k hk => ?_
  -- the lower digits are those of `v`
  have hsplit : 512 ^ (l + 1) = 512 ^ k * 512 * 512 ^ (l - k) := by
    rw [← pow_succ, ← pow_add]
    congr 1
    omega
  have hdig : ∀ x, idx k x = x % (512 ^ k * 512) / 512 ^ k := fun x => by
    rw [idx, Nat.mod_mul_right_div_self]
  rw [hdig, hdig]
  congr 1
  rw [hsplit, Nat.add_mod, Nat.mod_mul_right_mod]
  have : a * (512 ^ k * 512 * 512 ^ (l - k)) % (512 ^ k * 512) = 0 := by
    rw [mul_comm a, mul_assoc]
    exact Nat.mul_mod_right _ _
  rw [this, zero_add, Nat.mod_mod]

/-- What `freewalk` has done after the entries below `i`: their subtrees are free, and the table
    has the other entries still. -/
structure Freed (img : Image) (fs : List Nat) (l pt : Nat) (s : Phys) (i : Nat) (s' : Phys)
    (fs' : List Nat) : Prop where
  free : Free img s' fs'
  pages : (fs' : Multiset Nat) = ↑fs + ∑ j ∈ Finset.range i, kid s.mem l pt j
  rest : ∀ j, i ≤ j → j < 512 → pte s'.mem pt j = pte s.mem pt j
  frame : Frame (↑fs + ∑ j ∈ Finset.range i, kid s.mem l pt j + {pt}) s.mem s'.mem

/-- The free list, the first subtrees and the next one are parts of the tree and the free list. -/
theorem foot_split (fs : List Nat) (m : Bytes) (l pt : Nat) {i : Nat} (hi : i < 512) :
    ∃ B, foot fs m (l + 1) pt
      = ↑fs + ∑ j ∈ Finset.range i, kid m l pt j + {pt} + kid m l pt i + B := by
  have hsub : insert i (Finset.range i) ⊆ entries := by
    intro j hj
    rcases Finset.mem_insert.mp hj with rfl | hj
    · exact mem_entries.mpr hi
    · exact mem_entries.mpr ((Finset.mem_range.mp hj).trans hi)
  refine ⟨∑ j ∈ entries \ insert i (Finset.range i), kid m l pt j, ?_⟩
  rw [foot, ptPages_succ, ← Finset.sum_sdiff hsub,
    Finset.sum_insert Finset.notMem_range_self]
  abel

/-- In the middle of `freewalk` the next subtree is still as it was. -/
theorem Freed.kid {i : Nat} (h : Tree img s fs (l + 1) pt) (hi : i < 512)
    (hJ : Freed img fs l pt s i s' fs') (hv : Valid (pte s.mem pt i)) :
    Tree img s' fs' l (pte2pa (pte s.mem pt i)) ∧
      Alike l (pte2pa (pte s.mem pt i)) s.mem s'.mem := by
  obtain ⟨B, hB⟩ := foot_split fs s.mem l pt hi
  have hk : Mem.kid s.mem l pt i = ptPages s.mem l (pte2pa (pte s.mem pt i)) := if_pos hv
  have hnd := h.foot_nodup
  rw [hB, hk] at hnd
  have hal : Alike l (pte2pa (pte s.mem pt i)) s.mem s'.mem := by
    refine alike_of_frame hJ.frame (fun p hp => ?_) fun p hp hm => ?_
    · exact (h.page p (mem_of_mem_kid hi (hk ▸ hp))).aligned
    · exact disjoint_left.mp (nodup_add.mp (nodup_add.mp hnd).1).2.2
        hm hp
  refine ⟨⟨hJ.free, hal.wf (h.wf i hi hv).2, ?_, fun p hp => ?_⟩, hal⟩
  · rw [hal.pages, hJ.pages]
    refine nodup_of_le ?_ hnd
    exact Multiset.le_iff_exists_add.mpr ⟨{pt} + B, by abel⟩
  · rw [hal.pages, ← hk] at hp
    exact h.page p (mem_of_mem_kid hi hp)

/-- One round of the loop of `freewalk`. -/
theorem Freed.round {i : Nat} (h : Tree img s fs (l + 1) pt)
    (hno : ∀ v, ¬ Valid (entry s.mem (l + 1) pt v)) (hi : i < 512)
    (ih : ∀ {s : Phys} {fs : List Nat} {pt : Nat}, Tree img s fs l pt →
      (∀ v, ¬ Valid (entry s.mem l pt v)) → (freewalk img (l + 1) pt).Runs s E fun _ s' =>
        ∃ fs', Free img s' fs' ∧ Kept (foot fs s.mem l pt) ↑fs' s.mem s'.mem)
    (hJ : Freed img fs l pt s i s' fs') :
    (do
      let e ← load (pt + 8 * i)
      if Valid e ∧ e &&& (PTE_R ||| PTE_W ||| PTE_X) = 0 then
        freewalk img (l + 1) (pte2pa e)
        store (pt + 8 * i) 0
      else if Valid e then Prog.panic "freewalk: leaf"
      else return ()).Runs s' E fun _ s₂ => ∃ fs₂, Freed img fs l pt s (i + 1) s₂ fs₂ := by
  refine .seq (load_runs ?_)
  rw [← pte_eq, hJ.rest i (Nat.le_refl i) hi]
  by_cases hv : Valid (pte s.mem pt i)
  swap
  · -- nothing below this entry
    have hk : Mem.kid s.mem l pt i = 0 := if_neg hv
    rw [if_neg fun hc => hv hc.1, if_neg hv]
    refine .ret ⟨fs', hJ.free, ?_, fun j hj => hJ.rest j (by omega), ?_⟩
    · rw [Finset.sum_range_succ, hk, add_zero]
      exact hJ.pages
    · rw [Finset.sum_range_succ, hk, add_zero]
      exact hJ.frame
  rw [if_pos ⟨hv, (h.wf i hi hv).1⟩]
  have hk : Mem.kid s.mem l pt i = ptPages s.mem l (pte2pa (pte s.mem pt i)) := if_pos hv
  obtain ⟨ht, hal⟩ := hJ.kid h hi hv
  have hno' : ∀ v, ¬ Valid (entry s'.mem l (pte2pa (pte s.mem pt i)) v) := fun v => by
    obtain ⟨w, hw⟩ := entry_kid (l := l) hi hv v
    rw [hal.entry, ← hw]
    exact hno w
  refine .bind (ih ht hno') ?_
  rintro _ s₂ ⟨fs₂, hfree, hkept⟩
  have hpages : (fs₂ : Multiset Nat) = ↑fs + ∑ j ∈ Finset.range (i + 1), Mem.kid s.mem l pt j := by
    rw [hkept.pages, foot, hal.pages, ← hk, hJ.pages, Finset.sum_range_succ, add_assoc]
  have hpt := h.page pt pt_mem_ptPages
  obtain ⟨B, hB⟩ := foot_split fs s.mem l pt hi
  have hnd := h.foot_nodup
  have hout : pt ∉ (fs₂ : Multiset Nat) := by
    rw [hpages]
    rw [hB] at hnd
    have hle : ({pt} + (↑fs + ∑ j ∈ Finset.range (i + 1), Mem.kid s.mem l pt j)) ≤
        ↑fs + ∑ j ∈ Finset.range i, Mem.kid s.mem l pt j + {pt} + Mem.kid s.mem l pt i + B := by
      rw [Finset.sum_range_succ, le_iff_exists_add]
      exact ⟨B, by abel⟩
    have hnd' := nodup_of_le hle hnd
    rw [singleton_add, nodup_cons] at hnd'
    exact hnd'.1
  have hroot : Same pt s'.mem s₂.mem := by
    refine hkept.frame pt hpt.aligned fun hm => hout ?_
    rw [hkept.pages]
    exact hm
  have hput : Frame {pt} s₂.mem (lePut 8 s₂.mem (pt + 8 * i) 0) :=
    frame_lePut hpt.aligned _ (by simp only [PGSIZE]; omega)
  refine .modify ⟨fs₂, hfree.frame hput (fun p hp hm => ?_) rfl, hpages, fun j hj hj' => ?_, ?_⟩
  · rw [mem_singleton.mp hm] at hp
    exact hout (mem_coe.mpr hp)
  · show pte (lePut 8 s₂.mem (pt + 8 * i) 0) pt j = _
    rw [pte_lePut_of_ne (by omega), hroot.pte hj', hJ.rest j (by omega) hj']
  · refine ((hJ.frame.mono fun p hp => ?_).trans (hkept.frame.mono fun p hp => ?_)).trans
      (hput.mono fun p hp => mem_add.mpr (.inr hp))
    · rw [Finset.sum_range_succ]
      simp only [mem_add] at hp ⊢
      tauto
    · rw [← hkept.pages, hpages] at hp
      exact mem_add.mpr (.inl hp)

/-- `freewalk` of a tree without leaves makes its pages free. -/
theorem freewalk_runs (h : Tree img s fs l pt) (hno : ∀ v, ¬ Valid (entry s.mem l pt v)) :
    (freewalk img (l + 1) pt).Runs s E fun _ s' =>
      ∃ fs', Free img s' fs' ∧ Kept (foot fs s.mem l pt) ↑fs' s.mem s'.mem := by
  induction l generalizing s fs pt with
  | zero =>
    rw [freewalk]
    refine .bind (R := fun _ s' => s' = s) (.loop (J := fun _ s' => s' = s) rfl ?_) ?_
    · rintro i _ - hi rfl
      refine .seq (load_runs ?_)
      have hv := hno i
      rw [entry, show idx 0 i = i by simp only [idx, pow_zero, Nat.div_one]; omega] at hv
      rw [← pte_eq, if_neg fun hc => hv hc.1, if_neg hv]
      exact .ret rfl
    · rintro _ s rfl
      have hpt : pt ∈ ptPages s.mem 0 pt := pt_mem_ptPages
      refine (kfree_runs h.free (h.page pt hpt) (h.not_free hpt)).mono ?_
      rintro _ s' ⟨hfree, hf⟩
      refine ⟨pt :: fs, hfree, ?_, hf.mono fun p hp => ?_⟩
      · rw [foot, ptPages_zero, ← cons_coe, ← singleton_add, add_comm]
      · rw [mem_singleton.mp hp]
        exact mem_foot.mpr (.inr hpt)
  | succ l ih =>
    rw [freewalk]
    refine .bind (R := fun _ s' => ∃ fs', Freed img fs l pt s 512 s' fs')
      (.loop (J := fun i s' => ∃ fs', Freed img fs l pt s i s' fs') ?_ ?_) ?_
    · exact ⟨fs, h.free, by simp, fun _ _ _ => rfl, .refl _ _⟩
    · rintro i s' - hi ⟨fs', hJ⟩
      exact Freed.round h hno (by omega) ih hJ
    · rintro _ s' ⟨fs', hJ⟩
      have hpt : pt ∈ ptPages s.mem (l + 1) pt := pt_mem_ptPages
      have hall : Finset.range 512 = entries := by rw [entries]
      obtain ⟨hfree₁, hpages, -, hframe⟩ := hJ
      rw [hall] at hpages hframe
      have hsum : foot fs s.mem (l + 1) pt = ↑fs' + {pt} := by
        rw [hpages, foot, ptPages_succ]
        abel
      have hout : pt ∉ fs' := by
        have hnd := h.foot_nodup
        rw [hsum, add_comm, singleton_add, nodup_cons] at hnd
        exact fun hp => hnd.1 (mem_coe.mpr hp)
      refine (kfree_runs hfree₁ (h.page pt hpt) hout).mono ?_
      rintro _ s'' ⟨hfree, hf⟩
      refine ⟨pt :: fs', hfree, ?_, ?_⟩
      · rw [hsum, ← cons_coe, ← singleton_add, add_comm]
      · rw [hsum, hpages]
        exact hframe.trans (hf.mono fun p hp => mem_add.mpr (.inr hp))

end

end Xv6.Mem
