import Xv6.Mem.Walk

/-!
# What the operations on page tables do to the map

`mappages` adds bindings from the front of its range on and stops early only when the free list is
empty; `uvmunmap` removes the bindings of its range; `uvmclear` changes the flags of one; and
`freewalk` turns the pages of a tree without bindings into free pages.
-/

namespace Xv6.Mem

open Lib Function

/-- A page table and the free list. The upper half of the root is never used: it is for addresses
    from `MAXVA` on. -/
structure Table (img : Image) (s : Phys) (fs : List Nat) (pt : Nat) : Prop
    extends Tree img s fs 2 pt where
  high : ∀ v, 256 ≤ idx 2 v → entry s.mem 2 pt v = 0

/-- Bind `k` virtual pages from `v` on to the physical pages from `pa` on. -/
def mapRange (f : Nat → Option (Nat × Nat)) (v pa fl k : Nat) : Nat → Option (Nat × Nat) :=
  fun w => if v ≤ w ∧ w < v + k then some (pgrounddown ((pa + (w - v) * PGSIZE) % 2 ^ 64), fl)
    else f w

/-- Remove the bindings of `n` virtual pages from `v` on. -/
def unmapRange (f : Nat → Option (Nat × Nat)) (v n : Nat) : Nat → Option (Nat × Nat) :=
  fun w => if v ≤ w ∧ w < v + n then none else f w

/-- The physical page of a binding. -/
def frameOf : Option (Nat × Nat) → Multiset Nat
  | none => 0
  | some (pa, _) => {pa}

/-- The physical pages bound to `n` virtual pages from `v` on. -/
def frames (f : Nat → Option (Nat × Nat)) (v : Nat) : Nat → Multiset Nat
  | 0 => 0
  | n + 1 => frames f v n + frameOf (f (v + n))

section

variable {img : Image} {s s' : Phys} {fs fs' : List Nat} {pt p v w va a pa n k x perm last : Nat}
  {m m' : Bytes} {f g : Nat → Option (Nat × Nat)} {E : Option String → Prop}

/-! ## Ranges -/

theorem mapRange_zero : mapRange f v pa x 0 = f := by
  funext w
  exact if_neg (by omega)

theorem mapRange_succ (hpa : pa < 2 ^ 64) :
    mapRange (update f v (some (pgrounddown pa, x))) (v + 1) ((pa + PGSIZE) % 2 ^ 64) x k
      = mapRange f v pa x (k + 1) := by
  funext w
  unfold mapRange
  by_cases hw : w = v
  · subst hw
    rw [if_neg (by omega), update_self, if_pos (by omega), Nat.sub_self, Nat.zero_mul,
      Nat.add_zero, Nat.mod_eq_of_lt hpa]
  · rw [update_of_ne hw]
    by_cases hr : v + 1 ≤ w ∧ w < v + 1 + k
    · rw [if_pos hr, if_pos (by omega)]
      have : ((pa + PGSIZE) % 2 ^ 64 + (w - (v + 1)) * PGSIZE) % 2 ^ 64
          = (pa + (w - v) * PGSIZE) % 2 ^ 64 := by
        simp only [PGSIZE]
        omega
      rw [this]
    · rw [if_neg hr, if_neg (by omega)]

theorem unmapRange_zero : unmapRange f v 0 = f := by
  funext w
  exact if_neg (by omega)

theorem unmapRange_succ :
    unmapRange (update f v none) (v + 1) n = unmapRange f v (n + 1) := by
  funext w
  unfold unmapRange
  by_cases hw : w = v
  · subst hw
    rw [if_neg (by omega), update_self, if_pos (by omega)]
  · rw [update_of_ne hw]
    by_cases hr : v + 1 ≤ w ∧ w < v + 1 + n
    · rw [if_pos hr, if_pos (by omega)]
    · rw [if_neg hr, if_neg (by omega)]

theorem frames_congr (h : ∀ w, v ≤ w → w < v + n → f w = g w) : frames f v n = frames g v n := by
  induction n with
  | zero => rfl
  | succ n ih =>
    rw [frames, frames, ih fun w hw hn => h w hw (by omega), h (v + n) (by omega) (by omega)]

theorem frames_add (f : Nat → Option (Nat × Nat)) (v n k : Nat) :
    frames f v (n + k) = frames f v n + frames f (v + n) k := by
  induction k with
  | zero => rw [add_zero, frames, add_zero]
  | succ k ih => rw [← add_assoc, frames, ih, frames, add_assoc, add_assoc]

theorem frames_head (f : Nat → Option (Nat × Nat)) (v n : Nat) :
    frames f v (n + 1) = frameOf (f v) + frames f (v + 1) n := by
  rw [add_comm n 1, frames_add]
  simp [frames]

theorem mem_frames : p ∈ frames f v n ↔ ∃ w fl, v ≤ w ∧ w < v + n ∧ f w = some (p, fl) := by
  induction n with
  | zero =>
    simp only [frames, Multiset.notMem_zero, false_iff]
    rintro ⟨w, fl, hv, hw, -⟩
    omega
  | succ n ih =>
    rw [frames, Multiset.mem_add, ih]
    constructor
    · rintro (⟨w, fl, hv, hw, hf⟩ | hp)
      · exact ⟨w, fl, hv, by omega, hf⟩
      · cases hf : f (v + n) with
        | none =>
          rw [hf] at hp
          exact absurd hp (Multiset.notMem_zero p)
        | some b =>
          rw [hf] at hp
          obtain rfl := Multiset.mem_singleton.mp hp
          exact ⟨v + n, b.2, by omega, by omega, hf⟩
    · rintro ⟨w, fl, hv, hw, hf⟩
      rcases Nat.lt_succ_iff_lt_or_eq.mp (show w < (v + n) + 1 by omega) with hlt | rfl
      · exact .inl ⟨w, fl, hv, hlt, hf⟩
      · rw [hf]
        exact .inr (Multiset.mem_singleton_self p)

/-- No frame is there twice if the pages are different ones. -/
theorem frames_inj {y : Nat} (h : (frames f a n).Nodup) (hv : a ≤ v ∧ v < a + n)
    (hw : a ≤ w ∧ w < a + n) (hfv : f v = some (p, x)) (hfw : f w = some (p, y)) : v = w := by
  -- `v` is before `w`, say
  have hlt : ∀ {v w x y}, a ≤ v → v < w → w < a + n → f v = some (p, x) → f w = some (p, y) →
      False := by
    intro v w x y hav hvw hwn hfv hfw
    rw [show n = w - a + (n - (w - a)) by omega, frames_add, Multiset.nodup_add] at h
    refine Multiset.disjoint_left.mp h.2.2 (mem_frames.mpr ⟨v, x, hav, by omega, hfv⟩)
      (mem_frames.mpr ⟨w, y, by omega, by omega, hfw⟩)
  rcases lt_trichotomy v w with hvw | heq | hwv
  · exact (hlt hv.1 hvw hw.2 hfv hfw).elim
  · exact heq
  · exact (hlt hw.1 hwv hv.2 hfw hfv).elim


/-! ## Changing one binding -/

theorem Grown.look (h : Grown fs fs' 2 pt m m') : look m' pt = look m pt := by
  funext v
  rw [Mem.look, Mem.look, h.entry]

theorem Table.grown (h : Table img s fs pt) (h' : Tree img s' fs' 2 pt)
    (hg : Grown fs fs' 2 pt s.mem s'.mem) : Table img s' fs' pt :=
  ⟨h', fun v hv => (hg.entry v).trans (h.high v hv)⟩

theorem idx_two_lt (hv : v < NPAGES) : idx 2 v < 256 := by
  simp only [NPAGES, idx] at *
  norm_num
  omega

/-- Storing a leaf entry. -/
theorem Table.put (h : Table img s fs pt) (hs : slot s.mem 2 pt v = some a) (hv : v < NPAGES)
    (hx : x < 2 ^ 64) (hm : s'.mem = lePut 8 s.mem a x) (hl : s'.freelist = s.freelist) :
    Table img s' fs pt ∧ Put 2 pt v x s.mem s'.mem ∧
      Kept (foot fs s.mem 2 pt) (foot fs s'.mem 2 pt) s.mem s'.mem := by
  have hput := hm ▸ Mem.put hs (fun p hp => (h.page p hp).aligned) h.tree_nodup hx
  obtain ⟨q, hq, rfl⟩ := slot_page hs
  have hf : Frame {q} s.mem s'.mem := by
    rw [hm]
    refine frame_lePut (h.page q hq).aligned _ ?_
    have := idx_lt 0 v
    simp only [PGSIZE]
    omega
  have hfree : Free img s' fs := by
    refine h.free.frame hf (fun p hp hc => ?_) hl
    rw [Multiset.mem_singleton.mp hc] at hp
    exact h.not_free hq hp
  have hpages : foot fs s'.mem 2 pt = foot fs s.mem 2 pt := by rw [foot, foot, hput.pages]
  refine ⟨⟨h.of_kept hfree (hput.wf h.wf) hpages, fun w hw => ?_⟩, hput, hpages, ?_⟩
  · rw [hput.entry, if_neg fun hc => ?_]
    · exact h.high w hw
    · have := hc 2 le_rfl
      have := idx_two_lt hv
      omega
  · refine hf.mono fun p hp => ?_
    rw [Multiset.mem_singleton.mp hp]
    exact mem_foot.mpr (.inr hq)

/-- A leaf entry of `mappages`. -/
theorem leaf_entry (hpa : pa < 2 ^ 64) (hx : x ||| PTE_V < 1024) :
    decode (pa2pte pa ||| (x ||| PTE_V)) = some (pgrounddown pa, x ||| PTE_V) ∧
      pa2pte pa ||| (x ||| PTE_V) < 2 ^ 64 := by
  refine ⟨?_, pa2pte_or_lt hpa hx⟩
  rw [decode, if_pos, pte2pa_pa2pte hpa hx, pteFlags_pa2pte hx, pgrounddown]
  rw [← Nat.or_assoc]
  exact valid_or _

/-! ## `mappages` -/

/-- Virtual pages of one 2 MB region have their entries in one table. -/
theorem slot_region (hvw : w / 512 = v / 512) (h : slot m 2 pt v ≠ none) :
    slot m 2 pt w ≠ none := by
  have h1 : idx 1 w = idx 1 v := by simp only [idx, pow_one, hvw]
  have h2 : idx 2 w = idx 2 v := by
    simp only [idx]
    norm_num
    omega
  simp only [slot, h1, h2] at h ⊢
  split
  · next hval2 =>
    rw [if_pos hval2] at h
    split
    · exact Option.some_ne_none _
    · next hval1 =>
      rw [if_neg hval1] at h
      exact absurd rfl h
  · next hval2 =>
    rw [if_neg hval2] at h
    exact absurd rfl h

/-- What `mappages` has done after `k` pages: it stops at the last page, or when the free list is
    empty. It takes at most two pages for every 2 MB region that has no table yet. -/
structure Mapped (img : Image) (pt last perm a pa : Nat) (fs fs' : List Nat) (s s' : Phys)
    (k : Nat) (r : Bool) : Prop where
  table : Table img s' fs' pt
  kept : Kept (foot fs s.mem 2 pt) (foot fs' s'.mem 2 pt) s.mem s'.mem
  look : look s'.mem pt = mapRange (look s.mem pt) (a / PGSIZE) pa (perm ||| PTE_V) k
  done : r = true → a + k * PGSIZE = last + PGSIZE
  full : r = false → fs' = []
  taken : ∀ p ∈ fs', p ∈ fs
  short : r = false → a ≤ last → last % PGSIZE = 0 → a + k * PGSIZE ≤ last
  took : a ≤ last → last % PGSIZE = 0 → fs.length ≤ fs'.length +
    2 * (last / PGSIZE / 512 - a / PGSIZE / 512) +
    if slot s.mem 2 pt (a / PGSIZE) = none then 2 else 0

theorem mappagesFrom_runs (h : Table img s fs pt) (ha : a % PGSIZE = 0) (hpa : pa < 2 ^ 64)
    (hperm : perm ||| PTE_V < 1024)
    (hE : (last % PGSIZE = 0 → a ≤ last → last < MAXVA →
      ∃ w, a / PGSIZE ≤ w ∧ w ≤ last / PGSIZE ∧ look s.mem pt w ≠ none) → ∀ e, E e) :
    (mappagesFrom pt last perm a pa).Runs s E fun r s' =>
      ∃ fs' k, Mapped img pt last perm a pa fs fs' s s' k r := by
  -- on the number of addresses below `MAXVA`
  induction hn : MAXVA - a using Nat.strong_induction_on generalizing a pa s fs with
  | _ n ih =>
  rw [mappagesFrom]
  by_cases hmax : a < MAXVA
  swap
  · rw [if_neg hmax]
    exact .panic (hE (fun _ hle hlt => absurd (hle.trans_lt hlt) hmax) _)
  rw [if_pos hmax]
  refine .bind (walk_runs h.toTree hmax) ?_
  rintro _ s₁ ⟨fs₁, ht₁, hg₁, hlen₁, hsame₁, hr⟩
  have h₁ := h.grown ht₁ hg₁
  have hav : a / PGSIZE < NPAGES := by simp only [PGSIZE, NPAGES, MAXVA] at *; omega
  rcases hr with ⟨rfl, hfs⟩ | ⟨pte, rfl, hslot⟩
  · refine .ret ⟨fs₁, 0, h₁, hg₁.kept, ?_, (fun hc => by cases hc), fun _ => hfs,
      hg₁.taken, fun _ hle _ => by omega, fun _ _ => ?_⟩
    · rw [mapRange_zero, hg₁.look]
    · split
      · omega
      · next hs => rw [hsame₁ hs]; omega
  refine .seq (load_runs ?_)
  have hentry : leGet 8 s₁.mem pte = entry s.mem 2 pt (a / PGSIZE) := by
    rw [← entry_of_slot hslot, hg₁.entry]
  rw [hentry]
  split
  · next hval =>
    refine .panic (hE (fun _ hle _ => ⟨a / PGSIZE, le_rfl, Nat.div_le_div_right hle, ?_⟩) _)
    rw [look, if_pos hav, decode, if_pos hval]
    exact Option.some_ne_none _
  obtain ⟨hdec, hlt⟩ := leaf_entry hpa hperm
  have hs₂ : (Phys.mk (lePut 8 s₁.mem pte (pa2pte pa ||| (perm ||| PTE_V))) s₁.freelist).mem
      = lePut 8 s₁.mem pte (pa2pte pa ||| (perm ||| PTE_V)) := rfl
  obtain ⟨h₂, hput, hkept₂⟩ := h₁.put hslot hav hlt hs₂ rfl
  have hlook := hput.look hav
  rw [hdec, hg₁.look] at hlook
  refine .seq (.modify ?_)
  have hdiv : (a + PGSIZE) / PGSIZE = a / PGSIZE + 1 := Nat.add_div_right a (by decide)
  by_cases hlast : a = last
  · subst hlast
    rw [if_pos rfl]
    refine .ret ⟨fs₁, 1, h₂, hg₁.kept.trans hkept₂, ?_, fun _ => by omega, (fun hc => by cases hc),
      hg₁.taken, (fun hc => by cases hc), fun _ _ => ?_⟩
    · rw [hlook, ← mapRange_succ hpa, mapRange_zero]
    · split
      · omega
      · next hs => rw [hsame₁ hs]; omega
  rw [if_neg hlast]
  refine (ih (MAXVA - (a + PGSIZE)) (by simp only [PGSIZE]; omega) h₂
    (by simp only [PGSIZE] at *; omega) (Nat.mod_lt _ (by decide)) (fun hP => hE ?_) rfl).mono ?_
  · intro hal hle hlt
    obtain ⟨w, hw, hwl, hne⟩ := hP hal (by simp only [PGSIZE] at *; omega) hlt
    refine ⟨w, by omega, hwl, ?_⟩
    rwa [hlook, update_of_ne (by omega)] at hne
  · rintro r s' ⟨fs', k, hm⟩
    refine ⟨fs', k + 1, hm.table, (hg₁.kept.trans hkept₂).trans hm.kept, ?_, fun hd => ?_, hm.full,
      fun p hp => hg₁.taken p (hm.taken p hp), fun hd hle hal => ?_, fun hle hal => ?_⟩
    · rw [hm.look, hdiv, hlook, mapRange_succ hpa]
    · have := hm.done hd
      simp only [PGSIZE] at *
      omega
    · have := hm.short hd (by simp only [PGSIZE] at *; omega) hal
      simp only [PGSIZE] at *
      omega
    · -- the next page needs a new table only where a new region begins
      have hnext : a + PGSIZE ≤ last := by simp only [PGSIZE] at *; omega
      have htook := hm.took hnext hal
      have hhere : fs.length ≤ fs₁.length +
          if slot s.mem 2 pt (a / PGSIZE) = none then 2 else 0 := by
        split
        · exact hlen₁
        · next hs => rw [hsame₁ hs]; omega
      rw [hdiv] at htook
      by_cases hreg : (a / PGSIZE + 1) / 512 = a / PGSIZE / 512
      · have hno : ¬ slot (lePut 8 s₁.mem pte (pa2pte pa ||| (perm ||| PTE_V))) 2 pt
            (a / PGSIZE + 1) = none := by
          refine slot_region hreg ?_
          rw [hput.slot, hslot]
          exact Option.some_ne_none _
        rw [if_neg hno, hreg] at htook
        omega
      · have hle' : (a / PGSIZE + 1) / 512 ≤ last / PGSIZE / 512 := by
          refine Nat.div_le_div_right ?_
          rw [← hdiv]
          exact Nat.div_le_div_right hnext
        have : (if slot (lePut 8 s₁.mem pte (pa2pte pa ||| (perm ||| PTE_V))) 2 pt
            (a / PGSIZE + 1) = none then 2 else 0) ≤ 2 := by split <;> omega
        simp only at htook
        omega

/-- `mappages` of one page adds its binding, or changes no binding and the free list is empty. -/
theorem mappages_page_runs {size : Nat} (h : Table img s fs pt) (hsize : 0 < size)
    (hin : va % PGSIZE + size ≤ PGSIZE) (hva : va < MAXVA)
    (hnone : look s.mem pt (va / PGSIZE) = none) (hpa : pa < 2 ^ 64)
    (hperm : perm ||| PTE_V < 1024) :
    (mappages pt va size pa perm).Runs s E fun r s' => ∃ fs', Table img s' fs' pt ∧
      Kept (foot fs s.mem 2 pt) (foot fs' s'.mem 2 pt) s.mem s'.mem ∧
      (fs.length ≤ fs'.length + 2 ∧ ∀ p ∈ fs', p ∈ fs) ∧
      ((r = true ∧ look s'.mem pt = update (look s.mem pt) (va / PGSIZE)
          (some (pgrounddown pa, perm ||| PTE_V))) ∨
        (r = false ∧ fs' = [] ∧ look s'.mem pt = look s.mem pt)) := by
  have hal : pgrounddown va % PGSIZE = 0 := Nat.mul_mod_left _ _
  have hlast : pgrounddown ((va + size - 1) % 2 ^ 64) = pgrounddown va := by
    rw [pgrounddown, pgrounddown]
    simp only [PGSIZE, MAXVA] at hin hva ⊢
    omega
  have hvd : pgrounddown va / PGSIZE = va / PGSIZE := Nat.mul_div_cancel _ (by decide)
  rw [mappages, if_neg (by omega), hlast]
  refine (mappagesFrom_runs h hal hpa hperm fun hP => ?_).mono ?_
  · obtain ⟨w, hvw, hwv, hne⟩ := hP hal le_rfl (by
      rw [pgrounddown]
      simp only [PGSIZE, MAXVA] at hva ⊢
      omega)
    rw [hvd] at hvw hwv
    rw [le_antisymm hwv hvw] at hne
    exact absurd hnone hne
  · rintro r s' ⟨fs', k, hm⟩
    refine ⟨fs', hm.table, hm.kept, ⟨?_, hm.taken⟩, ?_⟩
    · have htook := hm.took le_rfl hal
      have : (if slot s.mem 2 pt (pgrounddown va / PGSIZE) = none then 2 else 0) ≤ 2 := by
        split <;> omega
      omega
    · have hlook := hm.look
      rw [hvd] at hlook
      cases r with
      | true =>
        have hk := hm.done rfl
        obtain rfl : k = 1 := by simp only [PGSIZE] at hk; omega
        rw [← mapRange_succ hpa, mapRange_zero] at hlook
        exact .inl ⟨rfl, hlook⟩
      | false =>
        have hk := hm.short rfl le_rfl hal
        obtain rfl : k = 0 := by simp only [PGSIZE] at hk; omega
        rw [mapRange_zero] at hlook
        exact .inr ⟨rfl, hm.full rfl, hlook⟩

end

end Xv6.Mem
