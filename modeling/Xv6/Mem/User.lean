import Xv6.Mem.Space

/-!
# Page tables of processes

`Aspace` is the shape of a process's page table: the pages of its memory, the trapframe and the
trampoline, and nothing else. `proc_pagetable` makes one without user memory, `uvmcopy` fills one
with a copy of another, and `proc_freepagetable` frees one with all its memory.
-/

namespace Xv6.Mem

open Lib Function

/-- The page table at `pt` maps `n` pages of user memory, the trapframe page `tf` and the
    trampoline. -/
structure Aspace (img : Image) (m : Bytes) (pt n tf : Nat) : Prop where
  wf : Wf m 2 pt
  high : ∀ v, 256 ≤ idx 2 v → entry m 2 pt v = 0
  user : ∀ v < n, ∃ pa fl, look m pt v = some (pa, fl) ∧ fl &&& PTE_R ≠ 0
  gap : ∀ v, n ≤ v → v < TF → look m pt v = none
  trapframe : look m pt TF = some (tf, PTE_R ||| PTE_W ||| PTE_V)
  trampoline : look m pt (TF + 1) = some (img.trampoline, PTE_R ||| PTE_X ||| PTE_V)

/-- The page-table pages and frames of a process. -/
def spacePages (m : Bytes) (pt n : Nat) : Multiset Nat :=
  ptPages m 2 pt + frames (look m pt) 0 n

section

variable {img : Image} {s s' : Phys} {fs fs' : List Nat} {pt p v n k sz tf old new : Nat}
  {m m' : Bytes} {A : Multiset Nat} {E : Option String → Prop}

theorem space_eq : space fs m pt n = ↑fs + spacePages m pt n := by
  rw [space, foot, spacePages, add_assoc]

/-- The shape of an address space depends on its page-table pages only. -/
theorem Aspace.congr (h : Aspace img m pt n tf) (hs : ∀ p ∈ ptPages m 2 pt, Same p m m') :
    Aspace img m' pt n tf ∧ spacePages m' pt n = spacePages m pt n ∧ look m' pt = look m pt := by
  have hal := alike hs
  have hlook := hal.look
  refine ⟨⟨hal.wf h.wf, fun v hv => (hal.entry v).trans (h.high v hv), ?_, ?_, ?_, ?_⟩, ?_, hlook⟩
  · rw [hlook]
    exact h.user
  · rw [hlook]
    exact h.gap
  · rw [hlook]
    exact h.trapframe
  · rw [hlook]
    exact h.trampoline
  · rw [spacePages, spacePages, hal.pages, hlook]

/-- An address space and the free list. -/
theorem Aspace.space (h : Aspace img s.mem pt n tf) (hfree : Free img s fs)
    (hnd : (↑fs + spacePages s.mem pt n).Nodup) (hp : ∀ p ∈ spacePages s.mem pt n, img.Page p) :
    Space img s fs pt n := by
  rw [spacePages, ← add_assoc] at hnd
  refine ⟨⟨⟨hfree, h.wf, (Multiset.nodup_add.mp hnd).1, fun p hm => hp p ?_⟩, h.high⟩, h.user,
    h.gap, hnd, fun p hm => hp p ?_⟩
  · exact Multiset.mem_add.mpr (.inl hm)
  · exact Multiset.mem_add.mpr (.inr hm)

/-- What an operation on the user memory makes of an address space. -/
theorem Aspace.of_space (h : Aspace img m pt n tf) (hs : Space img s' fs' pt k)
    (htop : SameTop pt m s'.mem) : Aspace img s'.mem pt k tf :=
  ⟨hs.wf, hs.high, hs.user, hs.gap, (htop TF le_rfl).trans h.trapframe,
    (htop (TF + 1) (Nat.le_succ _)).trans h.trampoline⟩

/-! ## `uvmfree` -/

theorem uvmfree_runs (h : Space img s fs pt (npages sz))
    (htop : ∀ v, TF ≤ v → look s.mem pt v = none) :
    (uvmfree img pt sz).Runs s E fun _ s' => ∃ fs', Free img s' fs' ∧
      Kept (space fs s.mem pt (npages sz)) ↑fs' s.mem s'.mem := by
  refine .bind (R := fun _ s' => ∃ fs', Shrunk img s s' fs fs' pt (npages sz) 0)
    (.when (fun _ => ?_) fun hz => ?_) ?_
  · exact .mono (h.unmap (Nat.zero_le _)) fun _ _ hq => hq
  · obtain rfl : sz = 0 := by omega
    exact ⟨fs, .refl h⟩
  · rintro _ s₁ ⟨fs₁, hsh⟩
    have hs₁ := hsh.space
    have hk₁ := hsh.kept
    have htop₁ := hsh.top h
    have hnone : ∀ v, look s₁.mem pt v = none := by
      intro v
      rcases Nat.lt_or_ge v TF with hv | hv
      · exact hs₁.gap v (Nat.zero_le v) hv
      · rw [htop₁ v hv]
        exact htop v hv
    refine (freewalk_runs hs₁.toTree (hs₁.no_leaf hnone)).mono ?_
    rintro _ s₂ ⟨fs₂, hfree, hk₂⟩
    refine ⟨fs₂, hfree, hk₁.trans ?_⟩
    rw [space, frames, add_zero]
    exact hk₂

/-! ## `proc_pagetable` and `proc_freepagetable` -/

/-- Removing a mapping above the user memory. -/
theorem Space.unmap_top {pa fl : Nat} (h : Space img s fs pt n) (hv : TF ≤ v) (hvn : v < NPAGES)
    (hl : look s.mem pt v = some (pa, fl)) (hfl : fl ≠ PTE_V) :
    (uvmunmap img pt (v * PGSIZE) 1 false).Runs s E fun _ s' => ∃ fs', Space img s' fs' pt n ∧
      Kept (space fs s.mem pt n) (space fs' s'.mem pt n) s.mem s'.mem ∧
      look s'.mem pt = update (look s.mem pt) v none := by
  have hdiv : v * PGSIZE / PGSIZE = v := Nat.mul_div_cancel _ (by decide)
  have hn := h.lt_TF
  refine (uvmunmap_runs h.toTable (Nat.mul_mod_left _ _)
    (by simp only [NPAGES, PGSIZE] at hvn ⊢; omega) ?_ ?_ ?_).mono ?_
  · rw [freed, if_neg Bool.false_ne_true, add_zero]
    exact h.foot_nodup
  · rw [freed, if_neg Bool.false_ne_true]
    exact fun p hp => absurd hp (Multiset.notMem_zero p)
  · rw [hdiv]
    rintro ⟨w, hw, hwn, hc⟩
    obtain rfl : w = v := by omega
    exact absurd (hc pa fl hl) hfl
  · rw [hdiv, freed, if_neg Bool.false_ne_true, add_zero]
    rintro _ s' ⟨fs', ht, hk, hlook⟩
    rw [← unmapRange_succ, unmapRange_zero] at hlook
    have hsame : frames (look s'.mem pt) 0 n = frames (look s.mem pt) 0 n := by
      refine frames_congr fun w _ hw => ?_
      rw [hlook, update_of_ne (by omega)]
    have hk' := hk.add (frames (look s.mem pt) 0 n)
    refine ⟨fs', h.of_kept ht ?_ (fun w hw => ?_) (fun w hw hw' => ?_), ?_, hlook⟩
    · rw [space, space, hsame]
      exact hk'.pages
    · rw [hlook, update_of_ne (by omega)]
      exact h.user w hw
    · rw [hlook, update_of_ne (by omega)]
      exact h.gap w hw hw'
    · rw [space, space, hsame]
      exact hk'

theorem procFreepagetable_runs (h : Space img s fs pt (npages sz))
    (ha : Aspace img s.mem pt (npages sz) tf) :
    (procFreepagetable img pt sz).Runs s E fun _ s' => ∃ fs', Free img s' fs' ∧
      Kept (space fs s.mem pt (npages sz)) ↑fs' s.mem s'.mem := by
  refine .bind (h.unmap_top (v := TF + 1) (Nat.le_succ _) (by decide) ha.trampoline (by decide)) ?_
  rintro _ s₁ ⟨fs₁, hs₁, hk₁, hlook₁⟩
  have htf : look s₁.mem pt TF = some (tf, PTE_R ||| PTE_W ||| PTE_V) := by
    rw [hlook₁, update_of_ne (by decide)]
    exact ha.trapframe
  refine .bind (hs₁.unmap_top (v := TF) le_rfl (by decide) htf (by decide)) ?_
  rintro _ s₂ ⟨fs₂, hs₂, hk₂, hlook₂⟩
  refine (uvmfree_runs hs₂ fun v hv => ?_).mono ?_
  · by_cases hvt : v = TF
    · rw [hlook₂, hvt, update_self]
    · rw [hlook₂, update_of_ne hvt, hlook₁]
      by_cases hvt' : v = TF + 1
      · rw [hvt', update_self]
      · rw [update_of_ne hvt', look, if_neg]
        simp only [TF, NPAGES] at *
        omega
  · rintro _ s₃ ⟨fs₃, hfree, hk₃⟩
    exact ⟨fs₃, hfree, (hk₁.trans hk₂).trans hk₃⟩

/-- A table that has no mapping below the trapframe page. -/
theorem Table.space (h : Table img s fs pt) (hgap : ∀ v < TF, look s.mem pt v = none) :
    Space img s fs pt 0 := by
  refine ⟨h, fun v hv => absurd hv (Nat.not_lt_zero v), fun v _ hv => hgap v hv, ?_,
    fun p hp => absurd hp (Multiset.notMem_zero p)⟩
  rw [Mem.space, frames, add_zero]
  exact h.foot_nodup

/-- `proc_pagetable` makes an address space without user memory, unless there is no memory for
    its five pages. -/
theorem procPagetable_runs (h : Free img s fs) (htf : tf % PGSIZE = 0) (htf' : tf < 2 ^ 64) :
    (procPagetable img tf).Runs s E fun r s' => ∃ fs', Free img s' fs' ∧
      ((r = none ∧ Kept ↑fs ↑fs' s.mem s'.mem ∧ fs.length ≤ 5) ∨
        ∃ pt, r = some pt ∧ Space img s' fs' pt 0 ∧ Aspace img s'.mem pt 0 tf ∧
          Kept ↑fs (space fs' s'.mem pt 0) s.mem s'.mem ∧ fs.length ≤ fs'.length + 5) := by
  have htr : img.trampoline < 2 ^ 64 := by
    have := img.text
    have := img.data
    have := img.room
    simp only [PHYSTOP, KERNBASE] at *
    omega
  have hdown : pgrounddown tf = tf := Nat.div_mul_cancel (Nat.dvd_of_mod_eq_zero htf)
  have hdown' : pgrounddown img.trampoline = img.trampoline :=
    Nat.div_mul_cancel (Nat.dvd_of_mod_eq_zero img.aligned)
  have h0 : npages 0 = 0 := by decide
  refine .bind (uvmcreate_runs h) ?_
  rintro _ s₁ (⟨rfl, rfl, rfl⟩ | ⟨pt, fs₁, rfl, rfl, ht₁, hz, hf₁⟩)
  · exact .ret ⟨[], h, .inl ⟨rfl, .refl .., by decide⟩⟩
  have hlook₁ := look_of_zero hz
  have hk₁ : Kept ↑(pt :: fs₁) (foot fs₁ s₁.mem 2 pt) s.mem s₁.mem := by
    refine ⟨?_, hf₁.mono fun q hq => ?_⟩
    · rw [foot, hz.ptPages, ← Multiset.cons_coe, ← Multiset.singleton_add, add_comm]
    · rw [Multiset.mem_singleton.mp hq]
      exact Multiset.mem_coe.mpr List.mem_cons_self
  have hzero : ∀ m : Bytes, ∀ fs : List Nat, space fs m pt 0 = foot fs m 2 pt := fun m fs => by
    rw [space, frames, add_zero]
  refine .bind (mappages_page_runs ht₁ (by decide) (by decide) (by decide)
    (by rw [hlook₁]) htr (by decide)) ?_
  rintro _ s₂ ⟨fs₂, ht₂, hk₂, hlen₂, ⟨rfl, hlook₂⟩ | ⟨rfl, rfl, hlook₂⟩⟩
  · rw [hlook₁, hdown', show TRAMPOLINE / PGSIZE = TF + 1 by decide] at hlook₂
    rw [if_pos rfl]
    refine .bind (mappages_page_runs ht₂ (by decide) (by decide) (by decide)
      (by rw [hlook₂, update_of_ne (by decide)]) htf' (by decide)) ?_
    rintro _ s₃ ⟨fs₃, ht₃, hk₃, hlen₃, ⟨rfl, hlook₃⟩ | ⟨rfl, rfl, hlook₃⟩⟩
    · rw [hdown, show TRAPFRAME / PGSIZE = TF by decide] at hlook₃
      rw [if_pos rfl]
      have hgap : ∀ v < TF, look s₃.mem pt v = none := fun v hv => by
        rw [hlook₃, update_of_ne (by omega), hlook₂, update_of_ne (by omega)]
      have hs₃ := ht₃.space hgap
      refine .ret ⟨fs₃, ht₃.free, .inr ⟨pt, rfl, hs₃, ⟨ht₃.wf, ht₃.high, hs₃.user, hs₃.gap, ?_, ?_⟩,
        ?_, by simp only [List.length_cons]; omega⟩⟩
      · rw [hlook₃, update_self]
      · rw [hlook₃, update_of_ne (by decide), hlook₂, update_self]
      · rw [hzero]
        exact (hk₁.trans hk₂).trans hk₃
    · rw [if_neg Bool.false_ne_true]
      have hs₃ := ht₃.space fun v hv => by
        rw [hlook₃, hlook₂, update_of_ne (by omega)]
      refine .bind (hs₃.unmap_top (v := TF + 1) (Nat.le_succ _) (by decide)
        (by rw [hlook₃, hlook₂, update_self]) (by decide)) ?_
      rintro _ s₄ ⟨fs₄, hs₄, hk₄, hlook₄⟩
      refine .bind (uvmfree_runs (by rw [h0]; exact hs₄) fun v hv => ?_) ?_
      · rw [hlook₄, hlook₃, hlook₂, update_idem, update_apply, ite_self]
      · rintro _ s₅ ⟨fs₅, hfree, hk₅⟩
        refine .ret ⟨fs₅, hfree, .inl ⟨rfl, ?_, ?_⟩⟩
        swap
        · simp only [List.length_cons, List.length_nil] at hlen₃ ⊢
          omega
        rw [h0, hzero] at hk₅
        rw [hzero, hzero] at hk₄
        exact (((hk₁.trans hk₂).trans hk₃).trans hk₄).trans hk₅
  · rw [if_neg Bool.false_ne_true]
    have hs₂ := ht₂.space fun v _ => by rw [hlook₂, hlook₁]
    refine .bind (uvmfree_runs (by rw [h0]; exact hs₂) fun v _ => by rw [hlook₂, hlook₁]) ?_
    rintro _ s₃ ⟨fs₃, hfree, hk₃⟩
    refine .ret ⟨fs₃, hfree, .inl ⟨rfl, ?_, ?_⟩⟩
    swap
    · simp only [List.length_cons, List.length_nil] at hlen₂ ⊢
      omega
    rw [h0, hzero] at hk₃
    exact (hk₁.trans hk₂).trans hk₃

/-! ## `uvmcopy` -/

theorem look_some {b : Nat × Nat} (h : look m pt v = some b) :
    v < NPAGES ∧ Valid (entry m 2 pt v) ∧
      b = (pte2pa (entry m 2 pt v), pteFlags (entry m 2 pt v)) := by
  rw [look] at h
  split at h
  · next hv =>
    rw [decode] at h
    split at h
    · next hval =>
      cases h
      exact ⟨hv, hval, rfl⟩
    · cases h
  · cases h

theorem look_flags_valid {fl : Nat} (h : look m pt v = some (p, fl)) : fl ||| PTE_V = fl := by
  obtain ⟨-, hval, hb⟩ := look_some h
  cases hb
  rw [valid_iff] at hval
  have hodd : pteFlags (entry m 2 pt v) % 2 = 1 := by
    rw [pteFlags_eq]
    omega
  refine Nat.eq_of_testBit_eq fun i => ?_
  rw [Nat.testBit_or]
  cases i with
  | zero =>
    rw [Nat.testBit_zero, hodd]
    rfl
  | succ i =>
    have hone : Nat.testBit PTE_V (i + 1) = false := by
      rw [Nat.testBit_succ]
      exact Nat.zero_testBit i
    rw [hone, Bool.or_false]

theorem look_aligned {fl : Nat} (h : look m pt v = some (p, fl)) : p % PGSIZE = 0 := by
  obtain ⟨-, -, hb⟩ := look_some h
  cases hb
  exact pte2pa_mod _

/-- The flags and the bytes of the virtual page in the page table `old`, in the memory `m`, in a
    page that was free. -/
def Content.copyOf (m : Bytes) (old : Nat) (fs : List Nat) : Content where
  holds v p x m' := p ∈ fs ∧
    ∃ pa, look m old v = some (pa, x) ∧ ∀ i < PGSIZE, m' (p + i) = m (pa + i)
  same h hs := by
    obtain ⟨hp, pa, hl, hb⟩ := h
    exact ⟨hp, pa, hl, fun i hi => (hs i hi).trans (hb i hi)⟩

/-- The page table `old` and the first `n` pages of its memory are no pages of `A`. -/
structure Beside (m : Bytes) (old n : Nat) (A : Multiset Nat) : Prop where
  user : ∀ v < n, ∃ pa fl, look m old v = some (pa, fl) ∧ fl &&& PTE_R ≠ 0
  table : ∀ p ∈ ptPages m 2 old, p % PGSIZE = 0 ∧ p ∉ A
  frames : ∀ v pa fl, v < n → look m old v = some (pa, fl) → pa ∉ A

theorem Beside.look (h : Beside m old n A) (hf : Frame A m m') : look m' old = look m old :=
  (alike_of_frame hf (fun p hp => (h.table p hp).1) fun p hp => (h.table p hp).2).look

/-- The copy of a page of `old`. -/
theorem Beside.copied {s₀ : Phys} (h : Beside s₀.mem old n A) (hv : v < n) {pa fl : Nat}
    (hl : Mem.look s₀.mem old v = some (pa, fl)) (hf : Frame A s₀.mem m) (hp : p ∈ fs) :
    (Content.copyOf s₀.mem old fs).holds v p fl (copy m p pa PGSIZE) := by
  refine ⟨hp, pa, hl, fun i hi => ?_⟩
  rw [copy, if_pos ⟨Nat.le_add_right p i, by omega⟩, Nat.add_sub_cancel_left]
  exact hf pa (look_aligned hl) (h.frames v pa fl hv hl) i hi

/-- The loop of `uvmcopy`: it ends with a copy of every page, or with no page at all; then there
    were not three free pages for each page that was needed. -/
theorem uvmcopyFrom_runs {s₀ : Phys} {fs₀ : List Nat} (h₀ : Space img s₀ fs₀ new 0)
    (hg : Grew img s₀ s fs₀ fs new 0 k (.copyOf s₀.mem old fs₀)) (hfs : ∀ p ∈ fs, p ∈ fs₀)
    (hlen : fs₀.length ≤ fs.length + 3 * k) (hk : k ≤ npages sz) (hsz : sz ≤ 2 ^ 64 - PGSIZE)
    (hold : Beside s₀.mem old (npages sz) (foot fs₀ s₀.mem 2 new)) :
    (uvmcopyFrom img old new sz (k * PGSIZE)).Runs s E fun r s' => ∃ fs' n',
      Grew img s₀ s' fs₀ fs' new 0 n' (.copyOf s₀.mem old fs₀) ∧
      ((r = true ∧ n' = npages sz) ∨ (r = false ∧ n' = 0 ∧ fs₀.length ≤ 3 * npages sz)) := by
  -- on the number of pages still to copy
  induction hd : npages sz - k using Nat.strong_induction_on generalizing k s fs with
  | _ d ih =>
  have h := hg.space
  have hnp := npages_eq hsz
  rw [uvmcopyFrom]
  by_cases hlt : k * PGSIZE < sz
  swap
  · rw [if_neg hlt]
    have hkn : k = npages sz := by
      rw [hnp] at hk ⊢
      simp only [PGSIZE] at hlt hk ⊢
      omega
    exact .ret ⟨fs, k, hg, .inl ⟨rfl, hkn⟩⟩
  rw [if_pos hlt]
  have hkn : k < npages sz := by
    rw [hnp]
    simp only [PGSIZE] at hlt ⊢
    omega
  have hdiv : k * PGSIZE / PGSIZE = k := Nat.mul_div_cancel _ (by decide)
  have hTF := h.lt_TF
  obtain ⟨pa, fl, hl, hfl⟩ := hold.user k hkn
  have hl' : look s.mem old k = some (pa, fl) := by rw [hold.look hg.frame, hl]
  obtain ⟨-, hval, hb⟩ := look_some hl'
  rw [Prod.mk.injEq] at hb
  obtain ⟨hpa, hflags⟩ := hb
  -- what is left to do when a page could not be had
  have hundo : ∀ {s₁ : Phys} {fs₁ : List Nat},
      Grew img s₀ s₁ fs₀ fs₁ new 0 k (.copyOf s₀.mem old fs₀) → fs₀.length ≤ 3 * npages sz →
      (do uvmunmap img new 0 k true; return false : Prog Phys Bool).Runs s₁ E
        fun r s' => ∃ fs' n', Grew img s₀ s' fs₀ fs' new 0 n' (.copyOf s₀.mem old fs₀) ∧
          ((r = true ∧ n' = npages sz) ∨
            (r = false ∧ n' = 0 ∧ fs₀.length ≤ 3 * npages sz)) := by
    intro s₁ fs₁ hg₁ hfew
    refine .bind (Prog.Runs.mono (hg₁.space.unmap (Nat.zero_le k)) fun _ _ hq => hq) ?_
    rintro _ s₂ ⟨fs₂, hs₂⟩
    exact .ret ⟨fs₂, 0, hg₁.back h₀ hs₂, .inr ⟨rfl, rfl, hfew⟩⟩
  refine .bind (walk_slot (by simp only [TF, NPAGES, PGSIZE, MAXVA] at hTF ⊢; omega)) ?_
  rintro _ s ⟨rfl, rfl⟩
  rw [hdiv]
  cases hslot : slot s.mem 2 old k with
  | none =>
    rw [entry_of_no_slot hslot] at hval
    exact absurd hval not_valid_zero
  | some pte =>
  refine .seq (load_runs ?_)
  rw [← entry_of_slot hslot, if_neg (not_not.mpr hval), ← hpa, ← hflags]
  refine .bind (kalloc_runs h.free) ?_
  rintro _ s₁ (⟨rfl, rfl, rfl⟩ | ⟨p, fs₁, rfl, rfl, hfree, hf⟩)
  · exact hundo hg (by simp only [List.length_nil] at hlen; omega)
  · have hp := (h.free.page p List.mem_cons_self).aligned
    have hpfoot : p ∈ foot fs₀ s₀.mem 2 new :=
      hg.foot_mem (mem_foot.mpr (.inl List.mem_cons_self))
    have hf₁ : Frame (foot fs₀ s₀.mem 2 new) s₀.mem s₁.mem := by
      refine hg.frame.trans (hf.mono fun q hq => ?_)
      rw [Multiset.mem_singleton.mp hq]
      exact hpfoot
    have hcopy : Frame {p} s₁.mem (copy s₁.mem p pa PGSIZE) := frame_copy hp 0 (by decide)
    refine .seq (.modify ?_)
    have hfree' : Free img ⟨copy s₁.mem p pa PGSIZE, s₁.freelist⟩ fs₁ := by
      refine hfree.frame hcopy (fun q hq hm => ?_) rfl
      rw [Multiset.mem_singleton.mp hm] at hq
      exact (List.nodup_cons.mp h.free.nodup).1 hq
    refine .bind (h.map_page hfree' (hf.trans hcopy) (look_flags_lt hl) hfl) ?_
    rw [List.length_cons] at hlen
    rintro _ s₂ (⟨rfl, fs₂, hadd⟩ | ⟨rfl, hshort, hkfree⟩)
    · rw [if_pos rfl, show k * PGSIZE + PGSIZE = (k + 1) * PGSIZE from (Nat.succ_mul k PGSIZE).symm]
      have hV : fl ||| PTE_V = fl := look_flags_valid hl
      rw [hV] at hadd
      have hg₂ := hg.trans (hadd.grew (hold.copied hkn hl hf₁ (hfs p List.mem_cons_self)))
      have htook := hadd.took
      rw [List.length_cons] at htook
      exact ih _ (by omega) hg₂ (fun q hq => hfs q (hadd.taken q hq)) (by omega) (by omega) rfl
    · rw [if_neg Bool.false_ne_true]
      refine .bind hkfree ?_
      rintro _ s₃ ⟨fs₃, hg₃⟩
      exact hundo (hg.trans (hg₃ _)) (by omega)

/-- `uvmcopy` makes a copy of every page, or leaves the page table `new` without pages. -/
theorem uvmcopy_runs (h : Space img s fs new 0) (hsz : sz ≤ 2 ^ 64 - PGSIZE)
    (hold : Beside s.mem old (npages sz) (foot fs s.mem 2 new)) :
    (uvmcopy img old new sz).Runs s E fun r s' => ∃ fs' n',
      Grew img s s' fs fs' new 0 n' (.copyOf s.mem old fs) ∧
      ((r = true ∧ n' = npages sz) ∨ (r = false ∧ n' = 0 ∧ fs.length ≤ 3 * npages sz)) := by
  have hrun := uvmcopyFrom_runs (E := E) h (.refl h) (fun _ hp => hp) (Nat.le_refl _)
    (Nat.zero_le _) hsz hold
  rw [Nat.zero_mul] at hrun
  exact hrun

end

end Xv6.Mem
