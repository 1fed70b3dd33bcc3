import Xv6.Mem.Map

/-!
# User address spaces

The user memory of a process of size `sz` is the virtual pages below `npages sz`. `Space` says of
a page table and the free list that exactly these pages are mapped below the trapframe page, that
they are leaves and that nobody shares a frame. `uvmalloc`, `uvmdealloc`, `uvmcopy` and `uvmfree`
keep this shape, also when they fail, and move pages only between the free list, the page table
and the frames (`Kept` of `space`). The two pages at the top are left alone.
-/

namespace Xv6.Mem

open Lib Function Multiset

/-- The virtual page of the trapframe; the trampoline is the page after it. -/
abbrev TF : Nat := NPAGES - 2

/-- The number of pages of a process of size `sz`. -/
def npages (sz : Nat) : Nat := pgroundup sz / PGSIZE

/-- The free pages, the page-table pages and the frames of the first `n` virtual pages. -/
def space (fs : List Nat) (m : Bytes) (pt n : Nat) : Multiset Nat :=
  foot fs m 2 pt + frames (look m pt) 0 n

structure Space (img : Image) (s : Phys) (fs : List Nat) (pt n : Nat) : Prop
    extends Table img s fs pt where
  user : ∀ v < n, ∃ pa fl, look s.mem pt v = some (pa, fl) ∧ fl &&& PTE_R ≠ 0
  gap : ∀ v, n ≤ v → v < TF → look s.mem pt v = none
  apart : (space fs s.mem pt n).Nodup
  ram : ∀ p ∈ frames (look s.mem pt) 0 n, img.Page p

/-- A space was cut down to `n'` pages: nothing but the free list, the page table and the frames
    that were cut off has changed. -/
structure Shrunk (img : Image) (s s' : Phys) (fs fs' : List Nat) (pt n n' : Nat) : Prop where
  space : Space img s' fs' pt n'
  le : n' ≤ n
  pages : Mem.space fs' s'.mem pt n' = Mem.space fs s.mem pt n
  frame : Frame (foot fs s.mem 2 pt + frames (look s.mem pt) n' (n - n')) s.mem s'.mem
  look : look s'.mem pt = unmapRange (look s.mem pt) n' (n - n')

/-- What is said of the virtual page `v` that is bound to the page `p` with the flags `x`, and of
    what is in that page. -/
structure Content where
  holds : (v p x : Nat) → Bytes → Prop
  same : ∀ {v p x m m'}, holds v p x m → Same p m m' → holds v p x m'

/-- A page of zeroes with the flags `x`. -/
def Content.zeroed (x : Nat) : Content where
  holds _ p x' m := x' = x ∧ Zero p m
  same h hs := ⟨h.1, h.2.same hs⟩

/-- A space has got new pages up to `n'`, with the contents `C`: nothing but the free list and the
    page table has changed. -/
structure Grew (img : Image) (s s' : Phys) (fs fs' : List Nat) (pt n n' : Nat) (C : Content) :
    Prop where
  space : Space img s' fs' pt n'
  le : n ≤ n'
  pages : Mem.space fs' s'.mem pt n' = Mem.space fs s.mem pt n
  frame : Frame (foot fs s.mem 2 pt) s.mem s'.mem
  old : ∀ v, v < n ∨ n' ≤ v → Mem.look s'.mem pt v = Mem.look s.mem pt v
  new : ∀ v, n ≤ v → v < n' → ∃ p x, Mem.look s'.mem pt v = some (p, x) ∧ C.holds v p x s'.mem

/-- The mappings from the trapframe page on are the same. -/
def SameTop (pt : Nat) (m m' : Bytes) : Prop := ∀ v, TF ≤ v → look m' pt v = look m pt v

section

variable {img : Image} {s s' s'' : Phys} {fs fs' fs'' : List Nat}
  {pt p v w n n' k a sz oldsz newsz xperm : Nat} {m m' m'' : Bytes}
  {f g : Nat → Option (Nat × Nat)} {A B : Multiset Nat} {C : Content} {E : Option String → Prop}

/-! ## How much memory there is -/

/-- There are at most `(PHYSTOP - KERNBASE) / PGSIZE` pages. -/
theorem card_le_of_pages (hnd : A.Nodup) (hp : ∀ p ∈ A, img.Page p) : A.card ≤ 32768 := by
  have hsub : (⟨A, hnd⟩ : Finset Nat) ⊆
      (Finset.range 32768).image fun i => KERNBASE + i * PGSIZE := by
    intro p hpA
    obtain ⟨hal, hlow, hhigh⟩ := hp p hpA
    have hstart := img.start
    have htext := img.text
    have hdata := img.data
    refine Finset.mem_image.mpr ⟨(p - KERNBASE) / PGSIZE, Finset.mem_range.mpr ?_, ?_⟩
    all_goals
      simp only [PGSIZE, PHYSTOP, KERNBASE] at *
      omega
  have hcard := (Finset.card_le_card hsub).trans Finset.card_image_le
  rwa [Finset.card_range] at hcard

theorem card_frames (h : ∀ w, v ≤ w → w < v + n → f w ≠ none) : (frames f v n).card = n := by
  induction n with
  | zero => rfl
  | succ n ih =>
    obtain ⟨b, hb⟩ := Option.ne_none_iff_exists'.mp (h (v + n) (by omega) (by omega))
    have hone : (frameOf (f (v + n))).card = 1 := by
      rw [hb]
      exact card_singleton _
    rw [frames, card_add, ih fun w hw hn => h w hw (by omega), hone]

theorem Space.small (h : Space img s fs pt n) : n ≤ 32768 := by
  have hcard : (frames (look s.mem pt) 0 n).card = n := by
    refine card_frames fun w _ hw => ?_
    obtain ⟨pa, fl, hl, -⟩ := h.user w (by omega)
    rw [hl]
    exact Option.some_ne_none _
  have hle := card_le_of_pages (nodup_add.mp h.apart).2.1 h.ram
  omega

/-! ## Sizes and pages -/

theorem npages_eq (h : sz ≤ 2 ^ 64 - PGSIZE) : npages sz = (sz + PGSIZE - 1) / PGSIZE := by
  rw [npages, pgroundup_eq h, Nat.mul_div_cancel _ (by decide)]

theorem pgroundup_npages (sz : Nat) : pgroundup sz = npages sz * PGSIZE := by
  rw [npages, pgroundup, Nat.mul_div_cancel _ (by decide)]

theorem npages_mul (h : n ≤ 32768) : npages (n * PGSIZE) = n := by
  rw [npages_eq (by simp only [PGSIZE]; omega)]
  simp only [PGSIZE]
  omega

/-! ## What the parts of a space look like -/

theorem look_flags_lt {b : Nat × Nat} (h : look m pt v = some b) : b.2 < 1024 := by
  rw [look] at h
  split at h
  · rw [decode] at h
    split at h
    · cases h
      rw [pteFlags_eq]
      omega
    · cases h
  · cases h

theorem flags_ne {fl : Nat} (h : fl &&& PTE_R ≠ 0) : fl ≠ PTE_V := by
  rintro rfl
  exact h rfl

/-- A space after a step that keeps the pages together. -/
theorem Space.of_kept (h : Space img s fs pt n) (ht : Table img s' fs' pt)
    (hk : space fs' s'.mem pt n' = space fs s.mem pt n)
    (huser : ∀ v < n', ∃ pa fl, look s'.mem pt v = some (pa, fl) ∧ fl &&& PTE_R ≠ 0)
    (hgap : ∀ v, n' ≤ v → v < TF → look s'.mem pt v = none) : Space img s' fs' pt n' := by
  refine ⟨ht, huser, hgap, hk ▸ h.apart, fun p hp => ?_⟩
  have hm : p ∈ space fs s.mem pt n := hk ▸ mem_add.mpr (.inr hp)
  exact (mem_add.mp hm).elim h.foot_page (h.ram p)

/-- Changes outside of a space. -/
theorem Space.frame (h : Space img s fs pt n) (hf : Frame A s.mem s'.mem)
    (hA : ∀ p ∈ foot fs s.mem 2 pt, p ∉ A) (hl : s'.freelist = s.freelist) :
    Space img s' fs pt n ∧ Alike 2 pt s.mem s'.mem := by
  obtain ⟨ht, hal⟩ := h.toTree.frame hf hA hl
  have hlook := hal.look
  refine ⟨h.of_kept ⟨ht, fun v hv => (hal.entry v).trans (h.high v hv)⟩ ?_ ?_ ?_, hal⟩
  · rw [space, space, hlook, foot, foot, hal.pages]
  · rw [hlook]
    exact h.user
  · rw [hlook]
    exact h.gap

/-- A frame of a space is a page of its own. -/
theorem Space.frame_page {fl : Nat} (h : Space img s fs pt n) (hv : v < n)
    (hl : look s.mem pt v = some (p, fl)) : img.Page p ∧ p ∉ foot fs s.mem 2 pt := by
  have hm : p ∈ frames (look s.mem pt) 0 n :=
    mem_frames.mpr ⟨v, fl, Nat.zero_le v, by omega, hl⟩
  exact ⟨h.ram p hm, fun hf =>
    disjoint_left.mp (nodup_add.mp h.apart).2.2 hf hm⟩

theorem Space.lt_TF (h : Space img s fs pt n) : n < TF := by
  have := h.small
  simp only [TF, NPAGES]
  omega

/-! ## `uvmdealloc` -/

/-- Cutting a space down to `n'` pages. -/
theorem Space.unmap (h : Space img s fs pt n) (hle : n' ≤ n) :
    (uvmunmap img pt (n' * PGSIZE) (n - n') true).Runs s E fun _ s' => ∃ fs',
      Shrunk img s s' fs fs' pt n n' := by
  have hsmall := h.small
  have hdiv : n' * PGSIZE / PGSIZE = n' := Nat.mul_div_cancel _ (by decide)
  have hsplit : frames (look s.mem pt) 0 n
      = frames (look s.mem pt) 0 n' + frames (look s.mem pt) n' (n - n') := by
    have := frames_add (look s.mem pt) 0 n' (n - n')
    rwa [Nat.add_sub_cancel' hle, zero_add] at this
  have hle' : foot fs s.mem 2 pt + frames (look s.mem pt) n' (n - n') ≤ space fs s.mem pt n := by
    rw [space, hsplit, le_iff_exists_add]
    exact ⟨frames (look s.mem pt) 0 n', by abel⟩
  refine (uvmunmap_runs h.toTable (Nat.mul_mod_left _ _)
    (by simp only [PGSIZE]; omega) ?_ ?_ ?_).mono ?_
  · rw [hdiv]
    exact nodup_of_le hle' h.apart
  · rw [hdiv]
    intro p hp
    refine h.ram p ?_
    rw [hsplit]
    exact mem_add.mpr (.inr hp)
  · rw [hdiv]
    rintro ⟨w, hw, hwn, hc⟩
    obtain ⟨pa, fl, hl, hfl⟩ := h.user w (by omega)
    exact absurd (hc pa fl hl) (flags_ne hfl)
  · rw [hdiv, freed, if_pos rfl]
    rintro _ s' ⟨fs', ht, hk, hlook⟩
    have hpages : space fs' s'.mem pt n' = space fs s.mem pt n := by
      have hsame : frames (look s'.mem pt) 0 n' = frames (look s.mem pt) 0 n' := by
        refine frames_congr fun w _ hw => ?_
        rw [hlook]
        exact if_neg (by omega)
      rw [space, space, hsame, hk.pages, hsplit]
      abel
    refine ⟨fs', h.of_kept ht hpages (fun v hv => ?_) fun v hv hv' => ?_, hle, hpages, hk.frame, hlook⟩
    · rw [hlook, unmapRange, if_neg (by omega)]
      exact h.user v (by omega)
    · rw [hlook, unmapRange]
      split
      · rfl
      · exact h.gap v (by omega) hv'

theorem Shrunk.refl (h : Space img s fs pt n) : Shrunk img s s fs fs pt n n := by
  refine ⟨h, Nat.le_refl n, rfl, .refl _ _, ?_⟩
  rw [Nat.sub_self, unmapRange_zero]

theorem Shrunk.kept (h : Shrunk img s s' fs fs' pt n n') :
    Kept (Mem.space fs s.mem pt n) (Mem.space fs' s'.mem pt n') s.mem s'.mem := by
  refine ⟨h.pages, h.frame.mono fun p hp => ?_⟩
  rw [Mem.space, mem_add]
  refine (mem_add.mp hp).imp_right fun hf => ?_
  obtain ⟨w, fl, hw, hwn, hl⟩ := mem_frames.mp hf
  have := h.le
  exact mem_frames.mpr ⟨w, fl, Nat.zero_le w, by omega, hl⟩

theorem Shrunk.top (h : Shrunk img s s' fs fs' pt n n') (hs : Space img s fs pt n) :
    SameTop pt s.mem s'.mem := by
  intro v hv
  have := hs.lt_TF
  rw [h.look, unmapRange, if_neg (by omega)]

/-- `uvmdealloc` cuts a space down to the smaller of the two sizes. -/
theorem uvmdealloc_runs (h : Space img s fs pt (npages oldsz)) (hsz : oldsz ≤ 2 ^ 64 - PGSIZE) :
    (uvmdealloc img pt oldsz newsz).Runs s E fun r s' => r = min oldsz newsz ∧ ∃ fs',
      Shrunk img s s' fs fs' pt (npages oldsz) (npages r) := by
  rw [uvmdealloc]
  split
  · next hle =>
    exact .ret ⟨(min_eq_left hle).symm, fs, .refl h⟩
  · have hmin : min oldsz newsz = newsz := min_eq_right (by omega)
    have hnp : npages newsz ≤ npages oldsz := by
      rw [npages_eq (by omega), npages_eq hsz]
      exact Nat.div_le_div_right (by omega)
    have hsmall := h.small
    refine .bind (R := fun _ s' => ∃ fs', Shrunk img s s' fs fs' pt (npages oldsz) (npages newsz))
      (.when (fun hlt => ?_) fun hnlt => ?_) ?_
    · rw [pgroundup_npages, pgroundup_npages, ← Nat.sub_mul, Nat.mul_div_cancel _ (by decide),
        asInt_eq (by omega)]
      exact h.unmap hnp
    · have heq : npages newsz = npages oldsz := by
        rw [pgroundup_npages, pgroundup_npages] at hnlt
        simp only [PGSIZE] at hnlt
        omega
      rw [heq]
      exact ⟨fs, .refl h⟩
    · rintro _ s' hs'
      exact .ret ⟨hmin.symm, hs'⟩

/-! ## `uvmalloc` -/

theorem Grew.refl (h : Space img s fs pt n) : Grew img s s fs fs pt n n C :=
  ⟨h, Nat.le_refl n, rfl, .refl _ _, fun _ _ => rfl, fun _ hv hn => absurd hn (not_lt.mpr hv)⟩

theorem Grew.kept (h : Grew img s s' fs fs' pt n n' C) :
    Kept (Mem.space fs s.mem pt n) (Mem.space fs' s'.mem pt n') s.mem s'.mem :=
  ⟨h.pages, h.frame.mono fun _ hp => mem_add.mpr (.inl hp)⟩

theorem Grew.top (h : Grew img s s' fs fs' pt n n' C) : SameTop pt s.mem s'.mem :=
  fun v hv => h.old v (.inr (h.space.lt_TF.le.trans hv))

/-- What is free or a page table now was so before. -/
theorem Grew.foot_mem (h : Grew img s s' fs fs' pt n n' C)
    (hp : p ∈ foot fs' s'.mem 2 pt) : p ∈ foot fs s.mem 2 pt := by
  have hm : p ∈ Mem.space fs s.mem pt n := h.pages ▸ mem_add.mpr (.inl hp)
  refine (mem_add.mp hm).resolve_right fun hf => ?_
  obtain ⟨w, fl, -, hw, hl⟩ := mem_frames.mp hf
  rw [← h.old w (.inl (by omega))] at hl
  exact (h.space.frame_page (by have := h.le; omega) hl).2 hp

theorem Grew.trans (h : Grew img s s' fs fs' pt n k C)
    (h' : Grew img s' s'' fs' fs'' pt k n' C) : Grew img s s'' fs fs'' pt n n' C := by
  have hle := h.le
  have hle' := h'.le
  refine ⟨h'.space, by omega, h'.pages.trans h.pages,
    h.frame.trans (h'.frame.mono fun p hp => h.foot_mem hp), fun v hv => ?_, fun v hv hv' => ?_⟩
  · rw [h'.old v (by omega), h.old v (by omega)]
  · rcases lt_or_ge v k with hk | hk
    · obtain ⟨p, x, hl, hC⟩ := h.new v hv hk
      obtain ⟨hp, hn⟩ := h.space.frame_page hk hl
      exact ⟨p, x, (h'.old v (.inl hk)).trans hl, C.same hC (h'.frame p hp.aligned hn)⟩
    · exact h'.new v hk hv'

/-- Cutting a space that has grown down to what it was. -/
theorem Grew.back (hs : Space img s fs pt n) (h : Grew img s s' fs fs' pt n k C)
    (h' : Shrunk img s' s'' fs' fs'' pt k n) : Grew img s s'' fs fs'' pt n n C := by
  have hle := h.le
  refine ⟨h'.space, Nat.le_refl n, h'.pages.trans h.pages, h.frame.trans (h'.frame.mono ?_),
    fun v _ => ?_, fun v hv hn => absurd hn (not_lt.mpr hv)⟩
  · intro p hp
    rcases mem_add.mp hp with hf | hf
    · exact h.foot_mem hf
    · -- a frame that was added came from the free list
      have hm : p ∈ Mem.space fs s.mem pt n := by
        rw [← h.pages]
        obtain ⟨w, fl, hw, hwk, hl⟩ := mem_frames.mp hf
        exact mem_add.mpr (.inr (mem_frames.mpr ⟨w, fl, Nat.zero_le w, by omega, hl⟩))
      refine (mem_add.mp hm).resolve_right fun hold => ?_
      have hsame : frames (look s.mem pt) 0 n = frames (look s'.mem pt) 0 n :=
        frames_congr fun w _ hw => (h.old w (.inl (by omega))).symm
      have hnd := (nodup_add.mp h.space.apart).2.1
      rw [show k = n + (k - n) by omega, frames_add, zero_add, nodup_add] at hnd
      exact disjoint_left.mp hnd.2.2 (hsame ▸ hold) hf
  · rw [h'.look, unmapRange]
    by_cases hv : n ≤ v ∧ v < n + (k - n)
    · rw [if_pos hv, hs.gap v hv.1 (by have := h.space.lt_TF; omega)]
    · rw [if_neg hv, h.old v (by omega)]

/-- A page taken from the free list. -/
theorem Table.kalloc (h : Table img s (p :: fs) pt) (hfree : Free img s' fs)
    (hf : Frame {p} s.mem s'.mem) : Table img s' fs pt ∧ Alike 2 pt s.mem s'.mem ∧
      foot fs s'.mem 2 pt + {p} = foot (p :: fs) s.mem 2 pt := by
  have hal : Alike 2 pt s.mem s'.mem := by
    refine alike_of_frame hf (fun q hq => (h.page q hq).aligned) fun q hq hm => ?_
    rw [mem_singleton.mp hm] at hq
    exact h.not_free hq List.mem_cons_self
  have hfoot : foot fs s'.mem 2 pt + {p} = foot (p :: fs) s.mem 2 pt := by
    rw [foot, foot, hal.pages, ← cons_coe, ← singleton_add]
    abel
  refine ⟨⟨⟨hfree, hal.wf h.wf, ?_, fun q hq => h.page q (hal.pages ▸ hq)⟩,
    fun v hv => (hal.entry v).trans (h.high v hv)⟩, hal, hfoot⟩
  have hnd := h.foot_nodup
  rw [← hfoot] at hnd
  exact (nodup_add.mp hnd).1

/-- A new page `p` bound to the next virtual page of a space. -/
theorem Space.grow {fl : Nat} (h : Space img s (p :: fs) pt n) (ht : Table img s' fs' pt)
    (hfoot : foot fs' s'.mem 2 pt + {p} = foot (p :: fs) s.mem 2 pt)
    (hlook : look s'.mem pt = update (look s.mem pt) n (some (p, fl)))
    (hfl : fl &&& PTE_R ≠ 0) : Space img s' fs' pt (n + 1) ∧
      space fs' s'.mem pt (n + 1) = space (p :: fs) s.mem pt n := by
  have hpages : space fs' s'.mem pt (n + 1) = space (p :: fs) s.mem pt n := by
    have hsame : frames (look s'.mem pt) 0 n = frames (look s.mem pt) 0 n := by
      refine frames_congr fun w _ hw => ?_
      rw [hlook, update_of_ne (by omega)]
    rw [space, space, frames, hsame, zero_add, hlook, update_self, frameOf, ← hfoot]
    abel
  refine ⟨h.of_kept ht hpages (fun v hv => ?_) fun v hv hv' => ?_, hpages⟩
  · rw [hlook]
    by_cases hvn : v = n
    · subst hvn
      rw [update_self]
      exact ⟨p, fl, rfl, hfl⟩
    · rw [update_of_ne hvn]
      exact h.user v (by omega)
  · rw [hlook, update_of_ne (by omega)]
    exact h.gap v (by omega) hv'

/-- What it is to have bound a new page `p`, which holds what it did before. -/
structure Added (img : Image) (s s' s₁ : Phys) (fs fs₁ : List Nat) (pt n p x : Nat) : Prop where
  space : Space img s₁ fs₁ pt (n + 1)
  pages : Mem.space fs₁ s₁.mem pt (n + 1) = Mem.space fs s.mem pt n
  frame : Frame (foot fs s.mem 2 pt) s.mem s₁.mem
  same : Same p s'.mem s₁.mem
  look : look s₁.mem pt = update (look s.mem pt) n (some (p, x))
  took : fs.length ≤ fs₁.length + 3
  taken : ∀ q ∈ fs₁, q ∈ fs

/-- Mapping a new page `p` behind a space; if there is no memory for it, `p` can be freed. -/
theorem Space.map_page {perm : Nat} (h : Space img s (p :: fs) pt n) (hfree : Free img s' fs)
    (hf : Frame {p} s.mem s'.mem) (hperm : perm < 1024) (hR : perm &&& PTE_R ≠ 0) :
    (mappages pt (n * PGSIZE) PGSIZE p perm).Runs s' E fun r s₁ =>
      (r = true ∧ ∃ fs₁, Added img s s' s₁ (p :: fs) fs₁ pt n p (perm ||| PTE_V)) ∨
      (r = false ∧ fs.length ≤ 2 ∧ (kfree img p).Runs s₁ E fun _ s₂ => ∃ fs₂, ∀ C,
        Grew img s s₂ (p :: fs) fs₂ pt n n C) := by
  obtain ⟨ht, hal, hfoot⟩ := h.kalloc hfree hf
  have hn := h.lt_TF
  have hp := h.free.page p List.mem_cons_self
  have hdiv : n * PGSIZE / PGSIZE = n := Nat.mul_div_cancel _ (by decide)
  have hdown : pgrounddown p = p := Nat.div_mul_cancel (Nat.dvd_of_mod_eq_zero hp.aligned)
  have hnone : look s'.mem pt (n * PGSIZE / PGSIZE) = none := by
    rw [hdiv, hal.look]
    exact h.gap n (Nat.le_refl n) hn
  have hfoot_mem : ∀ q ∈ foot fs s'.mem 2 pt + {p}, q ∈ foot (p :: fs) s.mem 2 pt :=
    fun q hq => hfoot ▸ hq
  have hf' : Frame (foot (p :: fs) s.mem 2 pt) s.mem s'.mem :=
    hf.mono fun q hq => hfoot_mem q (mem_add.mpr (.inr hq))
  have hnot : p ∉ foot fs s'.mem 2 pt := by
    have hnd := h.foot_nodup
    rw [← hfoot, add_comm, singleton_add, nodup_cons] at hnd
    exact hnd.1
  refine (mappages_page_runs ht (by decide) (by rw [Nat.mul_mod_left, zero_add])
    (by simp only [TF, NPAGES, PGSIZE, MAXVA] at hn ⊢; omega) hnone hp.lt
    (or_lt_1024 hperm (by decide))).mono ?_
  rintro r s₁ ⟨fs₁, ht₁, hk₁, ⟨hlen, htaken⟩, hr⟩
  have hframe₁ : Frame (foot (p :: fs) s.mem 2 pt) s.mem s₁.mem :=
    hf'.trans (hk₁.frame.mono fun q hq => hfoot_mem q (mem_add.mpr (.inl hq)))
  have hfoot₁ : foot fs₁ s₁.mem 2 pt + {p} = foot (p :: fs) s.mem 2 pt := by rw [hk₁.pages, hfoot]
  rw [hdiv, hal.look, hdown] at hr
  rcases hr with ⟨hr, hlook⟩ | ⟨hr, rfl, hlook⟩
  · refine .inl ⟨hr, fs₁, ?_⟩
    have hR' : (perm ||| PTE_V) &&& PTE_R ≠ 0 := by
      rw [Nat.and_or_distrib_right]
      exact Nat.ne_of_gt ((pos_of_ne_zero hR).trans_le Nat.left_le_or)
    obtain ⟨hs₁, hpages⟩ := h.grow ht₁ hfoot₁ hlook hR'
    exact ⟨hs₁, hpages, hframe₁, hk₁.frame p hp.aligned hnot, hlook,
      by simp only [List.length_cons]; omega, fun q hq => List.mem_cons_of_mem _ (htaken q hq)⟩
  · refine .inr ⟨hr, hlen, ?_⟩
    rw [← hk₁.pages] at hnot
    refine (ht₁.kfree_runs hp hnot).mono ?_
    rintro _ s₂ ⟨ht₂, hal₂, hk₂⟩
    have hlook₂ : look s₂.mem pt = look s.mem pt := hal₂.look.trans hlook
    have hpages : space [p] s₂.mem pt n = space (p :: fs) s.mem pt n := by
      rw [space, space, hlook₂, hk₂.pages, hfoot₁]
    rw [hfoot₁] at hk₂
    refine ⟨[p], fun C => ⟨h.of_kept ht₂ hpages ?_ ?_, Nat.le_refl n, hpages,
      hframe₁.trans hk₂.frame, fun v _ => by rw [hlook₂],
      fun v hv hn => absurd hn (not_lt.mpr hv)⟩⟩
    · rw [hlook₂]
      exact h.user
    · rw [hlook₂]
      exact h.gap

theorem Added.grew {s₁ : Phys} {fs₁ : List Nat} {x : Nat} (h : Added img s s' s₁ fs fs₁ pt n p x)
    (hC : C.holds n p x s'.mem) : Grew img s s₁ fs fs₁ pt n (n + 1) C := by
  refine ⟨h.space, Nat.le_succ n, h.pages, h.frame, fun v hv => ?_, fun v hv hv' => ?_⟩
  · rw [h.look, update_of_ne (by omega)]
  · obtain rfl : v = n := by omega
    exact ⟨p, x, by rw [h.look, update_self], C.same hC h.same⟩

theorem user_perm_R (xperm : Nat) : (PTE_R ||| PTE_U ||| xperm) &&& PTE_R ≠ 0 := by
  rw [Nat.and_or_distrib_right]
  exact Nat.ne_of_gt (Nat.lt_of_lt_of_le (by decide) Nat.left_le_or)

/-- The flags of a page that `uvmalloc` maps. -/
def userFlags (xperm : Nat) : Nat := PTE_R ||| PTE_U ||| xperm ||| PTE_V

/-- Cutting a space that has grown from `n` to `k` pages down again. -/
theorem uvmdealloc_back (h : Space img s fs pt k) (hnk : n ≤ k) :
    (uvmdealloc img pt (k * PGSIZE) (n * PGSIZE)).Runs s E fun _ s' => ∃ fs',
      Shrunk img s s' fs fs' pt k n := by
  have hsmall := h.small
  have hk := npages_mul hsmall
  have hn : npages (min (k * PGSIZE) (n * PGSIZE)) = n := by
    rw [min_eq_right (Nat.mul_le_mul_right _ hnk), npages_mul (by omega)]
  refine (uvmdealloc_runs (by rw [hk]; exact h) (by simp only [PGSIZE]; omega)).mono ?_
  rintro _ s' ⟨rfl, fs', hs'⟩
  rw [hk, hn] at hs'
  exact ⟨fs', hs'⟩

/-- The loop of `uvmalloc`: it ends with enough pages, or with the `n` pages of the beginning; then
    there were not three free pages for each page that was needed. -/
theorem uvmallocFrom_runs {s₀ : Phys} {fs₀ : List Nat} (h₀ : Space img s₀ fs₀ pt n)
    (hg : Grew img s₀ s fs₀ fs pt n k (.zeroed (userFlags xperm))) (hx : xperm < 1024)
    (hk : k = n ∨ k * PGSIZE < newsz + PGSIZE) :
    (uvmallocFrom img pt (n * PGSIZE) newsz xperm (k * PGSIZE)).Runs s E fun r s' => ∃ fs' n',
      Grew img s₀ s' fs₀ fs' pt n n' (.zeroed (userFlags xperm)) ∧
      ((r = newsz ∧ newsz ≤ n' * PGSIZE ∧ (n' = n ∨ n' * PGSIZE < newsz + PGSIZE) ∧
          fs.length + 3 * k ≤ fs'.length + 3 * n') ∨
        (r = 0 ∧ n' = n ∧ k * PGSIZE < newsz ∧
          ∀ M, newsz ≤ M * PGSIZE → fs.length + 3 * k ≤ 3 * M)) := by
  -- on the number of bytes still missing
  induction hd : newsz - k * PGSIZE using Nat.strong_induction_on generalizing k s fs with
  | _ d ih =>
  have h := hg.space
  rw [uvmallocFrom]
  by_cases hlt : k * PGSIZE < newsz
  swap
  · rw [if_neg hlt]
    exact .ret ⟨fs, k, hg, .inl ⟨rfl, by omega, hk, le_rfl⟩⟩
  rw [if_pos hlt]
  refine .bind (kalloc_runs h.free) ?_
  rintro _ s₁ (⟨rfl, rfl, rfl⟩ | ⟨p, fs₁, rfl, rfl, hfree, hf⟩)
  · refine .bind (uvmdealloc_back h hg.le) ?_
    rintro _ s₂ ⟨fs₂, hs₂⟩
    refine .ret ⟨fs₂, n, hg.back h₀ hs₂, .inr ⟨rfl, rfl, hlt, ?_⟩⟩
    intro M hM
    have := Nat.lt_of_mul_lt_mul_right (hlt.trans_le hM)
    simp only [List.length_nil]
    omega
  · have hp := (h.free.page p List.mem_cons_self).aligned
    refine .seq (.modify ?_)
    have hfree' : Free img ⟨fill s₁.mem p 0 PGSIZE, s₁.freelist⟩ fs₁ := by
      refine hfree.frame (frame_fill hp) (fun q hq hm => ?_) rfl
      rw [mem_singleton.mp hm] at hq
      exact (List.nodup_cons.mp h.free.nodup).1 hq
    refine .bind (h.map_page hfree' (hf.trans (frame_fill hp))
      (or_lt_1024 (by decide) hx) (user_perm_R xperm)) ?_
    rintro _ s₂ (⟨rfl, fs₂, hadd⟩ | ⟨rfl, hlen, hkfree⟩)
    · have hsucc : k * PGSIZE + PGSIZE = (k + 1) * PGSIZE := (Nat.succ_mul k PGSIZE).symm
      have htook := hadd.took
      rw [if_pos rfl, hsucc]
      have hless : newsz - (k + 1) * PGSIZE < d := by
        rw [← hsucc, ← hd]
        exact Nat.sub_lt_sub_left hlt (Nat.lt_add_of_pos_right (by decide))
      have hk' : (k + 1) * PGSIZE < newsz + PGSIZE := by
        rw [← hsucc]
        exact Nat.add_lt_add_right hlt PGSIZE
      refine (ih _ hless (hg.trans (hadd.grew ⟨rfl, zero_fill p s₁.mem⟩)) (.inr hk') rfl).mono ?_
      rintro r s₃ ⟨fs₃, n', hg₃, hr⟩
      refine ⟨fs₃, n', hg₃, hr.imp ?_ ?_⟩
      · rintro ⟨hr, hle, hn', hlen⟩
        exact ⟨hr, hle, hn', by omega⟩
      · rintro ⟨hr, hn', -, hlen⟩
        refine ⟨hr, hn', hlt, fun M hM => ?_⟩
        have := hlen M hM
        omega
    · rw [if_neg Bool.false_ne_true]
      refine .bind hkfree ?_
      rintro _ s₃ ⟨fs₃, hg₃⟩
      refine .bind (uvmdealloc_back (hg₃ (.zeroed 0)).space hg.le) ?_
      rintro _ s₄ ⟨fs₄, hs₄⟩
      refine .ret ⟨fs₄, n, (hg.trans (hg₃ _)).back h₀ hs₄, .inr ⟨rfl, rfl, hlt, fun M hM => ?_⟩⟩
      have := Nat.lt_of_mul_lt_mul_right (hlt.trans_le hM)
      simp only [List.length_cons]
      omega

/-- `uvmalloc` grows a space to the larger of the two sizes, or leaves it as it was. -/
theorem uvmalloc_runs (h : Space img s fs pt (npages oldsz)) (hsz : oldsz ≤ 2 ^ 64 - PGSIZE)
    (hx : xperm < 1024) :
    (uvmalloc img pt oldsz newsz xperm).Runs s E fun r s' => ∃ fs' n',
      Grew img s s' fs fs' pt (npages oldsz) n' (.zeroed (userFlags xperm)) ∧
      ((r = max oldsz newsz ∧ n' = npages r ∧ r ≤ 2 ^ 64 - PGSIZE ∧
          fs.length + 3 * npages oldsz ≤ fs'.length + 3 * n') ∨
        (r = 0 ∧ n' = npages oldsz ∧ oldsz < newsz ∧
          ∀ M, newsz ≤ M * PGSIZE → fs.length + 3 * npages oldsz ≤ 3 * M)) := by
  rw [uvmalloc]
  by_cases hlt : newsz < oldsz
  · rw [if_pos hlt]
    have hmax : oldsz = max oldsz newsz := (max_eq_left (by omega)).symm
    exact .ret ⟨fs, npages oldsz, .refl h, .inl ⟨hmax, rfl, hsz, le_rfl⟩⟩
  · rw [if_neg hlt, pgroundup_npages]
    refine (uvmallocFrom_runs h (.refl h) hx (.inl rfl)).mono ?_
    rintro r s' ⟨fs', n', hg, ⟨rfl, hle, hn', hlen⟩ | ⟨hr, hn', hbig, hlen⟩⟩
    · have hsmall := hg.space.small
      have hr' : r ≤ 2 ^ 64 - PGSIZE := by simp only [PGSIZE] at hle ⊢; omega
      refine ⟨fs', n', hg, .inl ⟨(max_eq_right (by omega)).symm, ?_, hr', hlen⟩⟩
      rw [npages_eq hr']
      rw [npages_eq hsz] at hn'
      simp only [PGSIZE] at hle hn' ⊢
      omega
    · refine ⟨fs', n', hg, .inr ⟨hr, hn', ?_, hlen⟩⟩
      rw [npages_eq hsz] at hbig
      simp only [PGSIZE] at hbig
      omega

end

end Xv6.Mem
