import Xv6.Lib.Bytes
import Xv6.Lib.Seq
import Xv6.Mem.Riscv

/-!
# Physical memory and the page allocator

Physical memory is an array of bytes. `kernel/kalloc.c` threads the free pages into a list whose
links are stored in the pages themselves; `Free img s fs` says that the list headed by
`kmem.freelist` runs through exactly the pages `fs`, each once.

What an operation may have changed is said page by page: `Frame A m m'` allows changes in the
pages of `A` only.
-/

namespace Xv6.Mem

open Lib

/-! ## The machine -/

/-- What the linker decides: the end of the kernel's text, the trampoline page and the first
    address after the kernel (`kernel/kernel.ld`). The kernel must leave some memory free. -/
structure Image where
  trampoline : Nat
  etext : Nat
  kend : Nat
  aligned : trampoline % PGSIZE = 0
  start : KERNBASE ≤ trampoline
  text : etext = trampoline + PGSIZE
  data : etext ≤ kend
  room : kend + 4 * 1024 * 1024 ≤ PHYSTOP

/-- The symbols of the kernel in the repository (`kernel/kernel.sym`). -/
def Image.built : Image where
  trampoline := 0x80007000
  etext := 0x80008000
  kend := 0x80021d90
  aligned := by decide
  start := by decide
  text := by decide
  data := by decide
  room := by decide

/-- The start of a page that the allocator may hand out. -/
structure Image.Page (img : Image) (p : Nat) : Prop where
  aligned : p % PGSIZE = 0
  low : img.kend ≤ p
  high : p < PHYSTOP

/-- Physical memory and `kmem`. -/
structure Phys where
  mem : Bytes
  freelist : Nat

/-- `memset(a, c, n)` on a byte store. -/
def fill (m : Bytes) (a : Nat) (c : UInt8) (n : Nat) : Bytes :=
  fun i => if a ≤ i ∧ i < a + n then c else m i

def memset (a : Nat) (c : UInt8) (n : Nat) : Prog Phys Unit :=
  Prog.modify fun s => { s with mem := fill s.mem a c n }

/-- `memmove(dst, src, n)` on a byte store. -/
def copy (m : Bytes) (dst src n : Nat) : Bytes :=
  fun i => if dst ≤ i ∧ i < dst + n then m (src + (i - dst)) else m i

def memmove (dst src n : Nat) : Prog Phys Unit :=
  Prog.modify fun s => { s with mem := copy s.mem dst src n }

/-- `*(uint64*)a` -/
def load (a : Nat) : Prog Phys Nat := do return leGet 8 (← Prog.get).mem a

/-- `*(uint64*)a = v` -/
def store (a v : Nat) : Prog Phys Unit :=
  Prog.modify fun s => { s with mem := lePut 8 s.mem a v }

/-! ## `kalloc.c` -/

def kfree (img : Image) (pa : Nat) : Prog Phys Unit := do
  if pa % PGSIZE ≠ 0 ∨ pa < img.kend ∨ PHYSTOP ≤ pa then Prog.panic "kfree"
  else
    -- fill with junk to catch dangling refs
    memset pa 1 PGSIZE
    Prog.modify fun s => { mem := lePut 8 s.mem pa s.freelist, freelist := pa }

/-- `kalloc`; `none` is the null pointer. -/
def kalloc : Prog Phys (Option Nat) := do
  let r ← Prog.atomic fun s =>
    if s.freelist = 0 then .ok none s
    else .ok (some s.freelist) { s with freelist := leGet 8 s.mem s.freelist }
  match r with
  | none => return none
  | some p => do
    memset p 5 PGSIZE
    return some p

/-- `freerange` from a page on: `for(; p + PGSIZE <= pa_end; p += PGSIZE) kfree(p)` -/
def freerange (img : Image) (p paEnd : Nat) : Prog Phys Unit :=
  if p + PGSIZE ≤ paEnd then do
    kfree img p
    freerange img (p + PGSIZE) paEnd
  else return ()
termination_by paEnd - p
decreasing_by simp only [PGSIZE] at *; omega

def kinit (img : Image) : Prog Phys Unit := freerange img (pgroundup img.kend) PHYSTOP

/-! ## Pages that change and pages that do not -/

/-- Page `p` has the same bytes in both memories. -/
def Same (p : Nat) (m m' : Bytes) : Prop := ∀ i < PGSIZE, m' (p + i) = m (p + i)

/-- Only pages of `A` have changed. -/
def Frame (A : Multiset Nat) (m m' : Bytes) : Prop := ∀ p, p % PGSIZE = 0 → p ∉ A → Same p m m'

section

variable {A B : Multiset Nat} {m m' m'' : Bytes} {p q a : Nat}

theorem Same.trans (h : Same p m m') (h' : Same p m' m'') : Same p m m'' :=
  fun i hi => (h' i hi).trans (h i hi)

theorem Same.leGet (h : Same p m m') (off : Nat) {k : Nat} (hk : off + k ≤ PGSIZE) :
    leGet k m' (p + off) = leGet k m (p + off) := by
  refine leGet_congr fun i hi hik => ?_
  have := h (i - p) (by omega)
  rwa [show p + (i - p) = i by omega] at this

theorem Frame.refl (A : Multiset Nat) (m : Bytes) : Frame A m m := fun _ _ _ _ _ => rfl

theorem Frame.mono (h : Frame A m m') (hs : ∀ p ∈ A, p ∈ B) : Frame B m m' :=
  fun p hp hn => h p hp fun hA => hn (hs p hA)

theorem Frame.trans (h : Frame A m m') (h' : Frame A m' m'') : Frame A m m'' :=
  fun p hp hn => (h p hp hn).trans (h' p hp hn)

/-- Two pages are the same or do not overlap. -/
theorem page_disjoint (hp : p % PGSIZE = 0) (hq : q % PGSIZE = 0) (h : p ≠ q) :
    p + PGSIZE ≤ q ∨ q + PGSIZE ≤ p := by
  simp only [PGSIZE] at *
  omega

/-- A change of bytes inside one page. -/
theorem frame_singleton (hq : q % PGSIZE = 0)
    (h : ∀ i, ¬ (q ≤ i ∧ i < q + PGSIZE) → m' i = m i) : Frame {q} m m' := by
  intro p hp hn i hi
  have hd := page_disjoint hp hq fun he => hn (Multiset.mem_singleton.mpr he)
  exact h (p + i) (by omega)

theorem frame_fill (hq : q % PGSIZE = 0) {c : UInt8} : Frame {q} m (fill m q c PGSIZE) :=
  frame_singleton hq fun _ hi => if_neg hi

theorem frame_lePut (hq : q % PGSIZE = 0) (off : Nat) {k v : Nat} (hk : off + k ≤ PGSIZE) :
    Frame {q} m (lePut k m (q + off) v) := by
  refine frame_singleton hq fun i hi => if_neg fun hc => hi ?_
  omega

theorem frame_copy (hq : q % PGSIZE = 0) (off : Nat) {src n : Nat} (hn : off + n ≤ PGSIZE) :
    Frame {q} m (copy m (q + off) src n) := by
  refine frame_singleton hq fun i hi => if_neg fun hc => hi ?_
  omega

end

/-! ## The free list -/

/-- From `a` on the links in memory run through the pages of a list. -/
def Chain (m : Bytes) : Nat → List Nat → Prop
  | a, [] => a = 0
  | a, p :: ps => a = p ∧ Chain m (leGet 8 m p) ps

/-- The free list runs through the pages `fs`. -/
structure Free (img : Image) (s : Phys) (fs : List Nat) : Prop where
  chain : Chain s.mem s.freelist fs
  page : ∀ p ∈ fs, img.Page p
  nodup : fs.Nodup

section

variable {img : Image} {s s' : Phys} {fs : List Nat} {p q : Nat} {E : Option String → Prop}

theorem Image.kend_pos (img : Image) : 0 < img.kend := by
  have := img.start
  have := img.text
  have := img.data
  simp only [KERNBASE, PGSIZE] at *
  omega

theorem Image.Page.pos (h : img.Page p) : 0 < p := img.kend_pos.trans_le h.low

theorem Image.Page.lt (h : img.Page p) : p < 2 ^ 64 := by
  have := h.high
  simp only [PHYSTOP, KERNBASE] at this
  omega

theorem Chain.congr {m m' : Bytes} {a : Nat} (h : Chain m a fs) (hs : ∀ p ∈ fs, Same p m m') :
    Chain m' a fs := by
  induction fs generalizing a with
  | nil => exact h
  | cons p ps ih =>
    obtain ⟨rfl, hc⟩ := h
    refine ⟨rfl, ?_⟩
    have hg : leGet 8 m' a = leGet 8 m a := (hs a List.mem_cons_self).leGet 0 (by decide)
    rw [hg]
    exact ih hc fun q hq => hs q (List.mem_cons_of_mem _ hq)

/-- The free list does not depend on pages that are not in it. -/
theorem Free.frame {A : Multiset Nat} (h : Free img s fs) (hf : Frame A s.mem s'.mem)
    (hA : ∀ p ∈ fs, p ∉ A) (hl : s'.freelist = s.freelist) : Free img s' fs := by
  refine ⟨?_, h.page, h.nodup⟩
  rw [hl]
  exact h.chain.congr fun p hp => hf p (h.page p hp).aligned (hA p hp)

/-- `kalloc` hands out the first free page. -/
theorem kalloc_runs (h : Free img s fs) :
    kalloc.Runs s E fun r s' => (r = none ∧ fs = [] ∧ s' = s) ∨
      ∃ p fs', r = some p ∧ fs = p :: fs' ∧ Free img s' fs' ∧ Frame {p} s.mem s'.mem := by
  cases fs with
  | nil =>
    have h0 : s.freelist = 0 := h.chain
    exact .seq (.atomic (if_pos h0) (.ret (.inl ⟨rfl, rfl, rfl⟩)))
  | cons p ps =>
    obtain ⟨hp, hc⟩ := h.chain
    have hpage := h.page p List.mem_cons_self
    have hne : s.freelist ≠ 0 := by
      rw [hp]
      exact hpage.pos.ne'
    refine .seq (.atomic (if_neg hne) ?_)
    rw [hp]
    refine .seq (.modify (.ret (.inr ⟨p, ps, rfl, rfl, ?_, frame_fill hpage.aligned⟩)))
    have hfree : Free img { s with freelist := leGet 8 s.mem p } ps :=
      ⟨hc, fun q hq => h.page q (List.mem_cons_of_mem _ hq), h.nodup.of_cons⟩
    refine hfree.frame (frame_fill hpage.aligned) (fun q hq hm => ?_) rfl
    rw [Multiset.mem_singleton.mp hm] at hq
    exact (List.nodup_cons.mp h.nodup).1 hq

/-- `kfree` puts a page in front of the free list. -/
theorem kfree_runs (h : Free img s fs) (hp : img.Page p) (hn : p ∉ fs) :
    (kfree img p).Runs s E fun _ s' => Free img s' (p :: fs) ∧ Frame {p} s.mem s'.mem := by
  have hok : ¬ (p % PGSIZE ≠ 0 ∨ p < img.kend ∨ PHYSTOP ≤ p) := by
    have := hp.aligned
    have := hp.low
    have := hp.high
    omega
  have hput : Frame {p} (fill s.mem p 1 PGSIZE) (lePut 8 (fill s.mem p 1 PGSIZE) p s.freelist) :=
    frame_lePut hp.aligned 0 (by decide)
  have hframe := (frame_fill (m := s.mem) (c := 1) hp.aligned).trans hput
  unfold kfree
  rw [if_neg hok]
  refine .seq (.modify (.modify ⟨⟨⟨rfl, ?_⟩, ?_, List.nodup_cons.mpr ⟨hn, h.nodup⟩⟩, hframe⟩))
  · have hlt : s.freelist < 256 ^ 8 := by
      cases fs with
      | nil =>
        rw [show s.freelist = 0 from h.chain]
        decide
      | cons q qs =>
        rw [h.chain.1]
        have := (h.page q List.mem_cons_self).lt
        omega
    have hget : leGet 8 (lePut 8 (fill s.mem p 1 PGSIZE) p s.freelist) p = s.freelist := by
      rw [leGet_lePut_self, Nat.mod_eq_of_lt hlt]
    refine Eq.subst (motive := fun a => Chain _ a fs) hget.symm ?_
    refine h.chain.congr fun q hq => hframe q (h.page q hq).aligned fun hm => ?_
    rw [Multiset.mem_singleton.mp hm] at hq
    exact hn hq
  · intro q hq
    rcases List.mem_cons.mp hq with rfl | hq
    · exact hp
    · exact h.page q hq

/-- `freerange` frees the pages from `p` on. -/
theorem freerange_runs (h : Free img s fs) (hp : p % PGSIZE = 0) (hlow : img.kend ≤ p)
    (hfs : ∀ q ∈ fs, q < p) :
    (freerange img p PHYSTOP).Runs s E fun _ s' => ∃ fs', Free img s' fs' ∧
      fs'.length = fs.length + (PHYSTOP - p) / PGSIZE ∧
      ∀ q, q ∈ fs' ↔ q ∈ fs ∨ img.Page q ∧ p ≤ q := by
  -- on the bytes that are left
  induction hd : PHYSTOP - p using Nat.strong_induction_on generalizing s fs p with
  | _ d ih =>
  rw [freerange]
  cases lt_or_ge PHYSTOP (p + PGSIZE) with
  | inl hlt =>
    rw [if_neg (not_le.mpr hlt)]
    refine .ret ⟨fs, h, ?_, fun q => (or_iff_left fun hq => ?_).symm⟩
    · rw [← hd, Nat.div_eq_of_lt (by simp only [PGSIZE] at *; omega), add_zero]
    · have hal := hq.1.aligned
      have hhigh := hq.1.high
      simp only [PGSIZE, PHYSTOP, KERNBASE] at *
      omega
  | inr hlt =>
    rw [if_pos hlt]
    have hpage : img.Page p := ⟨hp, hlow, by simp only [PGSIZE] at hlt; omega⟩
    refine .bind (kfree_runs h hpage fun hm => lt_irrefl p (hfs p hm)) ?_
    rintro _ s₁ ⟨hfree, -⟩
    refine (ih _ (by simp only [PGSIZE] at *; omega) hfree (by rw [Nat.add_mod_right]; exact hp)
      (by simp only [PGSIZE]; omega) (fun q hq => ?_) rfl).mono ?_
    · rcases List.mem_cons.mp hq with rfl | hq
      · simp only [PGSIZE]
        omega
      · have := hfs q hq
        simp only [PGSIZE]
        omega
    · rintro _ s' ⟨fs', hfree', hlen, hmem⟩
      refine ⟨fs', hfree', ?_, fun q => ?_⟩
      · rw [hlen, List.length_cons]
        simp only [PGSIZE, PHYSTOP, KERNBASE] at *
        omega
      · rw [hmem, List.mem_cons]
        constructor
        · rintro ((rfl | hq) | ⟨hq, hle⟩)
          · exact .inr ⟨hpage, Nat.le_refl q⟩
          · exact .inl hq
          · exact .inr ⟨hq, Nat.le_trans (Nat.le_add_right ..) hle⟩
        · rintro (hq | ⟨hq, hle⟩)
          · exact .inl (.inr hq)
          · by_cases heq : q = p
            · exact .inl (.inl heq)
            · have hal := hq.aligned
              refine .inr ⟨hq, ?_⟩
              simp only [PGSIZE] at *
              omega

/-- `kinit` gives all pages to the allocator. -/
theorem kinit_runs (h : s.freelist = 0) : (kinit img).Runs s E fun _ s' => ∃ fs,
    Free img s' fs ∧ 1023 ≤ fs.length ∧ ∀ q, q ∈ fs ↔ img.Page q := by
  have hroom := img.room
  have hup : pgroundup img.kend = (img.kend + PGSIZE - 1) / PGSIZE * PGSIZE :=
    pgroundup_eq (by simp only [PGSIZE, PHYSTOP, KERNBASE] at *; omega)
  have hfree : Free img s [] := ⟨h, fun _ hq => absurd hq List.not_mem_nil, List.nodup_nil⟩
  refine (freerange_runs hfree ?_ ?_ fun _ hq => absurd hq List.not_mem_nil).mono ?_
  · rw [hup, Nat.mul_mod_left]
  · rw [hup]
    simp only [PGSIZE]
    omega
  · rintro _ s' ⟨fs, hfs, hlen, hmem⟩
    refine ⟨fs, hfs, ?_, fun q => ?_⟩
    · rw [hlen, hup, List.length_nil]
      simp only [PGSIZE, PHYSTOP, KERNBASE] at *
      omega
    · rw [hmem, or_iff_right List.not_mem_nil]
      refine and_iff_left_of_imp fun hq => ?_
      have hal := hq.aligned
      have hlow := hq.low
      rw [hup]
      simp only [PGSIZE] at *
      omega

end

/-! ## Users of pages -/

/-- Physical memory, and who has got which page from `kalloc`. -/
structure Shared where
  phys : Phys
  owner : Nat → Option Nat

/-- A step of user `t`, who may write to the pages that are its own and free them. -/
inductive Shared.Step (img : Image) (t : Nat) (s : Shared) : Shared → Prop where
  | kalloc (r : Option Nat) (s' : Phys) (h : kalloc.run s.phys = .ok r s') :
      Step img t s ⟨s', fun p => if r = some p then some t else s.owner p⟩
  | kfree (p : Nat) (s' : Phys) (hp : s.owner p = some t)
      (h : (kfree img p).run s.phys = .ok () s') :
      Step img t s ⟨s', fun q => if q = p then none else s.owner q⟩
  | write (p : Nat) (mem : Bytes) (hp : s.owner p = some t) (hf : Frame {p} s.phys.mem mem) :
      Step img t s { s with phys := { s.phys with mem := mem } }

/-- Every page is free or has an owner. -/
structure Shared.Ok (img : Image) (s : Shared) (fs : List Nat) : Prop where
  free : Free img s.phys fs
  page : ∀ p, s.owner p ≠ none → img.Page p
  iff : ∀ p, p ∈ fs ↔ img.Page p ∧ s.owner p = none

variable {img : Image} {s s' : Shared} {fs : List Nat} {t : Nat}

theorem Shared.Ok.step (h : s.Ok img fs) (hs : Shared.Step img t s s') :
    (∃ fs', s'.Ok img fs') ∧ ∀ p u, u ≠ t → s.owner p = some u →
      s'.owner p = some u ∧ Same p s.phys.mem s'.phys.mem := by
  -- a page that another one has is not the one that changes
  have hother : ∀ {p q u : Nat} {m' : Bytes}, s.owner p = some u →
      Frame {q} s.phys.mem m' → p ≠ q → Same p s.phys.mem m' := by
    intro p q u m' hp hf hne
    refine hf p (h.page p (by simp [hp])).aligned ?_
    rwa [Multiset.mem_singleton]
  cases hs with
  | kalloc r s' hr =>
    rcases (kalloc_runs (E := fun _ => False) h.free).ok hr with
      ⟨rfl, -, rfl⟩ | ⟨q, fs', rfl, rfl, hfree, hf⟩
    · exact ⟨⟨fs, by simpa using h⟩, fun p u _ hp => ⟨by simpa using hp, fun _ _ => rfl⟩⟩
    obtain ⟨hq, hq'⟩ := (h.iff q).mp List.mem_cons_self
    have hnew := (List.nodup_cons.mp h.free.nodup).1
    refine ⟨⟨fs', hfree, fun p hp => ?_, fun p => ?_⟩, fun p u _ hp => ?_⟩
    · grind [h.page p]
    · grind [h.iff p]
    · have hne : p ≠ q := by
        rintro rfl
        rw [hq'] at hp
        cases hp
      exact ⟨by simpa [hne.symm] using hp, hother hp hf hne⟩
  | kfree q s' hq hr =>
    have hpage := h.page q (by simp [hq])
    have hn : q ∉ fs := fun hm => by simpa [hq] using ((h.iff q).mp hm).2
    obtain ⟨hfree, hf⟩ := (kfree_runs (E := fun _ => False) h.free hpage hn).ok hr
    refine ⟨⟨q :: fs, hfree, fun p hp => ?_, fun p => ?_⟩, fun p u hu hp => ?_⟩
    · grind [h.page p]
    · grind [h.iff p]
    · have hne : p ≠ q := by
        rintro rfl
        exact hu (Option.some.inj (hp.symm.trans hq))
      exact ⟨by simpa [hne] using hp, hother hp hf hne⟩
  | write q mem hq hf =>
    have hn : ∀ p ∈ fs, p ∉ ({q} : Multiset Nat) := by
      intro p hp hm
      rw [Multiset.mem_singleton.mp hm] at hp
      simpa [hq] using ((h.iff q).mp hp).2
    refine ⟨⟨fs, h.free.frame hf hn rfl, h.page, h.iff⟩, fun p u hu hp => ⟨hp, ?_⟩⟩
    refine hother hp hf ?_
    rintro rfl
    exact hu (Option.some.inj (hp.symm.trans hq))

/-- From `kinit` on, whatever users do with their pages: `kalloc` never hands out a page that
    somebody has, and fails only when all pages are in use; a page that one has can be freed; and
    nothing that others do changes a byte of it. -/
theorem pages_exclusive {mem : Bytes} {k : Phys} (hinit : (kinit img).run ⟨mem, 0⟩ = .ok () k)
    (hrun : Relation.ReflTransGen (fun a b => ∃ t, Shared.Step img t a b) ⟨k, fun _ => none⟩ s) :
    (∀ p k', kalloc.run s.phys = .ok (some p) k' → img.Page p ∧ s.owner p = none) ∧
    (∀ k', kalloc.run s.phys = .ok none k' → ∀ p, img.Page p → s.owner p ≠ none) ∧
    (∀ p t, s.owner p = some t → ∃ k', (kfree img p).run s.phys = .ok () k') ∧
    ∀ t s', Shared.Step img t s s' → ∀ p u, u ≠ t → s.owner p = some u →
      s'.owner p = some u ∧ Same p s.phys.mem s'.phys.mem := by
  obtain ⟨fs, hok⟩ : ∃ fs, s.Ok img fs := by
    induction hrun with
    | refl =>
      obtain ⟨fs, hfree, -, hfs⟩ := (kinit_runs (E := fun _ => False) rfl).ok hinit
      exact ⟨fs, hfree, fun _ hp => absurd rfl hp, by simpa using hfs⟩
    | tail _ hstep ih =>
      obtain ⟨fs, hok⟩ := ih
      obtain ⟨t, hs⟩ := hstep
      exact (hok.step hs).1
  have hkalloc := kalloc_runs (E := fun _ => False) hok.free
  refine ⟨fun p k' hr => ?_, fun k' hr p hp hn => ?_, fun p t hp => ?_, fun t s' hs => ?_⟩
  · rcases hkalloc.ok hr with ⟨hc, -⟩ | ⟨q, fs', hq, rfl, -⟩
    · cases hc
    · cases hq
      exact (hok.iff p).mp List.mem_cons_self
  · rcases hkalloc.ok hr with ⟨-, rfl, -⟩ | ⟨q, fs', hq, -⟩
    · exact absurd ((hok.iff p).mpr ⟨hp, hn⟩) List.not_mem_nil
    · cases hq
  · have hn : p ∉ fs := fun hm => by simpa [hp] using ((hok.iff p).mp hm).2
    obtain ⟨_, k', hk, -⟩ := (kfree_runs (E := fun _ => False) hok.free
      (hok.page p (by simp [hp])) hn).ends fun _ he => he
    exact ⟨k', hk⟩
  · exact (hok.step hs).2

theorem pages_exclusive_boot : ∃ k p k', (kinit .built).run ⟨fun _ => 0, 0⟩ = .ok () k ∧
    kalloc.run k = .ok (some p) k' ∧ Image.built.Page p := by
  have hinit : (kinit .built).Runs ⟨fun _ => 0, 0⟩ (fun _ => False) _ := kinit_runs rfl
  obtain ⟨_, k, hk, fs, hfree, hlen, -⟩ := hinit.ends fun _ he => he
  obtain ⟨r, k', hr, ⟨-, rfl, -⟩ | ⟨p, fs', rfl, -⟩⟩ :=
    (kalloc_runs (E := fun _ => False) hfree).ends fun _ he => he
  · exact absurd hlen (by decide)
  · exact ⟨k, p, k', hk, hr, ((pages_exclusive hk .refl).1 p k' hr).1⟩

end Xv6.Mem
