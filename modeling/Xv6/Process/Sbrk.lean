import Xv6.Mem.Access
import Xv6.Process.Kernel

/-!
# `sbrk`

`growproc` adds a signed number to an unsigned size. For a negative number that is greater than the
size the sum wraps around, `uvmdealloc` sees a size that is not smaller and does nothing, and
`sys_sbrk` reports success.
-/

namespace Xv6.Process

open Lib Mem

section

variable {img : Image} {k : Kernel} {s s' : Phys} {fs : List Nat} {R : Multiset Owner}
  {p pt v n' sz : Nat} {n : Int} {E : Option String → Prop} {α : Type}

theorem getProc_runs {Q : Proc → Kernel → Prop} (h : Q (k.proc p) k) : (getProc p).Runs k E Q :=
  .seq (.get (.ret h))

/-- A program on physical memory changes nothing else. -/
theorem onPhys_runs {q : Prog Phys α} {Q : α → Phys → Prop} (h : q.Runs k.phys E Q) :
    (onPhys q).Runs k E fun a k' => ∃ s, k' = k.setPhys s ∧ Q a s :=
  Prog.Runs.zoom (fun _ _ => rfl) (fun _ _ _ => rfl) (fun _ => rfl) h

/-- The address space of the process `p`. -/
def Kernel.space (k : Kernel) (p : Nat) : Owner :=
  .space (k.proc p).pagetable (npages (k.proc p).sz) (k.proc p).trapframe

/-- The mapping of a virtual page and the bytes in the page are the same. -/
def Retained (m m' : Bytes) (pt v : Nat) : Prop :=
  ∃ pa fl, look m pt v = some (pa, fl) ∧ look m' pt v = some (pa, fl) ∧ Same pa m m'

/-- The process `p` has got `n` bytes more, or less. -/
structure Resized (k k' : Kernel) (p : Nat) (n : Int) : Prop where
  sz : ((k'.proc p).sz : Int) = (k.proc p).sz + n
  old : ∀ v, v * PGSIZE < (k.proc p).sz → v * PGSIZE < (k'.proc p).sz →
    Retained k.phys.mem k'.phys.mem (k.proc p).pagetable v
  new : ∀ v pa fl, look k.phys.mem (k.proc p).pagetable v = none →
    look k'.phys.mem (k.proc p).pagetable v = some (pa, fl) → Zero pa k'.phys.mem

/-- What `sbrk` reports is what it did. -/
def Reports (k k' : Kernel) (p : Nat) (n : Int) : Option Nat → Prop
  | none => (k'.proc p).sz = (k.proc p).sz ∧ ∀ v,
      look k'.phys.mem (k.proc p).pagetable v = look k.phys.mem (k.proc p).pagetable v
  | some addr => addr = (k.proc p).sz ∧ Resized k k' p n

theorem setProc_self (k : Kernel) (p : Nat) (x : Proc) : (k.setProc p x).proc p = x :=
  Function.update_self ..

theorem lt_npages (hsz : sz ≤ 2 ^ 64 - PGSIZE) (hv : v * PGSIZE < sz) : v < npages sz := by
  rw [npages_eq hsz]
  simp only [PGSIZE] at *
  omega

/-- A page that was mapped before a space grew. -/
theorem retained_grew {fs' : List Nat} {C : Content} {n : Nat} (hs : Space img s fs pt n)
    (h : Grew img s s' fs fs' pt n n' C) (hv : v < n) : Retained s.mem s'.mem pt v := by
  obtain ⟨pa, fl, hl, -⟩ := hs.user v hv
  obtain ⟨hp, hn⟩ := hs.frame_page hv hl
  exact ⟨pa, fl, hl, (h.old v (.inl hv)).trans hl, h.frame pa hp.aligned hn⟩

/-- A page that is still mapped after a space shrank. -/
theorem retained_shrunk {fs' : List Nat} {n : Nat} (hs : Space img s fs pt n)
    (h : Shrunk img s s' fs fs' pt n n') (hv : v < n') : Retained s.mem s'.mem pt v := by
  have hle := h.le
  obtain ⟨pa, fl, hl, -⟩ := hs.user v (by omega)
  obtain ⟨hp, hn⟩ := hs.frame_page (by omega) hl
  refine ⟨pa, fl, hl, ?_, h.frame pa hp.aligned fun hm => ?_⟩
  · rw [h.look, unmapRange, if_neg (by omega), hl]
  · rcases Multiset.mem_add.mp hm with hf | hf
    · exact hn hf
    · obtain ⟨w, fl', hw, hwn, hl'⟩ := mem_frames.mp hf
      have := frames_inj (Multiset.nodup_add.mp hs.apart).2.1 ⟨Nat.zero_le v, by omega⟩
        ⟨Nat.zero_le w, by omega⟩ hl hl'
      omega

/-- A process is smaller than memory. -/
theorem size_le (hs : Space img s fs pt (npages sz)) (hsz : sz ≤ 2 ^ 64 - PGSIZE) :
    sz ≤ 2 ^ 27 := by
  have := hs.small
  rw [npages_eq hsz] at this
  simp only [PGSIZE] at *
  omega

theorem grow_runs (h : Owned img k.phys fs ({k.space p} + R))
    (hsz : (k.proc p).sz ≤ 2 ^ 64 - PGSIZE) (hpos : 0 < n) (hmax : n < 2 ^ 31) :
    (growproc img p n).Runs k E fun r k' => Reports k k' p n (if r then some (k.proc p).sz else none) := by
  have hs := h.space.1
  have hsmall := size_le hs hsz
  have hnew : (((k.proc p).sz + n) % 2 ^ 64).toNat = (k.proc p).sz + n.toNat := by omega
  refine .seq (getProc_runs ?_)
  rw [if_pos hpos, hnew]
  refine .bind (onPhys_runs (uvmalloc_owned h hsz (by decide))) ?_
  rintro r _ ⟨s, rfl, fs', n', -, -, hg, hr⟩
  by_cases h0 : r = 0
  · -- no page was added: the size is not 0 if there are
    rw [if_pos h0]
    have hn' : n' = npages (k.proc p).sz := by
      rcases hr with ⟨hmaxr, -⟩ | ⟨-, hn', -⟩
      · omega
      · exact hn'
    subst hn'
    refine .ret ⟨rfl, fun v => hg.old v ?_⟩
    exact lt_or_ge v _
  · rw [if_neg h0]
    obtain ⟨rfl, rfl, hle, -⟩ := hr.resolve_right fun hc => h0 hc.1
    have hmax' : max (k.proc p).sz ((k.proc p).sz + n.toNat) = (k.proc p).sz + n.toNat := by omega
    rw [hmax'] at hg hle ⊢
    refine .seq (.modify ?_)
    refine .ret ⟨rfl, ?_, fun v hv _ => ?_, fun v pa fl hnone hl => ?_⟩
    · rw [setProc_self]
      simp only
      omega
    · exact retained_grew hs hg (lt_npages hsz hv)
    · have hv : npages (k.proc p).sz ≤ v ∧ v < npages ((k.proc p).sz + n.toNat) := by
        by_contra hc
        have := hg.old v (by omega)
        rw [hnone] at this
        rw [show look ((k.setPhys s).setProc p _).phys.mem = look s.mem from rfl, this] at hl
        cases hl
      obtain ⟨pa', x, hl', -, hz⟩ := hg.new v hv.1 hv.2
      rw [show look ((k.setPhys s).setProc p _).phys.mem = look s.mem from rfl, hl'] at hl
      cases hl
      exact hz

theorem shrink_runs (h : Owned img k.phys fs ({k.space p} + R))
    (hsz : (k.proc p).sz ≤ 2 ^ 64 - PGSIZE) (hneg : n < 0) (hmin : -2 ^ 31 ≤ n) :
    (growproc img p n).Runs k E fun r k' => r = true ∧
      ((k.proc p).sz + n < 0 → (k'.proc p).sz = (k.proc p).sz) ∧
      (Reports k k' p n (some (k.proc p).sz) ↔ 0 ≤ (k.proc p).sz + n) := by
  have hs := h.space.1
  have hsmall := size_le hs hsz
  refine .seq (getProc_runs ?_)
  rw [if_neg (by omega), if_pos hneg]
  generalize hnew : (((k.proc p).sz + n) % 2 ^ 64).toNat = newsz
  refine .bind (onPhys_runs (uvmdealloc_owned h hsz)) ?_
  rintro r _ ⟨s, rfl, rfl, fs', -, hg⟩
  refine .seq (.modify ?_)
  refine .ret ⟨rfl, fun hlt => ?_, ?_⟩
  · rw [setProc_self]
    simp only
    omega
  constructor
  · rintro ⟨-, hres⟩
    have := hres.sz
    omega
  · intro hle
    have hmin' : min (k.proc p).sz newsz = newsz := by omega
    rw [hmin'] at hg ⊢
    refine ⟨rfl, ?_, fun v _ hv => ?_, fun v pa fl hnone hl => ?_⟩
    · rw [setProc_self]
      simp only
      omega
    · rw [setProc_self] at hv
      exact retained_shrunk hs hg (lt_npages (by omega) hv)
    · rw [show look ((k.setPhys s).setProc p _).phys.mem = look s.mem from rfl, hg.look,
        unmapRange] at hl
      split at hl
      · cases hl
      · rw [hnone] at hl
        cases hl

/-- `sbrk` does what it reports exactly if the new size is not negative. -/
theorem sbrk_reports (h : Owned img k.phys fs ({k.space p} + R))
    (hsz : (k.proc p).sz ≤ 2 ^ 64 - PGSIZE) (hmin : -2 ^ 31 ≤ n) (hmax : n < 2 ^ 31) :
    (sysSbrk img p n).Runs k (fun _ => False) fun r k' =>
      Reports k k' p n r ↔ 0 ≤ (k.proc p).sz + n := by
  refine .seq (getProc_runs ?_)
  rcases Int.lt_trichotomy n 0 with hneg | rfl | hpos
  · refine .bind (shrink_runs h hsz hneg hmin) ?_
    rintro _ k' ⟨rfl, -, hr⟩
    rw [if_pos rfl]
    exact .ret hr
  · refine .seq (.seq (getProc_runs ?_))
    rw [if_neg (by decide), if_neg (by decide)]
    refine .ret ?_
    rw [if_pos rfl]
    refine .ret (iff_of_true ⟨rfl, by omega, fun v hv _ => ?_, fun v pa fl hnone hl => ?_⟩
      (by omega))
    · exact retained_grew (C := .zeroed 0) h.space.1 (.refl h.space.1) (lt_npages hsz hv)
    · rw [hnone] at hl
      cases hl
  · refine .bind (grow_runs h hsz hpos hmax) ?_
    intro r k' hr
    cases r with
    | true =>
      rw [if_pos rfl] at hr ⊢
      exact .ret (iff_of_true hr (by omega))
    | false =>
      rw [if_neg Bool.false_ne_true] at hr ⊢
      exact .ret (iff_of_true hr (by omega))

/-- A kernel with one process. -/
def oneProcess (s : Phys) (pagetable sz trapframe : Nat) : Kernel where
  phys := s
  kpgtbl := 0
  desc := 0
  avail := 0
  used := 0
  proc := Function.update (fun _ => ⟨.unused, false, 0, 0, none, 0, 0, 0, fun _ => none⟩) 0
    ⟨.runnable, false, 0, 1, none, sz, pagetable, trapframe, fun _ => none⟩
  initproc := 0
  nextpid := 2
  file := fun _ => ⟨.none, 0, false, false, 0⟩

/-- There is a process of one page. -/
theorem exists_process (img : Image) : ∃ (k : Kernel) (fs : List Nat) (R : Multiset Owner),
    Owned img k.phys fs ({k.space 0} + R) ∧
    (k.proc 0).sz = 4096 ∧ 700 ≤ fs.length := by
  obtain ⟨s, fs, pt, tf, h, hlen, -⟩ := exists_owned (n := 1) img (by decide)
  have hone : npages 4096 = 1 := by decide
  refine ⟨oneProcess s pt 4096 tf, fs, {.page tf}, ?_, rfl, hlen⟩
  rw [← hone] at h
  exact h

/-- A process of one page gets another one and gives half of the first one back. -/
theorem sbrk_reports_page : ∃ (k : Kernel) (fs : List Nat) (R : Multiset Owner),
    Owned Image.built k.phys fs ({k.space 0} + R) ∧
    (∃ r k', (sysSbrk Image.built 0 4096).run k = .ok r k' ∧ Reports k k' 0 4096 r) ∧
    ∃ r k', (sysSbrk Image.built 0 (-2048)).run k = .ok r k' ∧ Reports k k' 0 (-2048) r := by
  obtain ⟨k, fs, R, h, hsz, -⟩ := exists_process Image.built
  have hle : (k.proc 0).sz ≤ 2 ^ 64 - PGSIZE := by rw [hsz]; decide
  refine ⟨k, fs, R, h, ?_, ?_⟩
  · obtain ⟨r, k', hrun, hr⟩ :=
      (sbrk_reports (n := 4096) h hle (by decide) (by decide)).ends fun _ => id
    exact ⟨r, k', hrun, hr.mpr (by omega)⟩
  · obtain ⟨r, k', hrun, hr⟩ :=
      (sbrk_reports (n := -2048) h hle (by decide) (by decide)).ends fun _ => id
    exact ⟨r, k', hrun, hr.mpr (by omega)⟩

/-- A process of one page asks for 4097 bytes less. Its size stays the same, and the call reports
    success. -/
theorem sbrk_wraps : ∃ (k : Kernel) (fs : List Nat) (R : Multiset Owner) (k' : Kernel),
    Owned Image.built k.phys fs ({k.space 0} + R) ∧
    (sysSbrk Image.built 0 (-4097)).run k = .ok (some 4096) k' ∧
    (k.proc 0).sz = 4096 ∧ (k'.proc 0).sz = 4096 ∧ ¬ Reports k k' 0 (-4097) (some 4096) := by
  obtain ⟨k, fs, R, h, hsz, -⟩ := exists_process Image.built
  have hruns : (sysSbrk Image.built 0 (-4097)).Runs k (fun _ => False) fun r k' =>
      r = some 4096 ∧ (k'.proc 0).sz = 4096 ∧ ¬ Reports k k' 0 (-4097) (some 4096) := by
    refine .seq (getProc_runs ?_)
    refine .bind (shrink_runs h (by rw [hsz]; decide) (by decide) (by decide)) ?_
    rintro _ k' ⟨rfl, hsame, hr⟩
    rw [hsz] at hsame hr ⊢
    rw [if_pos rfl]
    exact .ret ⟨rfl, hsame (by decide), fun hc => absurd (hr.mp hc) (by decide)⟩
  obtain ⟨r, k', hrun, rfl, hsz', hno⟩ := hruns.ends fun _ => id
  exact ⟨k, fs, R, k', h, hrun, hsz, hsz', hno⟩

end

end Xv6.Process
