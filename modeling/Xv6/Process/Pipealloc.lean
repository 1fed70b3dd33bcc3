import Xv6.Process.Unwind

/-!
# `pipe` gives back what it took

`sys_pipe` takes two files, a page and two descriptors, and then copies the descriptors out. Where
it fails it clears the descriptors it has set and closes the two files; closing the second end of
the pipe frees the page.
-/

namespace Xv6.Process

open Lib Mem Function

section

variable {img : Image} {k k₁ : Kernel} {s : Phys} {fs fs' : List Nat} {A R : Multiset Owner}
  {p f pi rf wf fd fdarray : Nat} {rd wr : Option Nat} {files : Nat → File}
  {ofile : Nat → Option Nat} {E : Option String → Prop}

/-! ## The page of a pipe -/

theorem Owned.of_pipe (h : Owned img s fs ({.pipe pi rd wr} + R)) :
    Owned img s fs ({.page pi} + R) := by
  refine h.recast ?_ ?_
  · simp [Owner.pages]
  · intro o ho
    rw [Multiset.mem_singleton.mp ho]
    trivial

theorem Owned.to_pipe (h : Owned img s fs ({.page pi} + R))
    (hr : leGet 4 s.mem (pi + readopen) = rd.isSome.toNat)
    (hw : leGet 4 s.mem (pi + writeopen) = wr.isSome.toNat) :
    Owned img s fs ({.pipe pi rd wr} + R) := by
  refine h.recast ?_ ?_
  · simp [Owner.pages]
  · intro o ho
    rw [Multiset.mem_singleton.mp ho]
    exact ⟨hr, hw⟩

theorem store4_owned {off v : Nat} (h : Owned img s fs ({.page pi} + R)) (hoff : off + 4 ≤ PGSIZE) :
    (store4 (pi + off) v).Runs s E fun _ s' => Owned img s' fs ({.page pi} + R) ∧
      Untouched R s.mem s'.mem ∧ s'.mem = lePut 4 s.mem (pi + off) v :=
  .modify ⟨(h.put hoff).1, (h.put hoff).2, rfl⟩

/-- A new pipe is open at both ends. -/
theorem pipeinit_owned (rf wf : Nat) (h : Owned img s fs ({.page pi} + R)) :
    (pipeinit pi).Runs s E fun _ s' => Owned img s' fs ({.pipe pi (some rf) (some wf)} + R) ∧
      Untouched R s.mem s'.mem := by
  refine .bind (store4_owned h (by decide)) ?_
  rintro _ s₁ ⟨h₁, hu₁, hm₁⟩
  refine .bind (store4_owned h₁ (by decide)) ?_
  rintro _ s₂ ⟨h₂, hu₂, hm₂⟩
  refine .bind (store4_owned h₂ (by decide)) ?_
  rintro _ s₃ ⟨h₃, hu₃, hm₃⟩
  refine (store4_owned h₃ (by decide)).mono ?_
  rintro _ s₄ ⟨h₄, hu₄, hm₄⟩
  refine ⟨Owned.to_pipe h₄ ?_ ?_, hu₁.trans (hu₂.trans (hu₃.trans hu₄))⟩
  · simp only [readopen, writeopen] at hm₁ hm₂ ⊢
    rw [hm₄, leGet_lePut_of_disjoint (by omega), hm₃, leGet_lePut_of_disjoint (by omega), hm₂,
      leGet_lePut_of_disjoint (by omega), hm₁, leGet_lePut_self]
    rfl
  · simp only [writeopen] at hm₂ ⊢
    rw [hm₄, leGet_lePut_of_disjoint (by omega), hm₃, leGet_lePut_of_disjoint (by omega), hm₂,
      leGet_lePut_self]
    rfl

/-- A pipe that is closed at both ends is gone. -/
def ends (pi : Nat) (rd wr : Option Nat) : Multiset Owner :=
  if rd = none ∧ wr = none then 0 else {.pipe pi rd wr}

/-- `pipeclose` closes one end; the last one frees the page. -/
theorem pipeclose_owned (writable : Bool) (h : Owned img s fs ({.pipe pi rd wr} + R)) :
    (pipeclose img pi writable).Runs s E fun _ s' => Untouched R s.mem s'.mem ∧ ∃ fs',
      Owned img s' fs'
        (ends pi (if writable then rd else none) (if writable then none else wr) + R) := by
  obtain ⟨hr, hw⟩ := h.ok _ (Multiset.mem_add.mpr (.inl (Multiset.mem_singleton_self _)))
  have hoff : (if writable then writeopen else readopen) + 4 ≤ PGSIZE := by
    cases writable <;> decide
  refine .bind (store4_owned (Owned.of_pipe h) hoff) ?_
  rintro _ s₁ ⟨h₁, hu₁, hm₁⟩
  have hr₁ : leGet 4 s₁.mem (pi + readopen) = (if writable then rd else none).isSome.toNat := by
    cases writable with
    | false =>
      rw [hm₁, if_neg (by decide), leGet_lePut_self]
      rfl
    | true =>
      rw [hm₁, if_pos rfl, leGet_lePut_of_disjoint (by simp only [readopen, writeopen]; omega)]
      exact hr
  have hw₁ : leGet 4 s₁.mem (pi + writeopen) = (if writable then none else wr).isSome.toNat := by
    cases writable with
    | false =>
      rw [hm₁, if_neg (by decide),
        leGet_lePut_of_disjoint (by simp only [readopen, writeopen]; omega)]
      exact hw
    | true =>
      rw [hm₁, if_pos rfl, leGet_lePut_self]
      rfl
  refine .seq (.seq (.get (.ret ?_)))
  refine .seq (.seq (.get (.ret ?_)))
  rw [hr₁, hw₁]
  unfold ends
  refine .when (fun hc => ?_) fun hc => ?_
  · simp only [Bool.toNat_eq_zero, Option.isSome_eq_false_iff, Option.isNone_iff_eq_none] at hc
    refine (kfree_kept h₁).mono ?_
    rintro _ s' ⟨ho, hu⟩
    rw [if_pos hc, zero_add]
    exact ⟨hu₁.trans hu, _, ho⟩
  · simp only [Bool.toNat_eq_zero, Option.isSome_eq_false_iff, Option.isNone_iff_eq_none] at hc
    rw [if_neg hc]
    exact ⟨hu₁, fs, Owned.to_pipe h₁ hr₁ hw₁⟩

/-! ## Files and descriptors -/

/-- Since `k` the file table has become `files`, the descriptors of `p` have become `ofile`, and the
    pages have changed. -/
structure Since (k k₁ : Kernel) (p : Nat) (files : Nat → File) (ofile : Nat → Option Nat)
    (s : Phys) : Prop where
  file : k₁.file = files
  ofile : (k₁.proc p).ofile = ofile
  pagetable : (k₁.proc p).pagetable = (k.proc p).pagetable
  slots : ∀ q, (k₁.proc q).state = (k.proc q).state
  phys : k₁.phys = s

theorem Since.start (k : Kernel) (p : Nat) : Since k k p k.file (k.proc p).ofile k.phys :=
  ⟨rfl, rfl, rfl, fun _ => rfl, rfl⟩

theorem Since.setFile (h : Since k k₁ p files ofile s) (f : Nat) (x : File) :
    Since k (k₁.setFile f x) p (update files f x) ofile s := by
  refine ⟨?_, h.ofile, h.pagetable, h.slots, h.phys⟩
  rw [← h.file]
  rfl

theorem Since.setOfile (h : Since k k₁ p files ofile s) (fd : Nat) (v : Option Nat) :
    Since k (k₁.setProc p { k₁.proc p with ofile := update (k₁.proc p).ofile fd v }) p
      files (update ofile fd v) s := by
  refine ⟨h.file, ?_, ?_, fun q => ?_, h.phys⟩
  · rw [setProc_self, h.ofile]
  · rw [setProc_self]
    exact h.pagetable
  · by_cases hq : q = p
    · rw [hq, setProc_self]
      exact h.slots p
    · rw [setProc_ne hq]
      exact h.slots q

theorem Since.onPhys {α : Type} {prog : Prog Phys α} {Q : α → Phys → Prop}
    (h : Since k k₁ p files ofile s) (hp : prog.Runs s E Q) :
    (onPhys prog).Runs k₁ E fun a k₂ => ∃ s', Since k k₂ p files ofile s' ∧ Q a s' := by
  rw [← h.phys] at hp
  refine (onPhys_runs hp).mono ?_
  rintro a _ ⟨s', rfl, hQ⟩
  exact ⟨s', ⟨h.file, h.ofile, h.pagetable, h.slots, rfl⟩, hQ⟩

theorem Since.onFile (h : Since k k₁ p files ofile s) (f : Nat) (g : File → File) :
    (onFile f g).Runs k₁ E fun _ k₂ =>
      Since k k₂ p (update files f (g (files f))) ofile s := by
  refine onFile_runs ?_
  rw [h.file]
  exact h.setFile f _

theorem Since.filealloc (h : Since k k₁ p files ofile s) : filealloc.Runs k₁ E fun r k₂ =>
    (r = none ∧ Since k k₂ p files ofile s) ∨ ∃ f, r = some f ∧ (files f).ref = 0 ∧
      Since k k₂ p (update files f { files f with ref := 1 }) ofile s := by
  cases hfind : (List.range NFILE).find? fun f => (k₁.file f).ref = 0 with
  | none => exact .atomic (by rw [hfind]) (.inl ⟨rfl, h⟩)
  | some f =>
    have href : (k₁.file f).ref = 0 := by simpa using List.find?_some hfind
    refine .atomic (by rw [hfind]) (.inr ⟨f, rfl, h.file ▸ href, ?_⟩)
    rw [h.file]
    exact h.setFile f _

theorem Since.fdalloc (h : Since k k₁ p files ofile s) (f : Nat) :
    (fdalloc p f).Runs k₁ E fun r k₂ =>
      (r = none ∧ Since k k₂ p files ofile s) ∨ ∃ fd, r = some fd ∧ ofile fd = none ∧
        Since k k₂ p files (update ofile fd (some f)) s := by
  cases hfind : (List.range NOFILE).find? fun fd => (k₁.proc p).ofile fd = none with
  | none => exact .atomic (by rw [hfind]) (.inl ⟨rfl, h⟩)
  | some fd =>
    have hfd : (k₁.proc p).ofile fd = none := by simpa using List.find?_some hfind
    exact .atomic (by rw [hfind]) (.inr ⟨fd, rfl, h.ofile ▸ hfd, h.setOfile fd _⟩)

theorem Since.fdfree (h : Since k k₁ p files ofile s) (fd : Nat) :
    (fdfree p fd).Runs k₁ E fun _ k₂ => Since k k₂ p files (update ofile fd none) s :=
  onProc_runs (h.setOfile fd none)

/-- The last reference of a file is given up. -/
theorem Since.fileclose {Q : Phys → Prop} (h : Since k k₁ p files ofile s)
    (href : (files f).ref = 1)
    (hpipe : (files f).type = .pipe →
      (pipeclose img (files f).pipe (files f).writable).Runs s E fun _ s' => Q s')
    (hother : (files f).type ≠ .pipe → Q s) :
    (fileclose img f).Runs k₁ E fun _ k₂ => ∃ s',
      Since k k₂ p (update files f { files f with ref := 0, type := .none }) ofile s' ∧
        Q s' := by
  have hf : (k₁.file f).ref = 1 := by rw [h.file, href]
  refine .bind (R := fun r k₂ => r = some (files f) ∧
    Since k k₂ p (update files f { files f with ref := 0, type := .none }) ofile s) ?_ ?_
  · refine .atomic (by rw [if_neg (by omega), if_neg (by omega)]) ⟨by rw [h.file], ?_⟩
    rw [h.file]
    exact h.setFile f _
  rintro _ k₂ ⟨rfl, h₂⟩
  refine .when (fun hc => ?_) fun hc => ⟨s, h₂, hother hc⟩
  exact h₂.onPhys (hpipe hc)

/-- All that has been taken is given back. -/
theorem Since.gaveBack (h : Since k k₁ p files (k.proc p).ofile s) (hown : Owned img k.phys fs A)
    (hs : ∃ fs', Owned img s fs' A ∧ PagesKept A k.phys.mem s.mem)
    (hrefs : ∀ f, (files f).ref = (k.file f).ref) : GaveBack img k k₁ p fs := by
  rw [← h.phys] at hs
  refine Back.gaveBack hown hs (fun f => ?_) h.ofile fun q => ?_
  · rw [h.file, hrefs]
  · rw [h.slots]

/-! ## `pipealloc` and `sys_pipe` -/

/-- A file that has been allocated and not been used is closed again. -/
theorem Since.fileclose_new (h : Since k k₁ p files ofile s) (f : Nat) (href : (files f).ref = 1)
    (htype : (files f).type = .none) : (Process.fileclose img f).Runs k₁ E fun _ k₂ =>
      Since k k₂ p (update files f { files f with ref := 0, type := .none }) ofile s := by
  have hne : (files f).type ≠ .pipe := by
    rw [htype]
    decide
  refine (h.fileclose (Q := fun s' => s' = s) href (fun hp => absurd hp hne) fun _ => rfl).mono ?_
  rintro _ k₂ ⟨_, h₂, rfl⟩
  exact h₂

/-- An end of a pipe is closed. -/
theorem Since.fileclose_end (h : Since k k₁ p files ofile s) (f : Nat) (href : (files f).ref = 1)
    (htype : (files f).type = .pipe) (ho : Owned img s fs ({.pipe (files f).pipe rd wr} + R)) :
    (Process.fileclose img f).Runs k₁ E fun _ k₂ => ∃ s',
      Since k k₂ p (update files f { files f with ref := 0, type := .none }) ofile s' ∧
      Untouched R s.mem s'.mem ∧ ∃ fs', Owned img s' fs' (ends (files f).pipe
        (if (files f).writable then rd else none) (if (files f).writable then none else wr) + R) :=
  h.fileclose href (fun _ => pipeclose_owned _ ho) fun hne => absurd htype hne

/-- The files `rf` and `wf`, which were not in use in `k`, are the ends of the pipe `pi`. -/
structure Ends (k : Kernel) (files : Nat → File) (rf wf pi : Nat) : Prop where
  ne : wf ≠ rf
  read : (k.file rf).ref = 0
  write : (k.file wf).ref = 0
  rd : (files rf).ref = 1 ∧ (files rf).type = .pipe ∧ (files rf).writable = false ∧
    (files rf).pipe = pi
  wr : (files wf).ref = 1 ∧ (files wf).type = .pipe ∧ (files wf).writable = true ∧
    (files wf).pipe = pi
  others : ∀ f, f ≠ rf → f ≠ wf → files f = k.file f

theorem pipealloc_runs (p : Nat) (hown : Owned img k.phys fs A)
    (hclosed : ∀ f, (k.file f).ref = 0 → (k.file f).type = .none) :
    (pipealloc img).Runs k E fun r k₁ =>
      (r = none ∧ GaveBack img k k₁ p fs) ∨ ∃ rf wf pi files s fs', r = some (rf, wf) ∧
        Since k k₁ p files (k.proc p).ofile s ∧ Ends k files rf wf pi ∧
        Owned img s fs' ({.pipe pi (some rf) (some wf)} + A) ∧
        PagesKept A k.phys.mem s.mem := by
  refine .bind (Since.start k p).filealloc ?_
  rintro _ k₁ (⟨rfl, h₁⟩ | ⟨rf, rfl, hrf, h₁⟩)
  · exact .ret (.inl ⟨rfl, h₁.gaveBack hown ⟨fs, hown, fun _ _ => rfl⟩ fun _ => rfl⟩)
  refine .bind h₁.filealloc ?_
  rintro _ k₂ (⟨rfl, h₂⟩ | ⟨wf, rfl, hwf, h₂⟩)
  · -- there is only one file
    refine .bind (h₂.fileclose_new rf (by simp) (by simp [hclosed rf hrf])) ?_
    refine fun _ k₃ h₃ => .ret (.inl ⟨rfl, h₃.gaveBack hown ⟨fs, hown, fun _ _ => rfl⟩ fun f => ?_⟩)
    by_cases hf : f = rf
    · simp [hf, hrf]
    · simp [hf]
  have hne : wf ≠ rf := by
    intro heq
    simp [heq] at hwf
  rw [update_of_ne hne] at hwf h₂
  refine .bind (h₂.onPhys (kalloc_kept hown)) ?_
  rintro _ k₃ ⟨s, h₃, ⟨rfl, -, rfl⟩ | ⟨pi, fs₁, rfl, -, ho, hu⟩⟩
  · -- there is no page
    refine .bind (h₃.fileclose_new rf (by simp [hne.symm]) (by simp [hne.symm, hclosed rf hrf])) ?_
    intro _ k₄ h₄
    refine .bind (h₄.fileclose_new wf (by simp [hne]) (by simp [hne, hclosed wf hwf])) ?_
    refine fun _ k₅ h₅ => .ret (.inl ⟨rfl, h₅.gaveBack hown ⟨fs, hown, fun _ _ => rfl⟩ fun f => ?_⟩)
    by_cases hf : f = wf
    · simp [hf, hwf]
    · by_cases hf' : f = rf
      · simp [hf', hne.symm, hrf]
      · simp [hf, hf']
  refine .bind (h₃.onPhys (pipeinit_owned rf wf ho)) ?_
  rintro _ k₄ ⟨s', h₄, ho', hu'⟩
  refine .bind (h₄.onFile rf _) ?_
  intro _ k₅ h₅
  refine .bind (h₅.onFile wf _) ?_
  intro _ k₆ h₆
  refine .ret (.inr ⟨rf, wf, pi, _, s', fs₁, rfl, h₆, ?_, ho', (hu.trans hu').kept⟩)
  refine ⟨hne, hrf, hwf, ?_, ?_, fun f hf hf' => ?_⟩
  · simp [hne.symm]
  · simp [hne]
  · simp [hf, hf']

/-- Both ends of the pipe are closed again. -/
theorem closeEnds_runs (h : Since k k₁ p files (k.proc p).ofile s) (he : Ends k files rf wf pi)
    (hown : Owned img k.phys fs A) (ho : Owned img s fs' ({.pipe pi (some rf) (some wf)} + A))
    (hkept : PagesKept A k.phys.mem s.mem) :
    (do
      fileclose img rf
      fileclose img wf
      return false : Prog Kernel Bool).Runs k₁ E fun _ k₂ => GaveBack img k k₂ p fs := by
  obtain ⟨hrd, hrt, hrw, hrp⟩ := he.rd
  obtain ⟨hwr, hwt, hww, hwp⟩ := he.wr
  rw [← hrp] at ho
  refine .bind (h.fileclose_end rf hrd hrt ho) ?_
  rintro _ k₂ ⟨s₁, h₂, hu₁, fs₁, ho₁⟩
  have hwf : update files rf { files rf with ref := 0, type := .none } wf = files wf :=
    update_of_ne he.ne ..
  rw [hrp, hrw, ← hwp, ← hwf] at ho₁
  refine .bind (h₂.fileclose_end wf (by rw [hwf, hwr]) (by rw [hwf, hwt]) ho₁) ?_
  rintro _ k₃ ⟨s₂, h₃, hu₂, fs₂, ho₂⟩
  rw [hwf, hww] at ho₂
  rw [ends, if_pos ⟨rfl, rfl⟩, zero_add] at ho₂
  refine .ret (h₃.gaveBack hown ⟨fs₂, ho₂, hkept.trans (hu₁.trans hu₂).kept⟩ fun f => ?_)
  by_cases hf : f = wf
  · simp [hf, he.write]
  · by_cases hf' : f = rf
    · simp [hf', he.ne.symm, he.read]
    · simp [hf, hf', he.others]

/-- Clearing a descriptor undoes setting it. -/
theorem update_none (h : ofile fd = none) (v : Option Nat) :
    update (update ofile fd v) fd none = ofile := by
  rw [update_idem, ← h, update_eq_self]

theorem update_none_twice {fd' f' : Nat} (h : ofile fd = none)
    (h' : update ofile fd (some f) fd' = none) :
    update (update (update (update ofile fd (some f)) fd'
      (some f')) fd none) fd' none = ofile := by
  have hne : fd' ≠ fd := by
    intro heq
    simp [heq] at h'
  rw [update_of_ne hne] at h'
  rw [update_comm hne, update_none h, update_none h']

/-- `sys_pipe` returns, and if it fails it has given everything back. -/
theorem sysPipe_runs (h : Sane img k p fs R) :
    (sysPipe img p fdarray).Runs k E fun r k' => r = false → GaveBack img k k' p fs := by
  have hown := h.owned
  refine .bind (pipealloc_runs p hown h.closed) ?_
  rintro _ k₁ (⟨rfl, hg⟩ | ⟨rf, wf, pi, files, s, fs₁, rfl, h₁, he, ho, hkept⟩)
  · exact .ret fun _ => hg
  refine .bind (h₁.fdalloc rf) ?_
  rintro _ k₂ (⟨rfl, h₂⟩ | ⟨fd0, rfl, hfd0, h₂⟩)
  · exact (closeEnds_runs h₂ he hown ho hkept).mono fun _ _ hg _ => hg
  refine .bind (h₂.fdalloc wf) ?_
  rintro _ k₃ (⟨rfl, h₃⟩ | ⟨fd1, rfl, hfd1, h₃⟩)
  · refine .bind (h₃.fdfree fd0) ?_
    intro _ k₄ h₄
    rw [update_none hfd0] at h₄
    exact (closeEnds_runs h₄ he hown ho hkept).mono fun _ _ hg _ => hg
  refine .seq (getProc_runs ?_)
  rw [h₃.pagetable]
  rw [add_left_comm] at ho
  refine .bind (h₃.onPhys (Q := fun _ s' => Owned img s' fs₁ ({k.space p} +
    ({.pipe pi (some rf) (some wf)} + ({.page (k.proc p).trapframe} + R))) ∧
    PagesKept ({k.space p} + ({.pipe pi (some rf) (some wf)} +
      ({.page (k.proc p).trapframe} + R))) s.mem s'.mem) ?_) ?_
  · refine .bind (copyout_kept ho) ?_
    rintro ok s₁ ⟨ho₁, hk₁⟩
    cases ok with
    | false => exact .ret ⟨ho₁, hk₁⟩
    | true =>
      exact (copyout_kept ho₁).mono fun _ s₂ hs₂ => ⟨hs₂.1, hk₁.trans hs₂.2⟩
  rintro ok k₅ ⟨s', h₅, ho', hk'⟩
  cases ok with
  | true =>
    refine .ret fun hf => ?_
    cases hf
  | false =>
    have hk'' := hkept.trans (hk'.mono fun o hm => ?_)
    · rw [add_left_comm] at ho'
      refine .bind (h₅.fdfree fd0) ?_
      intro _ k₆ h₆
      refine .bind (h₆.fdfree fd1) ?_
      intro _ k₇ h₇
      rw [update_none_twice hfd0 hfd1] at h₇
      exact (closeEnds_runs h₇ he hown ho' hk'').mono fun _ _ hg _ => hg
    · simp only [Multiset.mem_add, Multiset.mem_singleton] at hm ⊢
      tauto

end

end Xv6.Process
