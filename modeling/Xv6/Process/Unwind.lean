import Xv6.Process.Sbrk

/-!
# Calls that fail give back what they took

`fork` and `pipe` take a slot of the process table, files, descriptors and pages one after the
other. If they fail, at whatever point, then the same pages are free as before, every file has as
many references, the caller has the same descriptors, and the same slots are in use.

All pages are free or have an owner; a call takes pages and gives them to new owners. If in the end
there are the same owners as before, with the same pages, then the same pages are free.
-/

namespace Xv6.Process

open Lib Mem Function

/-- What the calls rely on: every page is free or has an owner, among them the caller `p`; a slot
    that is not in use has no memory; a file without references is closed, and the open files of
    the caller have references. -/
structure Sane (img : Image) (k : Kernel) (p : Nat) (fs : List Nat) (R : Multiset Owner) : Prop where
  owned : Owned img k.phys fs ({k.space p} + ({.page (k.proc p).trapframe} + R))
  size : (k.proc p).sz ≤ 2 ^ 64 - PGSIZE
  used : (k.proc p).state ≠ .unused
  unused : ∀ q, (k.proc q).state = .unused →
    (k.proc q).trapframe = 0 ∧ (k.proc q).pagetable = 0 ∧ (k.proc q).sz = 0
  closed : ∀ f, (k.file f).ref = 0 → (k.file f).type = .none
  opened : ∀ fd f, (k.proc p).ofile fd = some f → 0 < (k.file f).ref

/-- The same pages are free, every file has as many references, `p` has the same descriptors, and
    the same slots are in use. -/
structure GaveBack (img : Image) (k k' : Kernel) (p : Nat) (fs : List Nat) : Prop where
  free : ∃ fs', Free img k'.phys fs' ∧ fs'.Perm fs
  refs : ∀ f, (k'.file f).ref = (k.file f).ref
  ofile : (k'.proc p).ofile = (k.proc p).ofile
  slots : ∀ q, (k'.proc q).state ≠ .unused ↔ (k.proc q).state ≠ .unused

section

variable {img : Image} {k k' : Kernel} {s : Phys} {fs fs' : List Nat} {A R : Multiset Owner}
  {p q f g pi pt tf fd fdarray : Nat} {x : Proc} {E : Option String → Prop}

/-- The owners `A` have kept their pages, and own all that is not free. -/
def Back (img : Image) (k k' : Kernel) (A : Multiset Owner) : Prop :=
  ∃ fs', Owned img k'.phys fs' A ∧ PagesKept A k.phys.mem k'.phys.mem

theorem Back.refl (h : Owned img k.phys fs A) : Back img k k A := ⟨fs, h, fun _ _ => rfl⟩

theorem Back.gaveBack (h : Owned img k.phys fs A) (hb : Back img k k' A)
    (hrefs : ∀ f, (k'.file f).ref = (k.file f).ref) (hofile : (k'.proc p).ofile = (k.proc p).ofile)
    (hslots : ∀ q, (k'.proc q).state ≠ .unused ↔ (k.proc q).state ≠ .unused) :
    GaveBack img k k' p fs := by
  obtain ⟨fs', ho, hk⟩ := hb
  exact ⟨⟨fs', ho.free, h.perm_of_kept ho hk⟩, hrefs, hofile, hslots⟩

/-! ## Small steps -/

theorem onProc_runs {f : Proc → Proc} {Q : Unit → Kernel → Prop}
    (h : Q () (k.setProc p (f (k.proc p)))) : (onProc p f).Runs k E Q := .modify h

theorem onFile_runs {g : File → File} {Q : Unit → Kernel → Prop}
    (h : Q () (k.setFile f (g (k.file f)))) : (onFile f g).Runs k E Q := .modify h

theorem setProc_ne {x : Proc} (h : q ≠ p) : (k.setProc p x).proc q = k.proc q :=
  update_of_ne h ..

theorem setFile_self {x : File} : (k.setFile f x).file f = x := update_self ..

theorem setFile_ne {x : File} (h : g ≠ f) : (k.setFile f x).file g = k.file g :=
  update_of_ne h ..

/-! ## Slots of the process table -/

/-- What a slot that is being set up owns. -/
def Proc.owners (x : Proc) : Multiset Owner :=
  (if x.trapframe ≠ 0 then {.page x.trapframe} else 0) +
    if x.pagetable ≠ 0 then {.space x.pagetable (npages x.sz) x.trapframe} else 0

theorem Proc.owners_of_none (htf : x.trapframe = 0) (hpt : x.pagetable = 0) : x.owners = 0 := by
  simp [Proc.owners, htf, hpt]

theorem Proc.owners_of_trapframe (htf : x.trapframe ≠ 0) (hpt : x.pagetable = 0) :
    x.owners = {.page x.trapframe} := by
  simp [Proc.owners, htf, hpt]

/-- What may be there is freed. -/
theorem when_frees {c : Prop} [Decidable c] {o : Owner} {free : Prog Phys Unit}
    (hfree : ∀ s fs, Owned img s fs ({o} + R) → free.Runs s E fun _ s' =>
      ∃ fs', Owned img s' fs' R ∧ Untouched R s.mem s'.mem)
    (h : Owned img k.phys fs ((if c then {o} else 0) + R)) :
    (Prog.when c (onPhys free)).Runs k E fun _ k' => ∃ s fs', k' = k.setPhys s ∧
      Owned img s fs' R ∧ Untouched R k.phys.mem s.mem := by
  refine .when (fun hc => ?_) fun hc => ?_
  · rw [if_pos hc] at h
    refine (onPhys_runs (hfree _ _ h)).mono ?_
    rintro _ _ ⟨s, rfl, fs', ho, hu⟩
    exact ⟨s, fs', rfl, ho, hu⟩
  · rw [if_neg hc, zero_add] at h
    exact ⟨k.phys, fs, rfl, h, .refl _ _⟩

/-- What `freeproc` makes of a slot. -/
def Proc.freed (x : Proc) : Proc :=
  { x with
    trapframe := 0, pagetable := 0, sz := 0, pid := 0, parent := none, killed := false, xstate := 0,
    state := .unused }

/-- `freeproc` frees what the slot owns. -/
theorem freeproc_runs (h : Owned img k.phys fs ((k.proc q).owners + A)) :
    (freeproc img q).Runs k E fun _ k' => ∃ s fs', k' = (k.setPhys s).setProc q (k.proc q).freed ∧
      Owned img s fs' A ∧ Untouched A k.phys.mem s.mem := by
  refine .seq (getProc_runs ?_)
  rw [Proc.owners, add_assoc] at h
  refine .bind (when_frees (fun s fs ho => ?_) h) ?_
  · exact (kfree_kept ho).mono fun _ s' hs' => ⟨_, hs'⟩
  rintro _ _ ⟨s, fs₁, rfl, ho, hu⟩
  refine .bind (R := fun _ k' => k' = (k.setPhys s).setProc q
    { k.proc q with trapframe := 0 }) (onProc_runs rfl) ?_
  rintro _ _ rfl
  have ho' : Owned img ((k.setPhys s).setProc q { k.proc q with trapframe := 0 }).phys fs₁ _ := ho
  refine .bind (when_frees (fun s fs ho => procFreepagetable_owned ho) ho') ?_
  rintro _ _ ⟨s', fs₂, rfl, ho₂, hu'⟩
  refine onProc_runs ⟨s', fs₂, ?_, ho₂, ?_⟩
  · have hself : (((k.setPhys s).setProc q { k.proc q with trapframe := 0 }).setPhys s').proc q =
        { k.proc q with trapframe := 0 } := setProc_self ..
    rw [hself]
    unfold Kernel.setProc
    exact congrArg (fun f => { k.setPhys s' with proc := f }) (update_idem ..)
  · exact (hu.mono fun o hm => Multiset.mem_add.mpr (.inr hm)).trans hu'

/-- What the kernel itself owns: its page table with the stacks, and the rings of the disk. -/
def Kernel.base (k : Kernel) : Multiset Owner :=
  {.kernel k.kpgtbl} + ({.page k.desc} + ({.page k.avail} + {.page k.used}))

/-- Nothing has come of setting up a slot that was not in use. -/
structure Aborted (img : Image) (k k' : Kernel) (A : Multiset Owner) : Prop where
  back : Back img k k' A
  file : k'.file = k.file
  base : k'.base = k.base
  proc : ∀ q, k'.proc q = k.proc q ∨
    (k.proc q).state = .unused ∧ k'.proc q = (k.proc q).freed

theorem Aborted.refl (h : Owned img k.phys fs A) : Aborted img k k A :=
  ⟨.refl h, rfl, rfl, fun _ => .inl rfl⟩

theorem Aborted.gaveBack (h : Aborted img k k' A) (hown : Owned img k.phys fs A) (p : Nat) :
    GaveBack img k k' p fs := by
  refine h.back.gaveBack hown (fun f => by rw [h.file]) ?_ fun q => ?_
  · rcases h.proc p with hp | ⟨-, hp⟩
    · rw [hp]
    · rw [hp]
      rfl
  · rcases h.proc q with hq | ⟨hun, hq⟩
    · rw [hq]
    · rw [hq, hun]
      rfl

/-- The slot `np` has been set up, with an address space that is still empty. -/
structure Setup (img : Image) (k k' : Kernel) (np : Nat) (fs' : List Nat) (A : Multiset Owner) :
    Prop where
  owned : Owned img k'.phys fs'
    ({.space (k'.proc np).pagetable 0 (k'.proc np).trapframe} +
      ({.page (k'.proc np).trapframe} + A))
  kept : PagesKept A k.phys.mem k'.phys.mem
  file : k'.file = k.file
  base : k'.base = k.base
  others : ∀ q, q ≠ np → k'.proc q = k.proc q
  lt : np < NPROC
  unused : (k.proc np).state = .unused
  used : (k'.proc np).state = .used
  ofile : (k'.proc np).ofile = (k.proc np).ofile
  sz : (k'.proc np).sz = 0
  pagetable : (k'.proc np).pagetable ≠ 0

/-- `freeproc` in a slot that was not in use before. -/
theorem freeproc_aborts {k₁ : Kernel} (h : Owned img k₁.phys fs ((k₁.proc q).owners + A))
    (hkept : PagesKept A k.phys.mem k₁.phys.mem) (hfile : k₁.file = k.file)
    (hbase : k₁.base = k.base) (hothers : ∀ r, r ≠ q → k₁.proc r = k.proc r)
    (hun : (k.proc q).state = .unused) (hofile : (k₁.proc q).ofile = (k.proc q).ofile) :
    (freeproc img q).Runs k₁ E fun _ k' => Aborted img k k' A := by
  refine (freeproc_runs h).mono ?_
  rintro _ _ ⟨s, fs', rfl, ho, hu⟩
  refine ⟨⟨fs', ho, hkept.trans hu.kept⟩, hfile, hbase, fun r => ?_⟩
  by_cases hr : r = q
  · refine .inr ⟨hr ▸ hun, ?_⟩
    rw [hr, setProc_self, Proc.freed, hofile]
    rfl
  · left
    rw [setProc_ne hr]
    exact hothers r hr

theorem Setup.owners {np : Nat} (h : Setup img k k' np fs A) :
    (k'.proc np).owners = {.space (k'.proc np).pagetable 0 (k'.proc np).trapframe} +
      {.page (k'.proc np).trapframe} := by
  have hown := h.owned
  rw [add_left_comm] at hown
  rw [Proc.owners, if_pos (pos_iff_ne_zero.mp hown.page.1.pos), if_pos h.pagetable, h.sz, add_comm]
  rfl

/-- A slot that has been set up is given up again. -/
theorem Setup.aborts {np : Nat} (h : Setup img k k' np fs A) :
    (freeproc img np).Runs k' E fun _ k'' => Aborted img k k'' A := by
  have ho := h.owned
  rw [← add_assoc, ← h.owners] at ho
  exact freeproc_aborts ho h.kept h.file h.base h.others h.unused h.ofile

/-- Since `k` only the slot `np`, which is `x` now, and the pages have changed. -/
structure SlotIs (k k₁ : Kernel) (np : Nat) (x : Proc) (s : Phys) : Prop where
  proc : k₁.proc np = x
  others : ∀ q, q ≠ np → k₁.proc q = k.proc q
  file : k₁.file = k.file
  base : k₁.base = k.base
  phys : k₁.phys = s

theorem SlotIs.onProc {k₁ : Kernel} {np : Nat} (h : SlotIs k k₁ np x s) (f : Proc → Proc) :
    (onProc np f).Runs k₁ E fun _ k₂ => SlotIs k k₂ np (f x) s := by
  refine onProc_runs ⟨?_, fun q hq => ?_, h.file, h.base, h.phys⟩
  · rw [setProc_self, h.proc]
  · rw [setProc_ne hq, h.others q hq]

theorem SlotIs.onPhys {α : Type} {k₁ : Kernel} {np : Nat} {prog : Prog Phys α}
    {Q : α → Phys → Prop} (h : SlotIs k k₁ np x s) (hp : prog.Runs s E Q) :
    (onPhys prog).Runs k₁ E fun a k₂ => ∃ s', SlotIs k k₂ np x s' ∧ Q a s' := by
  rw [← h.phys] at hp
  refine (onPhys_runs hp).mono ?_
  rintro a _ ⟨s', rfl, hQ⟩
  exact ⟨s', ⟨h.proc, h.others, h.file, h.base, rfl⟩, hQ⟩

/-- The slot is given up again. -/
theorem SlotIs.aborts {k₁ : Kernel} {np : Nat} {os : Multiset Owner} (h : SlotIs k k₁ np x s)
    (hos : x.owners = os) (ho : Owned img s fs (os + A)) (hkept : PagesKept A k.phys.mem s.mem)
    (hun : (k.proc np).state = .unused) (hofile : x.ofile = (k.proc np).ofile) :
    (freeproc img np).Runs k₁ E fun _ k' => Aborted img k k' A := by
  rw [← h.phys, ← hos, ← h.proc] at ho
  rw [← h.phys] at hkept
  rw [← h.proc] at hofile
  exact freeproc_aborts ho hkept h.file h.base h.others hun hofile

theorem allocproc_runs (h : Owned img k.phys fs A) (hun : ∀ q, (k.proc q).state = .unused →
      (k.proc q).trapframe = 0 ∧ (k.proc q).pagetable = 0 ∧ (k.proc q).sz = 0) :
    (allocproc img).Runs k E fun r k' =>
      (r = none ∧ Aborted img k k' A ∧
        ((∀ q < NPROC, (k.proc q).state ≠ .unused) ∨ fs.length ≤ 6)) ∨
      ∃ np fs', r = some np ∧ Setup img k k' np fs' A ∧ fs.length ≤ fs'.length + 6 := by
  refine .seq (.get ?_)
  cases hfind : (List.range NPROC).find? fun p => (k.proc p).state = .unused with
  | none =>
    refine .ret (.inl ⟨rfl, .refl h, .inl fun q hq => ?_⟩)
    simpa using List.find?_eq_none.mp hfind q (List.mem_range.mpr hq)
  | some np =>
    have hnp : (k.proc np).state = .unused := by simpa using List.find?_some hfind
    obtain ⟨htf, hpt, hsz⟩ := hun np hnp
    refine .bind (R := fun _ k' => SlotIs k k' np (k.proc np) k.phys)
      (.atomic rfl ⟨rfl, fun _ _ => rfl, rfl, rfl, rfl⟩) ?_
    intro pid k₁ h₁
    refine .bind (h₁.onProc _) ?_
    intro _ k₂ h₂
    refine .bind (h₂.onPhys (kalloc_kept h)) ?_
    rintro tf k₃ ⟨s, h₃, hkalloc⟩
    refine .bind (h₃.onProc _) ?_
    intro _ k₄ h₄
    rcases hkalloc with ⟨rfl, rfl, rfl⟩ | ⟨tf, fs₁, rfl, rfl, ho, hu⟩
    · -- no page for the trapframe
      rw [← zero_add A] at h
      exact .bind (h₄.aborts (Proc.owners_of_none rfl hpt) h (fun _ _ => rfl) hnp rfl)
        fun _ k' hk' => .ret (.inl ⟨rfl, hk', .inr (Nat.zero_le 6)⟩)
    · have hpage : img.Page tf := ho.page.1
      refine .bind (h₄.onPhys (procPagetable_owned ho hpage)) ?_
      rintro pt k₅ ⟨s', h₅, hu', fs₂, hres⟩
      have hkept : PagesKept A k.phys.mem s'.mem :=
        hu.kept.trans (hu'.mono fun o hm => Multiset.mem_add.mpr (.inr hm)).kept
      refine .bind (h₅.onProc _) ?_
      intro _ k₆ h₆
      rcases hres with ⟨rfl, ho', hfew⟩ | ⟨pt, rfl, hpt', ho', hlen⟩
      · -- no page table
        have hne : tf ≠ 0 := pos_iff_ne_zero.mp hpage.pos
        exact .bind (h₆.aborts (Proc.owners_of_trapframe hne rfl) ho' hkept hnp rfl)
          fun _ k' hk' => .ret (.inl ⟨rfl, hk', .inr (Nat.succ_le_succ hfew)⟩)
      · have hproc := h₆.proc
        have hlt : np < NPROC := List.mem_range.mp (List.mem_of_find?_eq_some hfind)
        refine .ret (.inr ⟨np, fs₂, rfl,
          ⟨?_, ?_, h₆.file, h₆.base, h₆.others, hlt, hnp, ?_, ?_, ?_, ?_⟩, Nat.succ_le_succ hlen⟩)
        · rw [h₆.phys, hproc]
          exact ho'
        · rw [h₆.phys]
          exact hkept
        · rw [hproc]
        · rw [hproc]
        · rw [hproc]
          exact hsz
        · rw [hproc]
          exact hpt'

/-! ## `fork` -/

/-- No reference of an open file has been given up. -/
theorem dupFile_runs {k₁ : Kernel} {np i : Nat}
    (h : ∀ fd f, x.ofile fd = some f → 0 < (k₁.file f).ref) :
    (dupFile x np i).Runs k₁ E fun _ k₂ =>
      ∀ fd f, x.ofile fd = some f → 0 < (k₂.file f).ref := by
  unfold dupFile
  cases hf : x.ofile i with
  | none => exact .ret h
  | some f =>
    have hpos := h i f hf
    refine .bind (R := fun _ k₂ => ∀ fd f, x.ofile fd = some f → 0 < (k₂.file f).ref)
      (.atomic (if_neg (by omega)) ?_) fun _ k₂ h₂ => onProc_runs h₂
    intro fd g hg
    by_cases hgf : g = f
    · rw [hgf, setFile_self]
      exact Nat.succ_pos _
    · rw [setFile_ne hgf]
      exact h fd g hg

/-- `fork` returns, and if it fails it has given everything back. -/
theorem fork_runs (h : Sane img k p fs R) :
    (fork img p).Runs k E fun r k' => r = none → GaveBack img k k' p fs := by
  have howned := h.owned
  refine .bind (allocproc_runs howned h.unused) ?_
  rintro r k₁ (⟨rfl, hab, -⟩ | ⟨np, fs₁, rfl, hset, -⟩)
  · exact .ret fun _ => hab.gaveBack howned p
  have hpnp : p ≠ np := by
    intro hp
    exact h.used (hp ▸ hset.unused)
  have hproc : k₁.proc p = k.proc p := hset.others p hpnp
  refine .seq (getProc_runs ?_)
  rw [hproc]
  refine .seq (getProc_runs ?_)
  have hold : k.space p ∈ ({.page (k₁.proc np).trapframe} +
      ({k.space p} + ({.page (k.proc p).trapframe} + R)) : Multiset Owner) := by
    simp
  refine .bind (onPhys_runs (uvmcopy_owned hset.owned hold h.size)) ?_
  rintro ok _ ⟨s, rfl, fs₂, n', ho, hg, ⟨rfl, -⟩ | ⟨rfl, rfl, -⟩⟩
  · -- the child is set up
    refine .seq (onProc_runs ?_)
    refine .bind (onPhys_runs (Q := fun _ _ => True) (.seq (.modify (.modify trivial)))) ?_
    rintro _ _ ⟨s', rfl, -⟩
    refine .bind (R := fun _ _ => True) ?_ ?_
    · refine (Prog.Runs.loop (J := fun _ k' => ∀ fd f, (k.proc p).ofile fd = some f →
        0 < (k'.file f).ref) ?_ fun i k' _ _ hJ => dupFile_runs hJ).mono fun _ _ _ => trivial
      show ∀ fd f, (k.proc p).ofile fd = some f → 0 < (k₁.file f).ref
      rw [hset.file]
      exact h.opened
    intro _ k₅ _
    refine .seq (onProc_runs (.ret ?_))
    intro hnone
    cases hnone
  · -- not enough memory for the copy
    have hset' : Setup img k (k₁.setPhys s) np fs₂ ({k.space p} + ({.page (k.proc p).trapframe} + R)) := by
      refine ⟨ho, hset.kept.trans ?_, hset.file, hset.base, hset.others, hset.lt, hset.unused,
        hset.used, hset.ofile, hset.sz, hset.pagetable⟩
      have hu := hset.owned.untouched_space (hg.frame.mono fun q hq => Multiset.mem_add.mpr (.inl hq))
      exact (hu.mono fun o hm => Multiset.mem_add.mpr (.inr hm)).kept
    exact .bind hset'.aborts fun _ k' hab => .ret fun _ => hab.gaveBack howned p

end

end Xv6.Process
