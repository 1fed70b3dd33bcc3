import Xv6.Mem.Copy
import Xv6.Param

/-!
# Who owns which page

Every page that `kinit` has given to the allocator is free or belongs to one **owner**: somebody
who has allocated a page for himself, an address space, the kernel's page table with its stacks,
or a pipe. `Owned img s fs os` says that the free list is `fs` and that the owners `os` share out
all other pages.

A function that works on the memory of the owners `O` and on the free list leaves the other owners
`R` alone (`Owned.step`). Each function of the memory system then gets a rule of the form: from
`Owned img s fs (O + R)` it runs into `Owned img s' fs' (P + R)`.
-/

namespace Xv6.Mem

open Lib Function Multiset

/-! ## Owners -/

/-- The physical pages of the first `n` kernel stacks. -/
def stackPages (m : Bytes) (pt : Nat) : Nat → Multiset Nat
  | 0 => 0
  | n + 1 => stackPages m pt n + frameOf (look m pt (kstack n / PGSIZE))

/-- `pi->readopen` -/
abbrev readopen : Nat := 544
/-- `pi->writeopen` -/
abbrev writeopen : Nat := 548

/-- An owner of pages. The two ends of a pipe are entries of the file table. -/
inductive Owner where
  | page (p : Nat)
  | space (pt n tf : Nat)
  | kernel (pt : Nat)
  | pipe (p : Nat) (rd wr : Option Nat)

def Owner.pages (m : Bytes) : Owner → Multiset Nat
  | .page p => {p}
  | .space pt n _ => spacePages m pt n
  | .kernel pt => ptPages m 2 pt + stackPages m pt NPROC
  | .pipe p _ _ => {p}

/-- The pages of an owner hold what they should. -/
def Owner.Ok (img : Image) (m : Bytes) : Owner → Prop
  | .page _ => True
  | .space pt n tf => Aspace img m pt n tf
  | .kernel pt => Wf m 2 pt
  | .pipe p rd wr => leGet 4 m (p + readopen) = rd.isSome.toNat ∧
      leGet 4 m (p + writeopen) = wr.isSome.toNat

/-- The free pages and the pages of some owners. -/
def total (fs : List Nat) (m : Bytes) (os : Multiset Owner) : Multiset Nat :=
  ↑fs + (os.map (Owner.pages m)).sum

/-- The free list and the owners share out the pages of the allocator. -/
structure Owned (img : Image) (s : Phys) (fs : List Nat) (os : Multiset Owner) : Prop where
  free : Free img s fs
  ok : ∀ o ∈ os, o.Ok img s.mem
  nodup : (total fs s.mem os).Nodup
  all : ∀ p, p ∈ total fs s.mem os ↔ img.Page p

/-- The pages of the owners `R` are the same as before. -/
def Untouched (R : Multiset Owner) (m m' : Bytes) : Prop :=
  ∀ o ∈ R, o.pages m' = o.pages m ∧ ∀ p ∈ o.pages m, Same p m m'

section

variable {img : Image} {s s' : Phys} {fs fs' : List Nat} {O P R : Multiset Owner} {o : Owner}
  {m m' : Bytes} {p pt n n' tf sz newsz xperm va old new : Nat} {E : Option String → Prop}

theorem stackPages_congr {pt' : Nat} (h : look m' pt' = look m pt) :
    stackPages m' pt' n = stackPages m pt n := by
  induction n with
  | zero => rfl
  | succ n ih => rw [stackPages, stackPages, ih, h]

/-- An owner whose pages have not changed. -/
theorem Owner.congr (h : o.Ok img m) (hs : ∀ p ∈ o.pages m, Same p m m') :
    o.Ok img m' ∧ o.pages m' = o.pages m := by
  cases o with
  | page p => exact ⟨trivial, rfl⟩
  | space pt n tf =>
    obtain ⟨ha, hp, -⟩ := Aspace.congr h fun p hp => hs p (mem_add.mpr (.inl hp))
    exact ⟨ha, hp⟩
  | kernel pt =>
    have hal := alike fun p hp => hs p (mem_add.mpr (.inl hp))
    refine ⟨hal.wf h, ?_⟩
    rw [pages, pages, hal.pages, stackPages_congr hal.look]
  | pipe p rd wr =>
    have hp := hs p (mem_singleton_self p)
    refine ⟨⟨?_, ?_⟩, rfl⟩
    · rw [hp.leGet readopen (by decide)]
      exact h.1
    · rw [hp.leGet writeopen (by decide)]
      exact h.2

theorem total_add : total fs m (O + R) = total fs m O + (R.map (Owner.pages m)).sum := by
  rw [total, total, map_add, sum_add, add_assoc]

theorem total_zero : total fs m 0 = ↑fs := by
  rw [total, map_zero, sum_zero, add_zero]

theorem total_singleton : total fs m {o} = ↑fs + o.pages m := by
  rw [total, map_singleton, sum_singleton]

theorem mem_pages_total (ho : o ∈ O) (hp : p ∈ o.pages m) : p ∈ total fs m O := by
  obtain ⟨P, rfl⟩ := exists_cons_of_mem ho
  rw [total, map_cons, sum_cons, mem_add, mem_add]
  exact .inr (.inl hp)

theorem sum_pages_congr (h : ∀ o ∈ R, o.pages m' = o.pages m) :
    (R.map (Owner.pages m')).sum = (R.map (Owner.pages m)).sum := by
  rw [map_congr rfl h]

theorem Owned.page_of_mem (h : Owned img s fs (O + R)) (hp : p ∈ total fs s.mem O) :
    img.Page p := by
  refine (h.all p).mp ?_
  rw [total_add, mem_add]
  exact .inl hp

theorem Owned.nodup_left (h : Owned img s fs (O + R)) : (total fs s.mem O).Nodup := by
  have := h.nodup
  rw [total_add] at this
  exact (nodup_add.mp this).1

/-- The pages of another owner are not among those of the free list and of `O`. -/
theorem Owned.apart (h : Owned img s fs (O + R)) (ho : o ∈ R) (hp : p ∈ o.pages s.mem) :
    p ∉ total fs s.mem O := by
  intro hm
  have hnd := h.nodup
  rw [total_add] at hnd
  have hmem : p ∈ (R.map (Owner.pages s.mem)).sum := by
    have : p ∈ total [] s.mem R := mem_pages_total ho hp
    rwa [total, coe_nil, zero_add] at this
  exact disjoint_left.mp (nodup_add.mp hnd).2.2 hm hmem

theorem Untouched.refl (R : Multiset Owner) (m : Bytes) : Untouched R m m :=
  fun _ _ => ⟨rfl, fun _ _ _ _ => rfl⟩

theorem Untouched.trans {m'' : Bytes} (h : Untouched R m m') (h' : Untouched R m' m'') :
    Untouched R m m'' := by
  intro o ho
  obtain ⟨hpages, hsame⟩ := h o ho
  obtain ⟨hpages', hsame'⟩ := h' o ho
  exact ⟨hpages'.trans hpages, fun p hp => (hsame p hp).trans (hsame' p (hpages ▸ hp))⟩

theorem Untouched.mono (h : Untouched R m m') (hs : ∀ o ∈ O, o ∈ R) : Untouched O m m' :=
  fun o ho => h o (hs o ho)

/-- The owners `R` do not see a step on the memory of `O` and the free list. -/
theorem Owned.untouched (h : Owned img s fs (O + R)) (hf : Frame (total fs s.mem O) s.mem m') :
    Untouched R s.mem m' := by
  intro o ho
  have hoR : o ∈ O + R := mem_add.mpr (.inr ho)
  have hsame : ∀ p ∈ o.pages s.mem, Same p s.mem m' := fun p hp =>
    hf p ((h.all p).mp (mem_pages_total hoR hp)).aligned (h.apart ho hp)
  exact ⟨(Owner.congr (h.ok o hoR) hsame).2, hsame⟩

/-- A step on the memory of `O` and the free list leaves the owners `R` alone. -/
theorem Owned.step (h : Owned img s fs (O + R)) (hfree : Free img s' fs')
    (hk : Kept (total fs s.mem O) (total fs' s'.mem P) s.mem s'.mem)
    (hok : ∀ o ∈ P, o.Ok img s'.mem) : Owned img s' fs' (P + R) := by
  have hrest := h.untouched hk.frame
  have htot : total fs' s'.mem (P + R) = total fs s.mem (O + R) := by
    rw [total_add, total_add, hk.pages, sum_pages_congr fun o ho => (hrest o ho).1]
  refine ⟨hfree, fun o ho => ?_, htot ▸ h.nodup, htot ▸ h.all⟩
  refine (mem_add.mp ho).elim (hok o) fun hoR => ?_
  exact (Owner.congr (h.ok o (mem_add.mpr (.inr hoR))) (hrest o hoR).2).1

/-- Pages change hands. -/
theorem Owned.recast (h : Owned img s fs (O + R))
    (hp : (P.map (Owner.pages s.mem)).sum = (O.map (Owner.pages s.mem)).sum)
    (hok : ∀ o ∈ P, o.Ok img s.mem) : Owned img s fs (P + R) :=
  h.step h.free ⟨by rw [total, total, hp], .refl _ _⟩ hok

/-- Every owner has the pages that it had, whatever is in them now. -/
def PagesKept (R : Multiset Owner) (m m' : Bytes) : Prop := ∀ o ∈ R, o.pages m' = o.pages m

theorem Untouched.kept (h : Untouched R m m') : PagesKept R m m' := fun o ho => (h o ho).1

theorem PagesKept.trans {m'' : Bytes} (h : PagesKept R m m') (h' : PagesKept R m' m'') :
    PagesKept R m m'' := fun o ho => (h' o ho).trans (h o ho)

theorem PagesKept.mono (h : PagesKept R m m') (hs : ∀ o ∈ O, o ∈ R) : PagesKept O m m' :=
  fun o ho => h o (hs o ho)

/-- All pages are somewhere, before and after. -/
theorem Owned.total_eq (h : Owned img s fs O) (h' : Owned img s' fs' P) :
    total fs' s'.mem P = total fs s.mem O :=
  (Multiset.Nodup.ext h'.nodup h.nodup).mpr fun p => (h'.all p).trans (h.all p).symm

/-- If the owners have the pages that they had, the other pages are free as before. -/
theorem Owned.perm_of_kept (h : Owned img s fs R) (h' : Owned img s' fs' R)
    (hk : PagesKept R s.mem s'.mem) : fs'.Perm fs := by
  have htotal := h.total_eq h'
  rw [total, total, sum_pages_congr hk] at htotal
  exact coe_eq_coe.mp (add_right_cancel htotal)

/-- If all others have the pages that they had, so has the last one. -/
theorem Owned.kept_of_rest (h : Owned img s fs ({o} + R)) (h' : Owned img s' fs ({o} + R))
    (hk : PagesKept R s.mem s'.mem) : PagesKept ({o} + R) s.mem s'.mem := by
  have htotal := h.total_eq h'
  rw [total_add, total_add, total_singleton, total_singleton, sum_pages_congr hk] at htotal
  intro x hx
  rcases mem_add.mp hx with hx | hx
  · rw [mem_singleton.mp hx]
    exact add_left_cancel (add_right_cancel htotal)
  · exact hk x hx

/-- When all owners have what they had, the free pages are the same. -/
theorem Owned.free_perm (h : Owned img s fs R) (h' : Owned img s' fs' R)
    (hu : Untouched R s.mem s'.mem) : fs'.Perm fs := h.perm_of_kept h' hu.kept

/-! ## Single pages -/

theorem kalloc_kept (h : Owned img s fs R) : kalloc.Runs s E fun r s' =>
    (r = none ∧ fs = [] ∧ s' = s) ∨
      ∃ p fs', r = some p ∧ fs = p :: fs' ∧ Owned img s' fs' ({.page p} + R) ∧
        Untouched R s.mem s'.mem := by
  refine (kalloc_runs h.free).mono ?_
  rintro r s' (hr | ⟨p, fs', hr, rfl, hfree, hf⟩)
  · exact .inl hr
  · have h0 : Owned img s (p :: fs') (0 + R) := by rwa [zero_add]
    have hframe : Frame (total (p :: fs') s.mem 0) s.mem s'.mem := by
      refine hf.mono fun q hq => ?_
      rw [mem_singleton.mp hq, total_zero]
      exact List.mem_cons_self
    refine .inr ⟨p, fs', hr, rfl, h0.step hfree ⟨?_, hframe⟩ fun o ho => ?_, h0.untouched hframe⟩
    · rw [total_zero, total_singleton, ← cons_coe, ← singleton_add, Owner.pages,
        add_comm]
    · rw [mem_singleton.mp ho]
      trivial

theorem kalloc_owned (h : Owned img s fs R) : kalloc.Runs s E fun r s' =>
    (r = none ∧ fs = [] ∧ s' = s) ∨
      ∃ p fs', r = some p ∧ fs = p :: fs' ∧ Owned img s' fs' ({.page p} + R) := by
  refine (kalloc_kept h).mono ?_
  rintro r s' (hr | ⟨p, fs', hr, hfs, ho, -⟩)
  · exact .inl hr
  · exact .inr ⟨p, fs', hr, hfs, ho⟩

theorem Owned.page (h : Owned img s fs ({.page p} + R)) : img.Page p ∧ p ∉ fs := by
  have hnd := h.nodup_left
  rw [total_singleton, Owner.pages, add_comm, singleton_add, nodup_cons] at hnd
  refine ⟨h.page_of_mem ?_, hnd.1⟩
  rw [total_singleton, mem_add]
  exact .inr (mem_singleton_self p)

theorem kfree_kept (h : Owned img s fs ({.page p} + R)) : (kfree img p).Runs s E fun _ s' =>
    Owned img s' (p :: fs) R ∧ Untouched R s.mem s'.mem := by
  obtain ⟨hp, hn⟩ := h.page
  refine (kfree_runs h.free hp hn).mono ?_
  rintro _ s' ⟨hfree, hf⟩
  have hframe : Frame (total fs s.mem {.page p}) s.mem s'.mem := by
    refine hf.mono fun q hq => ?_
    rw [total_singleton, mem_add]
    exact .inr hq
  refine ⟨?_, h.untouched hframe⟩
  have hstep := h.step (P := 0) hfree ⟨?_, hframe⟩ fun o ho => absurd ho (notMem_zero o)
  · rwa [zero_add] at hstep
  · rw [total_zero, total_singleton, ← cons_coe, ← singleton_add, Owner.pages,
      add_comm]

/-- The owner of a page writes to it. -/
theorem Owned.write (h : Owned img s fs ({.page p} + R)) (hf : Frame {p} s.mem s'.mem)
    (hl : s'.freelist = s.freelist) : Owned img s' fs ({.page p} + R) := by
  obtain ⟨-, hn⟩ := h.page
  refine h.step (h.free.frame hf (fun q hq hm => ?_) hl) ⟨?_, hf.mono fun q hq => ?_⟩ fun o ho => ?_
  · rw [mem_singleton.mp hm] at hq
    exact hn hq
  · rw [total_singleton, total_singleton, Owner.pages, Owner.pages]
  · rw [total_singleton, mem_add]
    exact .inr hq
  · rw [mem_singleton.mp ho]
    trivial

theorem Owned.put {off k v : Nat} (h : Owned img s fs ({.page p} + R)) (hoff : off + k ≤ PGSIZE) :
    Owned img { s with mem := lePut k s.mem (p + off) v } fs ({.page p} + R) ∧
      Untouched R s.mem (lePut k s.mem (p + off) v) := by
  have hf := frame_lePut (m := s.mem) (v := v) h.page.1.aligned off hoff
  refine ⟨h.write hf rfl, h.untouched (hf.mono fun q hq => ?_)⟩
  rw [total_singleton]
  exact mem_add.mpr (.inr hq)

theorem store_owned {off v : Nat} (h : Owned img s fs ({.page p} + R)) (hoff : off + 8 ≤ PGSIZE) :
    (store (p + off) v).Runs s E fun _ s' => Owned img s' fs ({.page p} + R) ∧
      Untouched R s.mem s'.mem ∧ s'.mem = lePut 8 s.mem (p + off) v :=
  .modify ⟨(h.put hoff).1, (h.put hoff).2, rfl⟩

/-! ## Address spaces -/

theorem total_space : total fs m {.space pt n tf} = space fs m pt n := by
  rw [total_singleton, Owner.pages, space_eq]

theorem Owned.space (h : Owned img s fs ({.space pt n tf} + R)) :
    Space img s fs pt n ∧ Aspace img s.mem pt n tf := by
  have ha : Aspace img s.mem pt n tf :=
    h.ok (.space pt n tf) (mem_add.mpr (.inl (mem_singleton_self _)))
  refine ⟨ha.space h.free ?_ fun p hp => h.page_of_mem ?_, ha⟩
  · have := h.nodup_left
    rwa [total_singleton] at this
  · rw [total_singleton, mem_add]
    exact .inr hp

/-- What an operation on the user memory makes of an address space. -/
theorem Owned.of_space {k : Nat} (h : Owned img s fs ({.space pt n tf} + R))
    (hs : Space img s' fs' pt k)
    (hk : Kept (Mem.space fs s.mem pt n) (Mem.space fs' s'.mem pt k) s.mem s'.mem)
    (htop : SameTop pt s.mem s'.mem) : Owned img s' fs' ({.space pt k tf} + R) := by
  refine h.step hs.free ?_ fun o ho => ?_
  · rwa [total_space, total_space]
  · rw [mem_singleton.mp ho]
    exact h.space.2.of_space hs htop

/-- The other owners do not see an operation on an address space. -/
theorem Owned.untouched_space (h : Owned img s fs ({.space pt n tf} + R))
    (hf : Frame (Mem.space fs s.mem pt n) s.mem m') : Untouched R s.mem m' :=
  h.untouched (by rwa [total_space])

theorem uvmalloc_owned (h : Owned img s fs ({.space pt (npages sz) tf} + R))
    (hsz : sz ≤ 2 ^ 64 - PGSIZE) (hx : xperm < 1024) :
    (uvmalloc img pt sz newsz xperm).Runs s E fun r s' => ∃ fs' n',
      Owned img s' fs' ({.space pt n' tf} + R) ∧ Untouched R s.mem s'.mem ∧
      Grew img s s' fs fs' pt (npages sz) n' (.zeroed (userFlags xperm)) ∧
      ((r = max sz newsz ∧ n' = npages r ∧ r ≤ 2 ^ 64 - PGSIZE ∧
          fs.length + 3 * npages sz ≤ fs'.length + 3 * n') ∨
        (r = 0 ∧ n' = npages sz ∧ sz < newsz ∧
          ∀ M, newsz ≤ M * PGSIZE → fs.length + 3 * npages sz ≤ 3 * M)) := by
  refine (uvmalloc_runs h.space.1 hsz hx).mono ?_
  rintro r s' ⟨fs', n', hg, hr⟩
  exact ⟨fs', n', h.of_space hg.space hg.kept hg.top, h.untouched_space hg.kept.frame, hg, hr⟩

theorem uvmdealloc_owned (h : Owned img s fs ({.space pt (npages sz) tf} + R))
    (hsz : sz ≤ 2 ^ 64 - PGSIZE) :
    (uvmdealloc img pt sz newsz).Runs s E fun r s' => r = min sz newsz ∧ ∃ fs',
      Owned img s' fs' ({.space pt (npages r) tf} + R) ∧
      Shrunk img s s' fs fs' pt (npages sz) (npages r) := by
  refine (uvmdealloc_runs h.space.1 hsz).mono ?_
  rintro r s' ⟨hr, fs', hs'⟩
  exact ⟨hr, fs', h.of_space hs'.space hs'.kept (hs'.top h.space.1), hs'⟩

theorem procFreepagetable_owned (h : Owned img s fs ({.space pt (npages sz) tf} + R)) :
    (procFreepagetable img pt sz).Runs s E fun _ s' => ∃ fs', Owned img s' fs' R ∧
      Untouched R s.mem s'.mem := by
  obtain ⟨hs, ha⟩ := h.space
  refine (procFreepagetable_runs hs ha).mono ?_
  rintro _ s' ⟨fs', hfree, hk⟩
  have := h.step (P := 0) hfree (by rwa [total_space, total_zero]) fun o ho =>
    absurd ho (notMem_zero o)
  exact ⟨fs', by rwa [zero_add] at this, h.untouched_space hk.frame⟩

theorem procPagetable_owned (h : Owned img s fs R) (htf : img.Page tf) :
    (procPagetable img tf).Runs s E fun r s' => Untouched R s.mem s'.mem ∧ ∃ fs',
      (r = none ∧ Owned img s' fs' R ∧ fs.length ≤ 5) ∨
        ∃ pt, r = some pt ∧ pt ≠ 0 ∧ Owned img s' fs' ({.space pt 0 tf} + R) ∧
          fs.length ≤ fs'.length + 5 := by
  have h0 : Owned img s fs (0 + R) := by rwa [zero_add]
  refine (procPagetable_runs h.free htf.aligned htf.lt).mono ?_
  rintro r s' ⟨fs', hfree, ⟨hr, hk, hlen⟩ | ⟨pt, hr, hs, ha, hk, hlen⟩⟩
  · refine ⟨h0.untouched (by rw [total_zero]; exact hk.frame), fs', .inl ⟨hr, ?_, hlen⟩⟩
    have := h0.step (P := 0) hfree (by rwa [total_zero, total_zero]) fun o ho =>
      absurd ho (notMem_zero o)
    rwa [zero_add] at this
  · refine ⟨h0.untouched (by rw [total_zero]; exact hk.frame), fs', .inr ⟨pt, hr, Nat.ne_of_gt (hs.page pt pt_mem_ptPages).pos, ?_, hlen⟩⟩
    refine h0.step hfree (by rwa [total_space, total_zero]) fun o ho => ?_
    rw [mem_singleton.mp ho]
    exact ha

/-- The address space of another owner is beside the free list and the page table. -/
theorem Owned.beside {tf' : Nat} (h : Owned img s fs ({.space new n tf} + R))
    (hold : .space old n' tf' ∈ R) : Beside s.mem old n' (foot fs s.mem 2 new) := by
  have hin : .space old n' tf' ∈ {.space new n tf} + R := mem_add.mpr (.inr hold)
  have ha : Aspace img s.mem old n' tf' := h.ok _ hin
  have hout : ∀ p ∈ (Owner.space old n' tf').pages s.mem,
      p % PGSIZE = 0 ∧ p ∉ foot fs s.mem 2 new := by
    intro p hp
    refine ⟨((h.all p).mp (mem_pages_total hin hp)).aligned, fun hf => h.apart hold hp ?_⟩
    rw [total_space, Mem.space, mem_add]
    exact .inl hf
  refine ⟨ha.user, fun p hp => hout p (mem_add.mpr (.inl hp)), fun v pa fl hv hl => ?_⟩
  exact (hout pa (mem_add.mpr (.inr
    (mem_frames.mpr ⟨v, fl, Nat.zero_le v, by omega, hl⟩)))).2

/-- `uvmcopy` into an empty address space from that of another owner. -/
theorem uvmcopy_owned {tf' : Nat} (h : Owned img s fs ({.space new 0 tf} + R))
    (hold : .space old (npages sz) tf' ∈ R) (hsz : sz ≤ 2 ^ 64 - PGSIZE) :
    (uvmcopy img old new sz).Runs s E fun r s' => ∃ fs' n',
      Owned img s' fs' ({.space new n' tf} + R) ∧
      Grew img s s' fs fs' new 0 n' (.copyOf s.mem old fs) ∧
      ((r = true ∧ n' = npages sz) ∨ (r = false ∧ n' = 0 ∧ fs.length ≤ 3 * npages sz)) := by
  refine (uvmcopy_runs h.space.1 hsz (h.beside hold)).mono ?_
  rintro r s' ⟨fs', n', hg, hr⟩
  exact ⟨fs', n', h.of_space hg.space hg.kept hg.top, hg, hr⟩

/-! ## User memory -/

/-- The user has no access to the trapframe and the trampoline. -/
theorem Aspace.user_lt {v fl : Nat} (ha : Aspace img m pt n tf) (hl : look m pt v = some (p, fl))
    (hU : fl &&& PTE_U ≠ 0) : v < n := by
  by_contra hv
  by_cases htop : v < TF
  · rw [ha.gap v (not_lt.mp hv) htop] at hl
    cases hl
  · have hcase : v = TF ∨ v = TF + 1 := by
      have := (look_some hl).1
      simp only [TF, NPAGES] at this htop ⊢
      omega
    rcases hcase with rfl | rfl
    · rw [ha.trapframe] at hl
      cases hl
      exact hU (by decide)
    · rw [ha.trampoline] at hl
      cases hl
      exact hU (by decide)

/-- The frames of an address space are written to. -/
theorem Owned.write_user (s' : Phys) (h : Owned img s fs ({.space pt n tf} + R))
    (hf : Frame (frames (look s.mem pt) 0 n) s.mem s'.mem) (hl : s'.freelist = s.freelist) :
    Owned img s' fs ({.space pt n tf} + R) ∧ look s'.mem pt = look s.mem pt := by
  obtain ⟨hs, ha⟩ := h.space
  have hnd := hs.apart
  rw [Mem.space, nodup_add] at hnd
  obtain ⟨hs', hal⟩ := hs.frame hf (fun p hp hm => disjoint_left.mp hnd.2.2 hp hm) hl
  refine ⟨h.of_space hs' ⟨?_, hf.mono fun p hp => mem_add.mpr (.inr hp)⟩ fun v _ => ?_,
    hal.look⟩
  · rw [Mem.space, Mem.space, hal.look, foot, foot, hal.pages]
  · rw [hal.look]

/-- Which frames there are does not depend on the flags. -/
theorem frames_fst {f g : Nat → Option (Nat × Nat)}
    (h : ∀ w, (f w).map Prod.fst = (g w).map Prod.fst) : frames f va n = frames g va n := by
  have hone : ∀ b, frameOf b = (b.map fun x => ({x.1} : Multiset Nat)).getD 0 := by
    intro b
    cases b with
    | none => rfl
    | some x => rfl
  induction n with
  | zero => rfl
  | succ n ih =>
    have := congrArg (fun o => (o.map fun x => ({x} : Multiset Nat)).getD 0) (h (va + n))
    simp only [Option.map_map, comp_def] at this
    rw [frames, frames, ih, hone, hone, this]

theorem uvmclear_owned (h : Owned img s fs ({.space pt n tf} + R)) (hv : va / PGSIZE < n) :
    (uvmclear pt va).Runs s E fun _ s' => Owned img s' fs ({.space pt n tf} + R) ∧
      Untouched R s.mem s'.mem ∧ Frame (foot fs s.mem 2 pt) s.mem s'.mem ∧
      look s'.mem pt = update (look s.mem pt) (va / PGSIZE)
        ((look s.mem pt (va / PGSIZE)).map fun b => (b.1, b.2 &&& (0x3FF - PTE_U))) := by
  obtain ⟨hs, ha⟩ := h.space
  have hn := hs.lt_TF
  refine (uvmclear_runs hs.toTable fun hnone => ?_).mono ?_
  · obtain ⟨pa, fl, hl, -⟩ := ha.user _ hv
    rw [hl] at hnone
    cases hnone
  · rintro _ s' ⟨ht, hk, hlook⟩
    have hframe : Frame (Mem.space fs s.mem pt n) s.mem s'.mem :=
      hk.frame.mono fun p hp => mem_add.mpr (.inl hp)
    refine ⟨?_, h.untouched_space hframe, hk.frame, hlook⟩
    obtain ⟨pa, fl, hl, hR⟩ := ha.user _ hv
    rw [hl, Option.map_some] at hlook
    have hframes : frames (look s'.mem pt) 0 n = frames (look s.mem pt) 0 n := by
      refine frames_fst fun w => ?_
      rw [hlook]
      by_cases hw : w = va / PGSIZE
      · rw [hw, update_self, hl]
        rfl
      · rw [update_of_ne hw]
    have hpages : Mem.space fs s'.mem pt n = Mem.space fs s.mem pt n := by
      rw [Mem.space, Mem.space, hk.pages, hframes]
    refine h.of_space (hs.of_kept ht hpages (fun v hvn => ?_) fun v hvn hvt => ?_)
      ⟨hpages, hframe⟩ fun v hvt => ?_
    · rw [hlook]
      by_cases hw : v = va / PGSIZE
      · refine ⟨pa, _, by rw [hw, update_self], ?_⟩
        rw [Nat.and_assoc]
        exact hR
      · rw [update_of_ne hw]
        exact hs.user v hvn
    · rw [hlook, update_of_ne (by omega)]
      exact hs.gap v hvn hvt
    · rw [hlook, update_of_ne (by omega)]

/-! ## The first process -/

theorem kinit_owned (img : Image) (h : s.freelist = 0) : (kinit img).Runs s E fun _ s' => ∃ fs,
    Owned img s' fs 0 ∧ 1023 ≤ fs.length := by
  refine (kinit_runs h).mono ?_
  rintro _ s' ⟨fs, hfree, hlen, hmem⟩
  refine ⟨fs, ⟨hfree, fun o ho => absurd ho (notMem_zero o), ?_, fun p => ?_⟩, hlen⟩
  · rw [total_zero]
    exact coe_nodup.mpr hfree.nodup
  · rw [total_zero, mem_coe]
    exact hmem p

/-- There are address spaces, of every size up to a hundred pages. -/
theorem exists_owned (img : Image) (hn : n ≤ 100) : ∃ s fs pt tf,
    Owned img s fs ({.space pt n tf} + {.page tf}) ∧ 700 ≤ fs.length ∧
      ∀ v < n, ∃ p, look s.mem pt v = some (p, userFlags PTE_W) ∧ Zero p s.mem := by
  obtain ⟨-, s₀, -, fs₀, h₀, hlen₀⟩ :=
    (kinit_owned img (s := ⟨fun _ => 0, 0⟩) (E := fun _ => False) rfl).ends fun _ => id
  obtain ⟨r₁, s₁, -, hr₁⟩ := (kalloc_owned (E := fun _ => False) h₀).ends fun _ => id
  obtain ⟨-, rfl, -⟩ | ⟨tf, fs₁, -, rfl, h₁⟩ := hr₁
  · exact absurd hlen₀ (by decide)
  rw [List.length_cons] at hlen₀
  obtain ⟨r₂, s₂, -, -, fs₂, hr₂⟩ :=
    (procPagetable_owned (E := fun _ => False) h₁ h₁.page.1).ends fun _ => id
  obtain ⟨-, -, hle⟩ | ⟨pt, -, -, h₂, hle⟩ := hr₂
  · omega
  have hsz : npages 0 = 0 := rfl
  rw [add_zero] at h₂
  have hgrow : (uvmalloc img pt 0 (n * PGSIZE) PTE_W).Runs s₂ (fun _ => False) _ :=
    uvmalloc_owned (by rw [hsz]; exact h₂) (by decide) (by decide)
  obtain ⟨r, s₃, -, fs₃, n', h₃, -, hg, hr₃⟩ := hgrow.ends fun _ => id
  obtain ⟨rfl, rfl, -, hle'⟩ | ⟨-, -, -, hfew⟩ := hr₃
  · rw [Nat.zero_max, npages_mul (by omega)] at h₃ hle'
    refine ⟨s₃, fs₃, pt, tf, h₃, by omega, fun v hv => ?_⟩
    obtain ⟨p, x, hl, rfl, hz⟩ := hg.new v (Nat.zero_le v) (by rwa [Nat.zero_max, npages_mul (by omega)])
    exact ⟨p, hl, hz⟩
  · have := hfew n (Nat.le_refl _)
    omega

end

end Xv6.Mem
