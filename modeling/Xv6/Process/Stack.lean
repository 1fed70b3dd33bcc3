import Xv6.Process.Args
import Xv6.Process.Sbrk

/-!
# From the loaded program to the new image

When the program is in memory, `exec` adds a page that the user cannot touch and a page for the
stack, pushes the arguments, and commits: the registers in the trapframe and the page table of the
process change, and the old address space is freed. If something fails before that, the new address
space is freed instead.
-/

namespace Xv6.Process

open Lib Mem Function

/-- The size is rounded up to whole pages. -/
def Layout.round (L : Layout) : Layout := { L with sz := npages L.sz * PGSIZE }

/-- The user has no access to page `v` any more. -/
def Layout.clear (L : Layout) (v : Nat) : Layout :=
  { L with perm := update L.perm v (L.perm v &&& (0x3FF - PTE_U)) }

/-- A page for the stack, and a page below it as a guard. -/
def Layout.stack (L : Layout) : Layout :=
  (L.round.grow (npages L.sz * PGSIZE + 2 * PGSIZE) PTE_W).clear (npages L.sz)

/-- The process `p` has a new page table and size, and is called after `path`. -/
def Machine.commit (M : Machine) (p pagetable sz : Nat) (path : List UInt8) (s : Phys) : Machine :=
  { M with
    kernel := (M.kernel.setProc p { M.kernel.proc p with pagetable, sz }).setPhys s
    name := update M.name p (safestrcpy (M.name p) (last path) 16) }

/-- The registers with which the process goes on in user space. -/
structure Resumes (m : Bytes) (tf entry sp : Nat) : Prop where
  epc : leGet 8 m (tf + tfEpc) = entry
  stack : leGet 8 m (tf + tfSp) = sp
  a1 : leGet 8 m (tf + tfA1) = sp

/-- The address space `pt` with the layout `L`, a stack and the arguments on it has taken the place
    of the address space of `p`. -/
structure Built (img : Image) (M : Machine) (p : Nat) (R : Multiset Owner) (L : Layout) (entry : Nat)
    (argv : List (List UInt8)) (pt : Nat) (s' : Phys) (fs' : List Nat) (sp : Nat) (as : List Nat)
    (byte : Bytes) : Prop where
  le : L.sz ≤ 2 ^ 64 - PGSIZE
  small : npages L.stack.sz = npages L.sz + 2 ∧ npages L.sz + 2 ≤ 32768
  owned : Owned img s' fs' ({.space pt (npages L.stack.sz) (M.kernel.proc p).trapframe} +
    ({.page (M.kernel.proc p).trapframe} + R))
  rest : Untouched R M.kernel.phys.mem s'.mem
  resumes : Resumes s'.mem (M.kernel.proc p).trapframe entry sp
  shows : Shows s'.mem pt (npages L.stack.sz) L.stack.perm byte
  args : ArgBlock byte (L.stack.sz - PGSIZE) L.stack.sz sp argv as
  below : ∀ a < L.stack.sz - PGSIZE, byte a = L.stack.byte a

/-- What `exec` has done when it returns `r`: nothing at all, or all of its work. -/
def Exits (img : Image) (M M' : Machine) (p : Nat) (R : Multiset Owner) (L : Layout) (entry : Nat)
    (path : List UInt8) (argv : List (List UInt8)) (r : Option Nat) : Prop :=
  (r = none ∧ ∃ fs', Confined img M M' fs' 0
    ({M.kernel.space p} + ({.page (M.kernel.proc p).trapframe} + R))) ∨
  (r = some argv.length ∧ ∃ pt s' fs' sp as byte,
    M' = M.commit p pt L.stack.sz path s' ∧ Built img M p R L entry argv pt s' fs' sp as byte)

section

variable {img : Image} {M M' : Machine} {s s' : Phys} {fs fs' : List Nat} {R : Multiset Owner}
  {L : Layout} {argv : List (List UInt8)} {path : List UInt8} {m : Bytes}
  {p pt tf n sz sp entry : Nat} {E : Option String → Prop}

theorem self_runs {Q : Proc → Machine → Prop} (h : Q (M.kernel.proc p) M) : (self p).Runs M E Q :=
  .seq (.get (.ret h))

theorem sub64_of_le {a b : Nat} (h : b ≤ a) (ha : a < 2 ^ 64) : sub64 a b = a - b := by
  unfold sub64
  omega

/-! ## The stack -/

theorem Loaded.round (h : Loaded img s fs pt tf R L) : Loaded img s fs pt tf R L.round := by
  have hn : npages L.round.sz = npages L.sz := npages_mul h.owned.space.1.small
  have hsmall := h.owned.space.1.small
  refine ⟨by rw [hn]; exact h.owned, ?_, by rw [hn]; exact h.shows, by rw [hn]; exact h.user⟩
  show npages L.sz * PGSIZE ≤ _
  simp only [PGSIZE]
  omega

theorem stack_sz (L : Layout) : L.stack.sz = (npages L.sz + 2) * PGSIZE := by
  show max (npages L.sz * PGSIZE) (npages L.sz * PGSIZE + 2 * PGSIZE) = _
  rw [add_mul]
  omega

theorem stack_perm (L : Layout) (hn : npages L.round.sz = npages L.sz) :
    L.stack.perm (npages L.sz + 2 - 1) = userFlags PTE_W := by
  show update _ _ _ _ = _
  rw [update_of_ne (by omega)]
  show (if npages L.sz + 2 - 1 < npages L.round.sz then _ else _) = _
  rw [if_neg (by omega)]

/-- The new address space is given up. -/
theorem stackBad_runs (h : Owned img M.kernel.phys fs ({.space pt (npages sz) tf} + R)) :
    (stackBad img pt sz).Runs M E fun r M' => r = none ∧ ∃ fs', Confined img M M' fs' 0 R := by
  refine .bind (onMem_runs (procFreepagetable_owned h)) ?_
  rintro _ _ ⟨s, rfl, fs', ho, hrest⟩
  exact .ret ⟨rfl, fs', rfl, by rw [zero_add]; exact ho, hrest⟩

/-! ## Committing -/

/-- What is stored in the page of the trapframe. -/
theorem storeTf_runs {off v : Nat} (h : Owned img M.kernel.phys fs ({.page tf} + R))
    (hoff : off + 8 ≤ PGSIZE) :
    (onMem (store (tf + off) v)).Runs M E fun _ M' => Confined img M M' fs {.page tf} R ∧
      M'.kernel.phys.mem = lePut 8 M.kernel.phys.mem (tf + off) v := by
  refine (onMem_runs (store_owned h hoff)).mono ?_
  rintro _ _ ⟨s, rfl, h', hrest, hmem⟩
  exact ⟨⟨rfl, h', hrest⟩, hmem⟩

theorem resumes_stores (hentry : entry < 2 ^ 64) (hsp : sp < 2 ^ 64) : Resumes
    (lePut 8 (lePut 8 (lePut 8 m (tf + tfA1) sp) (tf + tfEpc) entry) (tf + tfSp) sp) tf entry sp where
  epc := by
    rw [leGet_lePut_of_disjoint (.inr (by simp only [tfEpc, tfSp]; omega)), leGet_lePut_self]
    exact Nat.mod_eq_of_lt hentry
  stack := by
    rw [leGet_lePut_self]
    exact Nat.mod_eq_of_lt hsp
  a1 := by
    rw [leGet_lePut_of_disjoint (.inl (by simp only [tfA1, tfSp]; omega)),
      leGet_lePut_of_disjoint (.inl (by simp only [tfA1, tfEpc]; omega)), leGet_lePut_self]
    exact Nat.mod_eq_of_lt hsp

theorem Resumes.same (h : Resumes m tf entry sp) (hs : Same tf m s.mem) :
    Resumes s.mem tf entry sp where
  epc := (hs.leGet _ (by decide)).trans h.epc
  stack := (hs.leGet _ (by decide)).trans h.stack
  a1 := (hs.leGet _ (by decide)).trans h.a1

theorem execCommit_runs (htf : (M.kernel.proc p).trapframe = tf)
    (h : Owned img M.kernel.phys fs
      ({.space pt n tf} + ({M.kernel.space p} + ({.page tf} + R))))
    (hentry : entry < 2 ^ 64) (hsp : sp < 2 ^ 64) :
    (execCommit img p pt sz sp entry path).Runs M E fun _ M' => ∃ s' fs',
      M' = M.commit p pt sz path s' ∧ Owned img s' fs' ({.space pt n tf} + ({.page tf} + R)) ∧
      Untouched ({.space pt n tf} + R) M.kernel.phys.mem s'.mem ∧
      Resumes s'.mem tf entry sp := by
  have hC : Owned img M.kernel.phys fs
      ({.page tf} + ({M.kernel.space p} + ({.space pt n tf} + R))) := by
    rw [show ({Owner.page tf} + ({M.kernel.space p} + ({.space pt n tf} + R)) : Multiset Owner) =
      {.space pt n tf} + ({M.kernel.space p} + ({.page tf} + R)) by ac_rfl]
    exact h
  refine .seq (self_runs ?_)
  rw [htf]
  refine .bind (storeTf_runs hC (by decide)) ?_
  rintro _ M₁ ⟨h₁, hm₁⟩
  refine .seq (.modify ?_)
  refine .bind (.modify (Q := fun _ M₂ => M₂ = M.commit p pt sz path M₁.kernel.phys) ?_) ?_
  · rw [h₁.phys]
    rfl
  rintro _ _ rfl
  refine .bind (storeTf_runs (M := M.commit p pt sz path M₁.kernel.phys) h₁.owned (by decide)) ?_
  rintro _ M₃ ⟨h₃, hm₃⟩
  refine .bind (storeTf_runs h₃.owned (by decide)) ?_
  rintro _ M₄ ⟨h₄, hm₄⟩
  have hA : Owned img M₄.kernel.phys fs
      ({M.kernel.space p} + ({.page tf} + ({.space pt n tf} + R))) := by
    rw [add_left_comm]
    exact h₄.owned
  refine (onMem_runs (procFreepagetable_owned hA)).mono ?_
  rintro _ _ ⟨s₅, rfl, fs', h₅, hrest⟩
  refine ⟨s₅, fs', ?_, by rwa [add_left_comm], ?_, ?_⟩
  · rw [h₄.phys, h₃.phys]
    rfl
  · have hu := (h₁.rest.trans h₃.rest).trans h₄.rest
    exact (hu.mono fun o ho => Multiset.mem_add.mpr (.inr ho)).trans
      (hrest.mono fun o ho => Multiset.mem_add.mpr (.inr ho))
  · have hpage : .page tf ∈ {.page tf} + ({.space pt n tf} + R) :=
      Multiset.mem_add.mpr (.inl (Multiset.mem_singleton_self _))
    refine Resumes.same ?_ ((hrest _ hpage).2 tf (Multiset.mem_singleton_self _))
    rw [hm₄, hm₃]
    show Resumes (lePut 8 (lePut 8 M₁.kernel.phys.mem _ _) _ _) _ _ _
    rw [hm₁]
    exact resumes_stores hentry hsp

theorem execStack_runs (htf : (M.kernel.proc p).trapframe = tf)
    (h : Loaded img M.kernel.phys fs pt tf ({M.kernel.space p} + ({.page tf} + R)) L)
    (hentry : entry < 2 ^ 64) :
    (execStack img p pt L.sz entry path argv).Runs M E fun r M' =>
      Exits img M M' p R L entry path argv r ∧ (r = none → ¬ ArgsFit argv ∨ fs.length ≤ 6) := by
  subst htf
  have hr := h.round
  have hsmall := h.owned.space.1.small
  have hn : npages (npages L.sz * PGSIZE) = npages L.sz := npages_mul hsmall
  rw [execStack, pgroundup_npages]
  have hnew : (npages L.sz * PGSIZE + 2 * PGSIZE) % 2 ^ 64 = npages L.sz * PGSIZE + 2 * PGSIZE := by
    simp only [PGSIZE]
    omega
  have hmax : max (npages L.sz * PGSIZE) (npages L.sz * PGSIZE + 2 * PGSIZE) = (npages L.sz + 2) * PGSIZE :=
    stack_sz L
  rw [hnew]
  refine .bind (onMem_runs (uvmalloc_owned hr.owned hr.le (by decide))) ?_
  rintro r _ ⟨s₁, rfl, fs₁, n', ho, hrest, hg, hcase⟩
  rcases hcase with ⟨rfl, rfl, hle, -⟩ | ⟨rfl, rfl, -, hK⟩
  swap
  · rw [if_pos rfl]
    refine (stackBad_runs (M := M.setPhys s₁) ho).mono ?_
    rintro _ M' ⟨rfl, fs', hconf⟩
    have hconf₁ : Confined img M (M.setPhys s₁) fs₁ _ _ := ⟨rfl, ho, hrest⟩
    refine ⟨.inl ⟨rfl, fs', hconf₁.trans hconf⟩, fun _ => .inr ?_⟩
    have := hK (npages L.sz + 2) (by rw [add_mul])
    omega
  have hL := hr.grow ho hle hg
  rw [hmax] at ho hle ⊢
  rw [if_neg (by simp only [PGSIZE]; omega)]
  have hn₂ : npages ((npages L.sz + 2) * PGSIZE) = npages L.sz + 2 := by
    rw [npages_eq hle]
    simp only [PGSIZE]
    omega
  have hguard : sub64 ((npages L.sz + 2) * PGSIZE) (2 * PGSIZE) = npages L.sz * PGSIZE := by
    rw [sub64_of_le (Nat.mul_le_mul_right _ (Nat.le_add_left 2 _)) (by omega), Nat.add_mul,
      Nat.add_sub_cancel]
  have hpage : npages L.sz * PGSIZE / PGSIZE = npages L.sz := Nat.mul_div_cancel _ (by decide)
  have hgrown : npages (L.round.grow (npages L.sz * PGSIZE + 2 * PGSIZE) PTE_W).sz =
      npages L.sz + 2 := by
    show npages (max (npages L.sz * PGSIZE) (npages L.sz * PGSIZE + 2 * PGSIZE)) = _
    rw [hmax, hn₂]
  have hshows := hL.shows
  rw [hgrown] at hshows
  have hconf₁ : Confined img M (M.setPhys s₁) fs₁ _ _ := ⟨rfl, ho, hrest⟩
  rw [hguard]
  rw [hn₂] at ho
  refine .bind (onMem_runs (uvmclear_shows ho (by rw [hpage]; omega))) ?_
  rintro _ _ ⟨s₂, rfl, h₂, hrest₂, hclear⟩
  have hsh₂ : Shows s₂.mem pt (npages L.sz + 2) L.stack.perm L.stack.byte := by
    have := hclear _ _ hshows
    rwa [hpage] at this
  have hclr : Confined img (M.setPhys s₁) (M.setPhys s₂) fs₁ _ _ := ⟨rfl, h₂, hrest₂⟩
  have hconf₂ := hconf₁.trans hclr
  refine .bind (pushArgs_runs (M := M.setPhys s₂) h₂ hsh₂ (by omega) ?_) ?_
  · rw [stack_perm L hn]
    exact userFlags_user PTE_W
  rintro r M₃ ⟨hconf₃, hnone, hsome⟩
  have hconf := hconf₂.trans hconf₃
  cases r with
  | none =>
    have ho₃ := hconf₃.owned
    rw [← hn₂] at ho₃
    refine (stackBad_runs ho₃).mono ?_
    rintro _ M' ⟨rfl, fs', hbad⟩
    exact ⟨.inl ⟨rfl, fs', hconf.trans hbad⟩, fun _ => .inl (hnone rfl)⟩
  | some sp =>
    obtain ⟨byte, as, hsh, hargs, hbelow⟩ := hsome sp rfl
    have hsp : sp < 2 ^ 64 := by
      have := hargs.high
      simp only [PGSIZE] at *
      omega
    have hM₃ : M₃ = M.setPhys M₃.kernel.phys := hconf.phys
    have hsz : L.stack.sz = (npages L.sz + 2) * PGSIZE := stack_sz L
    have ho₃ := hconf.owned
    rw [hM₃]
    refine .bind (execCommit_runs (M := M.setPhys M₃.kernel.phys) rfl ho₃ hentry hsp) ?_
    rintro _ M' ⟨s', fs', hM', ho', hrest', hres⟩
    refine .ret ⟨.inr ⟨rfl, pt, s', fs', sp, as, byte, ?_, ?_⟩, fun hc => by cases hc⟩
    · rw [hM', hsz]
      rfl
    · refine ⟨h.le, ⟨by rw [hsz, hn₂], ho'.space.1.small⟩, ?_, ?_, hres, ?_, ?_, ?_⟩
      · rw [hsz, hn₂]
        exact ho'
      · refine Untouched.trans ?_ (hrest'.mono fun o ho => Multiset.mem_add.mpr (.inr ho))
        exact hconf.rest.mono fun o ho =>
          Multiset.mem_add.mpr (.inr (Multiset.mem_add.mpr (.inr ho)))
      · rw [hsz, hn₂]
        exact hsh.untouched hrest' (Multiset.mem_add.mpr (.inl (Multiset.mem_singleton_self _)))
      · rw [hsz]
        exact hargs
      · rw [hsz]
        exact hbelow

end

end Xv6.Process
