import Xv6.Mem.User

/-!
# Copying between kernel and user memory

`copyout`, `copyin` and `copyinstr` of `kernel/vm.c`. The kernel's end of a copy is a buffer of
its own and not part of the modelled memory: `copyout` takes the bytes it copies, `copyin` and
`copyinstr` return the bytes they have stored. Only user pages are written to.

An address is advanced to the next page only after `walkaddr` has accepted it, so that it is below
`MAXVA` and none of these additions wraps around.
-/

namespace Xv6.Mem

open Lib

/-- `n` bytes of `src` stored at `a`. -/
def putBytes (m : Bytes) (a : Nat) (src : Nat → UInt8) (n : Nat) : Bytes :=
  fun i => if a ≤ i ∧ i < a + n then src (i - a) else m i

/-- `memmove` from a kernel buffer. -/
def putAt (a : Nat) (src : Nat → UInt8) (n : Nat) : Prog Phys Unit :=
  Prog.modify fun s => { s with mem := putBytes s.mem a src n }

/-- How much of a copy of `len` bytes fits in the page of its first address. -/
def chunk (va len : Nat) : Nat := min (PGSIZE - (va - pgrounddown va)) len

theorem chunk_pos (va : Nat) {len : Nat} (h : len ≠ 0) : 0 < chunk va len := by
  unfold chunk pgrounddown
  simp only [PGSIZE]
  omega

theorem chunk_le (va len : Nat) : chunk va len ≤ len := min_le_right ..

/-- Copy from kernel to user: `len` bytes from `src` to virtual address `dstva`. -/
def copyout (pagetable dstva : Nat) (src : Nat → UInt8) (len : Nat) : Prog Phys Bool :=
  if len = 0 then return true
  else do
    let va0 := pgrounddown dstva
    let pa0 ← walkaddr pagetable va0
    if pa0 = 0 then return false
    else
      let n := chunk dstva len
      putAt (pa0 + (dstva - va0)) src n
      copyout pagetable (va0 + PGSIZE) (fun i => src (i + n)) (len - n)
termination_by len
decreasing_by
  have := chunk_pos dstva ‹len ≠ 0›
  omega

/-- Copy from user to kernel: `len` bytes from virtual address `srcva`. -/
def copyin (pagetable srcva len : Nat) : Prog Phys (Option (List UInt8)) :=
  if len = 0 then return some []
  else do
    let va0 := pgrounddown srcva
    let pa0 ← walkaddr pagetable va0
    if pa0 = 0 then return none
    else
      let n := chunk srcva len
      let s ← Prog.get
      match ← copyin pagetable (va0 + PGSIZE) (len - n) with
      | none => return none
      | some bs => return some ((List.range n).map (fun i => s.mem (pa0 + (srcva - va0) + i)) ++ bs)
termination_by len
decreasing_by
  have := chunk_pos srcva ‹len ≠ 0›
  omega

/-- The inner loop of `copyinstr`: at most `n` bytes from `p` on, up to a NUL. Says whether there
    was one. -/
def scan (m : Bytes) (p : Nat) : (n : Nat) → List UInt8 × Bool
  | 0 => ([], false)
  | n + 1 =>
    if m p = 0 then ([0], true)
    else
      let r := scan m (p + 1) n
      (m p :: r.1, r.2)

/-- Copy a null-terminated string from user to kernel, at most `max` bytes. Returns what it has
    stored, and whether it has found the NUL. -/
def copyinstr (pagetable srcva max : Nat) : Prog Phys (List UInt8 × Bool) :=
  if max = 0 then return ([], false)
  else do
    let va0 := pgrounddown srcva
    let pa0 ← walkaddr pagetable va0
    if pa0 = 0 then return ([], false)
    else
      let n := chunk srcva max
      let s ← Prog.get
      let (bs, gotNull) := scan s.mem (pa0 + (srcva - va0)) n
      if gotNull then return (bs, true)
      else do
        let (bs', gotNull') ← copyinstr pagetable (va0 + PGSIZE) (max - n)
        return (bs ++ bs', gotNull')
termination_by max
decreasing_by
  have := chunk_pos srcva ‹max ≠ 0›
  omega

section

variable {s s' : Phys} {pt va len p : Nat} {m m' : Bytes} {A : Multiset Nat}
  {E : Option String → Prop}

/-- What `walkaddr` returns. -/
def userPage (m : Bytes) (pt va : Nat) : Nat :=
  match look m pt (va / PGSIZE) with
  | none => 0
  | some (pa, fl) => if fl &&& PTE_U = 0 then 0 else pa

theorem pteFlags_and_U (e : Nat) : pteFlags e &&& PTE_U = e &&& PTE_U := by
  have hm : 0x3FF &&& PTE_U = PTE_U := by decide
  rw [pteFlags, Nat.and_assoc, hm]

theorem walkaddr_runs :
    (walkaddr pt va).Runs s E fun r s' => r = userPage s.mem pt va ∧ s' = s := by
  rw [walkaddr]
  split
  · next hva =>
    refine .ret ⟨?_, rfl⟩
    rw [userPage, look, if_neg]
    simp only [NPAGES, PGSIZE, MAXVA] at hva ⊢
    omega
  · next hva =>
    have hv : va / PGSIZE < NPAGES := by simp only [NPAGES, PGSIZE, MAXVA] at hva ⊢; omega
    refine .bind (walk_slot (not_le.mp hva)) ?_
    rintro _ s ⟨rfl, rfl⟩
    unfold userPage look
    rw [if_pos hv]
    cases hs : slot s.mem 2 pt (va / PGSIZE) with
    | none =>
      rw [entry_of_no_slot hs]
      exact .ret ⟨rfl, rfl⟩
    | some pte =>
      refine .seq (load_runs ?_)
      rw [entry_of_slot hs, decode]
      by_cases hval : Valid (leGet 8 s.mem pte)
      · rw [if_neg (not_not.mpr hval), if_pos hval]
        simp only [pteFlags_and_U]
        split
        · exact .ret ⟨rfl, rfl⟩
        · exact .ret ⟨rfl, rfl⟩
      · rw [if_pos hval, if_neg hval]
        exact .ret ⟨rfl, rfl⟩

theorem frame_putBytes (hp : p % PGSIZE = 0) (off : Nat) {src : Nat → UInt8} {n : Nat}
    (hn : off + n ≤ PGSIZE) : Frame {p} m (putBytes m (p + off) src n) := by
  refine frame_singleton hp fun i hi => if_neg fun hc => hi ?_
  omega

theorem copyin_runs : (copyin pt va len).Runs s E fun _ s' => s' = s := by
  induction len using Nat.strong_induction_on generalizing va with
  | _ len ih =>
  rw [copyin]
  split
  · exact .ret rfl
  · next hlen =>
    refine .bind walkaddr_runs ?_
    rintro _ s ⟨rfl, rfl⟩
    split
    · exact .ret rfl
    · refine .seq (.get ?_)
      refine .bind (ih (len - chunk va len) ?_) ?_
      · have := chunk_pos va hlen
        omega
      · rintro r s rfl
        cases r with
        | none => exact .ret rfl
        | some bs => exact .ret rfl

theorem scan_length (m : Bytes) (p n : Nat) : (scan m p n).1.length ≤ n := by
  induction n generalizing p with
  | zero => exact le_rfl
  | succ n ih =>
    rw [scan]
    split
    · simp
    · have := ih (p + 1)
      simp only [List.length_cons]
      omega

/-- `copyinstr` changes nothing and stores at most `max` bytes. -/
theorem copyinstr_runs : (copyinstr pt va len).Runs s E fun r s' =>
    s' = s ∧ r.1.length ≤ len := by
  induction len using Nat.strong_induction_on generalizing va with
  | _ len ih =>
  rw [copyinstr]
  split
  · exact .ret ⟨rfl, Nat.zero_le _⟩
  · next hlen =>
    refine .bind walkaddr_runs ?_
    rintro _ s ⟨rfl, rfl⟩
    split
    · exact .ret ⟨rfl, Nat.zero_le _⟩
    · refine .seq (.get ?_)
      have hpos := chunk_pos va hlen
      have hle := chunk_le va len
      have hscan := scan_length s.mem (userPage s.mem pt (pgrounddown va) +
        (va - pgrounddown va)) (chunk va len)
      simp only
      split
      · exact .ret ⟨rfl, by simp only; omega⟩
      · refine .bind (ih (len - chunk va len) (by omega)) ?_
        rintro r s ⟨rfl, hr⟩
        refine .ret ⟨rfl, ?_⟩
        simp only [List.length_append]
        omega

end

end Xv6.Mem
