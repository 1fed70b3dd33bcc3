import Xv6.Lib.Rv64
import Xv6.Mem.Riscv

/-!
# Entering and leaving the kernel

`trampoline.S` and the parts of `trap.c`, `syscall.c`, `proc.c` and `exec.c` that touch the
trapframe. The fields of `struct trapframe` are all 64 bits wide, so the offset of a field is eight
times its place in the declaration; the assembly names the same places by number.
-/

namespace Xv6.Trap

open Lib Rv64 Function

/-! ## `struct trapframe` -/

inductive Field where
  | kernel_satp | kernel_sp | kernel_trap | epc | kernel_hartid
  | reg (r : Reg)
  deriving DecidableEq

def trapframe : List Field :=
  [.kernel_satp, .kernel_sp, .kernel_trap, .epc, .kernel_hartid,
    .reg .ra, .reg .sp, .reg .gp, .reg .tp, .reg .t0, .reg .t1, .reg .t2, .reg .s0, .reg .s1,
    .reg .a0, .reg .a1, .reg .a2, .reg .a3, .reg .a4, .reg .a5, .reg .a6, .reg .a7,
    .reg .s2, .reg .s3, .reg .s4, .reg .s5, .reg .s6, .reg .s7, .reg .s8, .reg .s9, .reg .s10,
    .reg .s11, .reg .t3, .reg .t4, .reg .t5, .reg .t6]

/-- `sizeof(struct trapframe)` -/
abbrev TFSIZE : Nat := 288

def Field.offset (f : Field) : Nat := 8 * trapframe.idxOf f

/-- A field of the trapframe at `tf`. -/
def Field.get (f : Field) (tf : Nat) (mem : Bytes) : Word := ldw mem (tf + f.offset)

def Field.put (f : Field) (tf : Nat) (v : Word) (mem : Bytes) : Bytes :=
  sdw mem (tf + f.offset) v

/-! ## `trampoline.S` -/

abbrev TRAPFRAME : Word := BitVec.ofNat 64 Mem.TRAPFRAME

/-- `sd ra, 40(a0)` and so on in `uservec`, `ld ra, 40(a0)` and so on in `userret` -/
def slots : List (Reg × Nat) :=
  [(.ra, 40), (.sp, 48), (.gp, 56), (.tp, 64), (.t0, 72), (.t1, 80), (.t2, 88), (.s0, 96),
    (.s1, 104), (.a1, 120), (.a2, 128), (.a3, 136), (.a4, 144), (.a5, 152), (.a6, 160), (.a7, 168),
    (.s2, 176), (.s3, 184), (.s4, 192), (.s5, 200), (.s6, 208), (.s7, 216), (.s8, 224), (.s9, 232),
    (.s10, 240), (.s11, 248), (.t3, 256), (.t4, 264), (.t5, 272), (.t6, 280)]

def uservec : List Instr :=
  [.csrw .sscratch .a0, .li .a0 TRAPFRAME] ++ saves .a0 slots ++
  [.csrr .t0 .sscratch, .sd .t0 112 .a0,
    .ld .sp 8 .a0, .ld .tp 32 .a0, .ld .t0 16 .a0, .ld .t1 0 .a0,
    .sfenceVma, .csrw .satp .t1, .sfenceVma, .jr .t0]

def userret : List Instr :=
  [.sfenceVma, .csrw .satp .a0, .sfenceVma, .li .a0 TRAPFRAME] ++ loads .a0 slots ++
  [.ld .a0 112 .a0, .sret]

/-! ## `trap.c` -/

/-- The addresses of the handlers. -/
structure Text where
  /-- `TRAMPOLINE + (uservec - trampoline)` -/
  uservec : Word
  usertrap : Word
  kernelvec : Word

/-- `usertrap` up to the call of `syscall` or `devintr`. -/
def usertrap (tx : Text) (tf : Nat) (m : Machine) : Except String Machine :=
  if m.status.spp then .error "usertrap: not from user mode"
  else
    let m := m.setCsr .stvec tx.kernelvec
    let m := { m with mem := Field.epc.put tf (m.csr .sepc) m.mem }
    if m.csr .scause = 8 then
      .ok { m with mem := Field.epc.put tf (Field.epc.get tf m.mem + 4) m.mem }
    else
      .ok m

/-- The trapframe values that `uservec` will need when the process next traps. -/
def kernelFields (tx : Text) (tf : Nat) (kstack satp tp : Word) (mem : Bytes) : Bytes :=
  let mem := Field.kernel_satp.put tf satp mem
  let mem := Field.kernel_sp.put tf (kstack + BitVec.ofNat 64 Mem.PGSIZE) mem
  let mem := Field.kernel_trap.put tf tx.usertrap mem
  Field.kernel_hartid.put tf tp mem

/-- `usertrapret`, with `kstack` for `p->kstack` and `satp` for `MAKE_SATP(p->pagetable)`. -/
def usertrapret (tx : Text) (tf : Nat) (kstack satp : Word) (m : Machine) : Machine :=
  let mem := kernelFields tx tf kstack (m.csr .satp) (m.reg .tp) m.mem
  { m with
    mem := mem
    -- intr_off(), and what sret needs to go to user mode with interrupts on
    status := { sie := false, spp := false, spie := true }
    csr := update (update m.csr .stvec tx.uservec) .sepc (Field.epc.get tf mem)
    -- the argument of userret
    reg := update m.reg .a0 satp }

/-! ## System calls -/

/-- The test of `syscall` for `int num = p->trapframe->a7`, with 22 system calls in the table. -/
def known (a7 : Word) : Bool :=
  let num := (a7.setWidth 32).toInt
  0 < num && num < 23

/-- `syscall`, where the function in the table returns `v`. -/
def syscall (v : Word) (tf : Nat) (mem : Bytes) : Bytes :=
  (Field.reg .a0).put tf (if known ((Field.reg .a7).get tf mem) then v else -1) mem

/-- The trapframe of the child in `fork`: `*(np->trapframe) = *(p->trapframe)`, then
    `np->trapframe->a0 = 0`. -/
def forkTrapframe (tf tf' : Nat) (mem : Bytes) : Bytes :=
  (Field.reg .a0).put tf' 0 (blit mem tf' (fun i => mem (tf + i)) TFSIZE)

/-- The end of a successful `exec`, and `argc` in `a0` from `syscall`. -/
def execTrapframe (entry sp argc : Word) (tf : Nat) (mem : Bytes) : Bytes :=
  let mem := (Field.reg .a1).put tf sp mem
  let mem := Field.epc.put tf entry mem
  let mem := (Field.reg .sp).put tf sp mem
  (Field.reg .a0).put tf argc mem

/-! ## Fields -/

variable {f g : Field} {tf i : Nat} {v : Word} {mem mem' : Bytes}

theorem mem_trapframe (f : Field) : f ∈ trapframe := by
  cases f with
  | reg r => cases r <;> decide
  | _ => decide

theorem offset_le (f : Field) : f.offset + 8 ≤ TFSIZE := by
  have h : trapframe.idxOf f < trapframe.length := List.idxOf_lt_length_of_mem (mem_trapframe f)
  have hlen : trapframe.length = 36 := rfl
  rw [hlen] at h
  show 8 * trapframe.idxOf f + 8 ≤ 288
  omega

theorem offset_ne (h : f ≠ g) : f.offset + 8 ≤ g.offset ∨ g.offset + 8 ≤ f.offset := by
  have hne : trapframe.idxOf f ≠ trapframe.idxOf g := by
    intro he
    exact h ((List.idxOf_inj (mem_trapframe f)).mp he)
  simp only [Field.offset]
  omega

@[simp]
theorem get_put_self : f.get tf (f.put tf v mem) = v := ldw_sdw_self

@[simp]
theorem get_put_of_ne (h : g ≠ f) : g.get tf (f.put tf v mem) = g.get tf mem := by
  refine ldw_sdw_of_disjoint ?_
  have := offset_ne h
  omega

theorem put_apply (h : i < tf ∨ tf + TFSIZE ≤ i) : f.put tf v mem i = mem i := by
  have := offset_le f
  rcases h with h | h
  · exact lePut_apply_of_lt (by omega)
  · exact lePut_apply_of_ge (by omega)

theorem get_congr {tf' : Nat} (h : ∀ i < TFSIZE, mem (tf + i) = mem' (tf' + i)) :
    f.get tf mem = f.get tf' mem' := by
  refine ldw_congr fun i hi => ?_
  have := offset_le f
  rw [add_assoc, add_assoc]
  exact h _ (by omega)

end Xv6.Trap
