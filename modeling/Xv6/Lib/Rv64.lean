import Mathlib.Tactic
import Xv6.Lib.Bytes

/-!
# A small RV64 machine

The part of RV64 that the trap handlers of an operating system are written in: doubleword loads and
stores, the control and status registers of supervisor mode, and the traps themselves. A machine is
one hart and the memory. `xl satp va` is the physical address to which the page table `satp` maps
`va`. The program counter is only set by an instruction that jumps, so a list of instructions runs
from its first to its last.

Such code moves registers to memory and back in long runs of `sd` and `ld`, each run with one base
register. What a run does as a whole is said once here, for any list of registers and offsets
(`exec_saves`, `exec_loads`), so that no proof goes through the instructions of one.
-/

namespace Xv6.Lib
namespace Rv64

open Function

abbrev Word := BitVec 64

inductive Reg where
  | ra | sp | gp | tp | t0 | t1 | t2 | s0 | s1 | a0 | a1 | a2 | a3 | a4 | a5 | a6 | a7
  | s2 | s3 | s4 | s5 | s6 | s7 | s8 | s9 | s10 | s11 | t3 | t4 | t5 | t6
  deriving DecidableEq

inductive Csr where
  | sepc | scause | stvec | satp | sscratch
  deriving DecidableEq

inductive Mode where
  | user | supervisor
  deriving DecidableEq

/-- The bits of `sstatus` that traps use. -/
structure Status where
  spp : Bool
  spie : Bool
  sie : Bool

structure Hart where
  reg : Reg → Word
  csr : Csr → Word
  status : Status
  mode : Mode
  pc : Word

structure Machine extends Hart where
  mem : Bytes

inductive Instr where
  | ld (rd : Reg) (off : Nat) (base : Reg)
  | sd (rs : Reg) (off : Nat) (base : Reg)
  | li (rd : Reg) (v : Word)
  | csrr (rd : Reg) (c : Csr)
  | csrw (c : Csr) (rs : Reg)
  | sfenceVma
  | jr (rs : Reg)
  | sret

/-- The doubleword at a physical address. -/
def ldw (mem : Bytes) (a : Nat) : Word := BitVec.ofNat 64 (leGet 8 mem a)

def sdw (mem : Bytes) (a : Nat) (v : Word) : Bytes := lePut 8 mem a v.toNat

theorem ldw_sdw_self {mem : Bytes} {a : Nat} {v : Word} : ldw (sdw mem a v) a = v := by
  rw [ldw, sdw, leGet_lePut_self, Nat.mod_eq_of_lt (show v.toNat < 256 ^ 8 from v.isLt)]
  exact (BitVec.ofNat_toNat ..).trans (BitVec.setWidth_eq v)

theorem ldw_sdw_of_disjoint {mem : Bytes} {a b : Nat} {v : Word} (h : a + 8 ≤ b ∨ b + 8 ≤ a) :
    ldw (sdw mem a v) b = ldw mem b := by
  rw [ldw, sdw, leGet_lePut_of_disjoint h]
  rfl

/-- The number of the same bytes at another place. -/
theorem leGet_shift {k a b : Nat} {mem mem' : Bytes} (h : ∀ i < k, mem (a + i) = mem' (b + i)) :
    leGet k mem a = leGet k mem' b := by
  induction k generalizing a b with
  | zero => rfl
  | succ k ih =>
    have h0 : mem a = mem' b := h 0 (Nat.succ_pos k)
    rw [leGet, leGet, h0, ih fun i hi => ?_]
    rw [add_assoc, add_assoc, add_comm 1 i]
    exact h (i + 1) (Nat.succ_lt_succ hi)

theorem ldw_congr {mem mem' : Bytes} {a b : Nat} (h : ∀ i < 8, mem (a + i) = mem' (b + i)) :
    ldw mem a = ldw mem' b := by
  rw [ldw, ldw, leGet_shift h]

def Machine.setReg (m : Machine) (r : Reg) (v : Word) : Machine :=
  { m with reg := update m.reg r v }

def Machine.setCsr (m : Machine) (c : Csr) (v : Word) : Machine :=
  { m with csr := update m.csr c v }

/-! ## Traps -/

/-- A trap that is delegated to supervisor mode. -/
def Machine.trap (m : Machine) (cause : Word) : Machine :=
  { m with
    csr := update (update m.csr .sepc m.pc) .scause cause
    status := { spp := m.mode == .supervisor, spie := m.status.sie, sie := false }
    mode := .supervisor
    pc := m.csr .stvec }

def Machine.sret (m : Machine) : Machine :=
  { m with
    pc := m.csr .sepc
    mode := if m.status.spp then .supervisor else .user
    status := { spp := false, spie := true, sie := m.status.spie } }

/-! ## Execution -/

section

variable (xl : Word → Word → Nat)

/-- The physical address of `off(base)`. -/
def Machine.addr (m : Machine) (base : Reg) (off : Nat) : Nat :=
  xl (m.csr .satp) (m.reg base + BitVec.ofNat 64 off)

def Instr.step : Instr → Machine → Machine
  | .ld rd off base, m => m.setReg rd (ldw m.mem (m.addr xl base off))
  | .sd rs off base, m => { m with mem := sdw m.mem (m.addr xl base off) (m.reg rs) }
  | .li rd v, m => m.setReg rd v
  | .csrr rd c, m => m.setReg rd (m.csr c)
  | .csrw c rs, m => m.setCsr c (m.reg rs)
  | .sfenceVma, m => m
  | .jr rs, m => { m with pc := m.reg rs }
  | .sret, m => m.sret

def exec (is : List Instr) (m : Machine) : Machine := is.foldl (fun m i => i.step xl m) m

theorem exec_append {is js : List Instr} {m : Machine} :
    exec xl (is ++ js) m = exec xl js (exec xl is m) := List.foldl_append

theorem exec_cons {i : Instr} {is : List Instr} {m : Machine} :
    exec xl (i :: is) m = exec xl is (i.step xl m) := rfl

end

/-! ## Runs of stores -/

/-- A run of `sd`, one for each register and offset. -/
def saves (base : Reg) (slots : List (Reg × Nat)) : List Instr :=
  slots.map fun x => .sd x.1 x.2 base

/-- The memory after registers have been stored at their offsets from `pa`. -/
def spill (reg : Reg → Word) (pa : Nat) (slots : List (Reg × Nat)) (mem : Bytes) : Bytes :=
  slots.foldl (fun mem x => sdw mem (pa + x.2) (reg x.1)) mem

/-- The slots do not overlap. -/
abbrev Spread (slots : List (Reg × Nat)) : Prop := slots.Pairwise fun x y => x.2 + 8 ≤ y.2

/-- `off(base)` is `pa + off` for the offsets of the slots. -/
def Covers (xl : Word → Word → Nat) (m : Machine) (base : Reg) (pa : Nat)
    (slots : List (Reg × Nat)) : Prop :=
  ∀ x ∈ slots, m.addr xl base x.2 = pa + x.2

variable {xl : Word → Word → Nat} {m : Machine} {base : Reg} {pa a : Nat} {reg : Reg → Word}
  {slots : List (Reg × Nat)} {mem : Bytes}

theorem exec_saves (h : Covers xl m base pa slots) :
    exec xl (saves base slots) m = { m with mem := spill m.reg pa slots m.mem } := by
  induction slots generalizing m with
  | nil => rfl
  | cons x slots ih =>
    have hx : m.addr xl base x.2 = pa + x.2 := h x List.mem_cons_self
    have hstep : (Instr.sd x.1 x.2 base).step xl m =
        { m with mem := sdw m.mem (pa + x.2) (m.reg x.1) } := by
      rw [Instr.step, hx]
    rw [saves, List.map_cons, exec_cons, hstep]
    exact ih fun y hy => h y (List.mem_cons_of_mem _ hy)

/-- A byte that is in no slot. -/
theorem spill_apply (h : ∀ x ∈ slots, a < pa + x.2 ∨ pa + x.2 + 8 ≤ a) :
    spill reg pa slots mem a = mem a := by
  induction slots generalizing mem with
  | nil => rfl
  | cons x slots ih =>
    rw [spill, List.foldl_cons]
    refine (ih fun y hy => h y (List.mem_cons_of_mem _ hy)).trans ?_
    rcases h x List.mem_cons_self with hlt | hge
    · exact lePut_apply_of_lt hlt
    · exact lePut_apply_of_ge hge

theorem ldw_spill_of_disjoint (h : ∀ x ∈ slots, a + 8 ≤ pa + x.2 ∨ pa + x.2 + 8 ≤ a) :
    ldw (spill reg pa slots mem) a = ldw mem a := by
  refine ldw_congr fun i hi => spill_apply fun x hx => ?_
  have := h x hx
  omega

/-- A stored register is read back. -/
theorem ldw_spill (h : Spread slots) {x : Reg × Nat} (hx : x ∈ slots) :
    ldw (spill reg pa slots mem) (pa + x.2) = reg x.1 := by
  induction slots generalizing mem with
  | nil => cases hx
  | cons y slots ih =>
    obtain ⟨hy, hs⟩ := List.pairwise_cons.mp h
    rw [spill, List.foldl_cons]
    rcases List.mem_cons.mp hx with rfl | hx
    · -- the later slots lie above this one
      refine (ldw_spill_of_disjoint fun z hz => ?_).trans ldw_sdw_self
      have := hy z hz
      omega
    · exact ih hs hx

/-! ## Runs of loads -/

/-- A run of `ld`. -/
def loads (base : Reg) (slots : List (Reg × Nat)) : List Instr :=
  slots.map fun x => .ld x.1 x.2 base

/-- The registers after they have been loaded from their offsets. -/
def fill (mem : Bytes) (pa : Nat) (slots : List (Reg × Nat)) (reg : Reg → Word) : Reg → Word :=
  slots.foldl (fun reg x => update reg x.1 (ldw mem (pa + x.2))) reg

theorem exec_loads (h : Covers xl m base pa slots) (hbase : ∀ x ∈ slots, x.1 ≠ base) :
    exec xl (loads base slots) m = { m with reg := fill m.mem pa slots m.reg } := by
  induction slots generalizing m with
  | nil => rfl
  | cons x slots ih =>
    have hstep : (Instr.ld x.1 x.2 base).step xl m = m.setReg x.1 (ldw m.mem (pa + x.2)) := by
      rw [Instr.step, h x List.mem_cons_self]
    have hkeep : (m.setReg x.1 (ldw m.mem (pa + x.2))).reg base = m.reg base :=
      update_of_ne (hbase x List.mem_cons_self).symm ..
    rw [loads, List.map_cons, exec_cons, hstep]
    refine ih (m := m.setReg x.1 (ldw m.mem (pa + x.2))) (fun y hy => ?_)
      fun y hy => hbase y (List.mem_cons_of_mem _ hy)
    rw [← h y (List.mem_cons_of_mem _ hy), Machine.addr, Machine.addr, hkeep]
    rfl

theorem fill_of_not_mem {r : Reg} (h : r ∉ slots.map Prod.fst) :
    fill mem pa slots reg r = reg r := by
  induction slots generalizing reg with
  | nil => rfl
  | cons x slots ih =>
    rw [List.map_cons, List.mem_cons, not_or] at h
    exact (ih h.2).trans (update_of_ne h.1 ..)

/-- A loaded register. -/
theorem fill_of_mem (h : (slots.map Prod.fst).Nodup) {x : Reg × Nat} (hx : x ∈ slots) :
    fill mem pa slots reg x.1 = ldw mem (pa + x.2) := by
  induction slots generalizing reg with
  | nil => cases hx
  | cons y slots ih =>
    rw [List.map_cons, List.nodup_cons] at h
    rcases List.mem_cons.mp hx with rfl | hx
    · exact (fill_of_not_mem h.1).trans (update_self ..)
    · exact ih h.2 hx

end Rv64
end Xv6.Lib
