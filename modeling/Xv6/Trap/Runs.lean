import Xv6.Lib.Labelled
import Xv6.Trap.Code

/-!
# Traps do not show

What a process sees of the machine is its registers and its program counter. Between two
instructions of it the hart may trap to the kernel, run anything there, and the process may go on
on another hart; other harts run other processes meanwhile. `Sys` is all of that: harts, the memory
with the trapframes in it, and for every process whether it is in user mode or in the kernel. Kernel
code other than the trap path may do what it likes, except to trapframes and to harts in user mode.

`Users` is the machine that a process should see, in which nothing happens to it but its own
instructions and the effects of its system calls. `Sys` refines it, event by event (`Rel.step`).
-/

namespace Xv6.Trap

open Lib Rv64 Function

variable {xl : Word → Word → Nat} {tx : Text} {m : Machine} {tf : Nat} {mem : Bytes}

/-- The page table `satp` maps `TRAPFRAME` to the page at `tf`. -/
def Maps (xl : Word → Word → Nat) (satp : Word) (tf : Nat) : Prop :=
  ∀ o < TFSIZE, xl satp (TRAPFRAME + BitVec.ofNat 64 o) = tf + o

theorem Maps.covers (h : Maps xl (m.csr .satp) tf) (ha : m.reg .a0 = TRAPFRAME)
    (l : List (Reg × Nat)) (hs : ∀ x ∈ l, x.2 < 288) : Covers xl m .a0 tf l := by
  intro x hx
  rw [Machine.addr, ha]
  exact h _ (hs x hx)

/-! ## The trampoline -/

theorem slots_le : ∀ x ∈ slots, 40 ≤ x.2 ∧ x.2 + 8 ≤ 288 := by decide

/-- The slots are the fields of the registers. -/
theorem mem_slots {r : Reg} (h : r ≠ .a0) : (r, (Field.reg r).offset) ∈ slots := by
  revert h
  cases r <;> decide

/-- What `uservec` leaves for the rest of the kernel. -/
structure Entered (m m' : Machine) (tf : Nat) : Prop where
  saved : ∀ r, (Field.reg r).get tf m'.mem = m.reg r
  mem : ∀ i, i < tf + 40 ∨ tf + TFSIZE ≤ i → m'.mem i = m.mem i
  pc : m'.pc = Field.kernel_trap.get tf m.mem
  sp : m'.reg .sp = Field.kernel_sp.get tf m.mem
  tp : m'.reg .tp = Field.kernel_hartid.get tf m.mem
  satp : m'.csr .satp = Field.kernel_satp.get tf m.mem
  csr : ∀ c, c ≠ .satp → c ≠ .sscratch → m'.csr c = m.csr c
  status : m'.status = m.status

theorem uservec_enters (h : Maps xl (m.csr .satp) tf) :
    Entered m (exec xl uservec m) tf := by
  let m₁ := (m.setCsr .sscratch (m.reg .a0)).setReg .a0 TRAPFRAME
  let m₂ : Machine := { m₁ with mem := spill m₁.reg tf slots m.mem }
  -- the user's a0 comes back from sscratch
  let m₃ : Machine := m₂.setReg .t0 (m.reg .a0)
  let m₄ : Machine := { m₃ with mem := spill m₃.reg tf [(.t0, 112)] m₂.mem }
  have hexec : exec xl uservec m =
      exec xl [.sfenceVma, .csrw .satp .t1, .sfenceVma, .jr .t0]
        { m₄ with reg := fill m₄.mem tf [(.sp, 8), (.tp, 32), (.t0, 16), (.t1, 0)] m₄.reg } := by
    have hsplit : uservec = [.csrw .sscratch .a0, .li .a0 TRAPFRAME] ++ (saves .a0 slots ++
        ([.csrr .t0 .sscratch] ++ (saves .a0 [(.t0, 112)] ++
          (loads .a0 [(.sp, 8), (.tp, 32), (.t0, 16), (.t1, 0)] ++
            [.sfenceVma, .csrw .satp .t1, .sfenceVma, .jr .t0])))) := rfl
    have h₁ : exec xl [.csrw .sscratch .a0, .li .a0 TRAPFRAME] m = m₁ := rfl
    have h₂ := exec_saves (h.covers (m := m₁) rfl slots (by decide))
    have h₃ : exec xl [.csrr .t0 .sscratch] m₂ = m₃ := rfl
    have h₄ := exec_saves (h.covers (m := m₃) rfl [(.t0, 112)] (by decide))
    rw [hsplit, exec_append, h₁, exec_append, h₂, exec_append]
    show exec xl _ (exec xl _ m₂) = _
    rw [h₃, exec_append, h₄, exec_append]
    exact congrArg _ (exec_loads (h.covers (m := m₄) rfl _ (by decide)) (by decide))
  have hget : ∀ {o : Nat}, o + 8 ≤ 40 → ldw m₄.mem (tf + o) = ldw m.mem (tf + o) := by
    intro o ho
    refine (ldw_spill_of_disjoint fun x hx => ?_).trans (ldw_spill_of_disjoint fun x hx => ?_)
    · rw [List.mem_singleton.mp hx]
      omega
    · have := slots_le x hx
      omega
  rw [hexec]
  refine ⟨fun r => ?_, fun i hi => ?_, hget (o := 16) (by decide), hget (o := 8) (by decide),
    hget (o := 32) (by decide), hget (o := 0) (by decide), fun c hs hc => ?_, rfl⟩
  · show ldw m₄.mem (tf + _) = _
    by_cases hr : r = .a0
    · subst hr
      exact ldw_spill (x := (.t0, 112)) (List.pairwise_singleton ..)
        (List.mem_singleton.mpr rfl)
    · have hoff : (Field.reg r).offset + 8 ≤ 112 ∨ 112 + 8 ≤ (Field.reg r).offset :=
        offset_ne (g := .reg .a0) fun he => hr (Field.reg.inj he)
      refine (ldw_spill_of_disjoint fun x hx => ?_).trans
        ((ldw_spill (by decide) (mem_slots hr)).trans (update_of_ne hr ..))
      rw [List.mem_singleton.mp hx]
      omega
  · refine (spill_apply fun x hx => ?_).trans (spill_apply fun x hx => ?_)
    · rw [List.mem_singleton.mp hx]
      simp only [TFSIZE] at hi
      omega
    · have := slots_le x hx
      simp only [TFSIZE] at hi
      omega
  · exact (update_of_ne hs ..).trans (update_of_ne hc ..)

theorem userret_returns (h : Maps xl (m.reg .a0) tf) (hspp : m.status.spp = false) :
    exec xl userret m =
      { reg := fun r => (Field.reg r).get tf m.mem
        csr := update m.csr .satp (m.reg .a0)
        status := { spp := false, spie := true, sie := m.status.spie }
        mode := .user
        pc := m.csr .sepc
        mem := m.mem } := by
  let m₁ := (m.setCsr .satp (m.reg .a0)).setReg .a0 TRAPFRAME
  let m₂ : Machine := { m₁ with reg := fill m.mem tf slots m₁.reg }
  have ha : m₂.reg .a0 = TRAPFRAME := fill_of_not_mem (by decide)
  have hexec : exec xl userret m = (m₂.setReg .a0 (ldw m.mem (tf + 112))).sret := by
    have hsplit : userret = [.sfenceVma, .csrw .satp .a0, .sfenceVma, .li .a0 TRAPFRAME] ++
        (loads .a0 slots ++ [.ld .a0 112 .a0, .sret]) := rfl
    have h₁ : exec xl [.sfenceVma, .csrw .satp .a0, .sfenceVma, .li .a0 TRAPFRAME] m = m₁ := rfl
    have h₂ := exec_loads (h.covers (m := m₁) rfl slots (by decide)) (by decide)
    have haddr : m₂.addr xl .a0 112 = tf + 112 := by
      rw [Machine.addr, ha]
      exact h 112 (by decide)
    rw [hsplit, exec_append, h₁, exec_append, h₂, ← haddr]
    rfl
  have hreg : update m₂.reg .a0 (ldw m.mem (tf + 112)) = fun r => (Field.reg r).get tf m.mem := by
    funext r
    by_cases hr : r = .a0
    · subst hr
      exact update_self ..
    · exact (update_of_ne hr ..).trans (fill_of_mem (by decide) (mem_slots hr))
  rw [hexec, ← hreg, Machine.sret]
  have hspp' : (m₂.setReg .a0 (ldw m.mem (tf + 112))).status.spp = false := hspp
  rw [hspp']
  rfl

/-! ## The machine of a process -/

/-- What a process sees. -/
structure User where
  reg : Reg → Word
  pc : Word

/-- After a system call. -/
def User.returns (u : User) (v : Word) : User := ⟨update u.reg .a0 v, u.pc + 4⟩

/-- The processes that exist. -/
abbrev Users := Nat → Option User

inductive Event where
  | create (p : Nat) (u : User)
  | run (p : Nat)
  | call (p : Nat) (v : Word)
  | fork (p q : Nat)
  | exec (p : Nat) (entry sp argc : Word)
  | exit (p : Nat)

/-- `prog p` is what the instructions of process `p` may do. -/
inductive Users.Step (prog : Nat → User → User → Prop) (us : Users) :
    Option Event → Users → Prop where
  | stay : Step prog us none us
  | create (p : Nat) (u : User) (hp : us p = none) :
      Step prog us (some (.create p u)) (update us p (some u))
  | run (p : Nat) (u u' : User) (hp : us p = some u) (hu : prog p u u') :
      Step prog us (some (.run p)) (update us p (some u'))
  | call (p : Nat) (u : User) (v : Word) (hp : us p = some u) :
      Step prog us (some (.call p v))
        (update us p (some (u.returns (if known (u.reg .a7) then v else -1))))
  | fork (p q : Nat) (u : User) (hp : us p = some u) (hq : us q = none) :
      Step prog us (some (.fork p q)) (update us q (some (u.returns 0)))
  | exec (p : Nat) (u : User) (entry sp argc : Word) (hp : us p = some u) :
      Step prog us (some (.exec p entry sp argc)) (update us p
        (some ⟨update (update (update u.reg .a1 sp) .sp sp) .a0 argc, entry⟩))
  | exit (p : Nat) : Step prog us (some (.exit p)) (update us p none)

/-! ## What a trapframe holds -/

def user (tf : Nat) (mem : Bytes) : User :=
  ⟨fun r => (Field.reg r).get tf mem, Field.epc.get tf mem⟩

variable {mem' : Bytes} {tf' : Nat} {v : Word} {r : Reg} {f : Field}

theorem user_congr (h : ∀ i < TFSIZE, mem (tf + i) = mem' (tf' + i)) :
    user tf mem = user tf' mem' :=
  congrArg₂ User.mk (funext fun _ => get_congr h) (get_congr h)

theorem user_put_reg :
    user tf ((Field.reg r).put tf v mem) = ⟨update (user tf mem).reg r v, (user tf mem).pc⟩ := by
  refine congrArg₂ User.mk (funext fun r' => ?_) (get_put_of_ne (by simp))
  by_cases hr : r' = r
  · subst hr
    rw [get_put_self, update_self]
  · rw [get_put_of_ne fun he => hr (Field.reg.inj he), update_of_ne hr]
    rfl

theorem user_put_epc : user tf (Field.epc.put tf v mem) = ⟨(user tf mem).reg, v⟩ :=
  congrArg₂ User.mk (funext fun _ => get_put_of_ne (by simp)) get_put_self

/-- The kernel's own fields are not the user's. -/
theorem user_put (hr : ∀ r, .reg r ≠ f) (he : .epc ≠ f) :
    user tf (f.put tf v mem) = user tf mem :=
  congrArg₂ User.mk (funext fun r => get_put_of_ne (hr r)) (get_put_of_ne he)

/-! ## The system -/

inductive Phase where
  | free
  /-- in user mode on a hart -/
  | user (h : Nat)
  /-- in the kernel, before `syscall` has stored the result -/
  | ecall
  /-- in the kernel, and back to user mode from there -/
  | kernel

structure Sys where
  mem : Bytes
  hart : Nat → Hart
  phase : Nat → Phase
  /-- `p->trapframe` -/
  trapframe : Nat → Nat
  /-- `p->kstack` -/
  kstack : Nat → Word

def Apart (a b : Nat) : Prop := a + TFSIZE ≤ b ∨ b + TFSIZE ≤ a

/-- A byte of the one is outside of the other. -/
theorem Apart.outside {a b i : Nat} (h : Apart a b) (hi : i < TFSIZE) :
    b + i < a ∨ a + TFSIZE ≤ b + i := by
  rw [Apart] at h
  omega

/-- Memory that differs only in the trapframe at `tf`. -/
def Only (tf : Nat) (mem mem' : Bytes) : Prop :=
  ∀ i, i < tf ∨ tf + TFSIZE ≤ i → mem' i = mem i

/-- Memory that differs only outside of trapframes. -/
def Sys.Same (s : Sys) (mem : Bytes) : Prop :=
  ∀ p, s.phase p ≠ .free → ∀ i < TFSIZE, mem (s.trapframe p + i) = s.mem (s.trapframe p + i)

/-- A page from `kalloc` is nobody's trapframe. -/
def Sys.Fresh (s : Sys) (a : Nat) : Prop := ∀ p, s.phase p ≠ .free → Apart a (s.trapframe p)

/-- A process with its trapframe at `a` and in phase `φ` is clear of process `q`. -/
def Sys.Clear (s : Sys) (q a : Nat) (φ : Phase) : Prop :=
  φ ≠ .free → s.phase q ≠ .free →
    Apart a (s.trapframe q) ∧ ∀ h, φ = .user h → s.phase q ≠ .user h

/-- The state after something has happened to one process. -/
def Sys.set (s : Sys) (p a : Nat) (φ : Phase) (hart : Nat → Hart) (mem : Bytes) : Sys :=
  { s with
    mem := mem
    hart := hart
    phase := update s.phase p φ
    trapframe := update s.trapframe p a }

section

variable (xl : Word → Word → Nat) (tx : Text) (ksatp : Word) (prog : Nat → User → User → Prop)

inductive Sys.Step (s : Sys) : Option Event → Sys → Prop where
  /-- code in the kernel, on any hart that is there -/
  | kernel (hart : Nat → Hart) (mem : Bytes)
      (hhart : ∀ p h, s.phase p = .user h → hart h = s.hart h) (hmem : s.Same mem) :
      Step s none { s with hart := hart, mem := mem }
  /-- `allocproc` and `userinit` -/
  | create (p a : Nat) (mem : Bytes) (hp : s.phase p = .free) (ha : s.Fresh a)
      (hmem : s.Same mem) :
      Step s (some (.create p (Trap.user a mem))) (s.set p a .kernel s.hart mem)
  /-- user code, which cannot write to the trapframes -/
  | user (p h : Nat) (u : User) (mem : Bytes) (hp : s.phase p = .user h)
      (hu : prog p ⟨(s.hart h).reg, (s.hart h).pc⟩ u) (hmem : s.Same mem) :
      Step s (some (.run p)) (s.set p (s.trapframe p) (.user h)
        (update s.hart h { s.hart h with reg := u.reg, pc := u.pc }) mem)
  | trap (p h : Nat) (cause : Word) (m : Machine) (hp : s.phase p = .user h)
      (hm : usertrap tx (s.trapframe p)
        (exec xl uservec (Machine.trap ⟨s.hart h, s.mem⟩ cause)) = .ok m) :
      Step s none (s.set p (s.trapframe p) (if cause = 8 then .ecall else .kernel)
        (update s.hart h m.toHart) m.mem)
  | syscall (p : Nat) (v : Word) (hp : s.phase p = .ecall) :
      Step s (some (.call p v))
        (s.set p (s.trapframe p) .kernel s.hart (syscall v (s.trapframe p) s.mem))
  | fork (p q a : Nat) (hp : s.phase p = .ecall) (hq : s.phase q = .free)
      (ha : s.Fresh a) :
      Step s (some (.fork p q)) (s.set q a .kernel s.hart (forkTrapframe (s.trapframe p) a s.mem))
  | exec (p : Nat) (entry sp argc : Word) (hp : s.phase p = .ecall) :
      Step s (some (.exec p entry sp argc)) (s.set p (s.trapframe p) .kernel s.hart
        (execTrapframe entry sp argc (s.trapframe p) s.mem))
  /-- a hart in the kernel goes to user mode -/
  | ret (p h : Nat) (satp : Word) (m : Machine) (hp : s.phase p = .kernel)
      (hh : ∀ q, s.phase q ≠ .user h)
      (htp : (s.hart h).reg .tp = BitVec.ofNat 64 h) (hsatp : (s.hart h).csr .satp = ksatp)
      (hmap : Maps xl satp (s.trapframe p))
      (hm : m = Rv64.exec xl userret
        (usertrapret tx (s.trapframe p) (s.kstack p) satp ⟨s.hart h, s.mem⟩)) :
      Step s none (s.set p (s.trapframe p) (.user h) (update s.hart h m.toHart) m.mem)
  /-- `freeproc` -/
  | exit (p : Nat) (hp : ∀ h, s.phase p ≠ .user h) :
      Step s (some (.exit p)) (s.set p (s.trapframe p) .free s.hart s.mem)

/-! ## Refinement -/

/-- A process in user mode on hart `h`. The trapframe has what `uservec` needs to enter the kernel
    on that hart and on the process's own stack. -/
structure OnHart (mem : Bytes) (x : Hart) (h tf : Nat) (kstack : Word) (u : User) : Prop where
  reg : x.reg = u.reg
  pc : x.pc = u.pc
  mode : x.mode = .user
  sie : x.status.sie = true
  stvec : x.csr .stvec = tx.uservec
  maps : Maps xl (x.csr .satp) tf
  satp : Field.kernel_satp.get tf mem = ksatp
  sp : Field.kernel_sp.get tf mem = kstack + BitVec.ofNat 64 Mem.PGSIZE
  trap : Field.kernel_trap.get tf mem = tx.usertrap
  hartid : Field.kernel_hartid.get tf mem = BitVec.ofNat 64 h

inductive Shows (mem : Bytes) (hart : Nat → Hart) (tf : Nat) (kstack : Word) :
    Phase → Option User → Prop where
  | free : Shows mem hart tf kstack .free none
  | user (h : Nat) (u : User) (hon : OnHart xl tx ksatp mem (hart h) h tf kstack u) :
      Shows mem hart tf kstack (.user h) (some u)
  | ecall (u : User) (holds : Trap.user tf mem = ⟨u.reg, u.pc + 4⟩) :
      Shows mem hart tf kstack .ecall (some u)
  | kernel : Shows mem hart tf kstack .kernel (some (Trap.user tf mem))

structure Rel (s : Sys) (us : Users) : Prop where
  apart : ∀ p q, p ≠ q → s.Clear q (s.trapframe p) (s.phase p)
  shows : ∀ p, Shows xl tx ksatp s.mem s.hart (s.trapframe p) (s.kstack p) (s.phase p) (us p)

end

variable {prog : Nat → User → User → Prop} {ksatp kstack cause : Word} {s s' : Sys} {us : Users}
  {hart hart' : Nat → Hart} {φ : Phase} {o : Option User} {u : User} {p q h a : Nat} {x : Hart}
  {e : Option Event} {es : List Event}

theorem OnHart.congr (h₁ : OnHart xl tx ksatp mem x h tf kstack u)
    (hmem : ∀ i < TFSIZE, mem' (tf + i) = mem (tf + i)) :
    OnHart xl tx ksatp mem' x h tf kstack u :=
  ⟨h₁.reg, h₁.pc, h₁.mode, h₁.sie, h₁.stvec, h₁.maps, (get_congr hmem).trans h₁.satp,
    (get_congr hmem).trans h₁.sp, (get_congr hmem).trans h₁.trap,
    (get_congr hmem).trans h₁.hartid⟩

theorem Shows.congr (h₁ : Shows xl tx ksatp mem hart tf kstack φ o)
    (hmem : φ ≠ .free → ∀ i < TFSIZE, mem' (tf + i) = mem (tf + i))
    (hhart : ∀ h, φ = .user h → hart' h = hart h) :
    Shows xl tx ksatp mem' hart' tf kstack φ o := by
  cases h₁ with
  | free => exact .free
  | user h u hon =>
    refine .user h u ?_
    rw [hhart h rfl]
    exact hon.congr (hmem (by simp))
  | ecall u holds => exact .ecall u ((user_congr (hmem (by simp))).trans holds)
  | kernel =>
    rw [← user_congr (hmem (by simp))]
    exact .kernel

/-- A trap saves what the process sees. -/
theorem OnHart.usertrap (h₁ : OnHart xl tx ksatp mem x h tf kstack u) (cause : Word) :
    ∃ m, usertrap tx tf (Rv64.exec xl uservec (Machine.trap ⟨x, mem⟩ cause)) = .ok m ∧
      user tf m.mem = ⟨u.reg, if cause = 8 then u.pc + 4 else u.pc⟩ ∧
      Only tf mem m.mem := by
  have he := uservec_enters (m := Machine.trap ⟨x, mem⟩ cause) h₁.maps
  generalize hm : Rv64.exec xl uservec (Machine.trap ⟨x, mem⟩ cause) = m at he
  have hspp : m.status.spp = false := by
    rw [he.status]
    show (x.mode == .supervisor) = false
    rw [h₁.mode]
    rfl
  have hsepc : (m.setCsr .stvec tx.kernelvec).csr .sepc = u.pc :=
    (he.csr .sepc (by decide) (by decide)).trans h₁.pc
  have hcause : (m.setCsr .stvec tx.kernelvec).csr .scause = cause :=
    he.csr .scause (by decide) (by decide)
  have hreg : (user tf m.mem).reg = u.reg := (funext he.saved).trans h₁.reg
  have hmem : Only tf mem m.mem := by
    intro i hi
    refine he.mem i ?_
    omega
  rw [Trap.usertrap, hspp, if_neg Bool.false_ne_true]
  dsimp only
  rw [hsepc, hcause]
  by_cases hc : cause = 8
  · rw [if_pos hc, if_pos hc, get_put_self]
    refine ⟨_, rfl, ?_, fun i hi => ?_⟩
    · show user tf (Field.epc.put tf _ (Field.epc.put tf _ m.mem)) = _
      rw [user_put_epc, user_put_epc, hreg]
    · exact (put_apply hi).trans ((put_apply hi).trans (hmem i hi))
  · rw [if_neg hc, if_neg hc]
    refine ⟨_, rfl, ?_, fun i hi => ?_⟩
    · show user tf (Field.epc.put tf _ m.mem) = _
      rw [user_put_epc, hreg]
    · exact (put_apply hi).trans (hmem i hi)

theorem user_kernelFields {satp tp : Word} :
    user tf (kernelFields tx tf kstack satp tp mem) = user tf mem := by
  simp [kernelFields, user_put]

/-- The way back gives the process what its trapframe holds. -/
theorem userret_onHart (tx : Text) (mem : Bytes) (kstack : Word) {satp : Word}
    (htp : x.reg .tp = BitVec.ofNat 64 h) (hsatp : x.csr .satp = ksatp) (hmap : Maps xl satp tf) :
    let m := Rv64.exec xl userret (usertrapret tx tf kstack satp ⟨x, mem⟩)
    OnHart xl tx ksatp m.mem m.toHart h tf kstack (user tf mem) ∧
      Only tf mem m.mem := by
  have hret := userret_returns (m := usertrapret tx tf kstack satp ⟨x, mem⟩) hmap rfl
  generalize hm : usertrapret tx tf kstack satp ⟨x, mem⟩ = m at hret
  have hmem : m.mem = kernelFields tx tf kstack ksatp (BitVec.ofNat 64 h) mem := by
    rw [← hm, ← hsatp, ← htp]
    rfl
  have ha : m.reg .a0 = satp := hm ▸ rfl
  have hstvec : m.csr .stvec = tx.uservec := hm ▸ rfl
  have hspie : m.status.spie = true := hm ▸ rfl
  have hsepc : m.csr .sepc = Field.epc.get tf m.mem := hm ▸ rfl
  have huser : user tf m.mem = user tf mem := by
    rw [hmem, user_kernelFields]
  have hreg : (user tf m.mem).reg = (user tf mem).reg := by rw [huser]
  have hpc : m.csr .sepc = (user tf mem).pc := by
    rw [hsepc, ← huser]
    rfl
  have hsp : Field.kernel_sp.get tf m.mem = kstack + BitVec.ofNat 64 Mem.PGSIZE := by
    simp [hmem, kernelFields]
  have hkernel : Field.kernel_satp.get tf m.mem = ksatp := by
    simp [hmem, kernelFields]
  have htrap : Field.kernel_trap.get tf m.mem = tx.usertrap := by
    simp [hmem, kernelFields]
  have hhartid : Field.kernel_hartid.get tf m.mem = BitVec.ofNat 64 h := by
    simp [hmem, kernelFields]
  have hout : Only tf mem m.mem := by
    intro i hi
    rw [hmem, kernelFields, put_apply hi, put_apply hi, put_apply hi, put_apply hi]
  dsimp only
  rw [hret, ha]
  exact ⟨⟨hreg, hpc, rfl, hspie, hstvec, hmap, hkernel, hsp, htrap, hhartid⟩, hout⟩

section

variable (hr : Rel xl tx ksatp s us)
include hr

/-- Kernel code. -/
theorem Rel.kernel (hhart : ∀ p h, s.phase p = .user h → hart h = s.hart h)
    (hmem : s.Same mem) :
    Rel xl tx ksatp { s with hart := hart, mem := mem } us :=
  ⟨hr.apart, fun p => (hr.shows p).congr (hmem p) (hhart p)⟩

/-- Something happens to one process, in its own trapframe. -/
theorem Rel.set (hclear : ∀ q, q ≠ p → s.Clear q a φ)
    (hmem : ∀ q, q ≠ p → s.phase q ≠ .free → ∀ i < TFSIZE,
      mem (s.trapframe q + i) = s.mem (s.trapframe q + i))
    (hhart : ∀ q g, q ≠ p → s.phase q = .user g → hart g = s.hart g)
    (hshow : Shows xl tx ksatp mem hart a (s.kstack p) φ o) :
    Rel xl tx ksatp (s.set p a φ hart mem) (update us p o) := by
  refine ⟨fun q q' hne hq hq' => ?_, fun q => ?_⟩
  · simp only [Sys.set] at hq hq' ⊢
    by_cases h₁ : q = p
    · subst h₁
      rw [update_of_ne hne.symm] at hq'
      rw [update_self] at hq
      simpa only [update_self, update_of_ne hne.symm] using hclear q' hne.symm hq hq'
    · rw [update_of_ne h₁] at hq
      by_cases h₂ : q' = p
      · subst h₂
        rw [update_self] at hq'
        obtain ⟨ha, hφ⟩ := hclear q h₁ hq' hq
        simp only [update_self, update_of_ne h₁]
        exact ⟨ha.symm, fun g hg hg' => hφ g hg' hg⟩
      · rw [update_of_ne h₂] at hq'
        simpa only [update_of_ne h₁, update_of_ne h₂] using hr.apart q q' hne hq hq'
  · simp only [Sys.set]
    by_cases h₁ : q = p
    · subst h₁
      simpa only [update_self] using hshow
    · simp only [update_of_ne h₁]
      exact (hr.shows q).congr (hmem q h₁) fun g hg => hhart q g h₁ hg

theorem Rel.of_free (hp : s.phase p = .free) : us p = none := by
  have hs := hr.shows p
  rw [hp] at hs
  generalize us p = o at hs ⊢
  cases hs with
  | free => rfl

theorem Rel.of_user (hp : s.phase p = .user h) :
    ∃ u, us p = some u ∧ OnHart xl tx ksatp s.mem (s.hart h) h (s.trapframe p) (s.kstack p) u := by
  have hs := hr.shows p
  rw [hp] at hs
  generalize us p = o at hs ⊢
  cases hs with
  | user _ u hon => exact ⟨u, rfl, hon⟩

theorem Rel.of_ecall (hp : s.phase p = .ecall) :
    ∃ u, us p = some u ∧ user (s.trapframe p) s.mem = ⟨u.reg, u.pc + 4⟩ := by
  have hs := hr.shows p
  rw [hp] at hs
  generalize us p = o at hs ⊢
  cases hs with
  | ecall u holds => exact ⟨u, rfl, holds⟩

/-- A hart in user mode is that of one process. -/
theorem Rel.one (hp : s.phase p = .user h) (hq : q ≠ p) : s.phase q ≠ .user h := by
  intro hq'
  exact (hr.apart p q hq.symm (by simp [hp]) (by simp [hq'])).2 h hp hq'

theorem Rel.others (hp : s.phase p = .user h) (q g : Nat) (hq : q ≠ p)
    (hg : s.phase q = .user g) : update s.hart h x g = s.hart g := by
  refine update_of_ne ?_ ..
  rintro rfl
  exact hr.one hp hq hg

/-- A process changes in its own trapframe. -/
theorem Rel.own (hp : s.phase p ≠ .free)
    (hφ : ∀ g, φ = .user g → ∀ q, q ≠ p → s.phase q ≠ .user g)
    (hmem : Only (s.trapframe p) s.mem mem)
    (hhart : ∀ q g, q ≠ p → s.phase q = .user g → hart g = s.hart g)
    (hshow : Shows xl tx ksatp mem hart (s.trapframe p) (s.kstack p) φ o) :
    Rel xl tx ksatp (s.set p (s.trapframe p) φ hart mem) (update us p o) := by
  refine hr.set (fun q hq _ hlive => ?_) (fun q hq hlive i hi => hmem _ ?_) hhart hshow
  · exact ⟨(hr.apart p q hq.symm hp hlive).1, fun g hg => hφ g hg q hq⟩
  · exact (hr.apart p q hq.symm hp hlive).1.outside hi

/-- A process goes on from its trapframe. -/
theorem Rel.own_kernel (hp : s.phase p ≠ .free)
    (hmem : Only (s.trapframe p) s.mem mem)
    (hhart : ∀ q g, q ≠ p → s.phase q = .user g → hart g = s.hart g)
    (hu : user (s.trapframe p) mem = u) :
    Rel xl tx ksatp (s.set p (s.trapframe p) .kernel hart mem) (update us p (some u)) := by
  rw [← hu]
  exact hr.own hp (fun _ hg => Phase.noConfusion hg) hmem hhart .kernel

theorem Rel.create (ha : s.Fresh a) (hmem : s.Same mem) (hu : user a mem = u) :
    Rel xl tx ksatp (s.set p a .kernel s.hart mem) (update us p (some u)) := by
  rw [← hu]
  refine hr.set (fun q _ _ hq => ⟨ha q hq, fun _ hg => Phase.noConfusion hg⟩) (fun q _ => hmem q)
    (fun _ _ _ _ => rfl) .kernel

theorem Rel.run (hp : s.phase p = .user h) (hmem : s.Same mem) (u : User) :
    Rel xl tx ksatp (s.set p (s.trapframe p) (.user h)
      (update s.hart h { s.hart h with reg := u.reg, pc := u.pc }) mem)
      (update us p (some u)) := by
  obtain ⟨u₀, -, hon⟩ := hr.of_user hp
  have hon' := hon.congr (hmem p (by simp [hp]))
  refine hr.set (fun q hq _ hlive => ?_) (fun q _ => hmem q) (hr.others hp) (.user h u ?_)
  · refine ⟨(hr.apart p q hq.symm (by simp [hp]) hlive).1, fun g hg => ?_⟩
    cases hg
    exact hr.one hp hq
  · rw [update_self]
    exact ⟨rfl, rfl, hon'.mode, hon'.sie, hon'.stvec, hon'.maps, hon'.satp, hon'.sp, hon'.trap,
      hon'.hartid⟩

theorem Rel.trap {m : Machine} (hp : s.phase p = .user h)
    (hm : Trap.usertrap tx (s.trapframe p)
      (Rv64.exec xl uservec (Machine.trap ⟨s.hart h, s.mem⟩ cause)) = .ok m) :
    Rel xl tx ksatp (s.set p (s.trapframe p) (if cause = 8 then .ecall else .kernel)
      (update s.hart h m.toHart) m.mem) us := by
  obtain ⟨u, hu, hon⟩ := hr.of_user hp
  obtain ⟨m', hm', huser, hmem⟩ := hon.usertrap cause
  cases hm.symm.trans hm'
  -- the process sees nothing of it
  rw [← update_eq_self p us, hu]
  by_cases hc : cause = 8
  · rw [if_pos hc] at huser ⊢
    exact hr.own (by simp [hp]) (fun _ hg => Phase.noConfusion hg) hmem (hr.others hp)
      (.ecall u huser)
  · rw [if_neg hc] at huser ⊢
    exact hr.own_kernel (by simp [hp]) hmem (hr.others hp) huser

theorem Rel.ret {m : Machine} (hp : s.phase p = .kernel) (hh : ∀ q, s.phase q ≠ .user h)
    (hon : OnHart xl tx ksatp m.mem m.toHart h (s.trapframe p) (s.kstack p)
      (user (s.trapframe p) s.mem))
    (hmem : Only (s.trapframe p) s.mem m.mem) :
    Rel xl tx ksatp
      (s.set p (s.trapframe p) (.user h) (update s.hart h m.toHart) m.mem) us := by
  have hs := hr.shows p
  rw [hp] at hs
  rw [← update_eq_self p us]
  generalize us p = o at hs ⊢
  cases hs with
  | kernel =>
    refine hr.own ?_ (fun g hg q _ => ?_) hmem (fun q g _ hg => ?_) (.user h _ ?_)
    · simp [hp]
    · cases hg
      exact hh q
    · refine update_of_ne ?_ ..
      rintro rfl
      exact hh q hg
    · rwa [update_self]

/-- Every step is one of the machine that the processes see, or does not show there. -/
theorem Rel.step (hs : Sys.Step xl tx ksatp prog s e s') :
    ∃ us', Users.Step prog us e us' ∧ Rel xl tx ksatp s' us' := by
  cases hs with
  | kernel hart mem hhart hmem => exact ⟨us, .stay, hr.kernel hhart hmem⟩
  | create p a mem hp ha hmem =>
    exact ⟨_, .create p (user a mem) (hr.of_free hp), hr.create ha hmem rfl⟩
  | user p h u mem hp hu hmem =>
    obtain ⟨u₀, hu₀, hon⟩ := hr.of_user hp
    rw [hon.reg, hon.pc] at hu
    exact ⟨_, .run p u₀ u hu₀ hu, hr.run hp hmem u⟩
  | trap p h cause m hp hm => exact ⟨us, .stay, hr.trap hp hm⟩
  | syscall p v hp =>
    obtain ⟨u, hu, holds⟩ := hr.of_ecall hp
    have ha7 : (Field.reg .a7).get (s.trapframe p) s.mem = u.reg .a7 :=
      congrFun (congrArg User.reg holds) .a7
    refine ⟨_, .call p u v hu, hr.own_kernel (by simp [hp])
      (fun i hi => put_apply hi) (fun _ _ _ _ => rfl) ?_⟩
    rw [syscall, user_put_reg, holds, ha7, User.returns]
  | fork p q a hp hq ha =>
    obtain ⟨u, hu, holds⟩ := hr.of_ecall hp
    refine ⟨_, .fork p q u hu (hr.of_free hq), hr.create ha (fun q' hq' i hi => ?_) ?_⟩
    · have hout := (ha q' hq').outside hi
      exact (put_apply hout).trans (blit_outside hout)
    · have hcopy : user a (blit s.mem a (fun i => s.mem (s.trapframe p + i)) TFSIZE) =
          user (s.trapframe p) s.mem := user_congr fun i hi => blit_inside hi
      rw [forkTrapframe, user_put_reg, hcopy, holds, User.returns]
  | exec p entry sp argc hp =>
    obtain ⟨u, hu, holds⟩ := hr.of_ecall hp
    refine ⟨_, .exec p u entry sp argc hu, hr.own_kernel (by simp [hp])
      (fun i hi => ?_) (fun _ _ _ _ => rfl) ?_⟩
    · rw [execTrapframe, put_apply hi, put_apply hi, put_apply hi, put_apply hi]
    · rw [execTrapframe, user_put_reg, user_put_reg, user_put_epc, user_put_reg, holds]
  | ret p h satp m hp hh htp hsatp hmap hm =>
    subst hm
    obtain ⟨hon, hmem⟩ := userret_onHart tx s.mem (s.kstack p) htp hsatp hmap
    exact ⟨us, .stay, hr.ret hp hh hon hmem⟩
  | exit p _ =>
    exact ⟨_, .exit p, hr.set (fun _ _ hφ => absurd rfl hφ) (fun _ _ _ _ _ => rfl)
      (fun _ _ _ _ => rfl) .free⟩

end

/-- `Run.simulated` from a system without processes. -/
theorem run_refines (h₀ : ∀ p, s.phase p = .free)
    (hrun : Run (Sys.Step xl tx ksatp prog) s es s') :
    ∃ us, Run (Users.Step prog) (fun _ => none) es us ∧ Rel xl tx ksatp s' us := by
  refine hrun.simulated (fun _ _ _ _ hr hs => hr.step hs) ⟨fun p q _ hp => ?_, fun p => ?_⟩
  · exact absurd (h₀ p) hp
  · rw [h₀ p]
    exact .free

/-- Traps are transparent. Whatever harts, interrupts and other processes do, each process is where
    the same events would have brought it on a machine of its own, on which only its instructions
    and system calls happen. -/
theorem traps_transparent (h₀ : ∀ p, s.phase p = .free)
    (hrun : Run (Sys.Step xl tx ksatp prog) s es s') :
    ∃ us, Run (Users.Step prog) (fun _ => none) es us ∧
      ∀ p, Shows xl tx ksatp s'.mem s'.hart (s'.trapframe p) (s'.kstack p) (s'.phase p) (us p) := by
  obtain ⟨us, hus, hr⟩ := run_refines h₀ hrun
  exact ⟨us, hus, hr.shows⟩

/-- A trap enters the kernel on the stack of the process that was interrupted, with the number of
    the hart it ran on, and does not touch the trapframe of another. -/
theorem trap_enters_kernel (h₀ : ∀ p, s.phase p = .free)
    (hrun : Run (Sys.Step xl tx ksatp prog) s es s') (hp : s'.phase p = .user h)
    (cause : Word) :
    let m := Rv64.exec xl uservec (Machine.trap ⟨s'.hart h, s'.mem⟩ cause)
    m.pc = tx.usertrap ∧ m.reg .sp = s'.kstack p + BitVec.ofNat 64 Mem.PGSIZE ∧
    m.reg .tp = BitVec.ofNat 64 h ∧ m.csr .satp = ksatp ∧ m.status.sie = false ∧
    (∃ m', usertrap tx (s'.trapframe p) m = .ok m') ∧
    ∀ q, q ≠ p → s'.phase q ≠ .free → ∀ i < TFSIZE,
      m.mem (s'.trapframe q + i) = s'.mem (s'.trapframe q + i) := by
  obtain ⟨us, -, hr⟩ := run_refines h₀ hrun
  obtain ⟨u, -, hon⟩ := hr.of_user hp
  have he := uservec_enters (m := Machine.trap ⟨s'.hart h, s'.mem⟩ cause) hon.maps
  obtain ⟨m', hm', -⟩ := hon.usertrap cause
  intro m
  have hpc : m.pc = tx.usertrap := he.pc.trans hon.trap
  have hsie : m.status.sie = false := congrArg Status.sie he.status
  have hothers : ∀ q, q ≠ p → s'.phase q ≠ .free → ∀ i < TFSIZE,
      m.mem (s'.trapframe q + i) = s'.mem (s'.trapframe q + i) := by
    intro q hq hlive i hi
    refine he.mem _ ?_
    have := (hr.apart p q hq.symm (by simp [hp]) hlive).1.outside hi
    omega
  exact ⟨hpc, he.sp.trans hon.sp, he.tp.trans hon.hartid, he.satp.trans hon.satp, hsie,
    ⟨m', hm'⟩, hothers⟩

/-! ### A run -/

/-- Harts in the kernel and no process. -/
def idle : Sys where
  mem := fun _ => 0
  hart := fun h =>
    ⟨fun _ => BitVec.ofNat 64 h, fun _ => 0, ⟨false, false, false⟩,
      .supervisor, 0⟩
  phase := fun _ => .free
  trapframe := fun _ => 0
  kstack := fun _ => 0

/-- Every page table maps `TRAPFRAME` to physical address 0. -/
def flat (_ va : Word) : Nat := (va - TRAPFRAME).toNat

def noText : Text := ⟨0, 0, 0⟩

/-- A new process in user mode on hart 1. -/
def started : Sys :=
  let m := Rv64.exec flat userret (usertrapret noText 0 0 0 ⟨idle.hart 1, idle.mem⟩)
  (idle.set 0 0 .kernel idle.hart idle.mem).set 0 0 (.user 1) (update idle.hart 1 m.toHart) m.mem

theorem started_run (prog : Nat → User → User → Prop) :
    Run (Sys.Step flat noText 0 prog) idle [.create 0 (user 0 idle.mem)] started := by
  have hmap : Maps flat 0 0 := by
    intro o ho
    rw [flat, BitVec.add_comm, BitVec.add_sub_cancel, BitVec.toNat_ofNat, zero_add]
    exact Nat.mod_eq_of_lt (ho.trans (by decide))
  have hcreate : Sys.Step flat noText 0 prog idle _ (idle.set 0 0 .kernel idle.hart idle.mem) :=
    .create 0 0 idle.mem rfl (fun _ hp => absurd rfl hp) fun _ _ _ _ => rfl
  refine (Run.refl.tail hcreate).tail (.ret 0 1 0 _ rfl (fun q => ?_) rfl rfl hmap rfl)
  by_cases hq : q = 0
  · subst hq
    exact Phase.noConfusion
  · show update idle.phase 0 .kernel q ≠ _
    rw [update_of_ne hq]
    exact Phase.noConfusion

/-- The process makes a system call, which returns 5. -/
theorem traps_transparent_call : ∃ s' us,
    Run (Sys.Step flat noText 0 fun _ _ _ => False) idle
      [.create 0 (user 0 idle.mem), .call 0 5] s' ∧ s'.phase 0 = .kernel ∧
    Run (Users.Step fun _ _ _ => False) (fun _ => none)
      [.create 0 (user 0 idle.mem), .call 0 5] us ∧
    ∀ p, Shows flat noText 0 s'.mem s'.hart (s'.trapframe p) (s'.kstack p) (s'.phase p) (us p) := by
  obtain ⟨us, -, hr⟩ := run_refines (fun _ => rfl) (started_run fun _ _ _ => False)
  obtain ⟨u, -, hon⟩ := hr.of_user (p := 0) (h := 1) rfl
  obtain ⟨m, hm, -⟩ := hon.usertrap 8
  have hrun := ((started_run fun _ _ _ => False).tail (.trap 0 1 8 m rfl hm)).tail
    (.syscall 0 5 rfl)
  obtain ⟨us', hus, hshows⟩ := traps_transparent (fun _ => rfl) hrun
  exact ⟨_, us', hrun, rfl, hus, hshows⟩

theorem trap_enters_kernel_started :
    (Rv64.exec flat uservec (Machine.trap ⟨started.hart 1, started.mem⟩ 8)).reg .tp = 1 :=
  (trap_enters_kernel (fun _ => rfl) (started_run fun _ _ _ => False) (p := 0) (h := 1) rfl
    8).2.2.1

end Xv6.Trap
