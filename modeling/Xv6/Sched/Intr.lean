import Xv6.Sched.Code

/-!
# Interrupts, spin-locks and switches

`push_off` and `pop_off` count in `noff` how often interrupts have been turned off on a CPU, and
keep in `intena` whether they were on before. Both belong to the CPU, but are about the thread that
it executes, which may go on elsewhere after `sched`.

A thread is a list of instructions that it still has to execute, in a stack of frames: a trap,
which can come before any instruction while interrupts are on, puts a frame on top. `acquire`,
`release`, `sleep`, `yield` and the loop of `scheduler` are lists of instructions. An instruction
is a part of a function during which no interrupt makes a difference: after `intr_off` nothing else
happens on the CPU, but between `intr_get` and `intr_off` the thread may even move to another CPU.
A thread with nothing left to execute calls any function that it may call.

That a process is `RUNNABLE` is not in the state: a scheduler that has locked a process which no
CPU executes may find it so or not. A slot of the process table that no CPU executes may get a new
thread at any time; this is what `exit`, `wait` and `fork` come to, as `exit` calls `sched` just as
`sleep` does.

Threads carry some history: how often they have turned interrupts off and which locks they hold, as
far as they have executed, and whether interrupts were on when they made their outermost
`push_off`.
-/

namespace Xv6.Intr

open Lib Sched
open Function (update)

/-- `struct cpu`, and whether interrupts are on (the bit `SIE` of `sstatus`). `proc` is the process
    it executes; without one it executes its scheduler. -/
structure Cpu where
  proc : Option Nat
  noff : Int
  intena : Bool
  intr : Bool

/-- What a thread executes. -/
inductive Instr where
  /-- `old = intr_get()` -/
  | intrGet
  /-- `push_off` from `intr_off()` on -/
  | off
  /-- `acquire` after `push_off()` -/
  | swap (l : Lock)
  /-- `release` up to `pop_off()` -/
  | clear (l : Lock)
  | popOff
  /-- `sched` up to `swtch` -/
  | sched
  /-- `sched` after `swtch` -/
  | resumed
  | intrOn
  | intrOff
  /-- `scheduler` looks at the state of a process that it has locked -/
  | pick (p : Nat)
  deriving DecidableEq

/-! ## Functions -/

def pushOff : List Instr := [.intrGet, .off]

def acquire (l : Lock) : List Instr := pushOff ++ [.swap l]

def release (l : Lock) : List Instr := [.clear l, .popOff]

def sched : List Instr := [.sched, .resumed]

/-- Give up the CPU for one scheduling round. -/
def yield (p : Nat) : List Instr := acquire (.proc p) ++ sched ++ release (.proc p)

/-- Atomically release lock and sleep on chan. Reacquires lock when awakened. -/
def sleep (p : Nat) (lk : Lock) : List Instr :=
  acquire (.proc p) ++ release lk ++ sched ++ release (.proc p) ++ acquire lk

/-- The start of `forkret`, which is still holding `p->lock` from `scheduler`. -/
def forkret (p : Nat) : List Instr := release (.proc p)

/-- `scheduler` with one process. -/
def visit (p : Nat) : List Instr := acquire (.proc p) ++ .pick p :: release (.proc p)

/-- The outer loop of `scheduler`. -/
def scheduler : List Instr := .intrOn :: (List.range NPROC).flatMap visit

/-! ## Threads -/

inductive Tid where
  | proc (p : Nat)
  | sched (c : Nat)
  deriving DecidableEq

/-- A frame: what is left to execute, and the local variables `old` of `push_off` and `intena` of
    `sched`. `was` says whether interrupts were on when the outermost `push_off` was called. -/
structure Frame where
  todo : List Instr
  old : Bool
  intena : Bool
  was : Option Bool

/-- A thread: the frame that it executes, and those that traps have interrupted. It has turned
    interrupts off `n` times and holds the locks `held`. -/
structure Thread where
  top : Frame
  rest : List Frame
  n : Nat
  held : Finset Lock

def Frame.start (todo : List Instr) : Frame := ⟨todo, false, false, none⟩

/-- `allocproc` and `fork` set up a new thread, which starts when `scheduler` switches to it. -/
def Thread.fresh (p : Nat) : Thread := ⟨.start (forkret p), [], 1, {.proc p}⟩

def Thread.setTodo (T : Thread) (todo : List Instr) : Thread :=
  { T with top := { T.top with todo := todo } }

/-- The local variable `intena` of `sched` is set. -/
def Thread.save (T : Thread) (intena : Bool) : Thread :=
  { T with top := { T.top with intena := intena } }

/-! ## Instructions -/

/-- What an instruction sees: the CPU, the locks (a lock records the CPU that has it), the thread.
    -/
structure View where
  cpu : Cpu
  lock : Lock → Option Nat
  thread : Thread

/-- `old = intr_get()` -/
def execIntrGet (v : View) : View :=
  { v with thread := { v.thread with top := { v.thread.top with
      old := v.cpu.intr
      was := if v.thread.n = 0 then some v.cpu.intr else v.thread.top.was } } }

/-- The rest of `push_off`. -/
def execOff (v : View) : View :=
  { v with
    cpu := { v.cpu with
      intr := false
      intena := if v.cpu.noff = 0 then v.thread.top.old else v.cpu.intena
      noff := v.cpu.noff + 1 }
    thread := { v.thread with n := v.thread.n + 1 } }

/-- `acquire` spins until the lock is free. -/
def execSwap (c : Nat) (l : Lock) (v : View) : Outcome View Unit :=
  if v.lock l = some c then .panic "acquire"
  else if v.lock l = none then
    .ok () { v with
      lock := update v.lock l (some c)
      thread := { v.thread with held := insert l v.thread.held } }
  else .wait

def execClear (c : Nat) (l : Lock) (v : View) : Outcome View Unit :=
  if v.lock l ≠ some c then .panic "release"
  else
    .ok () { v with
      lock := update v.lock l none
      thread := { v.thread with held := v.thread.held.erase l } }

def execPopOff (v : View) : Outcome View Unit :=
  if v.cpu.intr then .panic "pop_off - interruptible"
  else if v.cpu.noff < 1 then .panic "pop_off"
  else
    .ok () { v with
      cpu := { v.cpu with
        noff := v.cpu.noff - 1
        intr := if v.cpu.noff - 1 = 0 ∧ v.cpu.intena then true else v.cpu.intr }
      thread := { v.thread with n := v.thread.n - 1 } }

/-- `sched`: after `swtch` the CPU executes its scheduler. -/
def execSched (c : Nat) (v : View) : Outcome View Unit :=
  if (v.cpu.proc.bind fun p => v.lock (.proc p)) ≠ some c then .panic "sched p->lock"
  else if v.cpu.noff ≠ 1 then .panic "sched locks"
  else if v.cpu.intr then .panic "sched interruptible"
  else
    .ok () ⟨{ v.cpu with proc := none }, v.lock, v.thread.save v.cpu.intena⟩

/-- An instruction of the thread that the CPU `c` executes. -/
def exec (c : Nat) (i : Instr) (v : View) : Outcome View Unit :=
  match i with
  | .intrGet => .ok () (execIntrGet v)
  | .off => .ok () (execOff v)
  | .swap l => execSwap c l v
  | .clear l => execClear c l v
  | .popOff => execPopOff v
  | .sched => execSched c v
  | .resumed => .ok () { v with cpu := { v.cpu with intena := v.thread.top.intena } }
  | .intrOn => .ok () { v with cpu := { v.cpu with intr := true } }
  | .intrOff => .ok () { v with cpu := { v.cpu with intr := false } }
  -- the process is not `RUNNABLE`
  | .pick _ => .ok () v

/-! ## The machine -/

structure State where
  cpu : Nat → Cpu
  lock : Lock → Option Nat
  thread : Tid → Thread

/-- The thread that a CPU executes. -/
def State.tid (s : State) (c : Nat) : Tid :=
  match (s.cpu c).proc with
  | some p => .proc p
  | none => .sched c

def State.cur (s : State) (c : Nat) : Thread := s.thread (s.tid c)

/-- No CPU executes the process. -/
def State.Away (s : State) (p : Nat) : Prop := ∀ c, (s.cpu c).proc ≠ some p

/-- The state after the CPU `c` and its thread have changed. -/
def State.put (s : State) (c : Nat) (v : View) : State where
  cpu := update s.cpu c v.cpu
  lock := v.lock
  thread := update s.thread (s.tid c) v.thread

/-- What the CPU `c` sees when it executes an instruction and has `r` left after it. -/
def State.view (s : State) (c : Nat) (r : List Instr) : View :=
  ⟨s.cpu c, s.lock, (s.cur c).setTodo r⟩

/-- The functions that a thread may call next, where `owner` is its process, if it is not a
    scheduler: locks are released and `push_off` is undone by who did it, `yield` is called without
    a lock and `sleep` with one. Interrupts are switched on and off directly only outside of traps
    and without a lock; this is also what a process does that returns to user space and comes back.
    -/
inductive Calls (owner : Option Nat) (T : Thread) : List Instr → Prop
  | acquire (l : Lock) (h : owner ≠ none ∨ T.rest ≠ []) : Calls owner T (acquire l)
  | release {l : Lock} (h : l ∈ T.held) : Calls owner T (release l)
  | pushOff (h : owner ≠ none ∨ T.rest ≠ []) : Calls owner T pushOff
  | popOff (h : T.held.card < T.n) : Calls owner T [.popOff]
  | yield {p : Nat} (hp : owner = some p) (h : T.n = 0) : Calls owner T (yield p)
  | sleep {p : Nat} {lk : Lock} (hp : owner = some p) (hn : T.n = 1) (h : T.held = {lk}) :
      Calls owner T (sleep p lk)
  | intrOn {p : Nat} (hp : owner = some p) (h : T.n = 0) (hr : T.rest = []) :
      Calls owner T [.intrOn]
  | intrOff {p : Nat} (hp : owner = some p) (h : T.n = 0) (hr : T.rest = []) :
      Calls owner T [.intrOff]
  | scheduler (hp : owner = none) (hr : T.rest = []) : Calls owner T scheduler

/-- What happens on a CPU, or to a slot of the process table that no CPU executes. -/
inductive Step (s : State) : State → Prop
  | exec {c : Nat} {i : Instr} {r : List Instr} {v : View} (todo : (s.cur c).top.todo = i :: r)
      (ok : exec c i (s.view c r) = .ok () v) : Step s (s.put c v)
  /-- the process is `RUNNABLE`, and the scheduler switches to it -/
  | run {c p : Nat} {r : List Instr} (todo : (s.cur c).top.todo = .pick p :: r) (away : s.Away p) :
      Step s (s.put c { s.view c r with cpu := { s.cpu c with proc := some p } })
  | call {c : Nat} {f : List Instr} (todo : (s.cur c).top.todo = [])
      (calls : Calls (s.cpu c).proc (s.cur c) f) : Step s (s.put c (s.view c f))
  /-- an interrupt, which turns interrupts off -/
  | trap {c : Nat} (on : (s.cpu c).intr = true) :
      Step s (s.put c ⟨{ s.cpu c with intr := false }, s.lock,
        { s.cur c with top := .start [], rest := (s.cur c).top :: (s.cur c).rest }⟩)
  /-- `kerneltrap` is done, and `sret` turns interrupts on again -/
  | ret {c : Nat} {f : Frame} {fs : List Frame} (todo : (s.cur c).top.todo = [])
      (rest : (s.cur c).rest = f :: fs) (n : (s.cur c).n = 0) :
      Step s (s.put c ⟨{ s.cpu c with intr := true }, s.lock, { s.cur c with top := f, rest := fs }⟩)
  | fork {p : Nat} (away : s.Away p) :
      Step s { s with thread := update s.thread (.proc p) (.fresh p) }

/-- An instruction of the CPU `c` panics. -/
def State.Panics (s : State) (c : Nat) (msg : String) : Prop :=
  ∃ i r, (s.cur c).top.todo = i :: r ∧ exec c i (s.view c r) = .panic msg

/-- Every CPU is about to call `scheduler`; interrupts have not been turned on yet. -/
def boot : State where
  cpu _ := ⟨none, 0, false, false⟩
  lock _ := none
  thread
    | .proc p => .fresh p
    | .sched _ => ⟨.start scheduler, [], 0, ∅⟩

def Reach : State → Prop := Relation.ReflTransGen Step boot

end Xv6.Intr
