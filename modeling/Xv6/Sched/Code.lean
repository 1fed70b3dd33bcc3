import Xv6.Lib.Seq
import Xv6.Lib.Team
import Xv6.Param

/-!
# Scheduling, sleeping, forking and waiting

The parts of `kernel/proc.c` and `kernel/sleeplock.c` that several CPUs execute at the same time,
on `n` CPUs. There are two kinds of threads: the kernel thread of a process (a slot of the process
table), and the scheduler of a CPU. A CPU executes its scheduler or one process; `swtch` changes
over. A thread can take a step only while a CPU executes it.

A spin-lock records the CPU that holds it, so a lock that is held across `swtch` passes from one
thread to the other on the same CPU. The steps of a program are what happens between two operations
on locks, or less. A timer interrupt makes a process `yield` wherever it holds no lock, since
interrupts are on exactly there. What the other handlers do to the process table is a `wakeup`, by
a process between its calls or by a scheduler between two entries.

The state also has some history that no step reads: which process is inside which sleep-lock or in
`sleep` between releasing the lock and being `SLEEPING`, when each slot was allocated and by whose
`fork`, which processes have exited, which have been reported by `wait`, and what the CPUs were
running when `freeproc` was called.
-/

namespace Xv6.Sched

open Lib
open Function (update)

inductive Procstate where
  | unused
  | used
  | sleeping
  | runnable
  | running
  | zombie
  deriving DecidableEq

/-- What a process sleeps on: a process table entry, a sleep-lock, or anything else. -/
inductive Chan where
  | proc (p : Nat)
  | sleeplock (i : Nat)
  | other (x : Nat)
  deriving DecidableEq

/-- A spin-lock. -/
inductive Lock where
  | proc (p : Nat)
  | wait
  | pid
  /-- `lk->lk` of a sleep-lock -/
  | sleeplock (i : Nat)
  | other (x : Nat)
  deriving DecidableEq

/-- `struct proc`; `born` says which allocation of the slot this is, and `forker` is the `born` of
    the process that called `fork`. -/
structure Proc where
  state : Procstate
  chan : Option Chan
  killed : Bool
  xstate : Int
  pid : Int
  parent : Option Nat
  born : Nat
  forker : Nat

/-- `struct cpu`: `c->proc`, and the process whose thread the CPU executes, if it does not execute
    the scheduler. -/
structure Cpu where
  proc : Option Nat
  running : Option Nat

structure Sleeplock where
  locked : Bool
  pid : Int

/-- A process that has exited. -/
structure Exit where
  slot : Nat
  born : Nat
  pid : Int
  status : Int

/-- A successful `wait`: who called it, whose child the process was, whether the process that had
    forked it had exited, and what was returned. -/
structure Reap where
  caller : Nat
  parent : Option Nat
  orphan : Bool
  exit : Exit

structure Sys (n : Nat) where
  proc : Nat → Proc
  lock : Lock → Option (Fin n)
  cpu : Fin n → Cpu
  sleeplock : Nat → Sleeplock
  initproc : Nat
  nextpid : Int
  inside : Nat → Nat → Bool
  dozing : Nat → Option Chan
  births : Nat
  exits : List Exit
  reaps : List Reap
  frees : List (Nat × (Fin n → Option Nat))

/-- A process or the scheduler of a CPU. -/
abbrev Thread (n : Nat) : Type := Nat ⊕ Fin n

/-- What a thread does next. -/
inductive Job where
  | forkret
  | idle
  | wait
  | acquiresleep (i : Nat)
  | scan (p : Nat)

variable {n : Nat} {α : Type}

namespace Sys

def setProc (s : Sys n) (p : Nat) (x : Proc) : Sys n :=
  { s with proc := update s.proc p x }

def setLock (s : Sys n) (l : Lock) (h : Option (Fin n)) : Sys n :=
  { s with lock := update s.lock l h }

def setCpu (s : Sys n) (c : Fin n) (x : Cpu) : Sys n := { s with cpu := update s.cpu c x }

/-- The CPU that executes a thread. -/
def on (s : Sys n) : Thread n → Option (Fin n)
  | .inl p => (List.finRange n).find? fun c => (s.cpu c).running = some p
  | .inr c => if (s.cpu c).running = none then some c else none

end Sys

/-! ## Steps -/

/-- An atomic step of a thread, on the CPU that executes it. -/
def step (t : Thread n) (f : Fin n → Sys n → Outcome (Sys n) α) : Prog (Sys n) α :=
  Prog.atomic fun s =>
    match s.on t with
    | none => .wait
    | some c => f c s

def read (t : Thread n) (g : Sys n → α) : Prog (Sys n) α := step t fun _ s => .ok (g s) s

def write (t : Thread n) (g : Sys n → Sys n) : Prog (Sys n) Unit := step t fun _ s => .ok () (g s)

def onProc (t : Thread n) (q : Nat) (g : Proc → Proc) : Prog (Sys n) Unit :=
  write t fun s => s.setProc q (g (s.proc q))

def acquire (t : Thread n) (l : Lock) : Prog (Sys n) Unit :=
  step t fun c s =>
    if s.lock l = none then .ok () (s.setLock l (some c))
    else if s.lock l = some c then .panic "acquire"
    else .wait

/-- `release`, with a note for the history -/
def releaseNoting (t : Thread n) (l : Lock) (note : Sys n → Sys n) : Prog (Sys n) Unit :=
  step t fun c s =>
    if s.lock l = some c then .ok () (note (s.setLock l none)) else .panic "release"

def release (t : Thread n) (l : Lock) : Prog (Sys n) Unit := releaseNoting t l id

/-! ## The scheduler -/

/-- One round of the loop of `scheduler` on CPU `c`. -/
def scheduler (c : Fin n) (p : Nat) : Prog (Sys n) Job := do
  acquire (.inr c) (.proc p)
  let go ← step (.inr c) fun _ s =>
    if (s.proc p).state = .runnable then
      .ok true ((s.setProc p { s.proc p with state := .running }).setCpu c ⟨some p, some p⟩)
    else .ok false s
  -- after a switch, this is where the process comes back
  Prog.when (go = true) (write (.inr c) fun s => s.setCpu c ⟨none, (s.cpu c).running⟩)
  release (.inr c) (.proc p)
  return .scan ((p + 1) % NPROC)

/-- Switch to scheduler. Must hold only `p->lock` and have changed `proc->state`. -/
def sched (p : Nat) : Prog (Sys n) Unit :=
  step (.inl p) fun c s =>
    if s.lock (.proc p) ≠ some c then .panic "sched p->lock"
    else if (s.proc p).state = .running then .panic "sched running"
    else .ok () (s.setCpu c ⟨(s.cpu c).proc, none⟩)

/-- Give up the CPU for one scheduling round. -/
def yield (p : Nat) : Prog (Sys n) Unit := do
  acquire (.inl p) (.proc p)
  onProc (.inl p) p fun x => { x with state := .runnable }
  sched p
  release (.inl p) (.proc p)

/-- A fork child's very first scheduling by `scheduler` will `swtch` to `forkret`. -/
def forkret (p : Nat) : Prog (Sys n) Job := do
  release (.inl p) (.proc p)
  return .idle

/-! ## `sleep`, `wakeup` and `kill` -/

/-- Atomically release lock and sleep on `chan`. Reacquires lock when awakened. -/
def sleep (p : Nat) (chan : Chan) (lk : Lock) : Prog (Sys n) Unit := do
  acquire (.inl p) (.proc p)
  releaseNoting (.inl p) lk fun s => { s with dozing := update s.dozing p (some chan) }
  write (.inl p) fun s =>
    { s with dozing := update s.dozing p none }.setProc p
      { s.proc p with chan := some chan, state := .sleeping }
  sched p
  onProc (.inl p) p fun x => { x with chan := none }
  release (.inl p) (.proc p)
  acquire (.inl p) lk

/-- `wakeup` at one entry of the process table; `myproc()` of a scheduler is null. -/
def wakeupOne (t : Thread n) (chan : Chan) (q : Nat) : Prog (Sys n) Unit :=
  if t = .inl q then return ()
  else do
    acquire t (.proc q)
    onProc t q fun x =>
      if x.state = .sleeping ∧ x.chan = some chan then { x with state := .runnable } else x
    release t (.proc q)

/-- Wake up all processes sleeping on `chan`. Must be called without any `p->lock`. -/
def wakeup (t : Thread n) (chan : Chan) : Prog (Sys n) Unit :=
  Prog.loop (wakeupOne t chan) 0 NPROC

/-- The loop of `kill`, from entry `q` on. -/
def killFrom (p : Nat) (pid : Int) : (q m : Nat) → Prog (Sys n) Unit
  | _, 0 => return ()
  | q, m + 1 => do
    acquire (.inl p) (.proc q)
    let found ← step (.inl p) fun _ s =>
      if (s.proc q).pid = pid then
        .ok true (s.setProc q { s.proc q with
          killed := true
          -- Wake process from sleep().
          state := if (s.proc q).state = .sleeping then .runnable else (s.proc q).state })
      else .ok false s
    release (.inl p) (.proc q)
    if found then return () else killFrom p pid (q + 1) m

/-- Kill the process with the given pid. -/
def kill (p : Nat) (pid : Int) : Prog (Sys n) Unit := killFrom p pid 0 NPROC

def killed (p : Nat) : Prog (Sys n) Bool := do
  acquire (.inl p) (.proc p)
  let k ← read (.inl p) fun s => (s.proc p).killed
  release (.inl p) (.proc p)
  return k

/-! ## `fork`, `exit` and `wait` -/

/-- free a proc structure and the data hanging from it, including user pages. -/
def freeproc (s : Sys n) (q : Nat) : Sys n :=
  { s.setProc q { s.proc q with
      pid := 0, parent := none, chan := none, killed := false, xstate := 0, state := .unused } with
    frees := s.frees ++ [(q, fun c => (s.cpu c).proc)] }

/-- The search of `allocproc`, from entry `q` on. Returns with the lock of the entry held. -/
def allocprocFrom (p : Nat) : (q m : Nat) → Prog (Sys n) (Option Nat)
  | _, 0 => return none
  | q, m + 1 => do
    acquire (.inl p) (.proc q)
    if (← read (.inl p) fun s => (s.proc q).state) = .unused then return some q
    else
      release (.inl p) (.proc q)
      allocprocFrom p (q + 1) m

/-- `allocproc` after its search: `p->pid = allocpid(); p->state = USED` -/
def allocprocInit (p np : Nat) : Prog (Sys n) Unit := do
  acquire (.inl p) .pid
  let pid ← step (.inl p) fun _ s => .ok s.nextpid { s with nextpid := nextInt s.nextpid }
  release (.inl p) .pid
  write (.inl p) fun s =>
    { s.setProc np { s.proc np with pid, state := .used, born := s.births } with
      births := s.births + 1 }

/-- Create a new process, copying the parent; `ok` says whether there is enough memory. -/
def fork (p : Nat) (ok : Bool) : Prog (Sys n) Job := do
  match ← allocprocFrom p 0 NPROC with
  | none => return .idle
  | some np => do
    allocprocInit p np
    if ok = false then
      write (.inl p) fun s => freeproc s np
      release (.inl p) (.proc np)
      return .idle
    else
      release (.inl p) (.proc np)
      acquire (.inl p) .wait
      write (.inl p) fun s =>
        s.setProc np { s.proc np with parent := some p, forker := (s.proc p).born }
      release (.inl p) .wait
      acquire (.inl p) (.proc np)
      onProc (.inl p) np fun x => { x with state := .runnable }
      release (.inl p) (.proc np)
      return .idle

/-- `reparent` at one entry of the process table. -/
def reparentOne (p pp : Nat) : Prog (Sys n) Unit := do
  let moved ← step (.inl p) fun _ s =>
    if (s.proc pp).parent = some p then
      .ok (some s.initproc) (s.setProc pp { s.proc pp with parent := some s.initproc })
    else .ok none s
  match moved with
  | none => return ()
  | some i => wakeup (.inl p) (.proc i)

/-- Pass `p`'s abandoned children to init. Caller must hold `wait_lock`. -/
def reparent (p : Nat) : Prog (Sys n) Unit := Prog.loop (reparentOne p) 0 NPROC

/-- `wakeup(p->parent)` -/
def wakeupParent (p : Nat) : Prog (Sys n) Unit := do
  match ← read (.inl p) fun s => (s.proc p).parent with
  | none => return ()
  | some r => wakeup (.inl p) (.proc r)

/-- Exit the current process. Does not return: when the slot runs again, it is a new process. -/
def exit (p : Nat) (status : Int) : Prog (Sys n) Job := do
  if (← read (.inl p) fun s => s.initproc) = p then Prog.panic "init exiting"
  else
    acquire (.inl p) .wait
    reparent p
    wakeupParent p
    acquire (.inl p) (.proc p)
    write (.inl p) fun s =>
      { s.setProc p { s.proc p with xstate := status, state := .zombie } with
        exits := s.exits ++ [⟨p, (s.proc p).born, (s.proc p).pid, status⟩] }
    release (.inl p) .wait
    sched p
    return .forkret

/-- `freeproc(pp)` in `wait`, which then returns `pp->pid` and has copied out `pp->xstate`. -/
def reap (p pp : Nat) (s : Sys n) : Sys n :=
  { freeproc s pp with
    reaps := s.reaps ++ [⟨p, (s.proc pp).parent, (s.proc pp).forker ∈ s.exits.map Exit.born,
      ⟨pp, (s.proc pp).born, (s.proc pp).pid, (s.proc pp).xstate⟩⟩] }

/-- The scan of `wait`, from entry `q` on; `copied` says whether `copyout` succeeds. Returns whether
    `p` has children, or nothing if `wait` has returned. -/
def waitFrom (p : Nat) (copied : Bool) : (q m : Nat) → (havekids : Bool) →
    Prog (Sys n) (Option Bool)
  | _, 0, havekids => return some havekids
  | q, m + 1, havekids => do
    if (← read (.inl p) fun s => (s.proc q).parent) = some p then
      -- make sure the child isn't still in exit() or swtch().
      acquire (.inl p) (.proc q)
      if (← read (.inl p) fun s => (s.proc q).state) = .zombie then
        Prog.when (copied = true) (write (.inl p) (reap p q))
        release (.inl p) (.proc q)
        release (.inl p) .wait
        return none
      else
        release (.inl p) (.proc q)
        waitFrom p copied (q + 1) m true
    else waitFrom p copied (q + 1) m havekids

/-- One round of the loop of `wait`, with `wait_lock` held. -/
def waitLoop (p : Nat) (copied : Bool) : Prog (Sys n) Job := do
  match ← waitFrom p copied 0 NPROC false with
  | none => return .idle
  | some false => do
    release (.inl p) .wait
    return .idle
  | some true => do
    if ← killed p then
      release (.inl p) .wait
      return .idle
    else
      sleep p (.proc p) .wait
      return .wait

/-- Wait for a child process to exit. -/
def wait (p : Nat) : Prog (Sys n) Job := do
  acquire (.inl p) .wait
  return .wait

/-! ## Sleep-locks -/

/-- One round of the loop of `acquiresleep`, with `lk->lk` held. -/
def acquiresleepLoop (p i : Nat) : Prog (Sys n) Job := do
  if (← read (.inl p) fun s => (s.sleeplock i).locked) then
    sleep p (.sleeplock i) (.sleeplock i)
    return .acquiresleep i
  else
    write (.inl p) fun s => { s with
      sleeplock := update s.sleeplock i ⟨true, (s.proc p).pid⟩
      inside := update s.inside p (update (s.inside p) i true) }
    release (.inl p) (.sleeplock i)
    return .idle

def acquiresleep (p i : Nat) : Prog (Sys n) Job := do
  acquire (.inl p) (.sleeplock i)
  return .acquiresleep i

def releasesleep (p i : Nat) : Prog (Sys n) Job := do
  acquire (.inl p) (.sleeplock i)
  write (.inl p) fun s => { s with
    sleeplock := update s.sleeplock i ⟨false, 0⟩
    inside := update s.inside p (update (s.inside p) i false) }
  wakeup (.inl p) (.sleeplock i)
  release (.inl p) (.sleeplock i)
  return .idle

/-! ## Runs -/

/-- Sleep on something else, under its lock. -/
def sleepOn (p x lk : Nat) : Prog (Sys n) Job := do
  acquire (.inl p) (.other lk)
  sleep p (.other x) (.other lk)
  release (.inl p) (.other lk)
  return .idle

/-- What a process may do when it is not in any of these functions. -/
inductive Call (p : Nat) (s : Sys n) : Prog (Sys n) Job → Prop where
  | yield : Call p s (do yield p; return .idle)
  | sleep (x lk : Nat) : Call p s (sleepOn p x lk)
  | wakeup (x : Nat) : Call p s (do wakeup (.inl p) (.other x); return .idle)
  | kill (pid : Int) : Call p s (do kill p pid; return .idle)
  | fork (ok : Bool) : Call p s (fork p ok)
  | exit (status : Int) : Call p s (exit p status)
  | wait : Call p s (wait p)
  | acquiresleep (i : Nat) : Call p s (acquiresleep p i)
  | releasesleep (i : Nat) : s.inside p i = true → Call p s (releasesleep p i)

/-- What a thread goes on with. -/
inductive Next : Thread n → Job → Sys n → Prog (Sys n) Job → Prop where
  | forkret {p : Nat} {s : Sys n} : Next (.inl p) .forkret s (forkret p)
  | call {p : Nat} {s : Sys n} {q : Prog (Sys n) Job} : Call p s q → Next (.inl p) .idle s q
  | wait {p : Nat} {s : Sys n} (copied : Bool) : Next (.inl p) .wait s (waitLoop p copied)
  | acquiresleep {p i : Nat} {s : Sys n} :
      Next (.inl p) (.acquiresleep i) s (acquiresleepLoop p i)
  | scan {c : Fin n} {p : Nat} {s : Sys n} : Next (.inr c) (.scan p) s (scheduler c p)
  /-- an interrupt on a CPU that executes no process -/
  | intr {c : Fin n} {p : Nat} {s : Sys n} (x : Nat) :
      Next (.inr c) (.scan p) s (do wakeup (.inr c) (.other x); return .scan p)

/-- Interrupts are on: a CPU executes the process and holds no lock. -/
def Interruptible : Thread n → Sys n → Prop
  | .inl p, s => ∃ c, (s.cpu c).running = some p ∧ ∀ l, s.lock l ≠ some c
  | .inr _, _ => False

/-- A timer interrupt. -/
def timer : Thread n → Prog (Sys n) Unit
  | .inl p => yield p
  | .inr _ => return ()

abbrev World (n : Nat) : Type 1 := Team (Sys n) (Thread n) Job

/-- After `userinit`, with every CPU in `scheduler`. -/
def boot (n : Nat) : World n where
  shared :=
    { proc := fun p => ⟨if p = 0 then .runnable else .unused, none, false, 0,
        if p = 0 then 1 else 0, none, 0, 0⟩
      lock := fun _ => none
      cpu := fun _ => ⟨none, none⟩
      sleeplock := fun _ => ⟨false, 0⟩
      initproc := 0
      nextpid := 2
      inside := fun _ _ => false
      dozing := fun _ => none
      births := 1
      exits := []
      reaps := []
      frees := [] }
  run := fun t =>
    match t with
    | .inl _ => .ret .forkret
    | .inr _ => .ret (.scan 0)

abbrev Step : World n → World n → Prop := Team.Step Next Interruptible timer

/-- The states of a run on `n` CPUs. -/
def Reach (n : Nat) : World n → Prop := Relation.ReflTransGen Step (boot n)

end Xv6.Sched
