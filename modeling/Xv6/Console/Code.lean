import Mathlib.Tactic

/-!
# The console (`kernel/console.c`)

Input from the console goes through a buffer with three indices, which are of type `uint` and wrap
around: what is between `r` and `w` can be read, and what is between `w` and `e` is a line that is
still being edited. `Cons` is this buffer. `Editor` says what it is for: two lists, and what a key
and a read do to them.

Processes that read and keys that are pressed are the same for both; `Sys` is a console with the
calls of `consoleread` that are going on. A call holds `cons.lock` from where it starts or wakes up
to where it sleeps or returns, so such a stretch is one event, and so is an interrupt. What is
echoed to the screen is left out, and so is the process list of `^P`.
-/

namespace Xv6.Console

open Function

abbrev INPUT_BUF_SIZE : Nat := 128

/-- The keys with a meaning: `C('D')`, `C('H')`, newline, carriage return, `C('P')`, `C('U')` and
    the delete key. -/
abbrev ctrlD : UInt8 := 4
abbrev ctrlH : UInt8 := 8
abbrev newline : UInt8 := 10
abbrev carriageReturn : UInt8 := 13
abbrev ctrlP : UInt8 := 16
abbrev ctrlU : UInt8 := 21
abbrev deleteKey : UInt8 := 127

/-! ## The code -/

/-- `struct cons`: read index, write index and edit index. -/
structure Cons where
  buf : Nat → UInt8
  r : Nat
  w : Nat
  e : Nat

/-- `x++` -/
def inc (x : Nat) : Nat := (x + 1) % 2 ^ 32

/-- `x--` -/
def dec (x : Nat) : Nat := (x + 2 ^ 32 - 1) % 2 ^ 32

/-- `x - y` -/
def sub (x y : Nat) : Nat := (x + 2 ^ 32 - y) % 2 ^ 32

/-- The loop for `^U`; each round gives up one character, so `m` of them are enough if `e` is `m`
    ahead of `w`. -/
def killLine : (m : Nat) → Cons → Cons
  | 0, s => s
  | m + 1, s =>
    if s.e ≠ s.w ∧ s.buf (dec s.e % INPUT_BUF_SIZE) ≠ newline then killLine m { s with e := dec s.e }
    else s

/-- store for consumption by `consoleread`. -/
def store (c : UInt8) (s : Cons) : Cons :=
  let s := { s with buf := update s.buf (s.e % INPUT_BUF_SIZE) c, e := inc s.e }
  -- a whole line (or end-of-file) has arrived
  if c = newline ∨ c = ctrlD ∨ sub s.e s.r = INPUT_BUF_SIZE then { s with w := s.e } else s

/-- the console input interrupt handler. -/
def consoleintr (c : UInt8) (s : Cons) : Cons :=
  if c = ctrlP then s
  else if c = ctrlU then killLine (sub s.e s.w) s
  else if c = ctrlH ∨ c = deleteKey then if s.e ≠ s.w then { s with e := dec s.e } else s
  else if c ≠ 0 ∧ sub s.e s.r < INPUT_BUF_SIZE then
    store (if c = carriageReturn then newline else c) s
  else s

/-- The loop of `consoleread` with `n` bytes to go, of `target`, up to a sleep or the end: what it
    copies to the user, and how many bytes are to go if it sleeps. -/
def consoleread (target : Nat) : (n : Nat) → Cons → Cons × List UInt8 × Option Nat
  | 0, s => (s, [], none)
  | n + 1, s =>
    if s.r = s.w then (s, [], some (n + 1))
    else
      let c := s.buf (s.r % INPUT_BUF_SIZE)
      let s := { s with r := inc s.r }
      if c = ctrlD then
        -- Save ^D for next time, to make sure caller gets a 0-byte result.
        (if n + 1 < target then { s with r := dec s.r } else s, [], none)
      else if c = newline then (s, [c], none)
      else
        let x := consoleread target n s
        (x.1, c :: x.2.1, x.2.2)

/-! ## What it is for -/

/-- What can be read, and the line that is being edited. -/
structure Editor where
  committed : List UInt8
  line : List UInt8

/-- A character is appended to the line; a newline, `^D` and a full buffer end it. -/
def Editor.append (c : UInt8) (ed : Editor) : Editor :=
  if c = newline ∨ c = ctrlD ∨ ed.committed.length + ed.line.length + 1 = INPUT_BUF_SIZE then
    ⟨ed.committed ++ (ed.line ++ [c]), []⟩
  else ⟨ed.committed, ed.line ++ [c]⟩

/-- A key is pressed. -/
def Editor.key (c : UInt8) (ed : Editor) : Editor :=
  if c = ctrlP then ed
  else if c = ctrlU then { ed with line := [] }
  else if c = ctrlH ∨ c = deleteKey then { ed with line := ed.line.dropLast }
  else if c ≠ 0 ∧ ed.committed.length + ed.line.length < INPUT_BUF_SIZE then
    ed.append (if c = carriageReturn then newline else c)
  else ed

/-- A read with `n` bytes to go, of `target`, from the characters `l`: what is left of them, what it
    gets, and how many bytes are to go if it has to wait. -/
def readLine (target : Nat) : (n : Nat) → List UInt8 → List UInt8 × List UInt8 × Option Nat
  | 0, l => (l, [], none)
  | n + 1, [] => ([], [], some (n + 1))
  | n + 1, c :: l =>
    if c = ctrlD then (if n + 1 < target then c :: l else l, [], none)
    else if c = newline then (l, [c], none)
    else
      let x := readLine target n l
      (x.1, c :: x.2.1, x.2.2)

def Editor.read (target n : Nat) (ed : Editor) : Editor × List UInt8 × Option Nat :=
  let x := readLine target n ed.committed
  (⟨x.1, ed.line⟩, x.2)

/-! ## Keys and reads -/

/-- A call of `consoleread` that sleeps: `got` has been copied to the user. -/
structure Call where
  target : Nat
  n : Nat
  got : List UInt8

/-- A console with its readers. `returned` is the history of the calls that have ended: who called,
    with which length, and what it got. -/
structure Sys (σ : Type) where
  dev : σ
  call : Nat → Option Call
  returned : List (Nat × Nat × List UInt8)

/-- What a console can do. -/
structure Device (σ : Type) where
  key : UInt8 → σ → σ
  read : Nat → Nat → σ → σ × List UInt8 × Option Nat

inductive Event where
  | key (c : UInt8)
  /-- the process `p` calls `consoleread` with the length `n` -/
  | read (p n : Nat)
  /-- the process `p` wakes up -/
  | wake (p : Nat)

section

variable {σ : Type} (D : Device σ)

/-- The process `p` goes on with its call until it sleeps or returns. -/
def Sys.go (s : Sys σ) (p : Nat) (x : Call) : Sys σ :=
  let y := D.read x.target x.n s.dev
  match y.2.2 with
  | none => ⟨y.1, update s.call p none, s.returned ++ [(p, x.target, x.got ++ y.2.1)]⟩
  | some n => ⟨y.1, update s.call p (some ⟨x.target, n, x.got ++ y.2.1⟩), s.returned⟩

/-- The call that an event goes on with, and its process. A process that is in a call does not start
    another, and a call has a positive length. -/
def Sys.current (s : Sys σ) : Event → Option (Nat × Call)
  | .key _ => none
  | .read p n => if (s.call p).isSome ∨ n = 0 then none else some (p, ⟨n, n, []⟩)
  | .wake p => (s.call p).map fun x => (p, x)

/-- What an event does. -/
def Sys.step (s : Sys σ) (ev : Event) : Sys σ :=
  match ev, s.current ev with
  | .key c, _ => { s with dev := D.key c s.dev }
  | _, some (p, x) => s.go D p x
  | _, none => s

def Sys.run (s : Sys σ) (evs : List Event) : Sys σ := evs.foldl (Sys.step D) s

end

def consDevice : Device Cons := ⟨consoleintr, consoleread⟩

def editorDevice : Device Editor := ⟨Editor.key, Editor.read⟩

/-- The console when the system starts. -/
def boot : Sys Cons := ⟨⟨fun _ => 0, 0, 0, 0⟩, fun _ => none, []⟩

/-- The console as it should be. -/
def ideal : Sys Editor := ⟨⟨[], []⟩, fun _ => none, []⟩

end Xv6.Console
