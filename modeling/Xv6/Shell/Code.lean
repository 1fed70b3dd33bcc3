import Mathlib.Tactic

/-!
# The parser of the shell (`user/sh.c`)

Pointers into the line are offsets from its start, and `*s` is `load`, which fails behind the NUL
at `es`. A function that moves `*ps` takes the old offset and returns the new one. Recursion and
loops that have no obvious bound take `fuel`. `malloc` succeeds.
-/

namespace Xv6.Shell

abbrev MAXARGS : Nat := 10

abbrev O_RDONLY : Nat := 0x000
abbrev O_WRONLY : Nat := 0x001
abbrev O_CREATE : Nat := 0x200
abbrev O_TRUNC : Nat := 0x400

/-- The characters `|`, `(`, `)`, `;`, `&`, `<` and `>`, and `+` and `a`, which stand for `>>` and
    for a word. -/
abbrev bar : UInt8 := 124
abbrev lpar : UInt8 := 40
abbrev rpar : UInt8 := 41
abbrev semi : UInt8 := 59
abbrev amp : UInt8 := 38
abbrev lt : UInt8 := 60
abbrev gt : UInt8 := 62
abbrev plus : UInt8 := 43
abbrev letterA : UInt8 := 97

/-- `" \t\r\n\v"` -/
def whitespace : List UInt8 := [32, 9, 13, 10, 11]

/-- `"<|>&;()"` -/
def symbols : List UInt8 := [lt, bar, gt, amp, semi, lpar, rpar]

/-- A NUL-terminated line: the characters before the NUL. -/
structure Line where
  chars : List UInt8
  noNul : 0 ∉ chars

/-- `s + strlen(s)` -/
def Line.es (line : Line) : Nat := line.chars.length

/-! ## Commands -/

/-- A word, from `q` up to `eq`. -/
structure Word where
  q : Nat
  eq : Nat
  deriving DecidableEq

/-- `struct cmd`; `argv` and `eargv` of an `execcmd` are one list, without the NULL at the end. -/
inductive Cmd where
  | exec (argv : List Word)
  | redir (cmd : Cmd) (file : Word) (mode fd : Nat)
  | pipe (left right : Cmd)
  | list (left right : Cmd)
  | back (cmd : Cmd)
  deriving DecidableEq

/-- `cmd->argv[argc] = q; cmd->eargv[argc] = eq`, where `cmd` is the `execcmd` that `ret` is, or
    that the redirections of `ret` lead to. -/
def Cmd.addArg (w : Word) : Cmd → Cmd
  | .exec argv => .exec (argv ++ [w])
  | .redir cmd file mode fd => .redir (cmd.addArg w) file mode fd
  | ret => ret

/-- How a call does not return: with a panic, by reading behind the line, or for want of fuel. -/
inductive Err where
  | panic (msg : String)
  | fault
  | fuel

abbrev R (α : Type) : Type := Except Err α

def panic {α : Type} (msg : String) : R α := .error (.panic msg)

/-! ## Tokens -/

section

variable (line : Line)

/-- `*s` -/
def load (s : Nat) : R UInt8 :=
  if h : s < line.es then .ok (line.chars.get ⟨s, h⟩)
  else if s = line.es then .ok 0
  else .error .fault

/-- `while(s < es && p(*s)) s++`, with `n` at least `es - s`. -/
def scan (p : UInt8 → Bool) : (n s : Nat) → R Nat
  | 0, s => .ok s
  | n + 1, s =>
    if s < line.es then do
      let c ← load line s
      if p c then scan p n (s + 1) else .ok s
    else .ok s

def isBlank (c : UInt8) : Bool := whitespace.contains c

def isWordChar (c : UInt8) : Bool := !whitespace.contains c && !symbols.contains c

def skipBlanks (s : Nat) : R Nat := scan line isBlank (line.es - s) s

/-- The switch of `gettoken`, where `c` is `*s`: the token and its end. -/
def tokenAt (c : UInt8) (s : Nat) : R (UInt8 × Nat) :=
  if c = 0 then .ok (c, s)
  else if c = bar ∨ c = lpar ∨ c = rpar ∨ c = semi ∨ c = amp ∨ c = lt then .ok (c, s + 1)
  else if c = gt then do
    let d ← load line (s + 1)
    .ok (if d = gt then (plus, s + 2) else (c, s + 1))
  else do
    let s ← scan line isWordChar (line.es - s) s
    .ok (letterA, s)

/-- What `gettoken` returns and stores. -/
structure Token where
  ret : UInt8
  q : Nat
  eq : Nat
  ps : Nat

def gettoken (ps : Nat) : R Token := do
  let q ← skipBlanks line ps
  let c ← load line q
  let x ← tokenAt line c q
  let s ← skipBlanks line x.2
  .ok ⟨x.1, q, x.2, s⟩

def peek (toks : List UInt8) (ps : Nat) : R (Bool × Nat) := do
  let s ← skipBlanks line ps
  let c ← load line s
  .ok (c ≠ 0 && toks.contains c, s)

/-! ## Parsing -/

/-- `while(peek(ps, es, "&"))` in `parseline` -/
def parsebacks : (fuel : Nat) → (cmd : Cmd) → (ps : Nat) → R (Cmd × Nat)
  | 0, _, _ => .error .fuel
  | fuel + 1, cmd, ps => do
    let x ← peek line [amp] ps
    if x.1 then
      let t ← gettoken line x.2
      parsebacks fuel (.back cmd) t.ps
    else .ok (cmd, x.2)

/-- The switch of `parseredirs`. -/
def redircmd (tok : UInt8) (cmd : Cmd) (file : Word) : Cmd :=
  if tok = lt then .redir cmd file O_RDONLY 0
  else if tok = gt then .redir cmd file (O_WRONLY ||| O_CREATE ||| O_TRUNC) 1
  else if tok = plus then .redir cmd file (O_WRONLY ||| O_CREATE) 1
  else cmd

def parseredirs : (fuel : Nat) → (cmd : Cmd) → (ps : Nat) → R (Cmd × Nat)
  | 0, _, _ => .error .fuel
  | fuel + 1, cmd, ps => do
    let x ← peek line [lt, gt] ps
    if x.1 then
      let tok ← gettoken line x.2
      let t ← gettoken line tok.ps
      if t.ret ≠ letterA then panic "missing file for redirection"
      else parseredirs fuel (redircmd tok.ret cmd ⟨t.q, t.eq⟩) t.ps
    else .ok (cmd, x.2)

/-- The loop of `parseexec`. -/
def parseargs : (fuel : Nat) → (argc : Nat) → (ret : Cmd) → (ps : Nat) → R (Cmd × Nat)
  | 0, _, _, _ => .error .fuel
  | fuel + 1, argc, ret, ps => do
    let x ← peek line [bar, rpar, amp, semi] ps
    if x.1 then .ok (ret, x.2)
    else
      let t ← gettoken line x.2
      if t.ret = 0 then .ok (ret, t.ps)
      else if t.ret ≠ letterA then panic "syntax"
      else if argc + 1 ≥ MAXARGS then panic "too many args"
      else
        let y ← parseredirs line fuel (ret.addArg ⟨t.q, t.eq⟩) t.ps
        parseargs fuel (argc + 1) y.1 y.2

mutual

def parseline : (fuel : Nat) → (ps : Nat) → R (Cmd × Nat)
  | 0, _ => .error .fuel
  | fuel + 1, ps => do
    let x ← parsepipe fuel ps
    let y ← parsebacks line fuel x.1 x.2
    let z ← peek line [semi] y.2
    if z.1 then
      let t ← gettoken line z.2
      let rest ← parseline fuel t.ps
      .ok (.list y.1 rest.1, rest.2)
    else .ok (y.1, z.2)
termination_by structural fuel => fuel

def parsepipe : (fuel : Nat) → (ps : Nat) → R (Cmd × Nat)
  | 0, _ => .error .fuel
  | fuel + 1, ps => do
    let x ← parseexec fuel ps
    let y ← peek line [bar] x.2
    if y.1 then
      let t ← gettoken line y.2
      let rest ← parsepipe fuel t.ps
      .ok (.pipe x.1 rest.1, rest.2)
    else .ok (x.1, y.2)
termination_by structural fuel => fuel

def parseexec : (fuel : Nat) → (ps : Nat) → R (Cmd × Nat)
  | 0, _ => .error .fuel
  | fuel + 1, ps => do
    let x ← peek line [lpar] ps
    if x.1 then parseblock fuel x.2
    else
      let y ← parseredirs line fuel (.exec []) x.2
      parseargs line fuel 0 y.1 y.2
termination_by structural fuel => fuel

def parseblock : (fuel : Nat) → (ps : Nat) → R (Cmd × Nat)
  | 0, _ => .error .fuel
  | fuel + 1, ps => do
    let x ← peek line [lpar] ps
    if !x.1 then panic "parseblock"
    else
      let t ← gettoken line x.2
      let y ← parseline fuel t.ps
      let z ← peek line [rpar] y.2
      if !z.1 then panic "syntax - missing )"
      else
        let u ← gettoken line z.2
        parseredirs line fuel y.1 u.ps
termination_by structural fuel => fuel

end

end

/-! ## Strings -/

/-- The buffer of the line. -/
def Line.mem (line : Line) (x : Nat) : UInt8 := line.chars.getD x 0

/-- NUL-terminate all the counted strings. -/
def nulterminate : Cmd → (Nat → UInt8) → Nat → UInt8
  | .exec argv, m => argv.foldl (fun m w => Function.update m w.eq 0) m
  | .redir cmd file _ _, m => Function.update (nulterminate cmd m) file.eq 0
  | .pipe left right, m => nulterminate right (nulterminate left m)
  | .list left right, m => nulterminate right (nulterminate left m)
  | .back cmd, m => nulterminate cmd m

/-- The command, and the buffer with the strings that it points to. -/
def parsecmd (fuel : Nat) (line : Line) : R (Cmd × (Nat → UInt8)) := do
  let x ← parseline line fuel 0
  let y ← peek line [] x.2
  if y.2 ≠ line.es then panic "syntax"
  else .ok (x.1, nulterminate x.1 line.mem)

end Xv6.Shell
