import Xv6.Param
import Xv6.Shell.Parse

/-!
# `runcmd` (`user/sh.c`)

`runcmd` is a sequence of system calls for each kind of command, and never returns. A process is
what it still has to execute, its descriptors, and how many processes and pipes it has made: the
`n`th one that the process `q` makes has the name `n :: q`. An `open` finds what `opens` says.

The parser puts each redirection around what it has so far, so the last one on the line is
outermost, and `runcmd` does the outermost one first. The redirections of a command are therefore
done from right to left, and where several of them are for one descriptor it is the first one that
stays (`runs_wrap`, `table_eq`).
-/

namespace Xv6.Shell

open Function

/-! ## Descriptors -/

/-- The name of a process or of a pipe: a number given by its maker, and the maker. -/
abbrev Name : Type := List Nat

/-- What a descriptor refers to. -/
inductive Obj (F : Type) where
  | file (f : F)
  | readEnd (pipe : Name)
  | writeEnd (pipe : Name)
  deriving DecidableEq

/-- `p->ofile` -/
abbrev Fds (F : Type) : Type := Nat → Option (Obj F)

/-- `fdalloc(f)`: the lowest descriptor that is free. -/
def fdalloc {F : Type} (t : Fds F) (f : Obj F) : Option (Nat × Fds F) :=
  ((List.range NOFILE).find? fun fd => (t fd).isNone).map fun fd =>
    (fd, update t fd (some f))

/-- `pipe(p)`: `p[0]` and `p[1]`. -/
def pipe {F : Type} (t : Fds F) (name : Name) : Option (Nat × Nat × Fds F) := do
  let (p0, t) ← fdalloc t (.readEnd name)
  let (p1, t) ← fdalloc t (.writeEnd name)
  some (p0, p1, t)

inductive Call where
  | close (fd : Nat)
  | dup (fd : Nat)
  | open_ (file : Word) (mode : Nat)

/-- The descriptors after a call; `none` where `open` fails and the shell exits. -/
def Call.run {F : Type} (opens : Word → Nat → Option F) (t : Fds F) : Call → Option (Fds F)
  | .close fd => some (update t fd none)
  | .dup fd => some (((t fd).bind (fdalloc t)).elim t Prod.snd)
  | .open_ file mode => ((opens file mode).bind fun f => fdalloc t (.file f)).map Prod.snd

/-! ## Processes -/

inductive Stmt where
  | call (c : Call)
  /-- `if(fork1() == 0){ pre; runcmd(cmd); }` -/
  | fork (pre : List Call) (cmd : Cmd)
  | wait
  | runcmd (cmd : Cmd)
  | exit
  /-- a program that `exec` has started -/
  | user

structure Proc (F : Type) where
  code : List Stmt
  fds : Fds F
  made : Nat

section

variable {F : Type}

/-- The case `PIPE` behind `pipe(p)`. -/
def pipeBody (l r : Cmd) (p0 p1 : Nat) : List Stmt :=
  [.fork [.close 1, .dup p1, .close p0, .close p1] l,
    .fork [.close 0, .dup p0, .close p0, .close p1] r,
    .call (.close p0), .call (.close p1), .wait, .wait, .exit]

/-- `runcmd(cmd)` in the process `q`. -/
def Proc.start (a : Proc F) (q : Name) : Cmd → Proc F
  | .exec [] => { a with code := [.exit] }
  | .exec (_ :: _) => { a with code := [.user] }
  | .redir cmd file mode fd =>
    { a with code := [.call (.close fd), .call (.open_ file mode), .runcmd cmd] }
  | .list l r => { a with code := [.fork [] l, .wait, .runcmd r] }
  | .pipe l r =>
    match pipe a.fds (a.made :: q) with
    | some (p0, p1, t) => ⟨pipeBody l r p0 p1, t, a.made + 1⟩
    | none => { a with code := [.exit] }
  | .back cmd => { a with code := [.fork [] cmd, .exit] }

/-- A step of the process by itself. -/
def Proc.own (opens : Word → Nat → Option F) (q : Name) (a : Proc F) : Option (Proc F) :=
  match a.code with
  | .call c :: code =>
    match c.run opens a.fds with
    | some t => some { a with code := code, fds := t }
    | none => some { a with code := [.exit] }
  | .runcmd cmd :: _ => some (a.start q cmd)
  | _ => none

/-- The process gets from `a` to `b` by itself. -/
def Proc.Runs (opens : Word → Nat → Option F) (q : Name) : Proc F → Proc F → Prop :=
  Relation.ReflTransGen fun a b => a.own opens q = some b

/-! ## Redirections -/

variable {opens : Word → Nat → Option F} {q : Name} {t : Fds F} {f : Obj F} {fd n : Nat} {cmd : Cmd}
  {r : Redir} {rs : List Redir}

theorem fdalloc_eq (hfree : t fd = none) (hlow : ∀ i < fd, t i ≠ none) (hfd : fd < NOFILE) :
    fdalloc t f = some (fd, update t fd (some f)) := by
  have hfind : ((List.range NOFILE).find? fun fd => (t fd).isNone) = some fd := by
    rw [List.find?_range_eq_some]
    refine ⟨by rw [hfree]; rfl, List.mem_range.mpr hfd, fun i hi => ?_⟩
    simpa [Option.isSome_iff_ne_none] using hlow i hi
  rw [fdalloc, hfind]
  rfl

/-- The standard descriptors are open. -/
def Standard (t : Fds F) : Prop := ∀ fd < 3, t fd ≠ none

theorem Standard.update (h : Standard t) (fd : Nat) (f : Obj F) : Standard (update t fd (some f)) := by
  intro i hi
  rcases eq_or_ne i fd with rfl | hne
  · rw [update_self]
    exact Option.some_ne_none f
  · rw [update_of_ne hne]
    exact h i hi

/-- `close(fd); open(file, mode);` puts the file at `fd`. -/
theorem runs_redir {file : Word} {mode : Nat} {x : F} (h : Standard t) (hfd : fd < 3)
    (hopen : opens file mode = some x) :
    Proc.Runs opens q ⟨[.runcmd (.redir cmd file mode fd)], t, n⟩
      ⟨[.runcmd cmd], update t fd (some (.file x)), n⟩ := by
  have hlow : ∀ i < fd, update t fd none i ≠ none := by
    intro i hi
    rw [update_of_ne hi.ne]
    exact h i (hi.trans hfd)
  have halloc := fdalloc_eq (f := .file x) (update_self fd none t) hlow
    (hfd.trans (by decide))
  refine .tail (.tail (.tail .refl rfl) rfl) ?_
  simp [Proc.own, Proc.start, Call.run, hopen, halloc]

/-- The file that a redirection opens. -/
def Redir.obj (opens : Word → Nat → Option F) (r : Redir) : Option (Obj F) :=
  (opens r.file r.mode).map .file

/-- The descriptors that a command with redirections runs with: the first one is done last. -/
def table (opens : Word → Nat → Option F) (t : Fds F) (rs : List Redir) : Fds F :=
  rs.foldr (fun r t => update t r.fd (r.obj opens)) t

theorem runs_wrap (h : Standard t)
    (hrs : ∀ r ∈ rs, r.fd < 2 ∧ (opens r.file r.mode).isSome) :
    Proc.Runs opens q ⟨[.runcmd (wrap cmd rs)], t, n⟩ ⟨[.runcmd cmd], table opens t rs, n⟩ := by
  induction rs using List.reverseRecOn generalizing t with
  | nil => exact .refl
  | append_singleton rs r ih =>
    obtain ⟨hfd, hopen⟩ := hrs r (List.mem_append_right rs List.mem_cons_self)
    obtain ⟨x, hx⟩ := Option.isSome_iff_exists.mp hopen
    have hinner := ih (h.update r.fd (.file x)) fun r hr => hrs r (List.mem_append_left _ hr)
    have htable : table opens t (rs ++ [r]) =
        table opens (update t r.fd (some (.file x))) rs := by
      rw [table, List.foldr_append]
      simp [table, Redir.obj, hx]
    rw [wrap_append, htable]
    exact (runs_redir h (hfd.trans (by decide)) hx).trans hinner

/-- The first and the last redirection of a descriptor on the line. -/
def first (fd : Nat) (rs : List Redir) : Option Redir := rs.find? fun r => r.fd = fd

def last (fd : Nat) (rs : List Redir) : Option Redir := rs.reverse.find? fun r => r.fd = fd

theorem table_eq (fd : Nat) :
    table opens t rs fd = (first fd rs).elim (t fd) (Redir.obj opens) := by
  induction rs with
  | nil => rfl
  | cons r rs ih =>
    show update (table opens t rs) r.fd (r.obj opens) fd = _
    rw [first, List.find?_cons]
    by_cases hr : r.fd = fd
    · subst hr
      simp
    · rw [update_of_ne (Ne.symm hr), ih]
      simp [hr, first]

theorem first_eq_none : first fd rs = none ↔ last fd rs = none := by
  simp [first, last]

/-- The descriptors as one would read them off the line: the last redirection of a descriptor
    holds, and a descriptor without one is unchanged. -/
def Intended (opens : Word → Nat → Option F) (t : Fds F) (rs : List Redir) (u : Fds F) : Prop :=
  ∀ fd, u fd = (last fd rs).elim (t fd) (Redir.obj opens)

theorem table_intended_iff : Intended opens t rs (table opens t rs) ↔
    ∀ fd, (first fd rs).map (Redir.obj opens) = (last fd rs).map (Redir.obj opens) := by
  refine forall_congr' fun fd => ?_
  rw [table_eq]
  cases hf : first fd rs with
  | none => simp [first_eq_none.mp hf]
  | some r =>
    cases hl : last fd rs with
    | none => exact absurd (first_eq_none.mpr hl) (by rw [hf]; exact Option.some_ne_none r)
    | some r' => simp

/-! ## From the line to the command -/

/-- The tokens of a simple or parenthesised command, what it runs, and its redirections as they are
    written. -/
inductive Written : List Tok → Cmd → List Redir → Prop
  | simple {us vs : List Tok} {ws : List Word} {rs rs' : List Redir} (redirs : Redirs us rs)
      (args : Args vs ws rs') (few : ws.length < MAXARGS) :
      Written (us ++ vs) (.exec ws) (rs ++ rs')
  | block {us vs : List Tok} {cmd : Cmd} {rs : List Redir} (line : Derives .line us cmd)
      (redirs : Redirs vs rs) : Written (.lpar :: (us ++ .rpar :: vs)) cmd rs

theorem Written.derives {us : List Tok} (h : Written us cmd rs) :
    Derives .exec us (wrap cmd rs) := by
  cases h with
  | simple redirs args few => exact .simple redirs args few
  | block line redirs => exact .block line redirs

theorem Redirs.fd_lt {us : List Tok} (h : Redirs us rs) : ∀ r ∈ rs, r.fd < 2 := by
  induction h with
  | nil => exact fun r hr => absurd hr List.not_mem_nil
  | @cons t w r us rs op rest ih =>
    refine List.forall_mem_cons.mpr ⟨?_, ih⟩
    cases t with
    | lt => cases op; exact Nat.zero_lt_two
    | gt => cases op; exact Nat.one_lt_two
    | gtgt => cases op; exact Nat.one_lt_two
    | _ => cases op

theorem Args.fd_lt {us : List Tok} {ws : List Word} (h : Args us ws rs) : ∀ r ∈ rs, r.fd < 2 := by
  induction h with
  | nil => exact fun r hr => absurd hr List.not_mem_nil
  | cons redirs rest ih => exact List.forall_mem_append.mpr ⟨redirs.fd_lt, ih⟩

theorem Written.fd_lt {us : List Tok} (h : Written us cmd rs) : ∀ r ∈ rs, r.fd < 2 := by
  cases h with
  | simple redirs args few => exact List.forall_mem_append.mpr ⟨redirs.fd_lt, args.fd_lt⟩
  | block line redirs => exact redirs.fd_lt

theorem runs_written {line : Line} {s fuel : Nat} {us vs : List Tok} (h : Written us cmd rs)
    (hat : At line s (us ++ vs)) (hvs : EndsAt (follow .exec) vs)
    (hfuel : 4 * (us ++ vs).length + need .exec ≤ fuel) (ht : Standard t)
    (hopen : ∀ r ∈ rs, (opens r.file r.mode).isSome) :
    ∃ c s', parseexec line fuel s = .ok (c, s') ∧
      Proc.Runs opens q ⟨[.runcmd c], t, n⟩ ⟨[.runcmd cmd], table opens t rs, n⟩ := by
  obtain ⟨s', hparse, -⟩ := parse_complete h.derives hvs hat hfuel
  exact ⟨wrap cmd rs, s', hparse, runs_wrap ht fun r hr => ⟨h.fd_lt r hr, hopen r hr⟩⟩

/-- A command with redirections, from the line to where `runcmd` is called on the command itself.
    The last redirection of each descriptor holds if and only if the first one opens the same file.
    -/
theorem redirections_iff (opens : Word → Nat → Option F) (q : Name) (n : Nat) {line : Line}
    {s fuel : Nat} {us vs : List Tok} (h : Written us cmd rs)
    (hat : At line s (us ++ vs)) (hvs : EndsAt (follow .exec) vs)
    (hfuel : 4 * (us ++ vs).length + need .exec ≤ fuel) (ht : Standard t)
    (hopen : ∀ r ∈ rs, (opens r.file r.mode).isSome) :
    ∃ c s' u, parseexec line fuel s = .ok (c, s') ∧
      Proc.Runs opens q ⟨[.runcmd c], t, n⟩ ⟨[.runcmd cmd], u, n⟩ ∧
      (Intended opens t rs u ↔
        ∀ fd, (first fd rs).map (Redir.obj opens) = (last fd rs).map (Redir.obj opens)) := by
  obtain ⟨c, s', hparse, hruns⟩ := runs_written h hat hvs hfuel ht hopen
  exact ⟨c, s', _, hparse, hruns, table_intended_iff⟩

end

/-- Descriptors 0, 1 and 2 refer to the console, which the word at 9 stands for. -/
def console : Fds Word := fun fd => if fd < 3 then some (.file ⟨9, 9⟩) else none

theorem console_standard : Standard console := by
  intro fd hfd
  rw [console, if_pos hfd]
  exact Option.some_ne_none _

/-- `c>a` -/
def once : Line := ⟨[99, 62, 97], by decide⟩

theorem redirections_iff_once : ∃ c s' u, parseexec once 20 0 = .ok (c, s') ∧
    Proc.Runs (fun w _ => some w) [] ⟨[.runcmd c], console, 0⟩ ⟨[.runcmd (.exec [⟨0, 1⟩])], u, 0⟩ ∧
    Intended (fun w _ => some w) console [⟨⟨2, 3⟩, 0x601, 1⟩] u := by
  have hwritten : Written [.word ⟨0, 1⟩, .gt, .word ⟨2, 3⟩] (.exec [⟨0, 1⟩]) [⟨⟨2, 3⟩, 0x601, 1⟩] :=
    .simple (.nil : Redirs [] []) (.cons (.cons rfl .nil) (.nil : Args [] [] [])) (by decide)
  have hat : At once 0 ([.word ⟨0, 1⟩, .gt, .word ⟨2, 3⟩] ++ []) :=
    ⟨Nat.zero_le _, by decide +kernel⟩
  obtain ⟨c, s', u, hparse, hruns, hiff⟩ := redirections_iff (fun w _ => some w) [] 0 hwritten hat
    (.inl rfl) (show _ ≤ 20 by decide) console_standard fun _ _ => rfl
  refine ⟨c, s', u, hparse, hruns, hiff.mpr fun fd => ?_⟩
  by_cases hfd : 1 = fd <;> simp [first, last, hfd]

/-- `c>a>b` -/
def twice : Line := ⟨[99, 62, 97, 62, 98], by decide⟩

/-- `c` runs with descriptor 1 on `a`. -/
theorem first_redirection_stays : ∃ c s' u, parseexec twice 30 0 = .ok (c, s') ∧
    Proc.Runs (fun w _ => some w) [] ⟨[.runcmd c], console, 0⟩ ⟨[.runcmd (.exec [⟨0, 1⟩])], u, 0⟩ ∧
    u 1 = some (.file ⟨2, 3⟩) := by
  let rs : List Redir := [⟨⟨2, 3⟩, 0x601, 1⟩, ⟨⟨4, 5⟩, 0x601, 1⟩]
  refine ⟨wrap (.exec [⟨0, 1⟩]) rs, 5, table (fun w _ => some w) console rs, rfl,
    runs_wrap console_standard ?_, rfl⟩
  simp [rs]

end Xv6.Shell
