import Xv6.Shell.Runcmd

/-!
# Processes that execute `runcmd`

The processes that come from one call of `runcmd`, interleaved in any way. A program that `exec` has
started makes any calls. `fork` and `exec` succeed.

Two facts hold in every state. A name that a process has not given yet is not in use (`Named`): this
is what makes pipes and processes of different origin different. And where a process calls `runcmd`,
descriptors 0, 1 and 2 are open (`Leads`).
-/

namespace Xv6.Shell

open Function

section

variable {F : Type}

/-- The processes, and which of them have exited and have not been waited for. -/
structure Sys (F : Type) where
  procs : Name → Option (Proc F)
  zombie : Name → Bool

/-- What a process `q` can do next: its own record after the step (`none` if it exits), that of a
    new child, and the zombies. -/
inductive Act (z : Name → Bool) (q : Name) (a : Proc F) :
    Option (Proc F) → Option (Proc F) → (Name → Bool) → Prop
  | own {opens : Word → Nat → Option F} {b : Proc F} (does : a.own opens q = some b) :
      Act z q a (some b) none z
  | fork {pre : List Call} {cmd : Cmd} {code : List Stmt} (next : a.code = .fork pre cmd :: code) :
      Act z q a (some { a with code := code, made := a.made + 1 })
        (some ⟨pre.map .call ++ [.runcmd cmd], a.fds, 0⟩) z
  | wait {code : List Stmt} {i : Nat} (next : a.code = .wait :: code) (child : z (i :: q) = true) :
      Act z q a (some { a with code := code }) none (update z (i :: q) false)
  | exit {code : List Stmt} (next : a.code = .exit :: code) :
      Act z q a none none (update z q true)
  | userCall {opens : Word → Nat → Option F} {c : Call} {t : Fds F} (next : a.code = [.user])
      (does : c.run opens a.fds = some t) : Act z q a (some { a with fds := t }) none z
  | userPipe {p0 p1 : Nat} {t : Fds F} (next : a.code = [.user])
      (does : pipe a.fds (a.made :: q) = some (p0, p1, t)) :
      Act z q a (some { a with fds := t, made := a.made + 1 }) none z
  | userFork (next : a.code = [.user]) :
      Act z q a (some { a with made := a.made + 1 }) (some { a with made := 0 }) z
  | userExit (next : a.code = [.user]) : Act z q a none none (update z q true)

/-- The records after a step of `q`, which has given `made` names. -/
def after (procs : Name → Option (Proc F)) (q : Name) (made : Nat) (o c : Option (Proc F)) :
    Name → Option (Proc F) :=
  fun x => if x = q then o else if x = made :: q ∧ c.isSome then c else procs x

inductive Step : Sys F → Sys F → Prop
  | mk {s : Sys F} {q : Name} {a : Proc F} {o c : Option (Proc F)} {z : Name → Bool}
      (live : s.procs q = some a) (act : Act s.zombie q a o c z) :
      Step s ⟨after s.procs q a.made o c, z⟩

/-- A process that is about to execute `runcmd(cmd)` with what it has inherited, and no other. -/
def init (cmd : Cmd) (t : Nat → Option F) : Sys F where
  procs q := if q = [] then some ⟨[.runcmd cmd], fun fd => (t fd).map .file, 0⟩ else none
  zombie _ := false

/-! ## What a step changes -/

/-- The pipe that an end belongs to. -/
def Obj.pipe? : Obj F → Option Name
  | .file _ => none
  | .readEnd p => some p
  | .writeEnd p => some p

variable {z z' : Name → Bool} {q x : Name} {a b : Proc F} {o c : Option (Proc F)} {t u : Fds F}
  {f : Obj F} {fd n m p0 p1 : Nat} {name : Name} {procs : Name → Option (Proc F)}

theorem fdalloc_some (h : fdalloc t f = some (fd, u)) :
    t fd = none ∧ (∀ i < fd, t i ≠ none) ∧ u = update t fd (some f) := by
  rw [fdalloc, Option.map_eq_some_iff] at h
  obtain ⟨i, hfind, heq⟩ := h
  obtain ⟨rfl, rfl⟩ := Prod.mk.inj heq
  obtain ⟨hnone, -, hlow⟩ := List.find?_range_eq_some.mp hfind
  refine ⟨Option.isNone_iff_eq_none.mp hnone, fun j hj hc => ?_, rfl⟩
  have hsome := hlow j hj
  rw [hc] at hsome
  exact Bool.false_ne_true hsome

/-- Where the two ends of a new pipe are. -/
theorem pipe_some (h : pipe t name = some (p0, p1, u)) :
    t p0 = none ∧ (∀ i < p0, t i ≠ none) ∧ t p1 = none ∧ p0 ≠ p1 ∧ (∀ i < p1, i ≠ p0 → t i ≠ none) ∧
      u = update (update t p0 (some (.readEnd name))) p1
        (some (.writeEnd name)) := by
  simp only [pipe, Option.bind_eq_bind, Option.bind_eq_some_iff, Option.some.injEq,
    Prod.mk.injEq, Prod.exists] at h
  obtain ⟨i, t₁, h₁, j, t₂, h₂, rfl, rfl, rfl⟩ := h
  obtain ⟨hfree, hlow, rfl⟩ := fdalloc_some h₁
  obtain ⟨hfree', hlow', rfl⟩ := fdalloc_some h₂
  have hne : i ≠ j := by
    rintro rfl
    rw [update_self] at hfree'
    exact absurd hfree' (Option.some_ne_none _)
  rw [update_of_ne hne.symm] at hfree'
  refine ⟨hfree, hlow, hfree', hne, fun k hk hki => ?_, rfl⟩
  have := hlow' k hk
  rwa [update_of_ne hki] at this

/-- What a call leaves in the table was there before, or is a file. -/
theorem run_objs {opens : Word → Nat → Option F} {call : Call} (h : call.run opens t = some u)
    (hu : u fd = some f) : (∃ x, f = .file x) ∨ ∃ i, t i = some f := by
  cases call with
  | close i =>
    cases h
    rcases eq_or_ne fd i with rfl | hne
    · rw [update_self] at hu
      exact absurd hu.symm (Option.some_ne_none f)
    · rw [update_of_ne hne] at hu
      exact .inr ⟨fd, hu⟩
  | dup i =>
    cases h
    cases hi : (t i).bind (fdalloc t) with
    | none =>
      rw [hi] at hu
      exact .inr ⟨fd, hu⟩
    | some x =>
      obtain ⟨k, v⟩ := x
      rw [hi] at hu
      obtain ⟨g, hg, halloc⟩ := Option.bind_eq_some_iff.mp hi
      obtain ⟨-, -, rfl⟩ := fdalloc_some halloc
      have hu : update t k (some g) fd = some f := hu
      rcases eq_or_ne fd k with rfl | hne
      · rw [update_self, Option.some.injEq] at hu
        exact .inr ⟨i, hu ▸ hg⟩
      · rw [update_of_ne hne] at hu
        exact .inr ⟨fd, hu⟩
  | open_ file mode =>
    obtain ⟨⟨k, v⟩, hx, rfl⟩ := Option.map_eq_some_iff.mp h
    obtain ⟨g, -, halloc⟩ := Option.bind_eq_some_iff.mp hx
    obtain ⟨-, -, rfl⟩ := fdalloc_some halloc
    have hu : update t k (some (.file g)) fd = some f := hu
    rcases eq_or_ne fd k with rfl | hne
    · rw [update_self, Option.some.injEq] at hu
      exact .inl ⟨g, hu.symm⟩
    · rw [update_of_ne hne] at hu
      exact .inr ⟨fd, hu⟩

theorem start_fds (cmd : Cmd) (q : Name) (a : Proc F) :
    ((a.start q cmd).fds = a.fds ∧ (a.start q cmd).made = a.made) ∨
      ∃ p0 p1, pipe a.fds (a.made :: q) = some (p0, p1, (a.start q cmd).fds) ∧
        (a.start q cmd).made = a.made + 1 := by
  cases cmd with
  | exec argv => cases argv <;> exact .inl ⟨rfl, rfl⟩
  | pipe l r =>
    rw [Proc.start]
    cases h : pipe a.fds (a.made :: q) with
    | none => exact .inl ⟨rfl, rfl⟩
    | some x => exact .inr ⟨x.1, x.2.1, rfl, rfl⟩
  | redir cmd file mode fd => exact .inl ⟨rfl, rfl⟩
  | list l r => exact .inl ⟨rfl, rfl⟩
  | back cmd => exact .inl ⟨rfl, rfl⟩

/-- What a process holds it has held before, or it is a file or an end of a new pipe. -/
def Gains (q : Name) (a b : Proc F) : Prop :=
  a.made ≤ b.made ∧ ∀ fd f, b.fds fd = some f →
    (∃ x, f = .file x) ∨ (∃ i, a.fds i = some f) ∨ (f.pipe? = some (a.made :: q) ∧ a.made < b.made)

theorem Gains.of_eq (hfds : b.fds = a.fds) (hmade : a.made ≤ b.made) : Gains q a b :=
  ⟨hmade, fun fd _ h => .inr (.inl ⟨fd, hfds ▸ h⟩)⟩

theorem Gains.of_pipe (h : pipe a.fds (a.made :: q) = some (p0, p1, b.fds))
    (hmade : b.made = a.made + 1) : Gains q a b := by
  obtain ⟨-, -, -, -, -, hu⟩ := pipe_some h
  have hlt : a.made < b.made := by omega
  refine ⟨hlt.le, fun fd f hf => ?_⟩
  rw [hu] at hf
  rcases eq_or_ne fd p1 with rfl | h1
  · rw [update_self, Option.some.injEq] at hf
    exact .inr (.inr ⟨hf ▸ rfl, hlt⟩)
  · rw [update_of_ne h1] at hf
    rcases eq_or_ne fd p0 with rfl | h0
    · rw [update_self, Option.some.injEq] at hf
      exact .inr (.inr ⟨hf ▸ rfl, hlt⟩)
    · rw [update_of_ne h0] at hf
      exact .inr (.inl ⟨fd, hf⟩)

theorem own_gains {opens : Word → Nat → Option F} (h : a.own opens q = some b) : Gains q a b := by
  unfold Proc.own at h
  split at h
  · next call code hcode =>
    split at h
    · next t hrun =>
      cases h
      exact ⟨le_rfl, fun fd f hf => (run_objs hrun hf).imp_right .inl⟩
    · cases h
      exact .of_eq rfl le_rfl
  · next cmd code hcode =>
    cases h
    rcases start_fds cmd q a with ⟨hfds, hmade⟩ | ⟨p0, p1, hpipe, hmade⟩
    · exact .of_eq hfds hmade.ge
    · exact .of_pipe hpipe hmade
  · exact absurd h.symm (Option.some_ne_none b)

/-- What a step can do: the process gains what `Gains` says, and a child starts with its descriptors. -/
theorem Act.spec (h : Act z q a o c z') :
    (∀ b, o = some b → Gains q a b) ∧
      ∀ k, c = some k → k.made = 0 ∧ k.fds = a.fds ∧ ∃ b, o = some b ∧ a.made < b.made := by
  cases h with
  | own does => exact ⟨fun b hb => own_gains (does.trans hb), fun k hk => by cases hk⟩
  | fork next =>
    refine ⟨fun b hb => ?_, fun k hk => ?_⟩
    · cases hb
      exact .of_eq rfl (Nat.le_succ _)
    · cases hk
      exact ⟨rfl, rfl, _, rfl, Nat.lt_succ_self _⟩
  | wait next child =>
    refine ⟨fun b hb => ?_, fun k hk => by cases hk⟩
    cases hb
    exact .of_eq rfl le_rfl
  | exit next => exact ⟨fun b hb => (by cases hb), fun k hk => (by cases hk)⟩
  | userCall next does =>
    refine ⟨fun b hb => ?_, fun k hk => by cases hk⟩
    cases hb
    exact ⟨le_rfl, fun fd f hf => (run_objs does hf).imp_right .inl⟩
  | userPipe next does =>
    refine ⟨fun b hb => ?_, fun k hk => by cases hk⟩
    cases hb
    exact .of_pipe does rfl
  | userFork next =>
    refine ⟨fun b hb => ?_, fun k hk => ?_⟩
    · cases hb
      exact .of_eq rfl (Nat.le_succ _)
    · cases hk
      exact ⟨rfl, rfl, _, rfl, Nat.lt_succ_self _⟩
  | userExit next => exact ⟨fun b hb => (by cases hb), fun k hk => (by cases hk)⟩

/-! ## Names -/

/-- No process and no pipe has a name that begins with `name` (as its maker, or the maker of its maker,
    and so on). -/
structure Unused (procs : Name → Option (Proc F)) (name : Name) : Prop where
  proc : ∀ x b, procs x = some b → ¬ name <:+ x
  pipe : ∀ x b fd f p, procs x = some b → b.fds fd = some f → f.pipe? = some p → ¬ name <:+ p

/-- The names that the processes have still to give are not in use. -/
def Named (procs : Name → Option (Proc F)) : Prop :=
  ∀ q a, procs q = some a → ∀ n, a.made ≤ n → Unused procs (n :: q)

theorem after_self : after procs q m o c q = o := if_pos rfl

theorem child_ne : m :: q ≠ q := fun h => absurd (congrArg List.length h) (by simp)

theorem after_child (b : Proc F) : after procs q m o (some b) (m :: q) = some b := by
  rw [after, if_neg child_ne, if_pos ⟨rfl, rfl⟩]

theorem after_other (hq : x ≠ q) (hc : x ≠ m :: q ∨ c = none) :
    after procs q m o c x = procs x := by
  rw [after, if_neg hq, if_neg]
  rintro ⟨hx, hsome⟩
  rcases hc with hc | rfl
  · exact hc hx
  · exact Bool.false_ne_true hsome

/-- Whose record it is after a step. -/
theorem after_some (h : after procs q m o c x = some b) :
    (x = q ∧ o = some b) ∨ (x = m :: q ∧ c = some b) ∨ (x ≠ q ∧ procs x = some b) := by
  unfold after at h
  split at h
  · next hx => exact .inl ⟨hx, h⟩
  · next hx =>
    split at h
    · next hc => exact .inr (.inl ⟨hc.1, h⟩)
    · exact .inr (.inr ⟨hx, h⟩)

theorem not_suffix_self : ¬ (n :: q) <:+ q := fun h => absurd h.length_le (by simp)

theorem Unused.longer (h : Unused procs name) : Unused procs (n :: name) :=
  ⟨fun x b hx hs => h.proc x b hx ((List.suffix_cons n name).trans hs),
    fun x b fd f p hx hf hp hs => h.pipe x b fd f p hx hf hp ((List.suffix_cons n name).trans hs)⟩

/-- A name stays unused if it is not the next one that the process gives. -/
theorem Unused.step (h : Unused procs name) (hlive : procs q = some a) (hact : Act z q a o c z')
    (hne : (∃ b, c = some b) ∨ (∃ b, o = some b ∧ a.made < b.made) → ¬ name <:+ a.made :: q) :
    Unused (after procs q a.made o c) name := by
  obtain ⟨hown, hchild⟩ := hact.spec
  have hold : ∀ fd f p, a.fds fd = some f → f.pipe? = some p → ¬ name <:+ p :=
    fun fd f p => h.pipe q a fd f p hlive
  refine ⟨fun x b hx hs => ?_, fun x b fd f p hx hf hp hs => ?_⟩
  · rcases after_some hx with ⟨rfl, -⟩ | ⟨rfl, hc⟩ | ⟨-, hx⟩
    · exact h.proc x a hlive hs
    · exact hne (.inl ⟨b, hc⟩) hs
    · exact h.proc x b hx hs
  · rcases after_some hx with ⟨rfl, ho⟩ | ⟨rfl, hc⟩ | ⟨-, hx⟩
    · rcases (hown b ho).2 fd f hf with ⟨y, rfl⟩ | ⟨i, hi⟩ | ⟨hnew, hmade⟩
      · cases hp
      · exact hold i f p hi hp hs
      · obtain rfl := Option.some.inj (hp.symm.trans hnew)
        exact hne (.inr ⟨b, ho, hmade⟩) hs
    · rw [(hchild b hc).2.1] at hf
      exact hold fd f p hf hp hs
    · exact h.pipe x b fd f p hx hf hp hs

theorem Named.step {s s' : Sys F} (h : Named s.procs) (hs : Step s s') : Named s'.procs := by
  cases hs with
  | @mk q a o c z hlive hact =>
    obtain ⟨hown, hchild⟩ := hact.spec
    intro x b hx n hn
    rcases after_some hx with ⟨rfl, ho⟩ | ⟨rfl, hc⟩ | ⟨hne, hx⟩
    · -- the process itself has still to give the names from `b.made` on
      have hle := (hown b ho).1
      refine (h x a hlive n (hle.trans hn)).step hlive hact fun hgives hs => ?_
      have hlt : a.made < b.made := by
        rcases hgives with ⟨k, hk⟩ | ⟨b', hb', hlt⟩
        · obtain ⟨-, -, b', hb', hlt⟩ := hchild k hk
          rwa [← Option.some.inj (ho.symm.trans hb')] at hlt
        · rwa [← Option.some.inj (ho.symm.trans hb')] at hlt
      rcases List.suffix_cons_iff.mp hs with heq | hs
      · have := (List.cons.inj heq).1
        omega
      · exact not_suffix_self hs
    · -- a child has given no name yet
      refine ((h q a hlive a.made le_rfl).longer (n := n)).step hlive hact fun _ hs => ?_
      exact not_suffix_self hs
    · refine (h x b hx n hn).step hlive hact fun _ hs => ?_
      rcases List.suffix_cons_iff.mp hs with heq | hs
      · exact hne (List.cons.inj heq).2
      · exact (h x b hx n hn).proc q a hlive hs

/-- The makers of `name`, as far as they are there, have given it. -/
def Given (procs : Name → Option (Proc F)) (name : Name) : Prop :=
  ∀ n q a, (n :: q) <:+ name → procs q = some a → n < a.made

theorem Named.given (h : Named procs) (hx : procs x = some b) : Given procs x := by
  intro n q a hs hq
  by_contra hge
  exact (h q a hq n (not_lt.mp hge)).proc x b hx hs

theorem Given.step (h : Given procs name) (hlive : procs q = some a) (hact : Act z q a o c z') :
    Given (after procs q a.made o c) name := by
  intro n x b hs hx
  rcases after_some hx with ⟨rfl, ho⟩ | ⟨rfl, hc⟩ | ⟨-, hx⟩
  · exact (h n x a hs hlive).trans_le (hact.spec.1 b ho).1
  · have hlt := h a.made q a ((List.suffix_cons n (a.made :: q)).trans hs) hlive
    exact absurd hlt (lt_irrefl _)
  · exact h n x b hs hx

/-- A name that has been given is not given again. -/
theorem Given.ne_child (h : Given procs x) (hlive : procs q = some a) : x ≠ a.made :: q := by
  rintro rfl
  exact absurd (h a.made q a (List.suffix_refl _) hlive) (lt_irrefl _)

/-! ## Plumbing -/

/-- The descriptors after a `close` or a `dup`. -/
def Call.does (t : Fds F) : Call → Fds F
  | .close fd => update t fd none
  | .dup fd => ((t fd).bind (fdalloc t)).elim t Prod.snd
  | .open_ _ _ => t

def Call.Plain : Call → Prop
  | .open_ _ _ => False
  | _ => True

theorem run_plain {opens : Word → Nat → Option F} {call : Call} (h : call.Plain) (t : Fds F) :
    call.run opens t = some (call.does t) := by
  cases call with
  | close fd => rfl
  | dup fd => rfl
  | open_ file mode => exact h.elim

def calls (t : Fds F) (cs : List Call) : Fds F := cs.foldl Call.does t

/-- A descriptor that is not closed stays. -/
theorem calls_keep {cs : List Call} (hcs : .close fd ∉ cs) (h : t fd = some f) :
    calls t cs fd = some f := by
  induction cs generalizing t with
  | nil => exact h
  | cons call cs ih =>
    rw [List.mem_cons, not_or] at hcs
    refine ih hcs.2 ?_
    cases call with
    | close i =>
      rw [Call.does, update_of_ne fun hc => hcs.1 (by rw [hc])]
      exact h
    | dup i =>
      rw [Call.does]
      cases hi : (t i).bind (fdalloc t) with
      | none => exact h
      | some x =>
        obtain ⟨k, v⟩ := x
        obtain ⟨g, -, halloc⟩ := Option.bind_eq_some_iff.mp hi
        obtain ⟨hfree, -, rfl⟩ := fdalloc_some halloc
        have hne : fd ≠ k := by
          rintro rfl
          rw [hfree] at h
          exact Option.some_ne_none f h.symm
        show update t k (some g) fd = some f
        rw [update_of_ne hne]
        exact h
    | open_ file mode => exact h

/-- `close(i); dup(p);` with the descriptors below `i` open puts what is at `p` to `i`. -/
theorem dup_to {i p : Nat} (hp : t p = some f) (hlow : ∀ k < i, t k ≠ none) (hi : i < NOFILE)
    (hne : p ≠ i) :
    calls t [.close i, .dup p] = update t i (some f) := by
  have hlow' : ∀ k < i, update t i none k ≠ none := by
    intro k hk
    rw [update_of_ne hk.ne]
    exact hlow k hk
  have halloc := fdalloc_eq (f := f) (update_self i none t) hlow' hi
  show Call.does (update t i none) (.dup p) = _
  rw [Call.does, update_of_ne hne, hp, Option.bind_some, halloc, Option.elim_some,
    update_idem]

/-- What the two children of a `PIPE` and the parent do with the pipe. -/
theorem pipe_plumbing (ht : Standard t) (h : pipe t name = some (p0, p1, u)) :
    calls u [.close 1, .dup p1, .close p0, .close p1] =
        update t 1 (some (.writeEnd name)) ∧
      calls u [.close 0, .dup p0, .close p0, .close p1] =
        update t 0 (some (.readEnd name)) ∧
      calls u [.close p0, .close p1] = t := by
  obtain ⟨h0, -, h1, hne, -, rfl⟩ := pipe_some h
  have hge : ∀ p, t p = none → 3 ≤ p := fun p hp => by
    by_contra hlt
    exact ht p (by omega) hp
  have hp0 := hge p0 h0
  have hp1 := hge p1 h1
  set u := update (update t p0 (some (.readEnd name))) p1 (some (.writeEnd name))
  have hu0 : u p0 = some (.readEnd name) := by
    simp [u, update_of_ne hne]
  have hu1 : u p1 = some (.writeEnd name) := by
    simp [u]
  have hlow : ∀ k < 1, u k ≠ none := by
    intro k hk
    have := ht k (by omega)
    simpa [u, update_of_ne (show k ≠ p1 by omega),
      update_of_ne (show k ≠ p0 by omega)] using this
  have hclosed : update (update u p0 none) p1 none = t := by
    funext k
    by_cases hk1 : k = p1
    · rw [hk1, update_self, h1]
    · by_cases hk0 : k = p0
      · rw [hk0, update_of_ne hne, update_self, h0]
      · simp [u, hk1, hk0]
  have hchild : ∀ i f, i < 3 → update (update (update u i (some f)) p0 none)
      p1 none = update t i (some f) := by
    intro i f hi
    rw [update_comm (show i ≠ p0 by omega), update_comm (show i ≠ p1 by omega),
      hclosed]
  refine ⟨?_, ?_, hclosed⟩
  · show calls (calls u [.close 1, .dup p1]) [.close p0, .close p1] = _
    rw [dup_to hu1 hlow (by decide) (by omega)]
    exact hchild 1 _ (by omega)
  · show calls (calls u [.close 0, .dup p0]) [.close p0, .close p1] = _
    rw [dup_to hu0 (fun k hk => absurd hk (Nat.not_lt_zero k)) (by decide) (by omega)]
    exact hchild 0 _ (by omega)

/-! ## The standard descriptors -/

/-- The calls end with descriptors of which `P` holds. -/
def Ends (P : Fds F → Prop) : List Call → Fds F → Prop
  | [], t => P t
  | call :: cs, t => ∀ opens u, call.run opens t = some u → Ends P cs u

/-- Wherever the code calls `runcmd`, the standard descriptors are open. -/
def Leads : List Stmt → Fds F → Prop
  | .call c :: code, t => ∀ opens u, c.run opens t = some u → Leads code u
  | .fork pre _ :: code, t => Ends Standard pre t ∧ Leads code t
  | .wait :: code, t => Leads code t
  | .runcmd _ :: _, t => Standard t
  | _, _ => True

theorem ends_calls {P : Fds F → Prop} {cs : List Call} (hcs : ∀ call ∈ cs, call.Plain)
    (h : P (calls t cs)) : Ends P cs t := by
  induction cs generalizing t with
  | nil => exact h
  | cons call cs ih =>
    rw [List.forall_mem_cons] at hcs
    intro opens u hu
    rw [run_plain hcs.1, Option.some.injEq] at hu
    exact ih hcs.2 (hu ▸ h)

theorem leads_child {cs : List Call} {cmd : Cmd} (h : Ends Standard cs t) :
    Leads (cs.map .call ++ [.runcmd cmd]) t := by
  induction cs generalizing t with
  | nil => exact h
  | cons call cs ih => exact fun opens u hu => ih (h opens u hu)

/-- `close(fd)` and `open` leave the standard descriptors open. -/
theorem standard_reopen {opens : Word → Nat → Option F} {file : Word} {mode : Nat} (ht : Standard t)
    (h : (Call.open_ file mode).run opens (update t fd none) = some u) : Standard u := by
  obtain ⟨⟨k, v⟩, hx, rfl⟩ := Option.map_eq_some_iff.mp h
  obtain ⟨g, -, halloc⟩ := Option.bind_eq_some_iff.mp hx
  obtain ⟨hfree, hlow, rfl⟩ := fdalloc_some halloc
  intro i hi
  show update (update t fd none) k (some (.file g)) i ≠ none
  rcases eq_or_ne i k with rfl | hik
  · rw [update_self]
    exact Option.some_ne_none _
  · rw [update_of_ne hik]
    rcases eq_or_ne i fd with rfl | hifd
    · -- the descriptor closed is free, so the one allocated is not above it
      have hki : k < i := by
        by_contra hge
        exact hlow i (by omega) (update_self i none t)
      rw [update_of_ne hki.ne] at hfree
      exact absurd hfree (ht k (hki.trans hi))
    · rw [update_of_ne hifd]
      exact ht i hi

theorem plain_children : (∀ call ∈ [Call.close 1, .dup p1, .close p0, .close p1], call.Plain) ∧
    ∀ call ∈ [Call.close 0, .dup p0, .close p0, .close p1], call.Plain := by
  simp [Call.Plain]

theorem leads_start (ht : Standard a.fds) (q : Name) (cmd : Cmd) :
    Leads (a.start q cmd).code (a.start q cmd).fds := by
  cases cmd with
  | exec argv => cases argv <;> exact trivial
  | redir cmd file mode fd =>
    intro opens u hu opens' u' hu'
    cases hu
    exact standard_reopen ht hu'
  | pipe l r =>
    rw [Proc.start]
    cases h : pipe a.fds (a.made :: q) with
    | none => exact trivial
    | some x =>
      obtain ⟨p0, p1, u⟩ := x
      obtain ⟨hl, hr, -⟩ := pipe_plumbing ht h
      refine ⟨ends_calls plain_children.1 ?_, ends_calls plain_children.2 ?_,
        fun _ _ _ _ _ _ => trivial⟩
      · rw [hl]
        exact ht.update 1 _
      · rw [hr]
        exact ht.update 0 _
  | list l r => exact ⟨ht, ht⟩
  | back cmd => exact ⟨ht, trivial⟩

/-- Every process is at code that leads to `runcmd` with the standard descriptors. -/
def Standing (procs : Name → Option (Proc F)) : Prop :=
  ∀ q a, procs q = some a → Leads a.code a.fds

theorem Standing.step {s s' : Sys F} (h : Standing s.procs) (hs : Step s s') :
    Standing s'.procs := by
  cases hs with
  | @mk q a o c z hlive hact =>
    have ha := h q a hlive
    intro x b hx
    rcases after_some hx with ⟨rfl, ho⟩ | ⟨rfl, hc⟩ | ⟨-, hx⟩
    · cases hact with
      | own does =>
        cases ho
        unfold Proc.own at does
        split at does
        · next call code hcode =>
          rw [hcode] at ha
          split at does
          · next t hrun =>
            cases does
            exact ha _ t hrun
          · cases does
            exact trivial
        · next cmd code hcode =>
          rw [hcode] at ha
          cases does
          exact leads_start ha x cmd
        · cases does
      | fork next =>
        cases ho
        rw [next] at ha
        exact ha.2
      | wait next child =>
        cases ho
        rw [next] at ha
        exact ha
      | exit next => cases ho
      | userCall next does =>
        cases ho
        show Leads a.code _
        rw [next]
        exact trivial
      | userPipe next does =>
        cases ho
        show Leads a.code _
        rw [next]
        exact trivial
      | userFork next =>
        cases ho
        exact ha
      | userExit next => cases ho
    · cases hact with
      | fork next =>
        cases hc
        rw [next] at ha
        exact leads_child ha.1
      | userFork next =>
        cases hc
        exact ha
      | own does => cases hc
      | wait next child => cases hc
      | exit next => cases hc
      | userCall next does => cases hc
      | userPipe next does => cases hc
      | userExit next => cases hc
    · exact h x b hx

/-- The two facts hold in every state that can be reached. -/
theorem reach_facts {cmd : Cmd} {t : Nat → Option F} {s : Sys F} (ht : ∀ fd < 3, t fd ≠ none)
    (h : Relation.ReflTransGen Step (init cmd t) s) : Named s.procs ∧ Standing s.procs := by
  induction h with
  | refl =>
    have honly : ∀ x b, (init cmd t).procs x = some b →
        x = [] ∧ b = ⟨[.runcmd cmd], fun fd => (t fd).map .file, 0⟩ := by
      intro x b hx
      simp only [init] at hx
      split at hx
      · next hnil => exact ⟨hnil, (Option.some.inj hx).symm⟩
      · cases hx
    refine ⟨fun q a hq n _ => ⟨fun x b hx hs => ?_, fun x b fd f p hx hf hp _ => ?_⟩,
      fun q a hq => ?_⟩
    · rw [(honly x b hx).1] at hs
      exact absurd hs.length_le (by simp)
    · rw [(honly x b hx).2] at hf
      obtain ⟨y, -, rfl⟩ := Option.map_eq_some_iff.mp hf
      exact Option.some_ne_none p hp.symm
    · rw [(honly q a hq).2]
      intro fd hfd
      simpa using ht fd hfd
  | tail _ hs ih => exact ⟨ih.1.step hs, ih.2.step hs⟩

end

end Xv6.Shell
