import Xv6.Shell.Steps

/-!
# Pipelines

A pipeline is nested to the right, and every `PIPE` on the way is executed by a process of its own:
it makes a pipe, forks a process for the stage on the left, and one that goes on with the rest of the
pipeline. `Wired` says where these processes are at any time, from the one that starts the pipeline on.
The processes that are not at a stage yet are described from behind: the calls that they still have
to make turn their descriptors into those of the stage (`InPrelude`, `Maker.closing`). `Wired.step` is
the step lemma; the stages' descriptors and the holders of the write ends are read off it.
-/

namespace Xv6.Shell

open Function List

section

variable {F : Type}

/-! ## The processes of a pipeline -/

/-- The statement runs only commands that are smaller than `cmd`. -/
def Stmt.Below (cmd : Cmd) : Stmt → Prop
  | .fork _ cmd' => sizeOf cmd' < sizeOf cmd
  | .runcmd cmd' => sizeOf cmd' < sizeOf cmd
  | _ => True

def Below (cmd : Cmd) (code : List Stmt) : Prop := ∀ s ∈ code, s.Below cmd

/-- A process on its way to `runcmd(cmd)` with descriptors `u`. -/
def InPrelude (cmd : Cmd) (u : Fds F) (a : Proc F) : Prop :=
  ∃ cs : List Call, a.code = cs.map .call ++ [.runcmd cmd] ∧ (∀ c ∈ cs, c.Plain) ∧
    calls a.fds cs = u

/-- The process at `q`, if it is there, is on its way to the stage `cmd`, or has come to it. -/
def AtStage (procs : Name → Option (Proc F)) (cmd : Cmd) (q : Name) (u : Fds F) : Prop :=
  ∀ a, procs q = some a → InPrelude cmd u a ∨ Below cmd a.code

/-- Where the process `q` is that executes `PIPE`, and how many of its children it may have forked. -/
inductive Maker (l r : Cmd) (q : Name) (n : Nat) (t : Fds F) : Option (Proc F) → Nat → Prop
  | start : Maker l r q n t (some ⟨[.runcmd (.pipe l r)], t, n⟩) 0
  | piped {p0 p1 : Nat} {u : Fds F} (h : pipe t (n :: q) = some (p0, p1, u)) :
      Maker l r q n t (some ⟨pipeBody l r p0 p1, u, n + 1⟩) 0
  | forked {p0 p1 : Nat} {u : Fds F} (h : pipe t (n :: q) = some (p0, p1, u)) :
      Maker l r q n t (some ⟨(pipeBody l r p0 p1).tail, u, n + 2⟩) 1
  | closing {a : Proc F} {k : Nat} (cs : List Call) (ws : List Stmt)
      (code : a.code = cs.map .call ++ ws) (waits : ∀ s ∈ ws, s = .wait ∨ s = .exit)
      (plain : ∀ c ∈ cs, c.Plain) (fds : calls a.fds cs = t) : Maker l r q n t (some a) k
  | gone {k : Nat} : Maker l r q n t none k

/-- The descriptors of the two children. -/
def leftFds (t : Fds F) (q : Name) (n : Nat) : Fds F :=
  update t 1 (some (.writeEnd (n :: q)))

def rightFds (t : Fds F) (q : Name) (n : Nat) : Fds F :=
  update t 0 (some (.readEnd (n :: q)))

/-- A `PIPE`, without the process that goes on with the rest. -/
structure Node (procs : Name → Option (Proc F)) (l r : Cmd) (q : Name) (n : Nat) (t : Fds F) :
    Prop where
  maker : ∃ k, Maker l r q n t (procs q) k ∧ (k = 0 → Unused procs ((n + 1) :: q)) ∧
    (k ≤ 1 → Unused procs ((n + 2) :: q))
  left : AtStage procs l ((n + 1) :: q) (leftFds t q n)
  holders : ∀ x a fd, procs x = some a → a.fds fd = some (.writeEnd (n :: q)) →
    ((n + 1) :: q) <:+ x ∨ x = q ∨
      (x = (n + 2) :: q ∧ InPrelude r (rightFds t q n) a)

/-- The pipeline `cmd` that the process `q` has started with descriptors `t`, having given `n` names. -/
def Wired (procs : Name → Option (Proc F)) : Cmd → Name → Nat → Fds F → Prop
  | .pipe l r, q, n, t => Node procs l r q n t ∧
      (Unused procs ((n + 2) :: q) ∨
        (∃ a, procs ((n + 2) :: q) = some a ∧ a.made = 0 ∧
          InPrelude r (rightFds t q n) a) ∨
        (Given procs ((n + 2) :: q) ∧
          Wired procs r ((n + 2) :: q) 0 (rightFds t q n)))
  | cmd, q, _, t => AtStage procs cmd q t

/-! ## What the next statement does -/

variable {z z' : Name → Bool} {q x : Name} {a b : Proc F} {o k : Option (Proc F)} {t u : Fds F}
  {code : List Stmt} {call : Call} {cmd l r : Cmd} {n : Nat} {procs : Name → Option (Proc F)}

theorem Act.of_call (h : Act z q a o k z') (hcode : a.code = .call call :: code)
    (hplain : call.Plain) : o = some ⟨code, call.does a.fds, a.made⟩ ∧ k = none := by
  cases h with
  | own does =>
    simp only [Proc.own, hcode, run_plain hplain] at does
    exact ⟨does.symm ▸ rfl, rfl⟩
  | _ => simp_all

theorem Act.of_runcmd (h : Act z q a o k z') (hcode : a.code = .runcmd cmd :: code) :
    o = some (a.start q cmd) ∧ k = none := by
  cases h with
  | own does =>
    simp only [Proc.own, hcode] at does
    exact ⟨does.symm ▸ rfl, rfl⟩
  | _ => simp_all

theorem Act.of_fork {pre : List Call} (h : Act z q a o k z')
    (hcode : a.code = .fork pre cmd :: code) :
    o = some ⟨code, a.fds, a.made + 1⟩ ∧
      k = some ⟨pre.map .call ++ [.runcmd cmd], a.fds, 0⟩ := by
  cases h with
  | own does => simp only [Proc.own, hcode] at does; cases does
  | fork next =>
    obtain ⟨hhead, rfl⟩ := cons.inj (hcode.symm.trans next)
    cases hhead
    exact ⟨rfl, rfl⟩
  | _ => simp_all

theorem Act.of_waits (h : Act z q a o k z') (hcode : ∀ s ∈ a.code, s = .wait ∨ s = .exit) :
    k = none ∧ ∀ b, o = some b → b.made = a.made ∧ b.fds = a.fds ∧
      ∀ s ∈ b.code, s = .wait ∨ s = .exit := by
  cases h with
  | own does =>
    unfold Proc.own at does
    split at does
    · simp_all
    · simp_all
    · cases does
  | wait next child =>
    refine ⟨rfl, fun b hb => ?_⟩
    cases hb
    exact ⟨rfl, rfl, fun s hs => hcode s (next ▸ mem_cons_of_mem _ hs)⟩
  | exit next => exact ⟨rfl, fun b hb => (by cases hb)⟩
  | _ => simp_all

/-! ## Stages -/

theorem below_start (a : Proc F) (q : Name) (cmd : Cmd) : Below cmd (a.start q cmd).code := by
  cases cmd with
  | exec argv => cases argv <;> simp [Proc.start, Below, Stmt.Below]
  | redir cmd file mode fd => simp [Proc.start, Below, Stmt.Below]; omega
  | list l r => simp [Proc.start, Below, Stmt.Below]; omega
  | pipe l r =>
    rw [Proc.start]
    split
    · simp [pipeBody, Below, Stmt.Below]; omega
    · simp [Below, Stmt.Below]
  | back cmd => simp [Proc.start, Below, Stmt.Below]

theorem Below.trans {cmd' : Cmd} (h : Below cmd' code) (hle : sizeOf cmd' ≤ sizeOf cmd) :
    Below cmd code := by
  intro s hs
  have hb := h s hs
  cases s with
  | fork pre c => exact hb.trans_le hle
  | runcmd c => exact hb.trans_le hle
  | _ => trivial

theorem Below.act (h : Below cmd a.code) (hact : Act z q a (some b) k z') : Below cmd b.code := by
  have htail : ∀ s code, a.code = s :: code → Below cmd code := fun s code hs s' hs' =>
    h s' (hs ▸ mem_cons_of_mem _ hs')
  cases hact with
  | own does =>
    unfold Proc.own at does
    split at does
    · next call code hs =>
      split at does
      · cases does
        exact htail _ _ hs
      · cases does
        simp [Below, Stmt.Below]
    · next cmd' code hs =>
      cases does
      have hlt : sizeOf cmd' < sizeOf cmd := h (.runcmd cmd') (hs ▸ mem_cons_self)
      exact (below_start a q cmd').trans hlt.le
    · cases does
  | fork next => exact htail _ _ next
  | wait next child => exact htail _ _ next
  | userCall next does => exact h
  | userPipe next does => exact h
  | userFork next => exact h

theorem InPrelude.act (h : InPrelude cmd u a) (hact : Act z q a o k z') :
    (a.code = [.runcmd cmd] ∧ a.fds = u ∧ o = some (a.start q cmd) ∧ k = none) ∨
      ∃ b, o = some b ∧ k = none ∧ b.made = a.made ∧ InPrelude cmd u b := by
  obtain ⟨cs, hcode, hplain, hfds⟩ := h
  cases cs with
  | nil => exact .inl ⟨hcode, hfds, hact.of_runcmd hcode⟩
  | cons call cs =>
    rw [forall_mem_cons] at hplain
    obtain ⟨rfl, rfl⟩ := hact.of_call hcode hplain.1
    exact .inr ⟨_, rfl, rfl, rfl, cs, rfl, hplain.2, hfds⟩

theorem AtStage.step (h : AtStage procs cmd x u) (hlive : procs q = some a)
    (hact : Act z q a o k z') (hx : x ≠ a.made :: q ∨ k = none) :
    AtStage (after procs q a.made o k) cmd x u := by
  intro b hb
  by_cases hxq : x = q
  · subst hxq
    rw [after_self] at hb
    rcases h a hlive with hpre | hbelow
    · rcases hpre.act hact with ⟨-, -, ho, -⟩ | ⟨b', ho, -, -, hpre'⟩
      · obtain rfl := Option.some.inj (hb.symm.trans ho)
        exact .inr (below_start a x cmd)
      · obtain rfl := Option.some.inj (hb.symm.trans ho)
        exact .inl hpre'
    · subst hb
      exact .inr (hbelow.act hact)
  · rw [after_other hxq hx] at hb
    exact h b hb

/-! ## A step of a `PIPE` -/

/-- The pipes that `q` has still to make are not among the descriptors. -/
def Clean (t : Fds F) (q : Name) (n : Nat) : Prop :=
  ∀ fd f p, t fd = some f → f.pipe? = some p → ∀ i, n ≤ i → ¬ (i :: q) <:+ p

theorem Clean.right (h : Clean t q n) : Clean (rightFds t q n) ((n + 2) :: q) 0 := by
  intro fd f p hf hp i _ hs
  rcases eq_or_ne fd 0 with rfl | hne
  · rw [rightFds, update_self, Option.some.injEq] at hf
    subst hf
    cases hp
    exact absurd hs.length_le (by simp)
  · rw [rightFds, update_of_ne hne] at hf
    exact h fd f p hf hp (n + 2) (by omega) ((suffix_cons i _).trans hs)

theorem Clean.no_write (h : Clean t q n) (fd : Nat) : t fd ≠ some (.writeEnd (n :: q)) :=
  fun hf => h fd _ _ hf rfl n le_rfl (suffix_refl _)

theorem Clean.right_no_write (h : Clean t q n) (fd : Nat) :
    rightFds t q n fd ≠ some (.writeEnd (n :: q)) := by
  intro hf
  rcases eq_or_ne fd 0 with rfl | hne
  · rw [rightFds, update_self] at hf
    cases hf
  · rw [rightFds, update_of_ne hne] at hf
    exact h.no_write fd hf

theorem Maker.act {j : Nat} (h : Maker l r q n t (some a) j) (ht : Standard t)
    (hact : Act z q a o k z') :
    (k = none ∧ Maker l r q n t o j ∧ ∀ b, o = some b → b.made = a.made ∨ a.made = n) ∨
      (j = 0 ∧ a.made = n + 1 ∧ Maker l r q n t o 1 ∧
        ∃ b, k = some b ∧ InPrelude l (leftFds t q n) b) ∨
      (j = 1 ∧ a.made = n + 2 ∧ Maker l r q n t o 2 ∧
        ∃ b, k = some b ∧ b.made = 0 ∧ InPrelude r (rightFds t q n) b) := by
  cases h with
  | start =>
    obtain ⟨rfl, rfl⟩ := hact.of_runcmd rfl
    refine .inl ⟨rfl, ?_, fun _ _ => .inr rfl⟩
    rw [Proc.start]
    cases hp : pipe t (n :: q) with
    | none => exact .closing [] [.exit] rfl (by simp) (by simp) rfl
    | some x => exact .piped hp
  | piped hp =>
    obtain ⟨rfl, rfl⟩ := hact.of_fork rfl
    obtain ⟨hl, -, -⟩ := pipe_plumbing ht hp
    exact .inr (.inl ⟨rfl, rfl, .forked hp, _, rfl, _, rfl, plain_children.1, hl⟩)
  | @forked p0 p1 u hp =>
    obtain ⟨rfl, rfl⟩ := hact.of_fork rfl
    obtain ⟨-, hr, hclosed⟩ := pipe_plumbing ht hp
    refine .inr (.inr ⟨rfl, rfl, ?_, _, rfl, rfl, _, rfl, plain_children.2, hr⟩)
    exact .closing [.close p0, .close p1] [.wait, .wait, .exit] rfl (by simp) (by simp [Call.Plain])
      hclosed
  | closing cs ws hcode hwaits hplain hfds =>
    cases cs with
    | nil =>
      have hcode : a.code = ws := hcode
      obtain ⟨rfl, ho⟩ := hact.of_waits (hcode ▸ hwaits)
      refine .inl ⟨rfl, ?_, fun b hb => .inl (ho b hb).1⟩
      cases o with
      | none => exact .gone
      | some b =>
        obtain ⟨-, hb, hbcode⟩ := ho b rfl
        exact .closing [] b.code rfl hbcode hplain (hb ▸ hfds)
    | cons call cs =>
      rw [forall_mem_cons] at hplain
      obtain ⟨rfl, rfl⟩ := hact.of_call hcode hplain.1
      exact .inl ⟨rfl, .closing cs ws rfl hwaits hplain.2 hfds, fun b hb => .inl (by cases hb; rfl)⟩

/-- What the process that executes `PIPE` holds of the write end, it is going to close. -/
theorem Maker.closes {j fd : Nat} (h : Maker l r q n t (some a) j) (hclean : Clean t q n)
    (hfd : a.fds fd = some (.writeEnd (n :: q))) : .call (.close fd) ∈ a.code := by
  have hbody : ∀ {p0 p1 : Nat} {u : Fds F}, pipe t (n :: q) = some (p0, p1, u) →
      u fd = some (.writeEnd (n :: q)) → fd = p1 := by
    intro p0 p1 u hp hu
    obtain ⟨-, -, -, -, -, rfl⟩ := pipe_some hp
    by_contra hne
    rw [update_of_ne hne] at hu
    rcases eq_or_ne fd p0 with rfl | hne'
    · rw [update_self] at hu
      cases hu
    · rw [update_of_ne hne'] at hu
      exact hclean.no_write fd hu
  cases h with
  | start => exact absurd hfd (hclean.no_write fd)
  | piped hp =>
    obtain rfl := hbody hp hfd
    simp [pipeBody]
  | forked hp =>
    obtain rfl := hbody hp hfd
    simp [pipeBody]
  | closing cs ws hcode hwaits hplain hfds =>
    have hmem : .close fd ∈ cs := by
      by_contra hnot
      exact hclean.no_write fd (hfds ▸ calls_keep hnot hfd)
    rw [hcode]
    exact mem_append_left _ (mem_map_of_mem hmem)

theorem Unused.keep {i : Nat} (h : Unused procs (i :: x)) (hlive : procs q = some a)
    (hact : Act z q a o k z') (hne : i :: x ≠ a.made :: q) :
    Unused (after procs q a.made o k) (i :: x) := by
  refine h.step hlive hact fun _ hs => ?_
  rcases suffix_cons_iff.mp hs with heq | hs
  · exact hne heq
  · exact h.proc q a hlive hs

/-- The process that executes `PIPE` makes a step. -/
theorem Node.own_step (h : Node procs l r q n t) (ht : Standard t) (hlive : procs q = some a)
    (hact : Act z q a o k z') :
    Node (after procs q a.made o k) l r q n t ∧
      (Unused procs ((n + 2) :: q) → Unused (after procs q a.made o k) ((n + 2) :: q) ∨
        ∃ b, k = some b ∧ a.made = n + 2 ∧ b.made = 0 ∧ InPrelude r (rightFds t q n) b) := by
  obtain ⟨⟨j, hmaker, hl, hr⟩, hleft, hholders⟩ := h
  rw [hlive] at hmaker
  have hnames : ∀ {i i' : Nat}, i ≠ i' → i :: q ≠ i' :: q := fun hne hc => hne (cons.inj hc).1
  rcases hmaker.act ht hact with ⟨rfl, hm, hmade⟩ | ⟨rfl, hmade, hm, b, rfl, hb⟩ |
    ⟨rfl, hmade, hm, b, rfl, hmade', hb⟩
  · have hkeep : ∀ i, i ≠ n → Unused procs (i :: q) → Unused (after procs q a.made o none) (i :: q) := by
      intro i hi hu
      refine hu.step hlive hact ?_
      rintro (⟨b, hb⟩ | ⟨b, hb, hlt⟩) hs
      · cases hb
      · rcases hmade b hb with heq | heq
        · omega
        · rw [heq] at hs
          exact hnames hi (hs.eq_of_length rfl)
    refine ⟨⟨⟨j, by rwa [after_self], fun hj => hkeep _ (by omega) (hl hj),
      fun hj => hkeep _ (by omega) (hr hj)⟩, hleft.step hlive hact (.inr rfl), ?_⟩,
      fun hu => .inl (hkeep _ (by omega) hu)⟩
    intro y b fd hy hfd
    rcases after_some hy with ⟨rfl, -⟩ | ⟨-, hk⟩ | ⟨-, hy⟩
    · exact .inr (.inl rfl)
    · cases hk
    · exact hholders y b fd hy hfd
  · have hkeep := fun hu : Unused procs ((n + 2) :: q) =>
      hu.keep hlive hact (hmade ▸ hnames (by omega))
    refine ⟨⟨⟨1, by rwa [after_self], fun hj => absurd hj Nat.one_ne_zero,
      fun _ => hkeep (hr (Nat.zero_le 1))⟩, ?_, ?_⟩, fun hu => .inl (hkeep hu)⟩
    · intro b' hb'
      rw [← hmade, after_child] at hb'
      exact .inl (Option.some.inj hb' ▸ hb)
    · intro y b' fd hy hfd
      rcases after_some hy with ⟨rfl, -⟩ | ⟨rfl, -⟩ | ⟨-, hy⟩
      · exact .inr (.inl rfl)
      · exact .inl (hmade ▸ suffix_refl _)
      · exact hholders y b' fd hy hfd
  · refine ⟨⟨⟨2, by rwa [after_self], fun hj => absurd hj (by decide),
      fun hj => absurd hj (by decide)⟩, hleft.step hlive hact (.inl (hmade ▸ hnames (by omega))), ?_⟩,
      fun _ => .inr ⟨b, rfl, hmade, hmade', hb⟩⟩
    intro y b' fd hy hfd
    rcases after_some hy with ⟨rfl, -⟩ | ⟨rfl, hk⟩ | ⟨-, hy⟩
    · exact .inr (.inl rfl)
    · exact .inr (.inr ⟨by rw [hmade], Option.some.inj hk ▸ hb⟩)
    · exact hholders y b' fd hy hfd

/-- Another process makes a step. -/
theorem Node.other_step (h : Node procs l r x n t) (hgiven : Given procs x) (hclean : Clean t x n)
    (hlive : procs q = some a) (hact : Act z q a o k z') (hq : q ≠ x) :
    Node (after procs q a.made o k) l r x n t := by
  obtain ⟨⟨j, hmaker, hl, hr⟩, hleft, hholders⟩ := h
  have hchild : ∀ i, i :: x ≠ a.made :: q := fun i hc => hq (cons.inj hc).2.symm
  refine ⟨⟨j, ?_, fun hj => (hl hj).keep hlive hact (hchild _),
    fun hj => (hr hj).keep hlive hact (hchild _)⟩, hleft.step hlive hact (.inl (hchild _)), ?_⟩
  · rwa [after_other (Ne.symm hq) (.inl (hgiven.ne_child hlive))]
  intro y b fd hy hfd
  obtain ⟨hown, hkid⟩ := hact.spec
  rcases after_some hy with ⟨rfl, ho⟩ | ⟨rfl, hk⟩ | ⟨-, hy⟩
  · rcases (hown b ho).2 fd _ hfd with ⟨f, hf⟩ | ⟨i, hi⟩ | ⟨hname, -⟩
    · cases hf
    · rcases hholders y a i hlive hi with hs | heq | ⟨heq, hpre⟩
      · exact .inl hs
      · exact absurd heq hq
      · rcases hpre.act hact with ⟨-, hfds, -, -⟩ | ⟨b', ho', -, -, hpre'⟩
        · exact absurd (hfds ▸ hi) (hclean.right_no_write i)
        · exact .inr (.inr ⟨heq, Option.some.inj (ho.symm.trans ho') ▸ hpre'⟩)
    · exact absurd (Option.some.inj hname) (hchild n)
  · rw [(hkid b hk).2.1] at hfd
    rcases hholders q a fd hlive hfd with hs | heq | ⟨-, hpre⟩
    · exact .inl (hs.trans (suffix_cons _ _))
    · exact absurd heq hq
    · rcases hpre.act hact with ⟨-, -, -, hnone⟩ | ⟨-, -, hnone, -, -⟩
      · rw [hnone] at hk
        cases hk
      · rw [hnone] at hk
        cases hk
  · exact hholders y b fd hy hfd

theorem Wired.start (h : Named procs) (hq : procs q = some ⟨[.runcmd cmd], t, n⟩) :
    Wired procs cmd q n t := by
  have hstage : AtStage procs cmd q t := by
    intro a ha
    obtain rfl := Option.some.inj (ha.symm.trans hq)
    exact .inl ⟨[], rfl, by simp, rfl⟩
  cases cmd with
  | pipe l r =>
    have hunused : ∀ i, n ≤ i → Unused procs (i :: q) := h q _ hq
    refine ⟨⟨⟨0, hq ▸ .start, fun _ => hunused _ (Nat.le_succ n), fun _ => hunused _ (by omega)⟩,
      ?_, ?_⟩, .inl (hunused _ (by omega))⟩
    · exact fun a ha => absurd (suffix_refl _) ((hunused (n + 1) (Nat.le_succ n)).proc _ a ha)
    · exact fun x a fd hx hfd => absurd (suffix_refl _)
        ((hunused n le_rfl).pipe x a fd _ _ hx hfd rfl)
  | exec argv => exact hstage
  | redir cmd file mode fd => exact hstage
  | list l r => exact hstage
  | back cmd => exact hstage

theorem Standard.right (h : Standard t) : Standard (rightFds t q n) := h.update 0 _

/-- Every step keeps the pipeline wired. -/
theorem Wired.step (h : Wired procs cmd x n t) (hnamed : Named procs) (hgiven : Given procs x)
    (ht : Standard t) (hclean : Clean t x n) (hlive : procs q = some a) (hact : Act z q a o k z') :
    Wired (after procs q a.made o k) cmd x n t := by
  induction cmd generalizing x n t with
  | pipe l r _ ih =>
    obtain ⟨hnode, hrest⟩ := h
    have hnode' : Node (after procs q a.made o k) l r x n t ∧
        (Unused procs ((n + 2) :: x) → Unused (after procs q a.made o k) ((n + 2) :: x) ∨
          ∃ b, k = some b ∧ a.made :: q = (n + 2) :: x ∧ b.made = 0 ∧
            InPrelude r (rightFds t x n) b) := by
      by_cases hq : q = x
      · subst hq
        obtain ⟨hn, hu⟩ := hnode.own_step ht hlive hact
        refine ⟨hn, fun h => (hu h).imp_right ?_⟩
        rintro ⟨b, hk, hmade, hb⟩
        exact ⟨b, hk, by rw [hmade], hb⟩
      · refine ⟨hnode.other_step hgiven hclean hlive hact hq, fun h => .inl (h.keep hlive hact ?_)⟩
        exact fun hc => hq (cons.inj hc).2.symm
    refine ⟨hnode'.1, ?_⟩
    rcases hrest with hu | ⟨b, hb, hmade, hpre⟩ | ⟨hg, hw⟩
    · rcases hnode'.2 hu with hu' | ⟨b, rfl, hname, hmade, hpre⟩
      · exact .inl hu'
      · exact .inr (.inl ⟨b, hname ▸ after_child b, hmade, hpre⟩)
    · have hg := hnamed.given hb
      by_cases hq : q = (n + 2) :: x
      · subst hq
        obtain rfl := Option.some.inj (hlive.symm.trans hb)
        rcases hpre.act hact with ⟨hcode, hfds, -, -⟩ | ⟨b, rfl, -, hb', hpre'⟩
        · -- the prelude is over: this is the step into the rest of the pipeline
          have hstart : procs ((n + 2) :: x) = some ⟨[.runcmd r], rightFds t x n, 0⟩ := by
            rw [hlive, ← hcode, ← hfds, ← hmade]
          exact .inr (.inr ⟨hg.step hlive hact,
            ih (.start hnamed hstart) hg ht.right hclean.right⟩)
        · exact .inr (.inl ⟨b, after_self, hb'.trans hmade, hpre'⟩)
      · refine .inr (.inl ⟨b, ?_, hmade, hpre⟩)
        rwa [after_other (Ne.symm hq) (.inl (hg.ne_child hlive))]
    · exact .inr (.inr ⟨hg.step hlive hact, ih hw hg ht.right hclean.right⟩)
  | exec argv => exact AtStage.step h hlive hact (.inl (hgiven.ne_child hlive))
  | redir cmd file mode fd ih => exact AtStage.step h hlive hact (.inl (hgiven.ne_child hlive))
  | list l r ihl ihr => exact AtStage.step h hlive hact (.inl (hgiven.ne_child hlive))
  | back cmd ih => exact AtStage.step h hlive hact (.inl (hgiven.ne_child hlive))

/-! ## Stages, pipes and shells by their number -/

def stages : Cmd → List Cmd
  | .pipe l r => l :: stages r
  | cmd => [cmd]

/-- The process that runs stage `k` of the pipeline that `q` starts. -/
def stageName : Cmd → Name → Nat → Nat → Name
  | .pipe _ _, q, n, 0 => (n + 1) :: q
  | .pipe _ r, q, n, k + 1 => stageName r ((n + 2) :: q) 0 k
  | _, q, _, _ => q

/-- The pipe from stage `k` to the next one. -/
def pipeName : Cmd → Name → Nat → Nat → Name
  | .pipe _ r, q, n, k + 1 => pipeName r ((n + 2) :: q) 0 k
  | _, q, n, _ => n :: q

/-- The process that makes pipe `k`, or runs the last stage. -/
def shellName : Cmd → Name → Nat → Nat → Name
  | .pipe _ r, q, n, k + 1 => shellName r ((n + 2) :: q) 0 k
  | _, q, _, _ => q

theorem stageName_cases (cmd : Cmd) (q : Name) (n k : Nat) :
    (stages cmd = [cmd] ∧ stageName cmd q n k = q) ∨ ∃ i, n ≤ i ∧ (i :: q) <:+ stageName cmd q n k := by
  induction cmd generalizing q n k with
  | pipe l r _ ih =>
    refine .inr ?_
    cases k with
    | zero => exact ⟨n + 1, by omega, suffix_refl _⟩
    | succ k =>
      refine ⟨n + 2, by omega, ?_⟩
      rcases ih ((n + 2) :: q) 0 k with ⟨-, h⟩ | ⟨i, -, h⟩
      · exact ⟨[], h.symm⟩
      · exact (suffix_cons i _).trans h
  | _ => exact .inl ⟨rfl, rfl⟩

theorem pipeName_suffix (cmd : Cmd) (q : Name) (n k : Nat) :
    ∃ i, n ≤ i ∧ (i :: q) <:+ pipeName cmd q n k := by
  induction cmd generalizing q n k with
  | pipe l r _ ih =>
    cases k with
    | zero => exact ⟨n, le_rfl, suffix_refl _⟩
    | succ k =>
      obtain ⟨i, -, h⟩ := ih ((n + 2) :: q) 0 k
      exact ⟨n + 2, by omega, (suffix_cons i _).trans h⟩
  | _ => exact ⟨n, le_rfl, suffix_refl _⟩

theorem InPrelude.fds_eq (h : InPrelude cmd u a) (hcode : a.code = [.runcmd l]) :
    l = cmd ∧ a.fds = u := by
  obtain ⟨cs, hcs, -, hfds⟩ := h
  rw [hcode] at hcs
  cases cs with
  | nil => exact ⟨by simpa using hcs, hfds⟩
  | cons call cs => simp at hcs

/-- The descriptors of a process that comes to its stage. -/
theorem AtStage.fds_eq (h : AtStage procs cmd q u) (hq : procs q = some a)
    (hcode : a.code = [.runcmd cmd]) : a.fds = u := by
  rcases h a hq with hpre | hbelow
  · exact (hpre.fds_eq hcode).2
  · rw [hcode] at hbelow
    exact absurd (hbelow _ mem_cons_self) (lt_irrefl _)

/-- Stage `k` starts with these descriptors. -/
structure Wiring (cmd : Cmd) (q : Name) (n : Nat) (t : Fds F) (k : Nat) (u : Fds F) : Prop where
  input : u 0 = if k = 0 then t 0 else some (.readEnd (pipeName cmd q n (k - 1)))
  output : u 1 = if k + 1 = (stages cmd).length then t 1 else some (.writeEnd (pipeName cmd q n k))
  others : ∀ fd, 2 ≤ fd → u fd = t fd

theorem stages_pos (cmd : Cmd) : 0 < (stages cmd).length := by
  cases cmd <;> exact Nat.succ_pos _

theorem Wiring.last (hcmd : stages cmd = [cmd]) : Wiring cmd q n t 0 t :=
  ⟨rfl, by rw [hcmd]; rfl, fun _ _ => rfl⟩

theorem Wiring.left : Wiring (.pipe l r) q n t 0 (leftFds t q n) := by
  have hpos := stages_pos r
  refine ⟨update_of_ne Nat.zero_ne_one _ _, ?_, fun fd hfd =>
    update_of_ne (by omega) _ _⟩
  rw [stages, length_cons, if_neg (by omega)]
  exact update_self ..

theorem Wiring.right {k : Nat} (h : Wiring r ((n + 2) :: q) 0 (rightFds t q n) k u) :
    Wiring (.pipe l r) q n t (k + 1) u := by
  refine ⟨?_, ?_, fun fd hfd => ?_⟩
  · rw [h.input, if_neg (Nat.succ_ne_zero k), Nat.add_sub_cancel]
    cases k with
    | zero => exact if_pos rfl
    | succ k => exact if_neg (Nat.succ_ne_zero k)
  · rw [h.output, stages, length_cons]
    simp only [Nat.add_left_inj]
    exact if_congr Iff.rfl rfl rfl
  · rw [h.others fd hfd]
    exact update_of_ne (by omega) _ _

theorem AtStage.wiring {k : Nat} {c : Cmd} (h : AtStage procs cmd q t) (hcmd : stages cmd = [cmd])
    (hk : (stages cmd)[k]? = some c) (hq : procs q = some a) (hcode : a.code = [.runcmd c]) :
    Wiring cmd q n t k a.fds := by
  rw [hcmd] at hk
  cases k with
  | zero =>
    obtain rfl := Option.some.inj hk
    rw [h.fds_eq hq hcode]
    exact .last hcmd
  | succ k => cases hk

theorem Wired.wiring {k : Nat} {c : Cmd} (h : Wired procs cmd q n t) (hnamed : Named procs)
    (hk : (stages cmd)[k]? = some c) (hq : procs (stageName cmd q n k) = some a)
    (hcode : a.code = [.runcmd c]) : Wiring cmd q n t k a.fds := by
  induction cmd generalizing q n t k with
  | pipe l r _ ih =>
    obtain ⟨hnode, hrest⟩ := h
    cases k with
    | zero =>
      obtain rfl := Option.some.inj hk
      rw [hnode.left.fds_eq hq hcode]
      exact .left
    | succ k =>
      have hk : (stages r)[k]? = some c := hk
      have hq : procs (stageName r ((n + 2) :: q) 0 k) = some a := hq
      refine Wiring.right ?_
      rcases hrest with hu | ⟨b, hb, hmade, hpre⟩ | ⟨-, hw⟩
      · rcases stageName_cases r ((n + 2) :: q) 0 k with ⟨-, hname⟩ | ⟨i, -, hname⟩
        · exact absurd ⟨[], hname.symm⟩ (hu.proc _ a hq)
        · exact absurd ((suffix_cons i _).trans hname) (hu.proc _ a hq)
      · rcases stageName_cases r ((n + 2) :: q) 0 k with ⟨hr, hname⟩ | ⟨i, -, hname⟩
        · rw [hname] at hq
          have hstage : AtStage procs r ((n + 2) :: q) (rightFds t q n) := by
            intro b' hb'
            obtain rfl := Option.some.inj (hb'.symm.trans hb)
            exact .inl hpre
          exact hstage.wiring hr hk hq hcode
        · exact absurd hname ((hnamed _ b hb i (hmade ▸ Nat.zero_le i)).proc _ a hq)
      · exact ih hw hk hq
  | _ => exact AtStage.wiring h rfl hk hq hcode

/-- Who holds the write end of pipe `k`. -/
theorem Wired.holders {k fd : Nat} (h : Wired procs cmd q n t) (hnamed : Named procs)
    (hclean : Clean t q n) (hk : k + 1 < (stages cmd).length) (hx : procs x = some a)
    (hfd : a.fds fd = some (.writeEnd (pipeName cmd q n k))) :
    stageName cmd q n k <:+ x ∨ (.call (.close fd) ∈ a.code ∧
      (x = shellName cmd q n k ∨ x = shellName cmd q n (k + 1))) := by
  induction cmd generalizing q n t k with
  | pipe l r _ ih =>
    obtain ⟨hnode, hrest⟩ := h
    cases k with
    | zero =>
      rcases hnode.holders x a fd hx hfd with hs | rfl | ⟨rfl, cs, hcode, -, hfds⟩
      · exact .inl hs
      · obtain ⟨j, hmaker, -, -⟩ := hnode.maker
        exact .inr ⟨(hx ▸ hmaker).closes hclean hfd, .inl rfl⟩
      · refine .inr ⟨?_, .inr (by cases r <;> rfl)⟩
        have hmem : .close fd ∈ cs := by
          by_contra hnot
          exact hclean.right_no_write fd (hfds ▸ calls_keep hnot hfd)
        rw [hcode]
        exact mem_append_left _ (mem_map_of_mem hmem)
    | succ k =>
      have hfd : a.fds fd = some (.writeEnd (pipeName r ((n + 2) :: q) 0 k)) := hfd
      obtain ⟨i, -, hname⟩ := pipeName_suffix r ((n + 2) :: q) 0 k
      rcases hrest with hu | ⟨b, hb, hmade, -⟩ | ⟨-, hw⟩
      · exact absurd ((suffix_cons i _).trans hname) (hu.pipe x a fd _ _ hx hfd rfl)
      · exact absurd hname
          ((hnamed _ b hb i (hmade ▸ Nat.zero_le i)).pipe x a fd _ _ hx hfd rfl)
      · exact ih hw hclean.right (Nat.lt_of_succ_lt_succ hk) hfd
  | _ => exact absurd hk (by simp [stages])

/-! ## Every run -/

theorem Named.clean (h : Named procs) (hq : procs q = some a) : Clean a.fds q a.made :=
  fun fd f p hf hp i hi => (h q a hq i hi).pipe q a fd f p hq hf hp

/-- From where the pipeline is started, it stays wired. -/
theorem wired_of_reach {s s' : Sys F} (hnamed : Named s.procs) (ht : Standard t)
    (hq : s.procs q = some ⟨[.runcmd cmd], t, n⟩) (h : Relation.ReflTransGen Step s s') :
    Named s'.procs ∧ Given s'.procs q ∧ Wired s'.procs cmd q n t := by
  have hclean : Clean t q n := hnamed.clean hq
  induction h with
  | refl => exact ⟨hnamed, hnamed.given hq, .start hnamed hq⟩
  | tail _ hs ih =>
    obtain ⟨hnamed', hgiven, hwired⟩ := ih
    refine ⟨hnamed'.step hs, ?_⟩
    cases hs with
    | mk hlive hact =>
      exact ⟨hgiven.step hlive hact, hwired.step hnamed' hgiven ht hclean hlive hact⟩

/-- The process has no `close` left to do. -/
def Closed (procs : Name → Option (Proc F)) (x : Name) : Prop :=
  ∀ a, procs x = some a → ∀ fd, .call (.close fd) ∉ a.code

/-- A pipeline that some process starts in a run of `runcmd`, at any later time. A process that comes
    to its stage has the ends of the pipes before and behind it as descriptors 0 and 1, and no others.
    Once the shells have closed their descriptors, the write end of a pipe is held by its stage and the
    processes forked from that, and by nobody when these have exited. -/
theorem pipeline_wired {cmd₀ : Cmd} {t₀ : Nat → Option F} {s s' : Sys F}
    (ht₀ : ∀ fd < 3, t₀ fd ≠ none) (hs : Relation.ReflTransGen Step (init cmd₀ t₀) s)
    (hq : s.procs q = some ⟨[.runcmd cmd], t, n⟩) (hs' : Relation.ReflTransGen Step s s') :
    (∀ k c a, (stages cmd)[k]? = some c → s'.procs (stageName cmd q n k) = some a →
      a.code = [.runcmd c] →
      a.fds 0 = (if k = 0 then t 0 else some (.readEnd (pipeName cmd q n (k - 1)))) ∧
      a.fds 1 = (if k + 1 = (stages cmd).length then t 1
        else some (.writeEnd (pipeName cmd q n k))) ∧
      ∀ fd f i, a.fds fd = some f → f.pipe? = some (pipeName cmd q n i) →
        (fd = 0 ∧ k ≠ 0) ∨ (fd = 1 ∧ k + 1 ≠ (stages cmd).length)) ∧
    ∀ k, k + 1 < (stages cmd).length → Closed s'.procs (shellName cmd q n k) →
      Closed s'.procs (shellName cmd q n (k + 1)) →
      (∀ x a fd, s'.procs x = some a → a.fds fd = some (.writeEnd (pipeName cmd q n k)) →
        stageName cmd q n k <:+ x) ∧
      ((∀ x, stageName cmd q n k <:+ x → s'.procs x = none) →
        ∀ x a fd, s'.procs x = some a → a.fds fd ≠ some (.writeEnd (pipeName cmd q n k))) := by
  obtain ⟨hnamed, hstanding⟩ := reach_facts ht₀ hs
  have ht : Standard t := hstanding q _ hq
  have hclean : Clean t q n := hnamed.clean hq
  obtain ⟨hnamed', -, hwired⟩ := wired_of_reach hnamed ht hq hs'
  have hfresh : ∀ fd f i, t fd = some f → f.pipe? ≠ some (pipeName cmd q n i) := by
    intro fd f i hf hp
    obtain ⟨j, hj, hname⟩ := pipeName_suffix cmd q n i
    exact hclean fd f _ hf hp j hj hname
  refine ⟨fun k c a hk ha hcode => ?_, fun k hk hc hc' => ?_⟩
  · obtain ⟨hin, hout, hothers⟩ := hwired.wiring hnamed' hk ha hcode
    refine ⟨hin, hout, fun fd f i hf hp => ?_⟩
    rcases lt_or_ge fd 2 with hlt | hge
    · rcases Nat.lt_succ_iff_lt_or_eq.mp hlt with h0 | rfl
      · obtain rfl := Nat.lt_one_iff.mp h0
        refine .inl ⟨rfl, fun hk0 => ?_⟩
        rw [hin, if_pos hk0] at hf
        exact hfresh 0 f i hf hp
      · refine .inr ⟨rfl, fun hlast => ?_⟩
        rw [hout, if_pos hlast] at hf
        exact hfresh 1 f i hf hp
    · rw [hothers fd hge] at hf
      exact absurd hp (hfresh fd f i hf)
  · have honly : ∀ x a fd, s'.procs x = some a →
        a.fds fd = some (.writeEnd (pipeName cmd q n k)) → stageName cmd q n k <:+ x := by
      intro x a fd hx hfd
      rcases hwired.holders hnamed' hclean hk hx hfd with hs | ⟨hclose, rfl | rfl⟩
      · exact hs
      · exact absurd hclose (hc a hx fd)
      · exact absurd hclose (hc' a hx fd)
    refine ⟨honly, fun hexit x a fd hx hfd => ?_⟩
    rw [hexit x (honly x a fd hx hfd)] at hx
    cases hx

/-- A child that is forked in a pipeline does come to its stage. -/
theorem reach_prelude {s : Sys F} {cs : List Call} (hplain : ∀ c ∈ cs, c.Plain)
    (hx : s.procs x = some ⟨cs.map .call ++ [.runcmd cmd], u, n⟩) :
    ∃ s', Relation.ReflTransGen Step s s' ∧ s'.procs x = some ⟨[.runcmd cmd], calls u cs, n⟩ ∧
      ∀ y ≠ x, s'.procs y = s.procs y := by
  induction cs generalizing s u with
  | nil => exact ⟨s, .refl, hx, fun _ _ => rfl⟩
  | cons call cs ih =>
    rw [forall_mem_cons] at hplain
    have hown : (⟨.call call :: (cs.map .call ++ [.runcmd cmd]), u, n⟩ : Proc F).own
        (fun _ _ => none) x = some ⟨cs.map .call ++ [.runcmd cmd], call.does u, n⟩ := by
      simp [Proc.own, run_plain hplain.1]
    obtain ⟨s', hs', hx', hsame⟩ := ih hplain.2 (s := ⟨after s.procs x n
      (some ⟨cs.map .call ++ [.runcmd cmd], call.does u, n⟩) none, s.zombie⟩) after_self
    exact ⟨s', .head (.mk hx (.own hown)) hs', hx',
      fun y hy => (hsame y hy).trans (after_other hy (.inr rfl))⟩

theorem reach_children {s : Sys F} {p0 p1 : Nat} (ht : Standard t)
    (hq : s.procs q = some ⟨[.runcmd (.pipe l r)], t, n⟩) (hp : pipe t (n :: q) = some (p0, p1, u)) :
    ∃ s', Relation.ReflTransGen Step s s' ∧
      s'.procs ((n + 1) :: q) = some ⟨[.runcmd l], leftFds t q n, 0⟩ ∧
      s'.procs ((n + 2) :: q) = some ⟨[.runcmd r], rightFds t q n, 0⟩ := by
  have hown : (⟨[.runcmd (.pipe l r)], t, n⟩ : Proc F).own (fun _ _ => none) q =
      some ⟨pipeBody l r p0 p1, u, n + 1⟩ := by
    simp [Proc.own, Proc.start, hp]
  have hne : (n + 1) :: q ≠ (n + 2) :: q := by simp
  -- the shell makes the pipe and the children before any of these runs
  have hforked : ∃ s₃, Relation.ReflTransGen Step s s₃ ∧
      s₃.procs ((n + 1) :: q) = some ⟨[.close 1, .dup p1, .close p0, .close p1].map .call ++
        [.runcmd l], u, 0⟩ ∧
      s₃.procs ((n + 2) :: q) = some ⟨[.close 0, .dup p0, .close p0, .close p1].map .call ++
        [.runcmd r], u, 0⟩ := by
    have h₁ : Relation.ReflTransGen Step s _ := .single (.mk hq (.own hown))
    have h₂ : Relation.ReflTransGen Step s _ := h₁.tail (.mk after_self (.fork rfl))
    exact ⟨_, h₂.tail (.mk after_self (.fork rfl)),
      (after_other child_ne (.inl hne)).trans (after_child _), after_child _⟩
  obtain ⟨s₃, h₃, hl, hr⟩ := hforked
  obtain ⟨s₄, h₄, hl, hsame⟩ := reach_prelude plain_children.1 hl
  obtain ⟨s₅, h₅, hr, hsame'⟩ := reach_prelude plain_children.2 ((hsame _ hne.symm).trans hr)
  refine ⟨s₅, h₃.trans (h₄.trans h₅), ?_, ?_⟩
  · rw [hsame' _ hne, hl, (pipe_plumbing ht hp).1]
    rfl
  · rw [hr, (pipe_plumbing ht hp).2.1]
    rfl

end

/-- `a | b`, with the console as descriptors 0, 1 and 2: `a` writes to the pipe and `b` reads. -/
theorem pipeline_wired_two : ∃ (s : Sys Unit) (a b : Proc Unit),
    Relation.ReflTransGen Step
      (init (.pipe (.exec [⟨0, 1⟩]) (.exec [⟨2, 3⟩])) fun fd => if fd < 3 then some () else none) s ∧
    s.procs [1] = some a ∧ a.fds 0 = some (.file ()) ∧ a.fds 1 = some (.writeEnd [0]) ∧
    s.procs [2] = some b ∧ b.fds 0 = some (.readEnd [0]) ∧ b.fds 1 = some (.file ()) := by
  let cmd : Cmd := .pipe (.exec [⟨0, 1⟩]) (.exec [⟨2, 3⟩])
  let t₀ : Nat → Option Unit := fun fd => if fd < 3 then some () else none
  let t : Fds Unit := fun fd => (t₀ fd).map .file
  have ht₀ : ∀ fd < 3, t₀ fd ≠ none := fun fd hfd => by simp [t₀, hfd]
  have ht : Standard t := fun fd hfd => by simpa [t] using ht₀ fd hfd
  have hq : (init cmd t₀).procs [] = some ⟨[.runcmd cmd], t, 0⟩ := rfl
  obtain ⟨s, hs, hl, hr⟩ := reach_children ht hq rfl
  have hleft := (pipeline_wired ht₀ .refl hq hs).1 0 _ _ rfl hl rfl
  have hright := (pipeline_wired ht₀ .refl hq hs).1 1 _ _ rfl hr rfl
  exact ⟨s, _, _, hs, hl, hleft.1, hleft.2.1, hr, hright.1, hright.2.1⟩

end Xv6.Shell
