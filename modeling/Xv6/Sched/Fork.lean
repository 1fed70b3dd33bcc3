import Xv6.Sched.Sleep

/-!
# `fork`, `exit` and `wait`

The steps that make and end processes. Each changes one entry of the process table and possibly the
history; `Sys.Edit` is such a change, and what it means for the parts of the invariant is proved
once. The steps of `exit` and `wait` rely on `wait_lock`: whoever has found out something about
parents and children holds it, so no two of them are in the middle of it.
-/

namespace Xv6.Sched

open Lib
open Function (update update_eq_self update_of_ne update_self)

variable {n : Nat} {s s' : Sys n} {loc : Thread n → Ghost} {st st' : Stages n}
  {c : Fin n} {p q r x y np m : Nat} {pid : Int} {l : Lock} {ch : Chan} {H : Finset Lock}
  {σ σ' : Stage} {φ ψ : Phase} {z : Proc}

/-! ## One entry changes -/

/-- `s'` differs from `s` in one entry of the process table, and possibly in its history. -/
structure Sys.Edit (s s' : Sys n) (q : Nat) (z : Proc) : Prop where
  proc : s'.proc = update s.proc q z
  lock : s'.lock = s.lock
  cpu : s'.cpu = s.cpu
  sleeplock : s'.sleeplock = s.sleeplock
  inside : s'.inside = s.inside
  initproc : s'.initproc = s.initproc
  dozing : s'.dozing = s.dozing

theorem Sys.Edit.self (e : s.Edit s' q z) : s'.proc q = z := by rw [e.proc, update_self]

theorem Sys.Edit.ne (e : s.Edit s' q z) (h : y ≠ q) : s'.proc y = s.proc y := by
  rw [e.proc, update_of_ne h]

theorem Sys.Edit.inWait (e : s.Edit s' q z)
    (hleave : ∀ y, (st' (.inl y)).leave = (st (.inl y)).leave)
    (hz : z.state = .sleeping → (s.proc q).state = .sleeping ∧ z.chan = (s.proc q).chan)
    (h : InWait s' st' y ch) : InWait s st y ch := by
  by_cases hy : y = q
  · subst hy
    rw [InWait, hleave, e.self] at h
    refine h.imp_right fun hs => ?_
    obtain ⟨hs', hc⟩ := hz hs.1
    exact ⟨hs', hc.symm.trans hs.2⟩
  · exact h.congr (hleave y) (e.ne hy)

theorem Sys.Edit.reason (e : s.Edit s' q z) (hz : ∀ r, z.parent = some r → z.state = .zombie →
      (s.proc q).parent = some r ∧ (s.proc q).state = .zombie) (h : Reason s ch) :
    Reason s' ch := by
  cases ch with
  | proc r =>
    intro y hy hzo
    by_cases hyq : y = q
    · subst hyq
      rw [e.self] at hy hzo
      obtain ⟨hp, hzo⟩ := hz r hy hzo
      exact h y hp hzo
    · rw [e.ne hyq] at hy hzo
      exact h y hy hzo
  | sleeplock i =>
    rw [Reason, e.sleeplock]
    exact h
  | other => exact trivial

theorem Family.edit (h : Family s) (e : s.Edit s' q z) (hrange : z.state ≠ .unused → q < NPROC)
    (hinit : q = s.initproc → z.state.Live ∧ z.parent = none)
    (hfree : z.state = .unused → z.parent = none)
    (hlive : ∀ r, z.parent = some r → (s'.proc r).state.Live)
    (hno : ∀ x, (s.proc x).parent = some q → z.state.Live ∧ z.born = (s.proc q).born)
    (hhas : z.state ≠ .unused → z.state ≠ .used → q ≠ s.initproc → z.parent ≠ none)
    (horigin : ∀ r, z.parent = some r → z.forker = (s'.proc r).born ∨ r = s.initproc) :
    Family s' := by
  refine ⟨fun y hy => ?_, ?_, fun y hy => ?_, fun y r hy => ?_, fun y hu hd hi => ?_,
    fun y r hy => ?_⟩
  · by_cases hyq : y = q
    · subst hyq
      exact hrange (e.self ▸ hy)
    · rw [e.ne hyq] at hy
      exact h.range y hy
  · rw [e.initproc]
    by_cases hiq : s.initproc = q
    · rw [hiq, e.self]
      exact hinit hiq.symm
    · rw [e.ne hiq]
      exact h.init
  · by_cases hyq : y = q
    · subst hyq
      rw [e.self] at hy ⊢
      exact hfree hy
    · rw [e.ne hyq] at hy ⊢
      exact h.free y hy
  · by_cases hyq : y = q
    · subst hyq
      rw [e.self] at hy
      exact hlive r hy
    · rw [e.ne hyq] at hy
      by_cases hrq : r = q
      · subst hrq
        rw [e.self]
        exact (hno y hy).1
      · rw [e.ne hrq]
        exact h.live y r hy
  · rw [e.initproc] at hi
    by_cases hyq : y = q
    · subst hyq
      rw [e.self] at hu hd ⊢
      exact hhas hu hd hi
    · rw [e.ne hyq] at hu hd ⊢
      exact h.has y hu hd hi
  · rw [e.initproc]
    by_cases hyq : y = q
    · subst hyq
      rw [e.self] at hy ⊢
      exact horigin r hy
    · rw [e.ne hyq] at hy ⊢
      by_cases hrq : r = q
      · subst hrq
        rw [e.self, (hno y hy).2]
        exact h.origin y r hy
      · rw [e.ne hrq]
        exact h.origin y r hy

/-- Init is not a slot without a process. -/
theorem Family.not_init (h : Family s) (hq : ¬ (s.proc q).state.Live) : q ≠ s.initproc := by
  rintro rfl
  exact hq h.init.1

/-- A change that leaves alone parents and zombies. -/
structure Quiet (s : Sys n) (q : Nat) (z : Proc) : Prop where
  parent : z.parent = (s.proc q).parent
  before : (s.proc q).state ≠ .zombie
  after : z.state ≠ .zombie

/-- What another process relies on, if it is not about this entry, and not about parents and
    children unless these do not change. -/
theorem Phase.Fact.edit (h : φ.Fact s st y) (e : s.Edit s' q z) (hclaim : φ ≠ .claiming q)
    (hmake : φ.makes ≠ some q) (hwait : .wait ∉ φ.locks ∨ Quiet s q z)
    (hin : φ = .woken → ∀ x ch, InWait s' st' x ch → InWait s st x ch) : φ.Fact s' st' y := by
  have hinit := e.initproc
  have hquiet : .wait ∈ φ.locks → (∀ x, (s'.proc x).parent = (s.proc x).parent) ∧
      ∀ x, (s'.proc x).state = .zombie ↔ (s.proc x).state = .zombie := by
    intro hm
    obtain ⟨hp, hb, ha⟩ := hwait.resolve_left fun hn => hn hm
    refine ⟨fun x => ?_, fun x => ?_⟩
    · by_cases hx : x = q
      · subst hx
        rw [e.self, hp]
      · rw [e.ne hx]
    · by_cases hx : x = q
      · subst hx
        rw [e.self]
        exact ⟨fun hz => absurd hz ha, fun hz => absurd hz hb⟩
      · rw [e.ne hx]
  cases φ with
  | none | switched => exact trivial
  | claiming np =>
    rw [Phase.Fact, e.ne fun he => hclaim (congrArg _ he)]
    exact h
  | making np | adopted np =>
    rw [Phase.Fact, e.ne fun he => hmake (congrArg _ he)]
    exact h
  | woken =>
    obtain ⟨hparent, -⟩ := hquiet (Finset.mem_singleton_self _)
    simp only [Phase.Fact, hinit, hparent] at h ⊢
    exact ⟨h.1, h.2.1, fun r x hr hw => h.2.2 r x hr (hin rfl _ _ hw)⟩
  | exiting => simpa only [Phase.Fact, hinit] using h
  | contending i | vacant i | releasing i =>
    simpa only [Phase.Fact, e.sleeplock, e.inside] using h
  | _ =>
    obtain ⟨hparent, hzombie⟩ := hquiet (by simp [Phase.locks])
    simpa only [Phase.Fact, ne_eq, hinit, hparent, hzombie] using h

/-- A step that changes one entry. -/
theorem Inv.of_edit (h : Inv s loc) (hl : loc (.inl p) = ⟨H, σ⟩) (hσ : σ.leave = .no)
    (e : s.Edit s' q z)
    (hwf : Ghost.Wf (.inl p : Thread n) ⟨H, σ'⟩)
    (hcpus : Cpus s' (update (stages loc) (.inl p) σ'))
    (hwaits : Waits s' (update (stages loc) (.inl p) σ')) (hfam : Family s')
    (hin : ∀ x ch, InWait s' (update (stages loc) (.inl p) σ') x ch →
      InWait s (stages loc) x ch)
    (hclaim : ∀ y, y ≠ p → (stages loc (.inl y)).phase ≠ .claiming q)
    (hmake : ∀ y, y ≠ p → (stages loc (.inl y)).phase.makes ≠ some q)
    (hwait : .wait ∈ H ∨ Quiet s q z)
    (hown : σ'.phase.Fact s' (update (stages loc) (.inl p) σ') p)
    (hmaker : ∀ np, σ'.phase.makes = some np → σ.phase.makes = some np ∨
      ∀ y, (stages loc (.inl y)).phase.makes ≠ some np) (hpast : Past s') :
    Inv s' (update loc (.inl p) ⟨H, σ'⟩) := by
  refine h.of_parts hl e.cpu e.lock hwf hcpus hwaits hfam
    (h.facts.update (fun y hy => ?_) (fun y hy => ?_) fun np hm => ?_) ?_ hpast
    fun y ch hd => ?_
  · have hyp : y ≠ p := fun he => hy (congrArg Sum.inl he.symm)
    refine (h.facts.fact y).edit e (hclaim y hyp) (hmake y hyp) (hwait.imp_left fun hm => ?_)
      fun _ => hin
    exact h.excl (by rw [hl]; exact hm) (by simp) (by simp) hyp
  · cases hy
    exact hown
  · rw [stages_self hl]
    exact hmaker np hm
  · refine ⟨fun y i hy => ?_, fun x y i => ?_⟩
    · rw [e.inside] at hy
      rw [e.sleeplock]
      exact h.sleeplocks.locked y i hy
    · rw [e.inside]
      exact h.sleeplocks.one x y i
  · rw [e.dozing] at hd
    have hyp : y ≠ p := by
      rintro rfl
      rw [h.not_dozing hl (fun ch => by rw [hσ]; simp)] at hd
      cases hd
    rw [update_of_ne (fun he => hyp (Sum.inl.inj he))]
    exact h.dozing y ch hd

/-- Nobody is about to claim a slot that is not free. -/
theorem Inv.not_claiming (h : Inv s loc) (hq : (s.proc q).state ≠ .unused) (y : Nat) :
    (stages loc (.inl y)).phase ≠ .claiming q := by
  intro he
  have := h.facts.fact y
  rw [he] at this
  exact hq this.1

/-- Nobody is making a process of a slot that is not in the middle of it. -/
theorem Inv.not_making (h : Inv s loc) (hq : (s.proc q).state ≠ .used) (y : Nat) :
    (stages loc (.inl y)).phase.makes ≠ some q := by
  intro he
  have hfact := h.facts.fact y
  cases hφ : (stages loc (.inl y)).phase with
  | making np =>
    rw [hφ] at he hfact
    cases he
    exact hq hfact.1
  | adopted np =>
    rw [hφ] at he hfact
    cases he
    exact hq hfact.1
  | _ =>
    rw [hφ] at he
    cases he

/-- Nobody else is making the process that this one is making. -/
theorem Inv.only_maker (h : Inv s loc) (hl : loc (.inl p) = ⟨H, σ⟩)
    (hp : σ.phase.makes = some q) (y : Nat) (hy : y ≠ p) :
    (stages loc (.inl y)).phase.makes ≠ some q :=
  fun he => hy (h.facts.maker y p q he (by rw [stages_self hl]; exact hp))

/-- The slot whose lock a process has is on no CPU, unless it is running there. -/
theorem Inv.not_on_cpu (h : Inv s loc) (hc : s.on (.inl p) = some c) (hl : loc (.inl p) = ⟨H, σ⟩)
    (hq : .proc q ∈ H) (hqp : q ≠ p) (hrun : (s.proc q).state ≠ .running) :
    (stages loc (.inl q)).leave = .no ∧ ∀ d, (s.cpu d).proc ≠ some q := by
  obtain ⟨hleave, hcpu⟩ := h.locked_out hc (by rw [hl]; exact hq)
    fun he => hqp (Sum.inl.inj he).symm
  refine ⟨hleave, fun d hd => ?_⟩
  rcases h.cpus.state d q (hcpu d hd fun _ he => by cases he) with hs | hs
  · exact hrun hs
  · rw [stages, hleave] at hs
    cases hs

theorem wf_fork (hφ : φ.locks = ∅) : Ghost.Wf (.inl p : Thread n) ⟨H, ⟨none, φ, .no⟩⟩ := by
  refine ⟨fun _ _ hlv => absurd rfl hlv, fun _ _ _ hw => ?_, ?_⟩
  · cases hw
  · rw [hφ]
    exact Finset.empty_subset _

/-- A step on a slot whose lock the process has and that is not running: it makes nobody wait, and
    no zombie. -/
theorem Inv.of_slot (h : Inv s loc) (hc : s.on (.inl p) = some c)
    (hl : loc (.inl p) = ⟨H, ⟨none, φ, .no⟩⟩) (hq : .proc q ∈ H) (hqp : q ≠ p)
    (hnot : (s.proc q).state ≠ .running) (e : s.Edit s' q z)
    (hz : z.state = .unused ∨ z.state = .used ∨ z.state = .runnable) (hφ : ψ.locks = ∅)
    (hfam : Family s') (hclaim : ∀ y, y ≠ p → (stages loc (.inl y)).phase ≠ .claiming q)
    (hmake : ∀ y, y ≠ p → (stages loc (.inl y)).phase.makes ≠ some q)
    (hwait : .wait ∈ H ∨ Quiet s q z)
    (hown : ψ.Fact s' (update (stages loc) (.inl p) ⟨none, ψ, .no⟩) p)
    (hmaker : ∀ np, ψ.makes = some np → φ.makes = some np ∨
      ∀ y, (stages loc (.inl y)).phase.makes ≠ some np) (hpast : Past s') :
    Inv s' (update loc (.inl p) ⟨H, ⟨none, ψ, .no⟩⟩) := by
  have hst := stages_self hl
  obtain ⟨hleave, -⟩ := h.not_on_cpu hc hl hq hqp hnot
  have hstate : z.state ≠ .running ∧ z.state ≠ .sleeping ∧ z.state ≠ .zombie := by
    rcases hz with hz | hz | hz <;> rw [hz] <;> decide
  have hlv : ∀ u, (update (stages loc) (.inl p) ⟨none, ψ, .no⟩ u).leave = (stages loc u).leave :=
    leave_update (by rw [hst])
  have hin : ∀ x ch, InWait s' (update (stages loc) (.inl p) ⟨none, ψ, .no⟩) x ch →
      InWait s (stages loc) x ch :=
    fun x ch => e.inWait (fun y => hlv (.inl y)) fun hs => absurd hs hstate.2.1
  refine h.of_edit hl rfl e (wf_fork hφ)
    (h.cpus.set e.cpu e.proc hnot hstate.1 (by rw [hleave]; simp) (fun y => hlv (.inl y))
      fun d => by rw [update_of_ne (by simp)])
    (h.waits.congr hin (fun _ ch _ => e.reason fun _ _ hs => absurd hs hstate.2.2) fun y => ?_)
    hfam hin hclaim hmake hwait hown hmaker hpast
  exact wake_update (by rw [hst]) _

/-! ## `fork` -/

/-- `allocproc` has found a free slot, and has its lock. -/
theorem Inv.claim (h : Inv s loc) (hc : s.on (.inl p) = some c)
    (hl : loc (.inl p) = ⟨{.proc q}, .rest⟩) (hq : (s.proc q).state = .unused) (hlt : q < NPROC) :
    Inv s (update loc (.inl p) ⟨{.proc q}, ⟨none, .claiming q, .no⟩⟩) := by
  refine h.rephase hl (Finset.Subset.refl _) ⟨hq, hlt, ?_⟩ fun np hm => ?_
  · rintro rfl
    rw [(h.running hc hl rfl).1] at hq
    cases hq
  · cases hm

/-- Where the search of `allocproc` ends. -/
def found : Option Nat → Ghost
  | none => ⟨∅, .rest⟩
  | some np => ⟨{.proc np}, ⟨none, .claiming np, .no⟩⟩

theorem allocprocFrom_keeps (m : Nat) : ∀ q, q + m ≤ NPROC →
    (allocprocFrom p q m).Keeps (spec n) (.inl p) ⟨∅, .rest⟩ fun o g => g = found o := by
  induction m with
  | zero => exact fun _ _ => rfl
  | succ m ih =>
    intro q hq
    refine .seq (acquire_keeps fun _ => ?_)
    refine .bind (Q := fun (b : Procstate) g =>
      g = ⟨{.proc q}, if b = .unused then ⟨none, .claiming q, .no⟩ else .rest⟩)
      (keeps_step fun s loc c h hl hc r s' hf => ⟨_, ?_, rfl⟩) ?_
    · cases hf
      split
      · next hu => exact h.claim hc hl hu (by omega)
      · rw [show (⟨{.proc q}, .rest⟩ : Ghost) = loc (.inl p) from hl.symm, update_eq_self]
        exact h
    · rintro b _ rfl
      by_cases hb : b = .unused
      · rw [if_pos hb, if_pos hb]
        exact rfl
      · rw [if_neg hb, if_neg hb]
        refine .seq (release_last wf_rest ?_)
        exact ih (q + 1) (by omega)

/-- A slot that was free is allocated, with a new number. -/
theorem Past.birth (h : Past s) (e : s.Edit s' q z) (hq : (s.proc q).state = .unused)
    (hz : z.state = .used) (hborn : z.born = s.births) (hb : s'.births = s.births + 1)
    (he : s'.exits = s.exits) (hr : s'.reaps = s.reaps) (hf : s'.frees = s.frees) : Past s' := by
  have hold : ∀ r ∈ s.reaps, r.exit.born < s.births :=
    fun r hm => h.before r.exit (h.reaps r hm).1
  refine ⟨?_, fun y hy => ?_, he ▸ h.exited, ?_, hr ▸ h.once, fun y hy => ?_, ?_,
    fun x y hx hy hxy => ?_, hf ▸ h.frees⟩
  · rw [he, hr]
    refine fun e' hm => (h.exits e' hm).imp_right fun hp => ?_
    have hne : e'.slot ≠ q := by
      intro hs
      have := hp.1
      rw [hs, hq] at this
      cases this
    rw [Pending, e.ne hne]
    exact hp
  · have hne : y ≠ q := by
      rintro rfl
      rw [e.self, hz] at hy
      cases hy
    rw [e.ne hne] at hy ⊢
    rw [he]
    exact h.zombie y hy
  · rw [he, hr, e.initproc]
    exact h.reaps
  · rw [hb, hr]
    by_cases hyq : y = q
    · subst hyq
      rw [e.self, hborn]
      exact ⟨Nat.lt_succ_self _, fun r hm => Nat.ne_of_lt (hold r hm)⟩
    · rw [e.ne hyq] at hy ⊢
      exact ⟨Nat.lt_succ_of_lt (h.alive y hy).1, (h.alive y hy).2⟩
  · rw [he, hb]
    exact fun e' hm => Nat.lt_succ_of_lt (h.before e' hm)
  · by_cases hxq : x = q
    · by_cases hyq : y = q
      · rw [hxq, hyq]
      · subst hxq
        rw [e.ne hyq] at hy hxy
        rw [e.self, hborn] at hxy
        exact absurd hxy.symm (Nat.ne_of_lt (h.alive y hy).1)
    · rw [e.ne hxq] at hx hxy
      by_cases hyq : y = q
      · subst hyq
        rw [e.self, hborn] at hxy
        exact absurd hxy (Nat.ne_of_lt (h.alive x hx).1)
      · rw [e.ne hyq] at hy hxy
        exact h.born x y hx hy hxy

/-- `p->state = USED` -/
theorem Inv.birth (h : Inv s loc) (hc : s.on (.inl p) = some c)
    (hl : loc (.inl p) = ⟨{.proc np}, ⟨none, .claiming np, .no⟩⟩) :
    Inv { s.setProc np { s.proc np with pid, state := .used, born := s.births } with
        births := s.births + 1 }
      (update loc (.inl p) ⟨{.proc np}, ⟨none, .making np, .no⟩⟩) := by
  obtain ⟨hu, hlt, hne⟩ := h.fact (stages_self hl)
  have hparent : (s.proc np).parent = none := h.family.free np hu
  have hno : ¬ (s.proc np).state.Live := by rw [hu]; exact id
  have e : s.Edit { s.setProc np { s.proc np with pid, state := .used, born := s.births } with
        births := s.births + 1 } np { s.proc np with pid, state := .used, born := s.births } :=
    ⟨rfl, rfl, rfl, rfl, rfl, rfl, rfl⟩
  refine h.of_slot hc hl (Finset.mem_singleton_self _) hne (by rw [hu]; simp) e (.inr (.inl rfl))
    rfl
    (h.family.edit e (fun _ => hlt) (fun hi => absurd hi (h.family.not_init hno)) (fun hz => ?_)
      (fun r hr => ?_) (fun x hx => absurd (h.family.live x np hx) hno) (fun _ hz => absurd rfl hz)
      fun r hr => ?_)
    (fun y hy hcl => ?_) (fun y _ => h.not_making (by rw [hu]; simp) y)
    (.inr ⟨rfl, by rw [hu]; simp, by simp⟩) ⟨?_, ?_⟩ (fun m hm => .inr ?_)
    (h.past.birth e hu rfl rfl rfl rfl rfl rfl)
  · cases hz
  · rw [show (s.proc np).parent = some r from hr] at hparent
    cases hparent
  · rw [show (s.proc np).parent = some r from hr] at hparent
    cases hparent
  · -- the other process would have the lock, too
    have hfy := h.facts.fact y
    rw [hcl] at hfy
    refine h.excl (by rw [hl]; exact Finset.mem_singleton_self _) ?_ ?_ hy
      (by rw [hcl]; exact Finset.mem_singleton_self _)
    · exact fun he => hne (Lock.proc.inj he)
    · exact fun he => hfy.2.2 (Lock.proc.inj he)
  · rw [e.self]
  · rw [e.self]
    exact hparent
  · cases hm
    exact h.not_making (by rw [hu]; simp)

/-- `freeproc` of a slot that is on no CPU and has no children. -/
theorem Inv.freed (h : Inv s loc) (hc : s.on (.inl p) = some c)
    (hl : loc (.inl p) = ⟨H, ⟨none, φ, .no⟩⟩) (hq : .proc q ∈ H) (hqp : q ≠ p)
    (hdead : (s.proc q).state = .used ∨ (s.proc q).state = .zombie)
    (hmake : ∀ y, y ≠ p → (stages loc (.inl y)).phase.makes ≠ some q)
    (hwait : .wait ∈ H ∨ (s.proc q).state = .used ∧ (s.proc q).parent = none)
    (e : s.Edit s' q { s.proc q with
      pid := 0, parent := none, chan := none, killed := false, xstate := 0, state := .unused })
    (hpast : Past s') : Inv s' (update loc (.inl p) ⟨H, .rest⟩) := by
  have hnot : (s.proc q).state ≠ .running := by
    rcases hdead with hs | hs <;> rw [hs] <;> simp
  have hno : ¬ (s.proc q).state.Live := by
    rcases hdead with hs | hs <;> rw [hs] <;> exact id
  have hused : (s.proc q).state ≠ .unused := by
    rcases hdead with hs | hs <;> rw [hs] <;> simp
  refine h.of_slot (ψ := .none) hc hl hq hqp hnot e (.inl rfl) rfl
    (h.family.edit e (fun hz => absurd rfl hz) (fun hi => absurd hi (h.family.not_init hno))
      (fun _ => rfl) (fun r hr => ?_) (fun x hx => absurd (h.family.live x q hx) hno)
      (fun hz => absurd rfl hz) fun r hr => by cases hr)
    (fun y _ => h.not_claiming hused y) hmake
    (hwait.imp_right fun hw => ⟨hw.2.symm, by rw [hw.1]; simp, by simp⟩) trivial
    (fun m hm => ?_) hpast
  · cases hr
  · cases hm

/-- `fork` gives up for want of memory. -/
theorem Inv.abandon (h : Inv s loc) (hc : s.on (.inl p) = some c)
    (hl : loc (.inl p) = ⟨{.proc np}, ⟨none, .making np, .no⟩⟩) :
    Inv (freeproc s np) (update loc (.inl p) ⟨{.proc np}, .rest⟩) := by
  obtain ⟨hused, hparent⟩ := h.fact (stages_self hl)
  have hne : np ≠ p := by
    rintro rfl
    rw [(h.running hc hl rfl).1] at hused
    cases hused
  have e : s.Edit (freeproc s np) np { s.proc np with
      pid := 0, parent := none, chan := none, killed := false, xstate := 0, state := .unused } :=
    ⟨rfl, rfl, rfl, rfl, rfl, rfl, rfl⟩
  refine h.freed hc hl (Finset.mem_singleton_self _) hne (.inl hused)
    (fun y hy => h.only_maker hl rfl y hy) (.inr ⟨hused, hparent⟩) e
    (h.past.congr (fun y => ?_) rfl rfl rfl rfl fun f hf d => ?_)
  · by_cases hy : y = np
    · subst hy
      rw [e.self, hused]
      exact ⟨fun hz => absurd rfl hz, by simp, rfl, fun hz => by cases hz⟩
    · rw [e.ne hy]
      exact ⟨id, Iff.rfl, rfl, fun _ => ⟨rfl, rfl⟩⟩
  · rcases List.mem_append.mp hf with hf | hf
    · exact h.past.frees f hf d
    · cases List.mem_singleton.mp hf
      exact (h.not_on_cpu hc hl (Finset.mem_singleton_self _) hne (by rw [hused]; simp)).2 d

/-- `np->parent = p` -/
theorem Inv.adopt (h : Inv s loc) (hc : s.on (.inl p) = some c)
    (hl : loc (.inl p) = ⟨{.wait}, ⟨none, .making np, .no⟩⟩) :
    Inv (s.setProc np { s.proc np with parent := some p, forker := (s.proc p).born })
      (update loc (.inl p) ⟨{.wait}, ⟨none, .adopted np, .no⟩⟩) := by
  have hst := stages_self hl
  obtain ⟨hused, -⟩ := h.fact hst
  have hrun := (h.running hc hl rfl).1
  have hne : p ≠ np := by
    rintro rfl
    rw [hrun] at hused
    cases hused
  have e : s.Edit (s.setProc np { s.proc np with parent := some p, forker := (s.proc p).born }) np
      { s.proc np with parent := some p, forker := (s.proc p).born } :=
    ⟨rfl, rfl, rfl, rfl, rfl, rfl, rfl⟩
  have hlv := leave_update (n := n) (t := .inl p) (τ := ⟨none, .adopted np, .no⟩)
    (show Leave.no = (stages loc (.inl p)).leave by rw [hst])
  have hin : ∀ x ch, InWait _ (update (stages loc) (.inl p) ⟨none, .adopted np, .no⟩) x
      ch → InWait s (stages loc) x ch :=
    fun x ch => e.inWait (fun y => hlv (.inl y)) fun hs => ⟨hs, rfl⟩
  refine h.of_edit hl rfl e
    ⟨fun _ _ hlv => absurd rfl hlv, fun _ _ _ hw => ?_, Finset.empty_subset _⟩
    (h.cpus.congr rfl (fun y => ?_) (fun y => hlv (.inl y)) fun d => ?_)
    (h.waits.congr hin (fun _ ch _ => e.reason fun _ _ hz => ?_) fun y => ?_)
    (h.family.edit e (fun hz => h.family.range np hz)
      (fun hi => absurd hi (h.family.not_init (by rw [hused]; exact id))) (fun hz => ?_)
      (fun r hr => ?_) (fun x hx => ⟨h.family.live x np hx, rfl⟩) (fun _ hz => absurd hused hz)
      fun r hr => ?_)
    hin (fun y _ => h.not_claiming (by rw [hused]; simp) y) (fun y hy => h.only_maker hl rfl y hy)
    (.inl (Finset.mem_singleton_self _)) ⟨?_, ?_⟩ (fun m hm => .inl hm)
    (h.past.congr (fun y => ?_) rfl rfl rfl rfl h.past.frees)
  · cases hw
  · by_cases hy : y = np
    · subst hy
      rw [e.self]
    · rw [e.ne hy]
  · rw [update_of_ne (by simp)]
  · rw [hused] at hz
    cases hz
  · exact wake_update (by rw [hst]) _
  · rw [hused] at hz
    cases hz
  · cases hr
    rw [e.ne hne, hrun]
    exact trivial
  · cases hr
    rw [e.ne hne]
    exact .inl rfl
  · rw [e.self]
    exact hused
  · rw [e.self]
  · by_cases hy : y = np
    · subst hy
      rw [e.self]
      exact ⟨id, Iff.rfl, rfl, fun _ => ⟨rfl, rfl⟩⟩
    · rw [e.ne hy]
      exact ⟨id, Iff.rfl, rfl, fun _ => ⟨rfl, rfl⟩⟩

/-- `np->state = RUNNABLE` -/
theorem Inv.publish (h : Inv s loc) (hc : s.on (.inl p) = some c)
    (hl : loc (.inl p) = ⟨{.proc np}, ⟨none, .adopted np, .no⟩⟩) :
    Inv (s.setProc np { s.proc np with state := .runnable })
      (update loc (.inl p) ⟨{.proc np}, .rest⟩) := by
  obtain ⟨hused, hparent⟩ := h.fact (stages_self hl)
  have hrun := (h.running hc hl rfl).1
  have hne : np ≠ p := by
    rintro rfl
    rw [hrun] at hused
    cases hused
  have e : s.Edit (s.setProc np { s.proc np with state := .runnable }) np
      { s.proc np with state := .runnable } := ⟨rfl, rfl, rfl, rfl, rfl, rfl, rfl⟩
  refine h.of_slot (ψ := .none) hc hl (Finset.mem_singleton_self _) hne (by rw [hused]; simp) e
    (.inr (.inr rfl)) rfl
    (h.family.edit e (fun _ => h.family.range np (by rw [hused]; simp))
      (fun hi => absurd hi (h.family.not_init (by rw [hused]; exact id))) (fun hz => ?_)
      (fun r hr => ?_) (fun _ _ => ⟨trivial, rfl⟩) (fun _ _ _ => ?_) fun r hr => ?_)
    (fun y _ => h.not_claiming (by rw [hused]; simp) y) (fun y hy => h.only_maker hl rfl y hy)
    (.inr ⟨rfl, by rw [hused]; simp, by simp⟩) trivial (fun m hm => ?_)
    (h.past.congr (fun y => ?_) rfl rfl rfl rfl h.past.frees)
  · cases hz
  · rw [show r = p from Option.some.inj (hr.symm.trans hparent), e.ne (Ne.symm hne), hrun]
    exact trivial
  · rw [hparent]
    simp
  · rw [show r = p from Option.some.inj (hr.symm.trans hparent), e.ne (Ne.symm hne)]
    exact h.family.origin np p hparent
  · cases hm
  · by_cases hy : y = np
    · subst hy
      rw [e.self, hused]
      exact ⟨fun _ => by simp, by simp, rfl, fun hz => by cases hz⟩
    · rw [e.ne hy]
      exact ⟨id, Iff.rfl, rfl, fun _ => ⟨rfl, rfl⟩⟩

theorem allocprocInit_keeps :
    (allocprocInit p np).Keeps (spec n) (.inl p) ⟨{.proc np}, ⟨none, .claiming np, .no⟩⟩
      fun _ g => g = ⟨{.proc np}, ⟨none, .making np, .no⟩⟩ := by
  refine .seq (acquire_keeps fun hnot => ?_)
  refine .bind
    (Q := fun _ g => g = ⟨insert .pid {.proc np}, ⟨none, .claiming np, .no⟩⟩)
    (keeps_step fun s loc c h hl _ r s' hf => ⟨_, ?_, rfl⟩) ?_
  · cases hf
    rw [← hl, update_eq_self]
    exact h.of_notes h.dozing
  rintro _ _ rfl
  refine .seq (release_insert hnot ?_ (keeps_does _ (fun _ _ _ h hl hc => h.birth hc hl) rfl))
  refine ⟨fun _ _ hlv => absurd rfl hlv, fun _ _ _ hw => ?_, Finset.Subset.refl _⟩
  cases hw

theorem fork_keeps {ok : Bool} :
    (fork p ok).Keeps (spec n) (.inl p) ⟨∅, .rest⟩ (Post (n := n) (.inl p)) := by
  refine (allocprocFrom_keeps NPROC 0 (by omega)).bind ?_
  rintro o _ rfl
  cases o with
  | none => exact .idle
  | some np =>
    refine allocprocInit_keeps.bind ?_
    rintro _ _ rfl
    cases ok with
    | false =>
      refine .seq (keeps_does _ (fun _ _ _ h hl hc => h.abandon hc hl) ?_)
      exact .seq (release_last wf_rest .idle)
    | true =>
      refine .seq (release_last (wf_fork rfl) ?_)
      refine .seq (acquire_keeps fun _ => ?_)
      refine .seq (keeps_does _ (fun _ _ _ h hl hc => h.adopt hc hl) ?_)
      refine .seq (release_last (wf_fork rfl) ?_)
      refine .seq (acquire_keeps fun _ => ?_)
      refine .seq (keeps_does _ (fun _ _ _ h hl hc => h.publish hc hl) ?_)
      exact .seq (release_last wf_rest .idle)

end Xv6.Sched
