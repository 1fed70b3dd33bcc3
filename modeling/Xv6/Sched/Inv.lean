import Xv6.Sched.Code

/-!
# What holds between two steps of the processes

Each thread is described by the locks it holds and by its `Stage`: what it is in the middle of.
While a process is not being executed it is inside `sched`, where it holds its own lock and nothing
else; the lock itself is then held by the CPU of whoever executes, or free.

The invariant says

- which CPU holds which lock (`Locks`);
- which process each CPU executes (`Cpus`);
- that a process that waits for something has reason to, unless a `wakeup` is on its way to it
  (`Waits`);
- whose child every process is (`Family`);
- what each thread has found out and may rely on, because of the locks it holds (`Phase.Fact`);
- who is inside each sleep-lock (`Sleeplocks`);
- that every exit has been reported once or is still there as a zombie (`Past`).
-/

namespace Xv6.Sched

open Lib
open Function (update update_eq_self update_of_ne update_self)

variable {n : Nat}

/-! ## Stages -/

/-- What a thread is in the middle of. -/
inductive Phase where
  | none
  /-- `fork`: the slot `np` was found `UNUSED` -/
  | claiming (np : Nat)
  /-- `fork`: the slot `np` is allocated -/
  | making (np : Nat)
  /-- `fork`: and has its parent -/
  | adopted (np : Nat)
  /-- `wait`: no child below slot `q` is a zombie -/
  | scanning (q : Nat)
  /-- `wait`: and slot `q` is a child -/
  | visiting (q : Nat)
  /-- `wait`: slot `q` is a child and a zombie -/
  | reaping (q : Nat)
  /-- `exit`: this is not `initproc` -/
  | exiting
  /-- `exit`: no slot below `q` is a child -/
  | reparenting (q : Nat)
  /-- `exit`: there are no children, and `r` is the parent -/
  | waking (r : Nat)
  /-- `exit`: there are no children, and the parent is not waiting -/
  | woken
  /-- `acquiresleep`: the sleep-lock `i` was found locked -/
  | contending (i : Nat)
  /-- `acquiresleep`: the sleep-lock `i` was found unlocked -/
  | vacant (i : Nat)
  /-- `releasesleep` of the sleep-lock `i` -/
  | releasing (i : Nat)
  /-- `scheduler`: has switched to process `p` -/
  | switched (p : Nat)

/-- How far a process is on its way out of the CPU. -/
inductive Leave where
  | no
  /-- in `sleep`, with its own lock only, not yet `SLEEPING` -/
  | dozing (ch : Chan)
  /-- it has changed its state and will call `sched` -/
  | leaving

/-- `wake` is a `wakeup` under way: the channel and the next entry. -/
structure Stage where
  wake : Option (Chan × Nat)
  phase : Phase
  leave : Leave

/-- Nothing special. -/
def Stage.rest : Stage := ⟨none, .none, .no⟩

/-- The ghost value of a thread. -/
structure Ghost where
  held : Finset Lock
  stage : Stage

/-- The locks that protect what a thread has found out. -/
def Phase.locks : Phase → Finset Lock
  | .claiming np => {.proc np}
  | .scanning _ => {.wait}
  | .visiting _ => {.wait}
  | .reaping q => {.wait, .proc q}
  | .reparenting _ => {.wait}
  | .waking _ => {.wait}
  | .woken => {.wait}
  | .contending i => {.sleeplock i}
  | .vacant i => {.sleeplock i}
  | .switched p => {.proc p}
  | _ => ∅

/-- The lock that is held from finding a reason to wait to going to sleep, and during a `wakeup`. -/
def Chan.guard : Chan → Option Lock
  | .proc _ => some .wait
  | .sleeplock i => some (.sleeplock i)
  | .other _ => none

/-- A thread has the locks that its stage needs. -/
structure Ghost.Wf (t : Thread n) (g : Ghost) : Prop where
  leave : ∀ p, t = .inl p → g.stage.leave ≠ .no → .proc p ∈ g.held
  wake : ∀ ch k l, g.stage.wake = some (ch, k) → ch.guard = some l → l ∈ g.held
  phase : g.stage.phase.locks ⊆ g.held

/-- The slot of the process that a `fork` is making. -/
def Phase.makes : Phase → Option Nat
  | .making np => some np
  | .adopted np => some np
  | _ => Option.none

abbrev Stages (n : Nat) : Type := Thread n → Stage

/-! ## The parts of the invariant -/

/-- The states of a process that exists and has not exited. -/
def Procstate.Live : Procstate → Prop
  | .sleeping => True
  | .runnable => True
  | .running => True
  | _ => False

/-- The process waits on `ch`, or is about to. -/
def InWait (s : Sys n) (st : Stages n) (p : Nat) (ch : Chan) : Prop :=
  (st (.inl p)).leave = .dozing ch ∨
    ((s.proc p).state = .sleeping ∧ (s.proc p).chan = some ch)

/-- There is nothing to be woken up for. -/
def Reason (s : Sys n) : Chan → Prop
  | .proc r => ∀ q, (s.proc q).parent = some r → (s.proc q).state ≠ .zombie
  | .sleeplock i => (s.sleeplock i).locked = true
  | .other _ => True

structure Locks (s : Sys n) (loc : Thread n → Ghost) : Prop where
  procs : ∀ c p l, (s.cpu c).running = some p → (s.lock l = some c ↔ l ∈ (loc (.inl p)).held)
  scheds : ∀ c l, (s.cpu c).running = none → (s.lock l = some c ↔ l ∈ (loc (.inr c)).held)
  away : ∀ p, (∀ c, (s.cpu c).running ≠ some p) → (loc (.inl p)).held = {.proc p}
  behind : ∀ c p, (s.cpu c).running = some p → (loc (.inr c)).held = {.proc p}

structure Cpus (s : Sys n) (st : Stages n) : Prop where
  proc : ∀ c p, (s.cpu c).running = some p → (s.cpu c).proc = some p
  inj : ∀ c d p, (s.cpu c).proc = some p → (s.cpu d).proc = some p → c = d
  back : ∀ c p, (s.cpu c).proc = some p → (st (.inr c)).phase = .switched p
  state : ∀ c p, (s.cpu c).running = some p →
    (s.proc p).state = .running ∨ (st (.inl p)).leave = .leaving
  running : ∀ p, (s.proc p).state = .running → ∃ c, (s.cpu c).running = some p
  leaving : ∀ p, (st (.inl p)).leave = .leaving →
    (s.proc p).state ≠ .running ∧ (s.proc p).state ≠ .unused
  away : ∀ p, (∀ c, (s.cpu c).running ≠ some p) → (st (.inl p)).leave = .no

structure Waits (s : Sys n) (st : Stages n) : Prop where
  reason : ∀ p ch, InWait s st p ch → Reason s ch ∨
    ∃ q k, (st (.inl q)).wake = some (ch, k) ∧ k ≤ p ∧ p ≠ q
  scanned : ∀ q ch k, (st (.inl q)).wake = some (ch, k) → ch.guard ≠ none →
    ∀ p < k, p ≠ q → ¬ InWait s st p ch
  own : ∀ p r, InWait s st p (.proc r) → p = r

structure Family (s : Sys n) : Prop where
  range : ∀ p, (s.proc p).state ≠ .unused → p < NPROC
  init : (s.proc s.initproc).state.Live ∧ (s.proc s.initproc).parent = none
  free : ∀ p, (s.proc p).state = .unused → (s.proc p).parent = none
  live : ∀ q r, (s.proc q).parent = some r → (s.proc r).state.Live
  has : ∀ q, (s.proc q).state ≠ .unused → (s.proc q).state ≠ .used → q ≠ s.initproc →
    (s.proc q).parent ≠ none
  origin : ∀ q r, (s.proc q).parent = some r →
    (s.proc q).forker = (s.proc r).born ∨ r = s.initproc

/-- What process `p` has found out and may rely on. -/
def Phase.Fact (s : Sys n) (st : Stages n) (p : Nat) : Phase → Prop
  | .none => True
  | .claiming np => (s.proc np).state = .unused ∧ np < NPROC ∧ np ≠ p
  | .making np => (s.proc np).state = .used ∧ (s.proc np).parent = Option.none
  | .adopted np => (s.proc np).state = .used ∧ (s.proc np).parent = some p
  | .scanning i => ∀ q < i, (s.proc q).parent = some p → (s.proc q).state ≠ .zombie
  | .visiting i => (∀ q < i, (s.proc q).parent = some p → (s.proc q).state ≠ .zombie) ∧
      (s.proc i).parent = some p
  | .reaping i => (s.proc i).parent = some p ∧ (s.proc i).state = .zombie
  | .exiting => p ≠ s.initproc
  | .reparenting i => p ≠ s.initproc ∧ ∀ q < i, (s.proc q).parent ≠ some p
  | .waking r => p ≠ s.initproc ∧ (∀ q, (s.proc q).parent ≠ some p) ∧ (s.proc p).parent = some r
  | .woken => p ≠ s.initproc ∧ (∀ q, (s.proc q).parent ≠ some p) ∧
      ∀ r x, (s.proc p).parent = some r → ¬ InWait s st x (.proc r)
  | .contending i => (s.sleeplock i).locked = true
  | .vacant i => (s.sleeplock i).locked = false
  | .releasing i => s.inside p i = true
  | .switched _ => True

structure Facts (s : Sys n) (st : Stages n) : Prop where
  fact : ∀ p, (st (.inl p)).phase.Fact s st p
  maker : ∀ x y np, (st (.inl x)).phase.makes = some np → (st (.inl y)).phase.makes = some np →
    x = y

structure Sleeplocks (s : Sys n) : Prop where
  locked : ∀ p i, s.inside p i = true → (s.sleeplock i).locked = true
  one : ∀ p q i, s.inside p i = true → s.inside q i = true → p = q

/-- What is known of an exit in the state `s`, as long as it has not been reported. -/
def Pending (s : Sys n) (e : Exit) : Prop :=
  (s.proc e.slot).state = .zombie ∧ (s.proc e.slot).born = e.born ∧ (s.proc e.slot).pid = e.pid ∧
    (s.proc e.slot).xstate = e.status

structure Past (s : Sys n) : Prop where
  exits : ∀ e ∈ s.exits, e ∈ s.reaps.map Reap.exit ∨ Pending s e
  zombie : ∀ p, (s.proc p).state = .zombie →
    ⟨p, (s.proc p).born, (s.proc p).pid, (s.proc p).xstate⟩ ∈ s.exits
  exited : (s.exits.map Exit.born).Nodup
  reaps : ∀ r ∈ s.reaps, r.exit ∈ s.exits ∧ r.parent = some r.caller ∧
    (r.orphan = true → r.caller = s.initproc)
  once : (s.reaps.map fun r => r.exit.born).Nodup
  alive : ∀ p, (s.proc p).state ≠ .unused → (s.proc p).born < s.births ∧
    ∀ r ∈ s.reaps, r.exit.born ≠ (s.proc p).born
  before : ∀ e ∈ s.exits, e.born < s.births
  born : ∀ p q, (s.proc p).state ≠ .unused → (s.proc q).state ≠ .unused →
    (s.proc p).born = (s.proc q).born → p = q
  frees : ∀ f ∈ s.frees, ∀ c, f.2 c ≠ some f.1

/-- The history knows who is about to sleep. -/
def Dozing (s : Sys n) (st : Stages n) : Prop :=
  ∀ p ch, s.dozing p = some ch → (st (.inl p)).leave = .dozing ch

/-- The stages of the threads. -/
def stages (loc : Thread n → Ghost) : Stages n := fun t => (loc t).stage

structure Inv (s : Sys n) (loc : Thread n → Ghost) : Prop where
  locks : Locks s loc
  wf : ∀ t, (loc t).Wf t
  cpus : Cpus s (stages loc)
  waits : Waits s (stages loc)
  family : Family s
  facts : Facts s (stages loc)
  sleeplocks : Sleeplocks s
  past : Past s
  dozing : Dozing s (stages loc)

def spec (n : Nat) : Spec (Sys n) (Thread n) Ghost where
  inv := Inv
  guar := fun _ _ => True
  able := fun _ _ _ => False

section

variable {s s' : Sys n} {loc : Thread n → Ghost} {st st' : Stages n} {t : Thread n} {c d : Fin n}
  {p q r x np i k : Nat} {l : Lock} {ch : Chan} {H H' : Finset Lock} {σ σ' : Stage} {g : Ghost}

/-! ## Who executes -/

theorem on_inl (h : s.on (.inl p) = some c) : (s.cpu c).running = some p := by
  have := List.find?_some h
  exact of_decide_eq_true this

theorem on_inr (h : s.on (.inr c) = some d) : d = c ∧ (s.cpu c).running = none := by
  have h' : (if (s.cpu c).running = none then some c else none) = some d := h
  by_cases hr : (s.cpu c).running = none
  · rw [if_pos hr] at h'
    exact ⟨(Option.some.inj h').symm, hr⟩
  · rw [if_neg hr] at h'
    cases h'

/-- The lock that a CPU holds is held by the thread it executes. -/
theorem Inv.lock_iff (h : Inv s loc) (hc : s.on t = some c) :
    s.lock l = some c ↔ l ∈ (loc t).held := by
  cases t with
  | inl p => exact h.locks.procs c p l (on_inl hc)
  | inr d =>
    obtain ⟨rfl, hr⟩ := on_inr hc
    exact h.locks.scheds _ l hr

/-- A process that holds more than its own lock, or is on its way out, is executed. -/
theorem Inv.executed (h : Inv s loc) (hl : (loc (.inl p)).held ≠ {.proc p} ∨
    (loc (.inl p)).stage.leave ≠ .no) : ∃ c, (s.cpu c).running = some p := by
  by_contra hc
  have haway : ∀ c, (s.cpu c).running ≠ some p := fun c hr => hc ⟨c, hr⟩
  exact hl.elim (fun hne => hne (h.locks.away p haway)) fun hne => hne (h.cpus.away p haway)

/-- A lock that is not the process's own is held by at most one process. -/
theorem Inv.unique (h : Inv s loc) (hp : l ∈ (loc (.inl p)).held) (hq : l ∈ (loc (.inl q)).held)
    (hlp : l ≠ .proc p) (hlq : l ≠ .proc q) : p = q := by
  have hne : ∀ y, l ∈ (loc (.inl y)).held → l ≠ .proc y → (loc (.inl y)).held ≠ {.proc y} := by
    intro y hy hly he
    rw [he, Finset.mem_singleton] at hy
    exact hly hy
  obtain ⟨c, hc⟩ := h.executed (.inl (hne p hp hlp))
  obtain ⟨d, hd⟩ := h.executed (.inl (hne q hq hlq))
  have h1 := (h.locks.procs c p l hc).mpr hp
  have h2 := (h.locks.procs d q l hd).mpr hq
  rw [h1] at h2
  cases h2
  rw [hc] at hd
  exact Option.some.inj hd

/-- A process that is executed and holds the lock of another: that one is not on its way out, and
    a CPU that has it as its current process is executing it. -/
theorem Inv.locked_out (h : Inv s loc) (hc : s.on t = some c) (hl : .proc q ∈ (loc t).held)
    (hq : t ≠ .inl q) : (loc (.inl q)).stage.leave = .no ∧
      ∀ d, (s.cpu d).proc = some q → (∀ e, t ≠ .inr e) → (s.cpu d).running = some q := by
  have hlock := (h.lock_iff hc).mpr hl
  refine ⟨?_, fun d hd ht => ?_⟩
  · by_contra hne
    obtain ⟨d, hd⟩ := h.executed (.inr hne)
    have hd' := (h.locks.procs d q _ hd).mpr ((h.wf (.inl q)).leave q rfl hne)
    rw [hlock] at hd'
    cases hd'
    cases t with
    | inl p =>
      rw [on_inl hc] at hd
      exact hq (congrArg Sum.inl (Option.some.inj hd))
    | inr e =>
      obtain ⟨rfl, hr⟩ := on_inr hc
      rw [hr] at hd
      cases hd
  · cases hr : (s.cpu d).running with
    | some y =>
      have := h.cpus.proc d y hr
      rw [hd] at this
      exact this.symm
    | none =>
      exfalso
      have hsw := h.cpus.back d q hd
      have hheld : .proc q ∈ (loc (.inr d)).held := by
        refine (h.wf (.inr d)).phase ?_
        rw [stages] at hsw
        rw [hsw]
        exact Finset.mem_singleton_self _
      have hd' := (h.locks.scheds d _ hr).mpr hheld
      rw [hlock] at hd'
      cases hd'
      cases t with
      | inl p =>
        rw [on_inl hc] at hr
        cases hr
      | inr e => exact ht e rfl

/-- Who waits is in the table. -/
theorem Inv.inWait_lt (h : Inv s loc) (hw : InWait s (stages loc) p ch) : p < NPROC := by
  refine h.family.range p fun hu => ?_
  rcases hw with hw | ⟨hw, -⟩
  · have hne : (loc (.inl p)).stage.leave ≠ .no := by
      intro he
      rw [stages, he] at hw
      cases hw
    obtain ⟨c, hc⟩ := h.executed (.inr hne)
    rcases h.cpus.state c p hc with hs | hs
    · rw [hu] at hs
      cases hs
    · exact (h.cpus.leaving p hs).2 hu
  · rw [hu] at hw
    cases hw

/-- A process that is executed and not on its way out is `RUNNING` and waits for nothing. -/
theorem Inv.running (h : Inv s loc) (hc : s.on (.inl p) = some c) (hl : loc (.inl p) = ⟨H, σ⟩)
    (hσ : σ.leave = .no) : (s.proc p).state = .running ∧ ∀ ch, ¬ InWait s (stages loc) p ch := by
  have hst : (stages loc (.inl p)).leave = .no := by
    rw [stages, hl]
    exact hσ
  have hrun : (s.proc p).state = .running := by
    rcases h.cpus.state c p (on_inl hc) with hs | hs
    · exact hs
    · rw [hst] at hs
      cases hs
  refine ⟨hrun, fun ch hw => ?_⟩
  rcases hw with hw | ⟨hw, -⟩
  · rw [hst] at hw
    cases hw
  · rw [hrun] at hw
    cases hw

/-! ## Ghost values after a step -/

theorem stages_update :
    stages (update loc t ⟨H, σ⟩) = update (stages loc) t σ := by
  funext u
  by_cases hu : u = t
  · subst hu
    simp only [stages, update_self]
  · simp only [stages, update_of_ne hu]

theorem stages_self (h : loc t = ⟨H, σ⟩) : stages loc t = σ := by rw [stages, h]

theorem Inv.fact (h : Inv s loc) (hst : stages loc (.inl p) = σ) :
    σ.phase.Fact s (stages loc) p :=
  hst ▸ h.facts.fact p

theorem update_stage (h : stages loc t = σ) : update (stages loc) t σ = stages loc := by
  rw [← h, update_eq_self]

/-- The locks after a step that leaves the CPUs to their threads. -/
theorem Inv.locks_update (h : Inv s loc) (hc : s.on t = some c) (hcpu : s'.cpu = s.cpu)
    (hmine : ∀ l, s'.lock l = some c ↔ l ∈ g.held)
    (hother : ∀ l d, d ≠ c → (s'.lock l = some d ↔ s.lock l = some d)) :
    Locks s' (update loc t g) := by
  refine ⟨fun d p l hr => ?_, fun d l hr => ?_, fun p ha => ?_, fun d p hr => ?_⟩
  · rw [hcpu] at hr
    by_cases ht : t = .inl p
    · subst ht
      obtain rfl : d = c := h.cpus.inj d c p (h.cpus.proc d p hr) (h.cpus.proc c p (on_inl hc))
      rw [update_self]
      exact hmine l
    · rw [update_of_ne (Ne.symm ht)]
      have hd : d ≠ c := by
        rintro rfl
        cases t with
        | inl q =>
          rw [on_inl hc] at hr
          exact ht (congrArg Sum.inl (Option.some.inj hr))
        | inr e =>
          obtain ⟨rfl, hn⟩ := on_inr hc
          rw [hn] at hr
          cases hr
      rw [hother l d hd]
      exact h.locks.procs d p l hr
  · rw [hcpu] at hr
    by_cases ht : t = .inr d
    · subst ht
      obtain ⟨rfl, -⟩ := on_inr hc
      rw [update_self]
      exact hmine l
    · rw [update_of_ne (Ne.symm ht)]
      have hd : d ≠ c := by
        rintro rfl
        cases t with
        | inl q =>
          rw [on_inl hc] at hr
          cases hr
        | inr e =>
          obtain ⟨rfl, -⟩ := on_inr hc
          exact ht rfl
      rw [hother l d hd]
      exact h.locks.scheds d l hr
  · rw [hcpu] at ha
    have ht : t ≠ .inl p := by
      rintro rfl
      exact ha c (on_inl hc)
    rw [update_of_ne (Ne.symm ht)]
    exact h.locks.away p ha
  · rw [hcpu] at hr
    have ht : t ≠ .inr d := by
      rintro rfl
      rw [(on_inr hc).2] at hr
      cases hr
    rw [update_of_ne (Ne.symm ht)]
    exact h.locks.behind d p hr

theorem Inv.wf_update (h : Inv s loc) (hg : Ghost.Wf t g) (u : Thread n) :
    (update loc t g u).Wf u := by
  by_cases hu : u = t
  · subst hu
    rw [update_self]
    exact hg
  · rw [update_of_ne hu]
    exact h.wf u

theorem held_update (hl : loc t = ⟨H, σ⟩) (u : Thread n) :
    (update loc t ⟨H, σ'⟩ u).held = (loc u).held := by
  by_cases hu : u = t
  · subst hu
    rw [update_self, hl]
  · rw [update_of_ne hu]

theorem wf_rest : Ghost.Wf t ⟨H, .rest⟩ :=
  ⟨fun _ _ hne => absurd rfl hne, fun _ _ _ hw => (by cases hw), Finset.empty_subset _⟩

/-- A step that touches no lock and no CPU. -/
theorem Inv.of_parts (h : Inv s loc) (hl : loc t = ⟨H, σ⟩) (hcpu : s'.cpu = s.cpu)
    (hlock : s'.lock = s.lock) (hwf : Ghost.Wf t ⟨H, σ'⟩)
    (hcpus : Cpus s' (update (stages loc) t σ'))
    (hwaits : Waits s' (update (stages loc) t σ')) (hfam : Family s')
    (hfacts : Facts s' (update (stages loc) t σ')) (hsl : Sleeplocks s')
    (hpast : Past s') (hdoze : Dozing s' (update (stages loc) t σ')) :
    Inv s' (update loc t ⟨H, σ'⟩) := by
  refine ⟨⟨?_, ?_, ?_, ?_⟩, h.wf_update hwf, stages_update ▸ hcpus, stages_update ▸ hwaits, hfam,
    stages_update ▸ hfacts, hsl, hpast, stages_update ▸ hdoze⟩
  · simpa only [hcpu, hlock, held_update hl] using h.locks.procs
  · simpa only [hcpu, hlock, held_update hl] using h.locks.scheds
  · simpa only [hcpu, held_update hl] using h.locks.away
  · simpa only [hcpu, held_update hl] using h.locks.behind

end

end Xv6.Sched
