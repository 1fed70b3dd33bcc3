import Mathlib.Tactic

/-!
# Sleeping for a number of clock ticks

`sys_sleep` of `kernel/sysproc.c` and `clockintr` of `kernel/trap.c`, for any number of processes
that nobody kills. A process holds `tickslock` from where it enters or wakes up to where it sleeps
or returns, so such a stretch, which makes one test of the loop, is one step. A sleeping process is
woken up by every clock interrupt, and perhaps at other times.

`ticks` is an `uint` and wraps around. `clock` is the number of clock interrupts of the whole run;
the code does not have it.
-/

namespace Xv6.Ticks

open Function (update update_of_ne update_self)

/-- An `int` that is converted to `uint`. -/
def uint (n : Int) : Nat := (n % 2 ^ 32).toNat

/-- Where a process is in `sys_sleep(n)`: `ticks0` is its local variable, and `since` is what the
    clock was when it entered. -/
inductive Sleeper where
  | away
  | asleep (n : Int) (ticks0 since : Nat)
  /-- woken up, on its way to the next test -/
  | awake (n : Int) (ticks0 since : Nat)
  | returned

structure Sys where
  ticks : Nat
  clock : Nat
  proc : Nat → Sleeper

/-- `ticks - ticks0 < n`, between an `uint` and an `int` -/
def early (ticks ticks0 : Nat) (n : Int) : Bool := (ticks + 2 ^ 32 - ticks0) % 2 ^ 32 < uint n

/-- The loop of `sys_sleep` from its test on, up to where it sleeps or has returned. -/
def sysSleepLoop (n : Int) (ticks0 since ticks : Nat) : Sleeper :=
  if early ticks ticks0 n then .asleep n ticks0 since else .returned

/-- `sys_sleep` up to where it sleeps or has returned. -/
def sysSleep (n : Int) (s : Sys) : Sleeper := sysSleepLoop n s.ticks s.clock s.ticks

/-- `wakeup(&ticks)` at one process. -/
def Sleeper.wake : Sleeper → Sleeper
  | .asleep n ticks0 since => .awake n ticks0 since
  | x => x

def clockintr (s : Sys) : Sys :=
  ⟨(s.ticks + 1) % 2 ^ 32, s.clock + 1, fun p => (s.proc p).wake⟩

def Sys.setProc (s : Sys) (p : Nat) (x : Sleeper) : Sys :=
  { s with proc := update s.proc p x }

/-- The process `p`, in `sys_sleep(n)`, makes a test when `k` ticks have gone by. -/
inductive Tests (p : Nat) (n : Int) : (k : Nat) → Sys → Sys → Prop where
  | first {s : Sys} : s.proc p = .away → Tests p n 0 s (s.setProc p (sysSleep n s))
  | again {s : Sys} {ticks0 since : Nat} : s.proc p = .awake n ticks0 since →
      Tests p n (s.clock - since) s (s.setProc p (sysSleepLoop n ticks0 since s.ticks))

inductive Step : Sys → Sys → Prop where
  | test {s s' : Sys} {p k : Nat} {n : Int} : Tests p n k s s' → Step s s'
  | clockintr {s : Sys} : Step s (clockintr s)
  | wakeup {s : Sys} (p : Nat) : Step s (s.setProc p (s.proc p).wake)
  | leave {s : Sys} (p : Nat) : s.proc p = .returned → Step s (s.setProc p .away)

/-- The states of a run that starts when the counter is at `ticks`. -/
def Reach (ticks : Nat) : Sys → Prop :=
  Relation.ReflTransGen Step ⟨ticks, 0, fun _ => .away⟩

/-! ## The counter and the clock -/

/-- What a process in `sys_sleep` remembers of the counter belongs to the time it entered. -/
def Sleeper.Ok (start clock : Nat) : Sleeper → Prop
  | .asleep _ ticks0 since | .awake _ ticks0 since =>
    ticks0 = (start + since) % 2 ^ 32 ∧ since ≤ clock
  | _ => True

structure Good (start : Nat) (s : Sys) : Prop where
  ticks : s.ticks = (start + s.clock) % 2 ^ 32
  procs : ∀ p, (s.proc p).Ok start s.clock

variable {start k p : Nat} {n : Int} {s s' : Sys}

theorem Good.setProc {x : Sleeper} (h : Good start s) (hx : x.Ok start s.clock) :
    Good start (s.setProc p x) := by
  refine ⟨h.ticks, fun q => ?_⟩
  by_cases hq : q = p
  · subst hq
    simpa [Sys.setProc] using hx
  · simpa [Sys.setProc, update_of_ne hq] using h.procs q

theorem Sleeper.Ok.wake {x : Sleeper} {clock : Nat} (h : x.Ok start clock) :
    x.wake.Ok start clock := by
  cases x <;> exact h

theorem Sleeper.Ok.later {x : Sleeper} {clock : Nat} (h : x.Ok start clock) :
    x.Ok start (clock + 1) := by
  cases x with
  | away => trivial
  | returned => trivial
  | asleep n ticks0 since => exact ⟨h.1, Nat.le_succ_of_le h.2⟩
  | awake n ticks0 since => exact ⟨h.1, Nat.le_succ_of_le h.2⟩

theorem sysSleepLoop_ok {ticks0 since ticks clock : Nat}
    (h : ticks0 = (start + since) % 2 ^ 32 ∧ since ≤ clock) :
    (sysSleepLoop n ticks0 since ticks).Ok start clock := by
  unfold sysSleepLoop
  split
  · exact h
  · trivial

theorem Good.step (h : Good start s) (hs : Step s s') : Good start s' := by
  cases hs with
  | @test _ p k n ht =>
    cases ht with
    | first => exact h.setProc (sysSleepLoop_ok ⟨h.ticks, le_rfl⟩)
    | again hp =>
      have hok := h.procs p
      rw [hp] at hok
      exact h.setProc (sysSleepLoop_ok hok)
  | clockintr =>
    refine ⟨?_, fun q => (h.procs q).wake.later⟩
    simp only [Ticks.clockintr, h.ticks, Nat.mod_add_mod, add_assoc]
  | wakeup p => exact h.setProc (h.procs p).wake
  | leave p _ => exact h.setProc trivial

theorem Reach.good (h : Reach start s) (hstart : start < 2 ^ 32) : Good start s := by
  induction h with
  | refl => exact ⟨(Nat.mod_eq_of_lt hstart).symm, fun _ => trivial⟩
  | tail _ hs ih => exact ih.step hs

/-- The test of the loop, with the counter read `since` and `clock` ticks after `start`. -/
theorem early_iff {since clock : Nat} (hle : since ≤ clock) (hk : clock - since < 2 ^ 32) :
    early ((start + clock) % 2 ^ 32) ((start + since) % 2 ^ 32) n = true ↔
      clock - since < uint n := by
  unfold early
  have hsub : ((start + clock) % 2 ^ 32 + 2 ^ 32 - (start + since) % 2 ^ 32) % 2 ^ 32 =
      clock - since := by
    omega
  rw [hsub, decide_eq_true_iff]

/-- A test ends the loop exactly if at least `n` ticks have gone by, where `n` is read as an
    unsigned number. -/
theorem Good.test (h : Good start s) (ht : Tests p n k s s') (hk : k < 2 ^ 32) :
    s'.proc p = .returned ↔ uint n ≤ k := by
  have hloop : ∀ {since}, since ≤ s.clock → s.clock - since < 2 ^ 32 →
      (sysSleepLoop n ((start + since) % 2 ^ 32) since s.ticks = .returned ↔
        uint n ≤ s.clock - since) := by
    intro since hle hlt
    unfold sysSleepLoop
    rw [h.ticks, ← not_lt, ← early_iff hle hlt]
    split
    · next he =>
      exact iff_of_false (fun hc => by cases hc) (fun hc => hc he)
    · next he =>
      exact iff_of_true rfl he
  have hself : ∀ x, (s.setProc p x).proc p = x := fun x => update_self ..
  cases ht with
  | first _ =>
    have hnow := hloop (Nat.le_refl s.clock) (by omega)
    rw [Nat.sub_self, ← h.ticks] at hnow
    rw [hself]
    exact hnow
  | @again _ ticks0 since hp =>
    have hok := h.procs p
    rw [hp] at hok
    obtain ⟨hticks, hle⟩ := hok
    rw [hself, hticks]
    exact hloop hle hk

/-! ## What the caller asked for -/

/-- In every run, a process that has called `sys_sleep(n)` leaves the loop at the first test that is
    made when at least `max(n, 0)` ticks have gone by, and at no earlier test. -/
def SleepsFor (n : Int) : Prop :=
  ∀ start < 2 ^ 32, ∀ s, Reach start s → ∀ p k s', Tests p n k s s' → k < 2 ^ 31 →
    (s'.proc p = .returned ↔ max n 0 ≤ k)

/-- `sys_sleep` does what the caller asked for unless the number is negative: then it is converted
    to a large unsigned number. -/
theorem sleeps_for_iff (hlo : -2 ^ 31 ≤ n) (hhi : n < 2 ^ 31) : SleepsFor n ↔ 0 ≤ n := by
  constructor
  · intro h
    by_contra hn
    -- the first test of the first call finds that no tick has gone by
    have hfirst := h 0 (by decide) _ .refl 0 0 _ (.first rfl) (by decide)
    have hgood : Good 0 ⟨0, 0, fun _ => .away⟩ := Reach.good .refl (by decide)
    have hret := (hgood.test (p := 0) (n := n) (.first rfl) (by decide)).mp
      (hfirst.mpr (by simp; omega))
    unfold uint at hret
    omega
  · intro hn start hstart s hs p k s' ht hk
    rw [(hs.good hstart).test ht (by omega)]
    unfold uint
    omega

theorem sleeps_for_three : SleepsFor 3 := (sleeps_for_iff (by decide) (by decide)).mpr (by decide)

/-- `sleep(-1)`: the process goes to sleep although no tick has to go by, and every test of the next
    `2 ^ 32 - 1` ticks finds that it is early. -/
theorem sleep_minus_one : (∀ k < 2 ^ 32 - 1, early k 0 (-1) = true) ∧ ¬ SleepsFor (-1) := by
  constructor
  · intro k hk
    have : k % 2 ^ 32 = k := Nat.mod_eq_of_lt (by omega)
    simp only [early, uint, Nat.sub_zero, Nat.add_mod_right, this, decide_eq_true_iff]
    exact hk
  · intro h
    have := (h 0 (by decide) _ .refl 0 0 _ (.first rfl) (by decide)).mpr (by decide)
    cases this

end Xv6.Ticks
