import Xv6.Lib.Prog

/-!
# Programs that run alone

`p.Runs s E Q` says what the program `p` does when it is executed from the state `s` with nobody
else running: it comes to its end with a result and a state of which `Q` holds, or it stops short
in a way that `E` allows. A program stops short by waiting (`none`) or by a panic (`some msg`), so
where `E` holds of nothing the rule is one of total correctness.

The rules follow the program text: one for each way to build a program, one for a counting loop,
and one for a program on a part of the state.
-/

namespace Xv6.Lib
namespace Prog

variable {σ τ α β : Type}

/-- Executed alone from `s`, the program `p` ends with `Q` or stops short as `E` allows. -/
def Runs (p : Prog σ α) (s : σ) (E : Option String → Prop) (Q : α → σ → Prop) : Prop :=
  match p.run s with
  | .ok a s' => Q a s'
  | .wait => E none
  | .panic m => E (some m)

/-- `for(i = a; i < a + n; i++) body(i)` -/
def loop (body : Nat → Prog σ Unit) : (a n : Nat) → Prog σ Unit
  | _, 0 => .ret ()
  | a, n + 1 => do
    body a
    loop body (a + 1) n

/-- `if(c) p` -/
def when (c : Prop) [Decidable c] (p : Prog σ Unit) : Prog σ Unit := if c then p else .ret ()

/-- A program on a part of the state. -/
def zoom (get : σ → τ) (set : σ → τ → σ) : Prog τ α → Prog σ α
  | .ret a => .ret a
  | .step f k =>
    .step
      (fun s =>
        match f (get s) with
        | .ok r t => .ok r (set s t)
        | .wait => .wait
        | .panic m => .panic m)
      fun r => (k r).zoom get set

section

variable {p : Prog σ α} {g : α → Prog σ β} {s s' : σ} {E E' : Option String → Prop}
  {Q R : α → σ → Prop} {Q' : β → σ → Prop}

theorem Runs.ret {a : α} (h : Q a s) : (Prog.ret a).Runs s E Q := h

theorem Runs.bind (h : p.Runs s E R) (hg : ∀ a s', R a s' → (g a).Runs s' E Q') :
    (p >>= g).Runs s E Q' := by
  unfold Runs at h ⊢
  rw [run_bind]
  cases hr : p.run s with
  | ok a s' =>
    rw [hr] at h
    exact hg a s' h
  | wait =>
    rw [hr] at h
    exact h
  | panic m =>
    rw [hr] at h
    exact h

/-- What follows a program is run in each state that it can end in. -/
theorem Runs.seq (h : p.Runs s E fun a s' => (g a).Runs s' E Q') : (p >>= g).Runs s E Q' :=
  h.bind fun _ _ hg => hg

/-- What follows a program that does not come to its end. -/
theorem Runs.stop (h : p.Runs s E fun _ _ => False) : (p >>= g).Runs s E Q' :=
  h.bind fun _ _ hf => False.elim hf

theorem Runs.mono (h : p.Runs s E R) (hQ : ∀ a s', R a s' → Q a s') : p.Runs s E Q := by
  unfold Runs at h ⊢
  cases hr : p.run s with
  | ok a s' =>
    rw [hr] at h
    exact hQ a s' h
  | wait =>
    rw [hr] at h
    exact h
  | panic m =>
    rw [hr] at h
    exact h

theorem Runs.weaken (h : p.Runs s E Q) (hE : ∀ m, E m → E' m) : p.Runs s E' Q := by
  unfold Runs at h ⊢
  cases hr : p.run s with
  | ok a s' =>
    rw [hr] at h
    exact h
  | wait =>
    rw [hr] at h
    exact hE none h
  | panic m =>
    rw [hr] at h
    exact hE (some m) h

/-- Two things that hold of the end of a run hold of it together. -/
theorem Runs.and (h : p.Runs s E Q) (h' : p.Runs s E' R) :
    p.Runs s E fun a s' => Q a s' ∧ R a s' := by
  unfold Runs at h h' ⊢
  cases hr : p.run s with
  | ok a s' =>
    rw [hr] at h h'
    exact ⟨h, h'⟩
  | wait =>
    rw [hr] at h
    exact h
  | panic m =>
    rw [hr] at h
    exact h

theorem Runs.get {Q : σ → σ → Prop} (h : Q s s) : (get : Prog σ σ).Runs s E Q := h

theorem Runs.modify {f : σ → σ} {Q : Unit → σ → Prop} (h : Q () (f s)) :
    (modify f).Runs s E Q := h

theorem Runs.panic {m : String} (h : E (some m)) : (panic m : Prog σ α).Runs s E Q := h

/-- The rule for an atomic step whose outcome is known. -/
theorem Runs.atomic {ρ : Type} {f : σ → Outcome σ ρ} {Q : ρ → σ → Prop} {r : ρ}
    (hf : f s = .ok r s') (h : Q r s') : (atomic f).Runs s E Q := by
  unfold Runs Prog.atomic
  rw [run_step, hf]
  exact h

/-- What holds of a run that has come to its end. -/
theorem Runs.ok {a : α} (h : p.Runs s E Q) (hr : p.run s = .ok a s') : Q a s' := by
  unfold Runs at h
  rw [hr] at h
  exact h

/-- A program that cannot stop short comes to its end. -/
theorem Runs.ends (h : p.Runs s E Q) (hE : ∀ m, ¬ E m) : ∃ a s', p.run s = .ok a s' ∧ Q a s' := by
  unfold Runs at h
  cases hr : p.run s with
  | ok a s' =>
    rw [hr] at h
    exact ⟨a, s', rfl, h⟩
  | wait =>
    rw [hr] at h
    exact absurd h (hE none)
  | panic m =>
    rw [hr] at h
    exact absurd h (hE (some m))

/-- What holds of every program. -/
theorem Runs.any : p.Runs s (fun _ => True) fun _ _ => True := by
  unfold Runs
  cases p.run s <;> trivial

/-- A program that can only stop short with one panic does so. -/
theorem Runs.panics {m : String} (h : p.Runs s (fun e => e = some m) fun _ _ => False) :
    p.run s = .panic m := by
  unfold Runs at h
  cases hr : p.run s with
  | ok a s' =>
    rw [hr] at h
    exact h.elim
  | wait =>
    rw [hr] at h
    cases h
  | panic m' =>
    rw [hr] at h
    cases h
    rfl

theorem Runs.when {c : Prop} [Decidable c] {p : Prog σ Unit} {Q : Unit → σ → Prop}
    (h : c → p.Runs s E Q) (hn : ¬ c → Q () s) : (when c p).Runs s E Q := by
  unfold Prog.when
  split
  · next hc =>
    exact h hc
  · next hc =>
    exact hn hc

/-- A loop keeps what each of its rounds keeps. -/
theorem Runs.loop {body : Nat → Prog σ Unit} {J : Nat → σ → Prop} {n : Nat} :
    ∀ {a : Nat} {s : σ}, J a s →
      (∀ i s, a ≤ i → i < a + n → J i s → (body i).Runs s E fun _ => J (i + 1)) →
      (loop body a n).Runs s E fun _ => J (a + n) := by
  induction n with
  | zero => exact fun h _ => h
  | succ n ih =>
    intro a s h hbody
    refine Runs.bind (hbody a s (Nat.le_refl a) (by omega) h) fun _ s' h' => ?_
    have := ih h' fun i s hi hn hJ => hbody i s (by omega) (by omega) hJ
    rwa [show a + 1 + n = a + (n + 1) by omega] at this

/-- A program on a part of the state changes that part only. -/
theorem Runs.zoom {get : σ → τ} {set : σ → τ → σ} {p : Prog τ α} {Q : α → τ → Prop}
    (hget : ∀ s t, get (set s t) = t) (hset : ∀ s t t', set (set s t) t' = set s t')
    (hself : ∀ s, set s (get s) = s) (h : p.Runs (get s) E Q) :
    (p.zoom get set).Runs s E fun a s' => ∃ t, s' = set s t ∧ Q a t := by
  induction p generalizing s with
  | ret a => exact ⟨get s, (hself s).symm, h⟩
  | step f k ih =>
    unfold Runs at h ⊢
    rw [Prog.zoom, run_step]
    rw [run_step] at h
    cases hf : f (get s) with
    | ok r t =>
      rw [hf] at h
      have hk := @ih r (set s t) (by rw [hget]; exact h)
      simp only [hset] at hk
      exact hk
    | wait =>
      rw [hf] at h
      exact h
    | panic m =>
      rw [hf] at h
      exact h

end

attribute [irreducible] Runs

end Prog
end Xv6.Lib
