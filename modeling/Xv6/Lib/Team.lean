import Xv6.Lib.Seq
import Xv6.Lib.Threads

/-!
# Threads that never end

In a `Team` every thread executes one program after the other. The result of a program says what
the thread is to do next, and `next t j s p` are the programs `p` that thread `t` may then go on
with in the state `s`. A loop without a bound is a program that ends by asking for itself.

A thread may also be interrupted: where `may` allows it, a program `pre` is put before what is left
of its current one.

The proof rule is that of `Lib.Threads`: if the programs keep the invariant, each from the ghost
values at which it can be started, then every step of the team does.
-/

namespace Xv6.Lib

open Function

/-- A shared state, and what is left of the program of each thread. -/
structure Team (σ T J : Type) : Type 1 where
  shared : σ
  run : T → Prog σ J

section

variable {σ T J L : Type} [DecidableEq T]

inductive Team.Step (next : T → J → σ → Prog σ J → Prop) (may : T → σ → Prop)
    (pre : T → Prog σ Unit) : Team σ T J → Team σ T J → Prop where
  | act {x : Team σ T J} (t : T) {ρ : Type} (f : σ → Outcome σ ρ) (k : ρ → Prog σ J) (r : ρ)
      (s' : σ) (at_ : x.run t = .step f k) (does : f x.shared = .ok r s') :
      Team.Step next may pre x ⟨s', update x.run t (k r)⟩
  | next {x : Team σ T J} (t : T) (j : J) (p : Prog σ J) (at_ : x.run t = .ret j)
      (go : next t j x.shared p) :
      Team.Step next may pre x ⟨x.shared, update x.run t p⟩
  | interrupt {x : Team σ T J} (t : T) (go : may t x.shared) :
      Team.Step next may pre x
        ⟨x.shared, update x.run t (pre t >>= fun _ => x.run t)⟩

/-- The invariant holds and every thread's program keeps it. -/
def Team.Good (S : Spec σ T L) (post : T → J → L → Prop) (x : Team σ T J) : Prop :=
  ∃ loc : T → L, S.inv x.shared loc ∧ ∀ t, (x.run t).Keeps S t (loc t) (post t)

variable {S : Spec σ T L} {post : T → J → L → Prop} {next : T → J → σ → Prog σ J → Prop}
  {may : T → σ → Prop} {pre : T → Prog σ Unit}

theorem Team.Good.of_step {x : Team σ T J} {loc : T → L} {t : T} {s' : σ} {l' : L} {p : Prog σ J}
    (hall : ∀ u, (x.run u).Keeps S u (loc u) (post u))
    (hI : S.inv s' (update loc t l')) (hp : p.Keeps S t l' (post t)) :
    Team.Good S post ⟨s', update x.run t p⟩ := by
  refine ⟨update loc t l', hI, fun u => ?_⟩
  by_cases hu : u = t
  · subst hu
    simpa only [update_self] using hp
  · simpa only [update_of_ne hu] using hall u

theorem Team.Good.step {x x' : Team σ T J} (h : x.Good S post)
    (hnext : ∀ t j s loc p, S.inv s loc → post t j (loc t) → next t j s p →
      ∃ l, S.inv s (update loc t l) ∧ p.Keeps S t l (post t))
    (hpre : ∀ t s loc, S.inv s loc → may t s →
      (pre t).Keeps S t (loc t) fun _ l => l = loc t)
    (hs : Team.Step next may pre x x') : x'.Good S post := by
  obtain ⟨loc, hI, hall⟩ := h
  have hself : ∀ t, update loc t (loc t) = loc := fun t => update_eq_self t loc
  cases hs with
  | act t f k r s' at_ does =>
    have hk := hall t
    rw [at_] at hk
    obtain ⟨-, l', hI', hk'⟩ := (hk x.shared loc hI rfl).2 r s' does
    exact .of_step hall hI' hk'
  | next t j p at_ go =>
    have hk := hall t
    rw [at_] at hk
    obtain ⟨l, hI', hp⟩ := hnext t j x.shared loc p hI hk go
    exact .of_step hall hI' hp
  | interrupt t go =>
    refine .of_step hall ((hself t).symm ▸ hI) ((hpre t x.shared loc hI go).bind ?_)
    rintro _ _ rfl
    exact hall t

/-! ## One thread alone -/

/-- What is left of a program after `k` of its steps, if it can take them. -/
def Prog.after {α : Type} : Nat → Prog σ α → σ → Option (Prog σ α × σ)
  | 0, p, s => some (p, s)
  | _ + 1, .ret _, _ => none
  | k + 1, .step f g, s =>
    match f s with
    | .ok r s' => (g r).after k s'
    | _ => none

theorem Team.alone {t : T} {s' : σ} {p : Prog σ J} (k : Nat) {x : Team σ T J}
    (h : (x.run t).after k x.shared = some (p, s')) :
    Relation.ReflTransGen (Team.Step next may pre) x ⟨s', update x.run t p⟩ := by
  induction k generalizing x with
  | zero =>
    cases h
    rw [update_eq_self]
  | succ k ih =>
    cases hp : x.run t with
    | ret j =>
      rw [hp] at h
      cases h
    | step f g =>
      rw [hp, Prog.after] at h
      cases hf : f x.shared with
      | ok r s₁ =>
        rw [hf] at h
        have hrest := ih (x := ⟨s₁, update x.run t (g r)⟩)
          (by simpa only [update_self] using h)
        simp only [update_idem] at hrest
        exact .head (.act t f g r s₁ hp hf) hrest
      | wait =>
        rw [hf] at h
        cases h
      | panic m =>
        rw [hf] at h
        cases h

/-- A thread goes on, and takes `k` steps. -/
theorem Team.goes {t : T} {j : J} {s' : σ} {p q : Prog σ J} (k : Nat) {x : Team σ T J}
    (at_ : x.run t = .ret j) (go : next t j x.shared q) (h : q.after k x.shared = some (p, s')) :
    Relation.ReflTransGen (Team.Step next may pre) x ⟨s', update x.run t p⟩ := by
  have hrest : Relation.ReflTransGen (Team.Step next may pre) ⟨x.shared, update x.run t q⟩
      ⟨s', update (update x.run t q) t p⟩ :=
    Team.alone k (by simpa only [update_self] using h)
  rw [update_idem] at hrest
  exact .head (.next t j q at_ go) hrest

/-! ## Loops and panics -/

variable {t : T}

/-- A program that panics keeps everything, if it need not go on. -/
theorem Prog.Keeps.panic {α : Type} {msg : String} {l : L} {Q : α → L → Prop}
    (h : ∀ s loc, ¬ S.able t s loc) : (Prog.panic msg : Prog σ α).Keeps S t l Q :=
  fun s loc _ _ => ⟨fun ha => absurd ha (h s loc), fun _ _ hf => by cases hf⟩

/-- A loop keeps what each of its rounds keeps. -/
theorem Prog.Keeps.loop {body : Nat → Prog σ Unit} {K : Nat → L → Prop} {m : Nat} :
    ∀ {a : Nat} {l : L}, K a l →
      (∀ i l, a ≤ i → i < a + m → K i l → (body i).Keeps S t l fun _ => K (i + 1)) →
      (Prog.loop body a m).Keeps S t l fun _ => K (a + m) := by
  induction m with
  | zero => exact fun h _ => h
  | succ m ih =>
    intro a l h hbody
    refine .bind (hbody a l (Nat.le_refl a) (by omega) h) fun _ l' h' => ?_
    have := ih h' fun i l hi hm hK => hbody i l (by omega) (by omega) hK
    rwa [show a + 1 + m = a + (m + 1) by omega] at this

end

end Xv6.Lib
