import Mathlib.Tactic

/-!
# Programs of atomic steps

A thread of a concurrent system is a tree of atomic steps over a shared state `σ`. A step is a
function of the state it finds: it answers with a result and a new state, it waits (the thread
may try again later, as at a sleep), or it panics (the whole system stops).

`Prog.run` executes a program with nobody else running; `Lib.Threads` interleaves several.
-/

namespace Xv6.Lib

/-- What one atomic step does in a state. -/
inductive Outcome (σ ρ : Type) where
  | ok (r : ρ) (s : σ)
  | wait
  | panic (msg : String)

/-- What is seen of the end of a run. -/
def Outcome.seen {σ ρ β : Type} (f : ρ → σ → β) : Outcome σ ρ → Option β
  | .ok r s => some (f r s)
  | _ => none

/-- A program: a result, or an atomic step and what follows each of its answers. -/
inductive Prog (σ : Type) (α : Type) : Type 1 where
  | ret (a : α)
  | step {ρ : Type} (f : σ → Outcome σ ρ) (k : ρ → Prog σ α)

namespace Prog

variable {σ α β γ : Type}

protected def bind : Prog σ α → (α → Prog σ β) → Prog σ β
  | .ret a, g => g a
  | .step f k, g => .step f fun r => (k r).bind g

instance : Monad (Prog σ) where
  pure := .ret
  bind := Prog.bind

/-- One atomic step as a program. -/
def atomic {ρ : Type} (f : σ → Outcome σ ρ) : Prog σ ρ := .step f .ret

/-- Read the state. -/
def get : Prog σ σ := atomic fun s => .ok s s

/-- Change the state. -/
def modify (f : σ → σ) : Prog σ Unit := atomic fun s => .ok () (f s)

/-- Stop the whole system. -/
def panic (msg : String) : Prog σ α := .step (ρ := Empty) (fun _ => .panic msg) Empty.elim

@[simp] theorem pure_eq (a : α) : (pure a : Prog σ α) = .ret a := rfl

@[simp] theorem ret_bind (a : α) (g : α → Prog σ β) : (Prog.ret a >>= g) = g a := rfl

@[simp] theorem step_bind {ρ : Type} (f : σ → Outcome σ ρ) (k : ρ → Prog σ α)
    (g : α → Prog σ β) : (Prog.step f k >>= g) = .step f fun r => k r >>= g := rfl

theorem bind_assoc' (p : Prog σ α) (g : α → Prog σ β) (h : β → Prog σ γ) :
    (p >>= g) >>= h = p >>= fun a => g a >>= h := by
  induction p with
  | ret a => rfl
  | step f k ih =>
    simp only [step_bind]
    congr 1
    funext r
    exact ih r

/-- Execute a program alone, from a state. -/
def run : Prog σ α → σ → Outcome σ α
  | .ret a, s => .ok a s
  | .step f k, s =>
    match f s with
    | .ok r s' => (k r).run s'
    | .wait => .wait
    | .panic m => .panic m

@[simp] theorem run_ret (a : α) (s : σ) : (Prog.ret a).run s = .ok a s := rfl

theorem run_step {ρ : Type} (f : σ → Outcome σ ρ) (k : ρ → Prog σ α) (s : σ) :
    (Prog.step f k).run s =
      match f s with
      | .ok r s' => (k r).run s'
      | .wait => .wait
      | .panic m => .panic m := by
  rw [run]

theorem run_bind (p : Prog σ α) (g : α → Prog σ β) (s : σ) :
    (p >>= g).run s =
      match p.run s with
      | .ok a s' => (g a).run s'
      | .wait => .wait
      | .panic m => .panic m := by
  induction p generalizing s with
  | ret a => rfl
  | step f k ih =>
    simp only [step_bind, run_step]
    cases f s with
    | ok r s' => exact ih r s'
    | wait => rfl
    | panic m => rfl

end Prog
end Xv6.Lib
