import Xv6.Lib.Prog

/-!
# Interleaved threads under one invariant

A `Pool` is a shared state and, for every thread, the call it is executing (if any) with what is
left of the call's program. A step of the pool starts a call with its first atomic step, executes
the next atomic step of one thread, or lets a finished call return. Every interleaving of the
threads is a sequence of such steps.

The proof rule is the usual one for lock-based code. Each thread owns a *ghost* value `L`; the
*invariant* ties the shared state to the ghost values of all threads. `p.Keeps S t l Q` says of
the program `p` of thread `t`: whatever state the other threads have left, as long as the
invariant holds there with `t`'s own ghost value `l`, the next step of `p` re-establishes it for
some new ghost value of `t`, changes the state only as the *guarantee* allows, and so on to the
end, where `Q` holds of the result and the ghost value. The ghost values of other threads are not
touched, so what `t` knows through `l` and the invariant is stable. Where the thread is said to be
`able`, its next step must also neither wait nor panic.

`Good.step` is the soundness theorem: if the body of every call keeps the invariant, every step
of the pool does.
-/

namespace Xv6.Lib

open Function

/-- The state of a system of threads `T` that execute calls `C` with results in `R`. -/
structure Pool (σ T C R : Type) : Type 1 where
  shared : σ
  run : T → Option (C × Prog σ R)

section

variable {σ T C R L α β : Type} [DecidableEq T]

/-- One step of one thread. `start t c s`: thread `t`, between calls, may issue the call `c` in
    the state `s`; `body t c` is the program of the call. -/
inductive Pool.Step (start : T → C → σ → Prop) (body : T → C → Prog σ R) :
    Pool σ T C R → Pool σ T C R → Prop where
  | start {x : Pool σ T C R} (t : T) (c : C) {ρ : Type} (f : σ → Outcome σ ρ) (k : ρ → Prog σ R)
      (r : ρ) (s' : σ) (idle : x.run t = none) (may : start t c x.shared)
      (first : body t c = .step f k) (does : f x.shared = .ok r s') :
      Pool.Step start body x ⟨s', update x.run t (some (c, k r))⟩
  | act {x : Pool σ T C R} (t : T) (c : C) {ρ : Type} (f : σ → Outcome σ ρ) (k : ρ → Prog σ R)
      (r : ρ) (s' : σ) (at_ : x.run t = some (c, .step f k)) (does : f x.shared = .ok r s') :
      Pool.Step start body x ⟨s', update x.run t (some (c, k r))⟩
  | finish {x : Pool σ T C R} (t : T) (c : C) (r : R) (at_ : x.run t = some (c, .ret r)) :
      Pool.Step start body x ⟨x.shared, update x.run t none⟩

/-- What the proof of a system rests on: the invariant, the guarantee, and when a thread must be
    able to take its next step. -/
structure Spec (σ T L : Type) where
  inv : σ → (T → L) → Prop
  guar : σ → σ → Prop
  able : T → σ → (T → L) → Prop

/-- Thread `t`'s program `p`, at ghost value `l`, keeps the invariant and the guarantee at each of
    its steps and ends with `Q`. -/
def Prog.Keeps (S : Spec σ T L) (t : T) : Prog σ α → L → (α → L → Prop) → Prop
  | .ret a, l, Q => Q a l
  | .step f k, l, Q => ∀ s loc, S.inv s loc → loc t = l →
      (S.able t s loc → ∃ r s', f s = .ok r s') ∧
      ∀ r s', f s = .ok r s' →
        S.guar s s' ∧ ∃ l', S.inv s' (update loc t l') ∧ (k r).Keeps S t l' Q

/-- The same of a program whose first step is taken in the state `s`, if it can be taken. -/
def Prog.KeepsFrom (S : Spec σ T L) (t : T) (p : Prog σ α) (s : σ) (loc : T → L)
    (Q : α → L → Prop) : Prop :=
  match p with
  | .ret a => Q a (loc t)
  | .step f k => ∀ r s', f s = .ok r s' →
      S.guar s s' ∧ ∃ l', S.inv s' (update loc t l') ∧ (k r).Keeps S t l' Q

variable {S : Spec σ T L} {t : T}

theorem Prog.Keeps.mono {p : Prog σ α} {l : L} {Q Q' : α → L → Prop} (h : p.Keeps S t l Q)
    (hQ : ∀ a l, Q a l → Q' a l) : p.Keeps S t l Q' := by
  induction p generalizing l with
  | ret a => exact hQ a l h
  | step f k ih =>
    intro s loc hI hl
    obtain ⟨hab, hok⟩ := h s loc hI hl
    refine ⟨hab, fun r s' hf => ?_⟩
    obtain ⟨hG, l', hI', hk⟩ := hok r s' hf
    exact ⟨hG, l', hI', ih r hk⟩

theorem Prog.Keeps.bind {p : Prog σ α} {g : α → Prog σ β} {l : L} {Q : α → L → Prop}
    {Q' : β → L → Prop} (h : p.Keeps S t l Q) (hg : ∀ a l', Q a l' → (g a).Keeps S t l' Q') :
    (p >>= g).Keeps S t l Q' := by
  induction p generalizing l with
  | ret a => exact hg a l h
  | step f k ih =>
    intro s loc hI hl
    obtain ⟨hab, hok⟩ := h s loc hI hl
    refine ⟨hab, fun r s' hf => ?_⟩
    obtain ⟨hG, l', hI', hk⟩ := hok r s' hf
    exact ⟨hG, l', hI', ih r hk⟩

/-- What follows a program is run with each value that it can end with. -/
theorem Prog.Keeps.seq {p : Prog σ α} {g : α → Prog σ β} {l : L} {Q' : β → L → Prop}
    (h : p.Keeps S t l fun a l' => (g a).Keeps S t l' Q') : (p >>= g).Keeps S t l Q' :=
  h.bind fun _ _ hg => hg

/-- The guarantee may be weakened. -/
theorem Prog.Keeps.weaken {S' : Spec σ T L} {p : Prog σ α} {l : L} {Q : α → L → Prop}
    (h : p.Keeps S t l Q) (hinv : S'.inv = S.inv) (hable : S'.able = S.able)
    (hguar : ∀ s s', S.guar s s' → S'.guar s s') : p.Keeps S' t l Q := by
  induction p generalizing l with
  | ret a => exact h
  | step f k ih =>
    intro s loc hI hl
    rw [hinv] at hI
    obtain ⟨hab, hok⟩ := h s loc hI hl
    refine ⟨by rw [hable]; exact hab, fun r s' hf => ?_⟩
    obtain ⟨hG, l', hI', hk⟩ := hok r s' hf
    exact ⟨hguar s s' hG, l', hinv ▸ hI', ih r hk⟩

theorem Prog.KeepsFrom.mono {p : Prog σ α} {s : σ} {loc : T → L} {Q Q' : α → L → Prop}
    (h : p.KeepsFrom S t s loc Q) (hQ : ∀ a l, Q a l → Q' a l) : p.KeepsFrom S t s loc Q' := by
  cases p with
  | ret a => exact hQ a _ h
  | step f k =>
    intro r s' hf
    obtain ⟨hG, l', hI', hk⟩ := h r s' hf
    exact ⟨hG, l', hI', hk.mono hQ⟩

theorem Prog.KeepsFrom.weaken {S' : Spec σ T L} {p : Prog σ α} {s : σ} {loc : T → L}
    {Q : α → L → Prop} (h : p.KeepsFrom S t s loc Q) (hinv : S'.inv = S.inv)
    (hable : S'.able = S.able) (hguar : ∀ s s', S.guar s s' → S'.guar s s') :
    p.KeepsFrom S' t s loc Q := by
  cases p with
  | ret a => exact h
  | step f k =>
    intro r s' hf
    obtain ⟨hG, l', hI', hk⟩ := h r s' hf
    exact ⟨hguar s s' hG, l', hinv ▸ hI', hk.weaken hinv hable hguar⟩

/-- The rule for one atomic step. -/
theorem Prog.Keeps.atomic {f : σ → Outcome σ α} {l : L} {Q : α → L → Prop}
    (h : ∀ s loc, S.inv s loc → loc t = l → (S.able t s loc → ∃ r s', f s = .ok r s') ∧
      ∀ r s', f s = .ok r s' →
        S.guar s s' ∧ ∃ l', S.inv s' (update loc t l') ∧ Q r l') :
    (Prog.atomic f).Keeps S t l Q := h

/-- The rule for a step that always succeeds. -/
theorem Prog.Keeps.modify {f : σ → σ} {l : L} {Q : Unit → L → Prop}
    (h : ∀ s loc, S.inv s loc → loc t = l →
      S.guar s (f s) ∧ ∃ l', S.inv (f s) (update loc t l') ∧ Q () l') :
    (Prog.modify f).Keeps S t l Q := by
  refine .atomic fun s loc hI hl => ⟨fun _ => ⟨_, _, rfl⟩, fun r s' hf => ?_⟩
  cases hf
  exact h s loc hI hl

/-- A step that only looks: what it saw is known of some state the invariant allows. -/
theorem Prog.Keeps.get {l : L} {Q : σ → L → Prop} (hG : ∀ s, S.guar s s)
    (h : ∀ s loc, S.inv s loc → loc t = l → Q s l) : (Prog.get : Prog σ σ).Keeps S t l Q := by
  refine .atomic fun s loc hI hl => ⟨fun _ => ⟨_, _, rfl⟩, fun r s' hf => ?_⟩
  cases hf
  refine ⟨hG s, l, ?_, h s loc hI hl⟩
  rw [← hl, update_eq_self]
  exact hI

/-- A program that keeps the invariant from wherever it is started does so from `s`. -/
theorem Prog.Keeps.from {p : Prog σ α} {s : σ} {loc : T → L} {Q : α → L → Prop}
    (h : p.Keeps S t (loc t) Q) (hI : S.inv s loc) : p.KeepsFrom S t s loc Q := by
  cases p with
  | ret a => exact h
  | step f k => exact (h s loc hI rfl).2

theorem Prog.KeepsFrom.bind {p : Prog σ α} {g : α → Prog σ β} {s : σ} {loc : T → L}
    {Q : α → L → Prop} {Q' : β → L → Prop} (hI : S.inv s loc) (h : p.KeepsFrom S t s loc Q)
    (hg : ∀ a l', Q a l' → (g a).Keeps S t l' Q') : (p >>= g).KeepsFrom S t s loc Q' := by
  cases p with
  | ret a => exact (hg a _ h).from hI
  | step f k =>
    intro r s' hf
    obtain ⟨hG, l', hI', hk⟩ := h r s' hf
    exact ⟨hG, l', hI', hk.bind hg⟩

/-! ## Soundness -/

/-- The invariant holds, every running call keeps it, and every thread between calls has a ghost
    value it may rest at. -/
def Pool.Good (S : Spec σ T L) (rest : T → L → Prop)
    (post : T → C → R → L → Prop) (x : Pool σ T C R) : Prop :=
  ∃ loc : T → L, S.inv x.shared loc ∧ ∀ t,
    (x.run t = none → rest t (loc t)) ∧
    (∀ c p, x.run t = some (c, p) → p.Keeps S t (loc t) (post t c))

variable {rest : T → L → Prop} {post : T → C → R → L → Prop}
  {start : T → C → σ → Prop} {body : T → C → Prog σ R}

/-- After a step of thread `t` the pool is good again if what is left of `t`'s call is. -/
theorem Pool.Good.of_step {x : Pool σ T C R} {loc : T → L} {s' : σ} {l' : L} {c : C}
    {p : Prog σ R}
    (hall : ∀ u, (x.run u = none → rest u (loc u)) ∧
      (∀ c p, x.run u = some (c, p) → p.Keeps S u (loc u) (post u c)))
    (hI' : S.inv s' (update loc t l')) (hp : p.Keeps S t l' (post t c)) :
    Pool.Good S rest post ⟨s', update x.run t (some (c, p))⟩ := by
  refine ⟨update loc t l', hI', fun u => ?_⟩
  by_cases hu : u = t
  · subst hu
    refine ⟨fun hn => by simp at hn, fun c' p' hp' => ?_⟩
    simp only [update_self, Option.some.injEq, Prod.mk.injEq] at hp'
    obtain ⟨rfl, rfl⟩ := hp'
    simpa only [update_self] using hp
  · simpa only [update_of_ne hu] using hall u

theorem Pool.Good.step {x x' : Pool σ T C R} (h : x.Good S rest post) (hG : ∀ s, S.guar s s)
    (hstart : ∀ t c s loc, S.inv s loc → rest t (loc t) → start t c s →
      (body t c).KeepsFrom S t s loc (post t c))
    (hpost : ∀ t c r l, post t c r l → rest t l) (hs : Pool.Step start body x x') :
    S.guar x.shared x'.shared ∧ x'.Good S rest post := by
  obtain ⟨loc, hI, hall⟩ := h
  cases hs with
  | start t c f k r s' idle may first does =>
    have hk := hstart t c x.shared loc hI ((hall t).1 idle) may
    rw [first] at hk
    obtain ⟨hg, l', hI', hk'⟩ := hk r s' does
    exact ⟨hg, .of_step hall hI' hk'⟩
  | act t c f k r s' at_ does =>
    obtain ⟨hg, l', hI', hk⟩ := ((hall t).2 c _ at_ x.shared loc hI rfl).2 r s' does
    exact ⟨hg, .of_step hall hI' hk⟩
  | finish t c r at_ =>
    refine ⟨hG _, loc, hI, fun u => ?_⟩
    by_cases hu : u = t
    · subst hu
      refine ⟨fun _ => hpost u c r (loc u) ((hall u).2 c _ at_), fun c' p hp => ?_⟩
      simp at hp
    · simpa only [update_of_ne hu] using hall u

/-- A thread that stays able gets to the end of its program `p` if nobody else interferes. -/
theorem Prog.Keeps.completes {p : Prog σ α} {g : α → Prog σ R} {l : L} {Q : α → L → Prop}
    (h : p.Keeps S t l Q) {x : Pool σ T C R} {c : C} {loc : T → L}
    (hrun : x.run t = some (c, p >>= g)) (hI : S.inv x.shared loc) (hl : loc t = l)
    (ha : S.able t x.shared loc)
    (hst : ∀ s loc s' l', S.able t s loc → S.guar s s' → S.able t s' (update loc t l')) :
    ∃ a s' l', Relation.ReflTransGen
        (fun y y' => Pool.Step start body y y' ∧ ∃ loc, S.able t y.shared loc) x
        ⟨s', update x.run t (some (c, g a))⟩ ∧
      S.able t s' (update loc t l') ∧ S.inv s' (update loc t l') ∧ Q a l' := by
  induction p generalizing l x loc with
  | ret a =>
    refine ⟨a, x.shared, l, ?_, ?_⟩
    · have hsame : update x.run t (some (c, g a)) = x.run := by
        rw [update_eq_self_iff, hrun]
        rfl
      rw [hsame]
    · rw [← hl, update_eq_self]
      exact ⟨ha, hI, hl ▸ h⟩
  | step f k ih =>
    obtain ⟨hab, hok⟩ := h x.shared loc hI hl
    obtain ⟨r, s₁, hf⟩ := hab ha
    obtain ⟨hG, l₁, hI₁, hk⟩ := hok r s₁ hf
    have hstep : Pool.Step start body x ⟨s₁, update x.run t (some (c, k r >>= g))⟩ :=
      .act t c f (fun r => k r >>= g) r s₁ hrun hf
    obtain ⟨a, s', l', hreach, ha', hI', hQ⟩ :=
      ih r (x := ⟨s₁, update x.run t (some (c, k r >>= g))⟩) hk (update_self ..)
        hI₁ (update_self ..) (hst x.shared loc s₁ l₁ ha hG)
    rw [update_idem] at hI' ha' hreach
    exact ⟨a, s', l', .head ⟨hstep, loc, ha⟩ hreach, ha', hI', hQ⟩

/-! ## Calls that nobody disturbs -/

end

/-- A sum over all threads after one of them changed its ghost value. -/
theorem sum_update_add {T L : Type} [DecidableEq T] [Fintype T] (g : L → Nat) (loc : T → L) (t : T)
    (l : L) : ∑ u, g (update loc t l u) + g (loc t) = ∑ u, g (loc u) + g l := by
  have h1 := Finset.add_sum_erase Finset.univ (fun u => g (loc u)) (Finset.mem_univ t)
  have h2 := Finset.add_sum_erase Finset.univ (fun u => g (update loc t l u))
    (Finset.mem_univ t)
  have h3 : ∑ u ∈ Finset.univ.erase t, g (update loc t l u)
      = ∑ u ∈ Finset.univ.erase t, g (loc u) :=
    Finset.sum_congr rfl fun u hu => by rw [update_of_ne (Finset.ne_of_mem_erase hu)]
  simp only [update_self] at h2
  omega

end Xv6.Lib
