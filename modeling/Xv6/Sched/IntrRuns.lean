import Xv6.Sched.Intr

/-!
# Interrupts follow the thread

`Fine` reads the instructions that a thread has left, with how often it has turned interrupts off
and which locks it holds: no `pop_off` without a `push_off`, no `release` without an `acquire`, and
`sched` with `p->lock` and nothing else. What a thread may call is fine, and executing an
instruction leaves something fine, so a thread that is fine never panics. On top of this, `noff` of
a CPU is the count of the thread that it executes, and `intena` is what this thread found at its
outermost `push_off`: across `sched` the thread carries the latter along, and the former is 1 on
both sides.
-/

namespace Xv6.Intr

open Lib Sched List
open Function (update update_of_ne update_self)

/-! ## What is left to execute -/

/-- What a thread may still execute: `n` is how often interrupts are off, `held` are the locks, and
    at the end `E` holds of `n`. A thread does not stop between `intr_get` and `intr_off`, or in
    `sched`, of its own accord. -/
def Fine (owner : Option Nat) (E : Nat → Prop) : List Instr → Nat → Finset Lock → Prop
  | [], n, _ => E n
  | .intrGet :: .off :: r, n, held => Fine owner E r (n + 1) held
  | .swap l :: r, n, held => held.card < n ∧ (l ∉ held → Fine owner E r n (insert l held))
  | .clear l :: r, n, held => l ∈ held ∧ Fine owner E r n (held.erase l)
  | .popOff :: r, n, held => held.card < n ∧ Fine owner E r (n - 1) held
  | .sched :: .resumed :: r, n, held =>
    n = 1 ∧ (∃ p, owner = some p ∧ held = {.proc p}) ∧ Fine owner E r n held
  | .intrOn :: r, n, held => n = 0 ∧ Fine owner E r n held
  | .intrOff :: r, n, held => n = 0 ∧ Fine owner E r n held
  | .pick p :: r, n, held => owner = none ∧ n = 1 ∧ held = {.proc p} ∧ Fine owner E r n held
  | _, _, _ => False

/-- The loop of a scheduler ends with interrupts as they were; other threads may stop anywhere. -/
def Ends (owner : Option Nat) (rest : List Frame) (n : Nat) : Prop :=
  owner = none → rest = [] → n = 0

section

variable {owner : Option Nat} {E : Nat → Prop} {r : List Instr} {n p : Nat} {held : Finset Lock}
  {l lk : Lock}

theorem fine_acquire (hc : held.card ≤ n) (h : l ∉ held → Fine owner E r (n + 1) (insert l held)) :
    Fine owner E (acquire l ++ r) n held := by
  simp only [acquire, pushOff, cons_append, nil_append, Fine]
  exact ⟨by omega, h⟩

theorem fine_release (hl : l ∈ held) (hc : held.card ≤ n)
    (h : Fine owner E r (n - 1) (held.erase l)) : Fine owner E (release l ++ r) n held := by
  simp only [release, cons_append, nil_append, Fine]
  have := Finset.card_erase_lt_of_mem hl
  exact ⟨hl, by omega, h⟩

theorem fine_sched (h : Fine (some p) E r 1 {.proc p}) :
    Fine (some p) E (sched ++ r) 1 {.proc p} := by
  simp only [sched, cons_append, nil_append, Fine]
  exact ⟨trivial, ⟨p, rfl, rfl⟩, h⟩

theorem fine_yield (h : E 0) : Fine (some p) E (yield p) 0 ∅ := by
  rw [yield, append_assoc]
  refine fine_acquire (by simp) fun _ => ?_
  rw [insert_empty_eq]
  refine fine_sched ?_
  rw [← append_nil (release _)]
  exact fine_release (by simp) (by simp) h

theorem fine_sleep (h : E 1) : Fine (some p) E (sleep p lk) 1 {lk} := by
  simp only [sleep, append_assoc]
  refine fine_acquire (by simp) fun hne => ?_
  rw [Finset.mem_singleton] at hne
  have hcard : (insert (.proc p) {lk} : Finset Lock).card ≤ 2 := Finset.card_le_two
  refine fine_release (by simp) hcard ?_
  have hleft : (insert (.proc p) {lk} : Finset Lock).erase lk = {.proc p} := by
    ext x
    simp only [Finset.mem_erase, Finset.mem_insert, Finset.mem_singleton]
    constructor
    · rintro ⟨hx, rfl | rfl⟩
      · rfl
      · exact absurd rfl hx
    · rintro rfl
      exact ⟨hne, .inl rfl⟩
  rw [hleft]
  refine fine_sched (fine_release (by simp) (by simp) ?_)
  rw [← append_nil (acquire _)]
  exact fine_acquire (by simp) fun _ => h

theorem fine_visits (ps : List Nat) (h : E 0) : Fine none E (ps.flatMap visit) 0 ∅ := by
  induction ps with
  | nil => exact h
  | cons p ps ih =>
    rw [flatMap_cons, visit, append_assoc]
    refine fine_acquire (by simp) fun _ => ?_
    rw [insert_empty_eq, cons_append, Fine]
    refine ⟨rfl, rfl, rfl, fine_release (by simp) (by simp) ?_⟩
    simpa using ih

theorem fine_scheduler (h : E 0) : Fine none E scheduler 0 ∅ := by
  rw [scheduler, Fine]
  exact ⟨rfl, fine_visits _ h⟩

theorem fine_forkret (h : E 0) : Fine owner E (forkret p) 1 {.proc p} := by
  rw [forkret, ← append_nil (release _)]
  exact fine_release (by simp) (by simp) h

end

theorem ends_some {p n : Nat} {rest : List Frame} : Ends (some p) rest n := by
  intro h
  cases h

theorem ends_cons {owner : Option Nat} {f : Frame} {rest : List Frame} {n : Nat} :
    Ends owner (f :: rest) n := by
  intro _ h
  cases h

/-- What a thread may call is fine. -/
theorem calls_fine {owner : Option Nat} {T : Thread} {f : List Instr} (h : Calls owner T f)
    (hc : T.held.card ≤ T.n) (hend : Ends owner T.rest T.n) :
    Fine owner (Ends owner T.rest) f T.n T.held := by
  -- outside of its loop a scheduler is in a trap
  have hother : (owner ≠ none ∨ T.rest ≠ []) → ∀ n, Ends owner T.rest n := by
    rintro (ho | hr) n h1 h2
    · exact absurd h1 ho
    · exact absurd h2 hr
  have hzero : T.n = 0 → T.held = ∅ := by
    intro hn
    exact Finset.card_eq_zero.mp (by omega)
  cases h with
  | acquire l h =>
    rw [← append_nil (acquire l)]
    exact fine_acquire hc fun _ => hother h _
  | release hl =>
    rw [← append_nil (release _)]
    refine fine_release hl hc ?_
    intro h1 h2
    rw [hend h1 h2]
  | pushOff h => exact hother h _
  | popOff h =>
    refine ⟨h, ?_⟩
    intro h1 h2
    rw [hend h1 h2]
  | yield hp hn =>
    rw [hzero hn, hn, hp]
    exact fine_yield ends_some
  | sleep hp hn hh =>
    rw [hh, hn, hp]
    exact fine_sleep ends_some
  | intrOn hp hn hr => exact ⟨hn, hend⟩
  | intrOff hp hn hr => exact ⟨hn, hend⟩
  | scheduler hp hr =>
    have hn := hend hp hr
    rw [hzero hn, hn, hp]
    refine fine_scheduler ?_
    intro _ _
    rfl

/-! ## Threads -/

/-- A frame can go on, with interrupts as `intr` says: its instructions are fine, or it is in
    `push_off` and has read `old`. -/
def Ready (owner : Option Nat) (E : Nat → Prop) (f : Frame) (n : Nat) (held : Finset Lock)
    (intr : Bool) : Prop :=
  Fine owner E f.todo n held ∨ ∃ r, f.todo = .off :: r ∧ Fine owner E r (n + 1) held ∧
    f.old = intr ∧ (n = 0 → f.was = some intr)

/-- Frames that traps have interrupted: interrupts were on. -/
def Below (owner : Option Nat) : List Frame → Prop
  | [] => True
  | f :: fs => Ready owner (Ends owner fs) f 0 ∅ true ∧ Below owner fs

/-- Whether interrupts are to be on after the outermost `pop_off`: what the thread found at its
    outermost `push_off`, unless it has just begun, in `forkret`. -/
def Keeps (f : Frame) (n : Nat) (intena : Bool) : Prop :=
  f.was = some intena ∨ f.was = none ∧ n = 1 ∧ (f.todo = [.popOff] ∨ ∃ p, f.todo = forkret p)

/-- A thread that a CPU executes. -/
structure Live (owner : Option Nat) (T : Thread) (k : Cpu) : Prop where
  ready : Ready owner (Ends owner T.rest) T.top T.n T.held k.intr
  below : Below owner T.rest
  kept : owner ≠ none → 0 < T.n → Keeps T.top T.n k.intena

/-- The thread of the process `p` is in `sched`, or has not begun. -/
structure Suspended (p : Nat) (T : Thread) : Prop where
  n : T.n = 1
  held : T.held = {.proc p}
  below : Below (some p) T.rest
  todo : (∃ r, T.top.todo = .resumed :: r ∧ Fine (some p) (Ends (some p) T.rest) r 1 {.proc p} ∧
      T.top.was = some T.top.intena) ∨
    (T.top.todo = forkret p ∧ T.top.was = none)

/-- A scheduler has switched to the process `p`. -/
structure Parked (p : Nat) (T : Thread) : Prop where
  n : T.n = 1
  held : T.held = {.proc p}
  below : Below none T.rest
  fine : Fine none (Ends none T.rest) T.top.todo 1 {.proc p}

/-- A thread with the CPU that executes it. -/
structure Running (owner : Option Nat) (T : Thread) (k : Cpu) : Prop where
  noff : k.noff = T.n
  off : 0 < T.n → k.intr = false
  card : T.held.card ≤ T.n
  state : Live owner T k ∨ ∃ p, owner = some p ∧ Suspended p T

/-! ## One instruction -/

section

variable {owner : Option Nat} {E : Nat → Prop} {r : List Instr} {n : Nat} {held : Finset Lock}
  {i : Instr}

theorem fine_intrGet (h : Fine owner E (.intrGet :: r) n held) :
    ∃ r', r = .off :: r' ∧ Fine owner E r' (n + 1) held := by
  cases r with
  | nil => simp [Fine] at h
  | cons j r' =>
    cases j with
    | off => exact ⟨r', rfl, by simpa [Fine] using h⟩
    | _ => simp [Fine] at h

theorem fine_sched_iff (h : Fine owner E (.sched :: r) n held) :
    ∃ r', r = .resumed :: r' ∧ n = 1 ∧ (∃ p, owner = some p ∧ held = {.proc p}) ∧
      Fine owner E r' n held := by
  cases r with
  | nil => simp [Fine] at h
  | cons j r' =>
    cases j with
    | resumed => exact ⟨r', rfl, by simpa [Fine] using h⟩
    | _ => simp [Fine] at h

theorem not_fine_off : ¬ Fine owner E (.off :: r) n held := by
  simp [Fine]

theorem not_fine_resumed : ¬ Fine owner E (.resumed :: r) n held := by
  simp [Fine]

/-- Outside of `forkret`, `intena` is what the thread has found. -/
theorem Keeps.found {f : Frame} {intena : Bool} (h : Keeps f n intena) (hf : f.todo = i :: r)
    (hi : i ≠ .popOff) (hc : ∀ l, i ≠ .clear l) : f.was = some intena := by
  rcases h with hs | ⟨-, -, ht | ⟨p, ht⟩⟩
  · exact hs
  · rw [hf] at ht
    exact absurd (cons.inj ht).1 hi
  · rw [hf] at ht
    exact absurd (cons.inj ht).1 (hc _)

end

/-- The locks of the thread on a CPU are those that the CPU holds. -/
def Locked (c : Nat) (lock : Lock → Option Nat) (held : Finset Lock) : Prop :=
  ∀ l, lock l = some c ↔ l ∈ held

/-- What an instruction leaves on the CPU `c`, which had the locks `lock`. -/
structure Leaves (c : Nat) (owner : Option Nat) (lock : Lock → Option Nat) (v : View) : Prop where
  proc : v.cpu.proc = owner
  running : Running owner v.thread v.cpu
  locked : Locked c v.lock v.thread.held
  others : ∀ l c', c' ≠ c → (v.lock l = some c' ↔ lock l = some c')

section

variable {c : Nat} {lock : Lock → Option Nat} {T : Thread} {k : Cpu} {r : List Instr} {v : View}
  {l : Lock}

theorem leaves_intrGet (h : Running k.proc T k) (hl : Live k.proc T k) (hlock : Locked c lock T.held)
    (htodo : T.top.todo = .intrGet :: r)
    (hfine : Fine k.proc (Ends k.proc T.rest) (.intrGet :: r) T.n T.held) :
    Leaves c k.proc lock (execIntrGet ⟨k, lock, T.setTodo r⟩) := by
  obtain ⟨r', rfl, hf⟩ := fine_intrGet hfine
  refine ⟨rfl, ⟨h.noff, h.off, h.card, .inl ⟨.inr ⟨r', rfl, hf, rfl, ?_⟩, hl.below, ?_⟩⟩, hlock,
    fun _ _ _ => Iff.rfl⟩
  · intro hn
    exact if_pos hn
  · intro ho hn
    refine .inl (Eq.trans (if_neg (pos_iff_ne_zero.mp hn)) ?_)
    exact (hl.kept ho hn).found htodo (by simp) (by simp)

theorem leaves_off (h : Running k.proc T k) (hl : Live k.proc T k) (hlock : Locked c lock T.held)
    (htodo : T.top.todo = .off :: r)
    (hfine : Fine k.proc (Ends k.proc T.rest) r (T.n + 1) T.held) (hold : T.top.old = k.intr)
    (hwas : T.n = 0 → T.top.was = some k.intr) :
    Leaves c k.proc lock (execOff ⟨k, lock, T.setTodo r⟩) := by
  have hcard := h.card
  have hnoff := h.noff
  refine ⟨rfl, ⟨?_, fun _ => rfl, ?_, .inl ⟨.inl hfine, hl.below, ?_⟩⟩, hlock,
    fun _ _ _ => Iff.rfl⟩
  · show k.noff + 1 = ((T.n + 1 : Nat) : Int)
    omega
  · show T.held.card ≤ T.n + 1
    omega
  · intro ho _
    show Keeps (T.setTodo r).top (T.n + 1) (if k.noff = 0 then T.top.old else k.intena)
    by_cases hn : T.n = 0
    · rw [if_pos (by omega), hold]
      exact .inl (hwas hn)
    · rw [if_neg (by omega)]
      exact .inl ((hl.kept ho (pos_of_ne_zero hn)).found htodo (by simp) (by simp))

theorem leaves_swap (h : Running k.proc T k) (hl : Live k.proc T k) (hlock : Locked c lock T.held)
    (htodo : T.top.todo = .swap l :: r)
    (hfine : Fine k.proc (Ends k.proc T.rest) (.swap l :: r) T.n T.held)
    (hv : execSwap c l ⟨k, lock, T.setTodo r⟩ = .ok () v) : Leaves c k.proc lock v := by
  obtain ⟨hroom, hnext⟩ := hfine
  unfold execSwap at hv
  split at hv
  · cases hv
  rename_i hmine
  split at hv
  · rename_i hfree
    cases hv
    dsimp only at hmine hfree
    have hnew : l ∉ T.held := by rwa [← hlock l]
    refine ⟨rfl, ⟨h.noff, h.off, ?_, .inl ⟨.inl (hnext hnew), hl.below, ?_⟩⟩, ?_, ?_⟩
    · show (insert l T.held).card ≤ T.n
      rw [Finset.card_insert_of_notMem hnew]
      exact hroom
    · intro ho hn
      exact .inl ((hl.kept ho hn).found htodo (by simp) (by simp))
    · intro x
      show update lock l (some c) x = some c ↔ x ∈ insert l T.held
      rw [Finset.mem_insert]
      by_cases hx : x = l
      · rw [hx, update_self]
        simp
      · rw [update_of_ne hx, hlock x]
        simp [hx]
    · intro x c' hc'
      show update lock l (some c) x = some c' ↔ _
      by_cases hx : x = l
      · rw [hx, update_self, hfree]
        simp [Ne.symm hc']
      · rw [update_of_ne hx]
  · cases hv

theorem leaves_clear (h : Running k.proc T k) (hl : Live k.proc T k) (hlock : Locked c lock T.held)
    (htodo : T.top.todo = .clear l :: r)
    (hfine : Fine k.proc (Ends k.proc T.rest) (.clear l :: r) T.n T.held)
    (hv : execClear c l ⟨k, lock, T.setTodo r⟩ = .ok () v) : Leaves c k.proc lock v := by
  obtain ⟨hmem, hnext⟩ := hfine
  have hcard := h.card
  have hless := Finset.card_erase_lt_of_mem hmem
  unfold execClear at hv
  split at hv
  · cases hv
  · cases hv
    refine ⟨rfl, ⟨h.noff, h.off, ?_, .inl ⟨.inl hnext, hl.below, ?_⟩⟩, ?_, ?_⟩
    · show (T.held.erase l).card ≤ T.n
      omega
    · intro ho hn
      rcases hl.kept ho hn with hs | ⟨hs, h1, ht | ⟨p, ht⟩⟩
      · exact .inl hs
      · rw [htodo] at ht
        cases ht
      · rw [htodo] at ht
        cases ht
        exact .inr ⟨hs, h1, .inl rfl⟩
    · intro x
      show update lock l none x = some c ↔ x ∈ T.held.erase l
      rw [Finset.mem_erase]
      by_cases hx : x = l
      · rw [hx, update_self]
        simp
      · rw [update_of_ne hx, hlock x]
        simp [hx]
    · intro x c' hc'
      show update lock l none x = some c' ↔ _
      by_cases hx : x = l
      · rw [hx, update_self, (hlock l).mpr hmem]
        simp [Ne.symm hc']
      · rw [update_of_ne hx]

theorem leaves_popOff (h : Running k.proc T k) (hl : Live k.proc T k) (hlock : Locked c lock T.held)
    (hfine : Fine k.proc (Ends k.proc T.rest) (.popOff :: r) T.n T.held)
    (hv : execPopOff ⟨k, lock, T.setTodo r⟩ = .ok () v) : Leaves c k.proc lock v := by
  obtain ⟨hroom, hnext⟩ := hfine
  have hnoff := h.noff
  unfold execPopOff at hv
  split at hv
  · cases hv
  rename_i hoff
  split at hv
  · cases hv
  cases hv
  dsimp only at hoff
  refine ⟨rfl, ⟨?_, ?_, ?_, .inl ⟨.inl hnext, hl.below, ?_⟩⟩, hlock, fun _ _ _ => Iff.rfl⟩
  · show k.noff - 1 = ((T.n - 1 : Nat) : Int)
    omega
  · intro hn
    change 0 < T.n - 1 at hn
    show (if k.noff - 1 = 0 ∧ k.intena then true else k.intr) = false
    rw [if_neg (by omega)]
    simpa using hoff
  · show T.held.card ≤ T.n - 1
    omega
  · intro ho hn
    change 0 < T.n - 1 at hn
    rcases hl.kept ho (by omega) with hs | ⟨-, h1, -⟩
    · exact .inl hs
    · omega

/-- `intr_on` and `intr_off` are called while interrupts are not turned off otherwise. -/
theorem leaves_intr (h : Running k.proc T k) (hl : Live k.proc T k) (hlock : Locked c lock T.held)
    (hzero : T.n = 0) (hfine : Fine k.proc (Ends k.proc T.rest) r T.n T.held) (b : Bool) :
    Leaves c k.proc lock ⟨{ k with intr := b }, lock, T.setTodo r⟩ := by
  refine ⟨rfl, ⟨h.noff, ?_, h.card, .inl ⟨.inl hfine, hl.below, ?_⟩⟩, hlock, fun _ _ _ => Iff.rfl⟩
  · intro hn
    exact absurd hn (by rw [show (T.setTodo r).n = T.n from rfl]; omega)
  · intro _ hn
    exact absurd hn (by rw [show (T.setTodo r).n = T.n from rfl]; omega)

theorem leaves_pick {p : Nat} (h : Running k.proc T k) (hl : Live k.proc T k)
    (hlock : Locked c lock T.held)
    (hfine : Fine k.proc (Ends k.proc T.rest) (.pick p :: r) T.n T.held) :
    Leaves c k.proc lock ⟨k, lock, T.setTodo r⟩ := by
  obtain ⟨hnone, -, -, hnext⟩ := hfine
  exact ⟨rfl, ⟨h.noff, h.off, h.card, .inl ⟨.inl hnext, hl.below, fun ho => absurd hnone ho⟩⟩,
    hlock, fun _ _ _ => Iff.rfl⟩

/-- The thread gets back what it has to keep. -/
theorem leaves_resumed {p : Nat} (h : Running k.proc T k) (hlock : Locked c lock T.held)
    (hp : k.proc = some p) (hs : Suspended p T) (htodo : T.top.todo = .resumed :: r) :
    Leaves c k.proc lock ⟨{ k with intena := T.top.intena }, lock, T.setTodo r⟩ := by
  rcases hs.todo with ⟨r', ht, hfine, hwas⟩ | ⟨ht, -⟩
  · rw [htodo] at ht
    cases ht
    have hready : Fine (some p) (Ends (some p) T.rest) r T.n T.held := by
      rw [hs.n, hs.held]
      exact hfine
    refine ⟨rfl, ⟨h.noff, h.off, h.card, .inl ?_⟩, hlock, fun _ _ _ => Iff.rfl⟩
    rw [hp]
    exact ⟨.inl hready, hs.below, fun _ _ => .inl hwas⟩
  · rw [htodo] at ht
    cases ht

/-- A thread that has not begun is as one that goes on. -/
theorem Running.live_or (h : Running k.proc T k) :
    Live k.proc T k ∨ ∃ p r, k.proc = some p ∧ Suspended p T ∧ T.top.todo = .resumed :: r := by
  rcases h.state with hl | ⟨p, hp, hs⟩
  · exact .inl hl
  · rcases hs.todo with ⟨r, ht, -, -⟩ | ⟨ht, hwas⟩
    · exact .inr ⟨p, r, hp, hs, ht⟩
    · refine .inl ?_
      rw [hp]
      refine ⟨.inl ?_, hs.below, fun _ _ => .inr ⟨hwas, hs.n, .inr ⟨p, ht⟩⟩⟩
      rw [ht, hs.n, hs.held]
      exact fine_forkret ends_some

/-- What every instruction but `sched` leaves. -/
theorem exec_leaves {i : Instr} (h : Running k.proc T k) (hlock : Locked c lock T.held)
    (htodo : T.top.todo = i :: r) (hi : i ≠ .sched)
    (hv : exec c i ⟨k, lock, T.setTodo r⟩ = .ok () v) : Leaves c k.proc lock v := by
  rcases h.live_or with hl | ⟨p, r', hp, hs, ht⟩
  · rcases hl.ready with hfine | ⟨r', ht, hfine, hold, hwas⟩
    · rw [htodo] at hfine
      cases i with
      | intrGet =>
        cases hv
        exact leaves_intrGet h hl hlock htodo hfine
      | off => exact absurd hfine not_fine_off
      | swap l => exact leaves_swap h hl hlock htodo hfine hv
      | clear l => exact leaves_clear h hl hlock htodo hfine hv
      | popOff => exact leaves_popOff h hl hlock hfine hv
      | sched => exact absurd rfl hi
      | resumed => exact absurd hfine not_fine_resumed
      | intrOn =>
        cases hv
        exact leaves_intr h hl hlock hfine.1 hfine.2 true
      | intrOff =>
        cases hv
        exact leaves_intr h hl hlock hfine.1 hfine.2 false
      | pick p =>
        cases hv
        exact leaves_pick h hl hlock hfine
    · rw [htodo] at ht
      cases ht
      cases hv
      exact leaves_off h hl hlock htodo hfine hold hwas
  · rw [htodo] at ht
    cases ht
    cases hv
    exact leaves_resumed (T := T) h hlock hp hs htodo

end

/-! ## Steps and runs -/

/-- What holds at any time. -/
structure Good (s : State) : Prop where
  running : ∀ c, Running (s.cpu c).proc (s.cur c) (s.cpu c)
  locked : ∀ c, Locked c s.lock (s.cur c).held
  one : ∀ c c' p, (s.cpu c).proc = some p → (s.cpu c').proc = some p → c = c'
  away : ∀ p, s.Away p → Suspended p (s.thread (.proc p))
  parked : ∀ c p, (s.cpu c).proc = some p → Parked p (s.thread (.sched c))

section

variable {s s' : State} {c c' p : Nat} {v : View}

theorem tid_some (h : (s.cpu c).proc = some p) : s.tid c = .proc p := by
  rw [State.tid, h]

theorem tid_none (h : (s.cpu c).proc = none) : s.tid c = .sched c := by
  rw [State.tid, h]

/-- Two CPUs do not execute the same thread. -/
theorem Good.tid_ne (h : Good s) (hne : c' ≠ c) : s.tid c' ≠ s.tid c := by
  intro he
  cases hc : (s.cpu c).proc with
  | none =>
    cases hc' : (s.cpu c').proc with
    | none =>
      rw [tid_none hc, tid_none hc'] at he
      exact hne (Tid.sched.inj he)
    | some q =>
      rw [tid_none hc, tid_some hc'] at he
      cases he
  | some p =>
    cases hc' : (s.cpu c').proc with
    | none =>
      rw [tid_some hc, tid_none hc'] at he
      cases he
    | some q =>
      rw [tid_some hc, tid_some hc'] at he
      cases he
      exact hne (h.one _ _ _ hc' hc)

theorem put_cpu_self : (s.put c v).cpu c = v.cpu := update_self ..

theorem put_cpu_ne (h : c' ≠ c) : (s.put c v).cpu c' = s.cpu c' := update_of_ne h ..

theorem put_thread_ne {t : Tid} (h : t ≠ s.tid c) : (s.put c v).thread t = s.thread t :=
  update_of_ne h ..

/-- The other CPUs do not notice. -/
theorem Good.put_other (h : Good s) (hne : c' ≠ c) :
    (s.put c v).cpu c' = s.cpu c' ∧ (s.put c v).cur c' = s.cur c' := by
  have hcpu : (s.put c v).cpu c' = s.cpu c' := put_cpu_ne hne
  have htid : (s.put c v).tid c' = s.tid c' := by
    rw [State.tid, State.tid, hcpu]
  refine ⟨hcpu, ?_⟩
  rw [State.cur, htid]
  exact put_thread_ne (h.tid_ne hne)

theorem Good.put_locked (h : Good s) (hne : c' ≠ c)
    (hothers : ∀ l, v.lock l = some c' ↔ s.lock l = some c') :
    Locked c' (s.put c v).lock ((s.put c v).cur c').held := by
  rw [(h.put_other hne).2]
  intro l
  exact (hothers l).trans (h.locked c' l)

/-- A CPU goes on with the same thread. -/
theorem Good.put (h : Good s) (hv : Leaves c (s.cpu c).proc s.lock v) : Good (s.put c v) := by
  have hproc : ∀ x, ((s.put c v).cpu x).proc = (s.cpu x).proc := by
    intro x
    by_cases hx : x = c
    · rw [hx, put_cpu_self, hv.proc]
    · rw [put_cpu_ne hx]
  have hcur : (s.put c v).cur c = v.thread := by
    rw [State.cur, show (s.put c v).tid c = s.tid c by rw [State.tid, State.tid, hproc]]
    exact update_self ..
  constructor
  · intro x
    by_cases hx : x = c
    · rw [hx, hcur, hproc, put_cpu_self]
      exact hv.running
    · rw [(h.put_other hx).1, (h.put_other hx).2]
      exact h.running x
  · intro x
    by_cases hx : x = c
    · rw [hx, hcur]
      exact hv.locked
    · exact h.put_locked hx fun l => hv.others l x hx
  · intro x y q hx hy
    rw [hproc] at hx hy
    exact h.one x y q hx hy
  · intro q hq
    have hq' : s.Away q := fun x => by rw [← hproc]; exact hq x
    rw [put_thread_ne]
    · exact h.away q hq'
    · intro he
      cases hc : (s.cpu c).proc with
      | none =>
        rw [tid_none hc] at he
        cases he
      | some p =>
        rw [tid_some hc] at he
        cases he
        exact hq' c hc
  · intro x q hx
    rw [hproc] at hx
    rw [put_thread_ne]
    · exact h.parked x q hx
    · intro he
      cases hc : (s.cpu c).proc with
      | none =>
        rw [tid_none hc] at he
        cases he
        rw [hx] at hc
        cases hc
      | some p =>
        rw [tid_some hc] at he
        cases he

theorem sched_ok {w : View} (h : exec c .sched w = .ok () v) :
    v.cpu = { w.cpu with proc := none } ∧ v.lock = w.lock ∧
      v.thread = w.thread.save w.cpu.intena := by
  change execSched c w = _ at h
  unfold execSched at h
  split at h
  · cases h
  split at h
  · cases h
  split at h
  · cases h
  · cases h
    exact ⟨rfl, rfl, rfl⟩

/-- A process goes to sleep or yields: its scheduler goes on. -/
theorem Good.sched {r : List Instr} (h : Good s) (htodo : (s.cur c).top.todo = .sched :: r)
    (hv : exec c .sched (s.view c r) = .ok () v) : Good (s.put c v) := by
  have hrun := h.running c
  -- the thread is in `sched`, with `p->lock` only
  have hl : Live (s.cpu c).proc (s.cur c) (s.cpu c) := by
    rcases hrun.live_or with hl | ⟨p, r', -, -, ht⟩
    · exact hl
    · rw [htodo] at ht
      cases ht
  obtain ⟨p, r', hp, rfl, hn, hheld, hfine⟩ : ∃ p r', (s.cpu c).proc = some p ∧ r = .resumed :: r' ∧
      (s.cur c).n = 1 ∧ (s.cur c).held = {.proc p} ∧
      Fine (s.cpu c).proc (Ends (s.cpu c).proc (s.cur c).rest) r' (s.cur c).n (s.cur c).held := by
    rcases hl.ready with hf | ⟨r', ht, -⟩
    · rw [htodo] at hf
      obtain ⟨r', hr, hn, ⟨p, hp, hheld⟩, hfine⟩ := fine_sched_iff hf
      exact ⟨p, r', hp, hr, hn, hheld, hfine⟩
    · rw [htodo] at ht
      cases ht
  have hkept := (hl.kept (by rw [hp]; simp) (by omega)).found htodo (by simp) (by simp)
  obtain ⟨hcpu, hlock, hthread⟩ := sched_ok hv
  have hpark := h.parked c p hp
  have hcur : (s.put c v).cur c = s.thread (.sched c) := by
    rw [State.cur, tid_none (by rw [put_cpu_self, hcpu])]
    refine put_thread_ne ?_
    rw [tid_some hp]
    simp
  constructor
  · intro x
    by_cases hx : x = c
    · rw [hx, hcur, put_cpu_self, hcpu]
      refine ⟨?_, ?_, ?_, .inl ⟨.inl ?_, hpark.below, fun ho => absurd rfl ho⟩⟩
      · show (s.cpu c).noff = _
        rw [hrun.noff, hn, hpark.n]
      · intro _
        exact hrun.off (by omega)
      · rw [hpark.n, hpark.held, Finset.card_singleton]
      · rw [hpark.n, hpark.held]
        exact hpark.fine
    · rw [(h.put_other hx).1, (h.put_other hx).2]
      exact h.running x
  · intro x
    by_cases hx : x = c
    · rw [hx, hcur, hpark.held, ← hheld, show (s.put c v).lock = s.lock from hlock]
      exact h.locked c
    · exact h.put_locked hx fun l => by rw [hlock]; exact Iff.rfl
  · intro x y q hx hy
    by_cases hxc : x = c
    · rw [hxc, put_cpu_self, hcpu] at hx
      cases hx
    by_cases hyc : y = c
    · rw [hyc, put_cpu_self, hcpu] at hy
      cases hy
    rw [put_cpu_ne hxc] at hx
    rw [put_cpu_ne hyc] at hy
    exact h.one x y q hx hy
  · intro q hq
    by_cases hqp : q = p
    · subst hqp
      have hself : (s.put c v).thread (.proc q) = v.thread := by
        show update s.thread (s.tid c) _ (.proc q) = _
        rw [tid_some hp, update_self]
      rw [hself, hthread]
      have hbelow := hl.below
      rw [hp] at hbelow hfine
      rw [hn, hheld] at hfine
      exact ⟨hn, hheld, hbelow, .inl ⟨r', rfl, hfine, hkept⟩⟩
    · rw [put_thread_ne (by rw [tid_some hp]; simpa using hqp)]
      refine h.away q fun x hx => ?_
      by_cases hxc : x = c
      · rw [hxc, hp] at hx
        exact hqp (Option.some.inj hx).symm
      · exact hq x (by rw [put_cpu_ne hxc]; exact hx)
  · intro x q hx
    by_cases hxc : x = c
    · rw [hxc, put_cpu_self, hcpu] at hx
      cases hx
    · rw [put_cpu_ne hxc] at hx
      rw [put_thread_ne (by rw [tid_some hp]; simp)]
      exact h.parked x q hx

/-- A scheduler switches to a process. -/
theorem Good.switch {r : List Instr} (h : Good s) (htodo : (s.cur c).top.todo = .pick p :: r)
    (haway : s.Away p) :
    Good (s.put c { s.view c r with cpu := { s.cpu c with proc := some p } }) := by
  have hrun := h.running c
  have hl : Live (s.cpu c).proc (s.cur c) (s.cpu c) := by
    rcases hrun.live_or with hl | ⟨p, r', -, -, ht⟩
    · exact hl
    · rw [htodo] at ht
      cases ht
  obtain ⟨hnone, hn, hheld, hfine⟩ : (s.cpu c).proc = none ∧ (s.cur c).n = 1 ∧
      (s.cur c).held = {.proc p} ∧
      Fine (s.cpu c).proc (Ends (s.cpu c).proc (s.cur c).rest) r (s.cur c).n (s.cur c).held := by
    rcases hl.ready with hf | ⟨r', ht, -⟩
    · rw [htodo] at hf
      exact hf
    · rw [htodo] at ht
      cases ht
  have hsusp := h.away p haway
  have hcur : (s.put c { s.view c r with cpu := { s.cpu c with proc := some p } }).cur c =
      s.thread (.proc p) := by
    rw [State.cur, tid_some (by rw [put_cpu_self])]
    refine put_thread_ne ?_
    rw [tid_none hnone]
    simp
  constructor
  · intro x
    by_cases hx : x = c
    · rw [hx, hcur, put_cpu_self]
      refine ⟨?_, ?_, ?_, .inr ⟨p, rfl, hsusp⟩⟩
      · show (s.cpu c).noff = _
        rw [hrun.noff, hn, hsusp.n]
      · intro _
        exact hrun.off (by omega)
      · rw [hsusp.n, hsusp.held, Finset.card_singleton]
    · rw [(h.put_other hx).1, (h.put_other hx).2]
      exact h.running x
  · intro x
    by_cases hx : x = c
    · rw [hx, hcur, hsusp.held, ← hheld]
      exact h.locked c
    · exact h.put_locked hx fun l => Iff.rfl
  · -- no CPU has been executing the process
    have hnew : ∀ x q, ((s.put c { s.view c r with cpu := { s.cpu c with proc := some p } }).cpu
        x).proc = some q → x = c ∧ q = p ∨ x ≠ c ∧ q ≠ p ∧ (s.cpu x).proc = some q := by
      intro x q hx
      by_cases hxc : x = c
      · rw [hxc, put_cpu_self] at hx
        exact .inl ⟨hxc, (Option.some.inj hx).symm⟩
      · rw [put_cpu_ne hxc] at hx
        refine .inr ⟨hxc, ?_, hx⟩
        intro hq
        rw [hq] at hx
        exact haway x hx
    intro x y q hx hy
    rcases hnew x q hx with ⟨hxc, hqp⟩ | ⟨-, hqp, hx'⟩ <;>
      rcases hnew y q hy with ⟨hyc, hqp'⟩ | ⟨-, hqp', hy'⟩
    · rw [hxc, hyc]
    · exact absurd hqp hqp'
    · exact absurd hqp' hqp
    · exact h.one x y q hx' hy'
  · intro q hq
    rw [put_thread_ne (by rw [tid_none hnone]; simp)]
    refine h.away q fun x hx => ?_
    by_cases hxc : x = c
    · rw [hxc, hnone] at hx
      cases hx
    · exact hq x (by rw [put_cpu_ne hxc]; exact hx)
  · intro x q hx
    by_cases hxc : x = c
    · subst hxc
      rw [put_cpu_self] at hx
      cases hx
      have hself : (s.put x { s.view x r with cpu := { s.cpu x with proc := some p } }).thread
          (.sched x) = (s.cur x).setTodo r := by
        show update s.thread (s.tid x) _ (.sched x) = _
        rw [tid_none hnone, update_self]
        rfl
      rw [hself]
      have hbelow := hl.below
      rw [hnone] at hbelow hfine
      rw [hn, hheld] at hfine
      exact ⟨hn, hheld, hbelow, hfine⟩
    · rw [put_cpu_ne hxc] at hx
      rw [put_thread_ne (by rw [tid_none hnone]; simpa using hxc)]
      exact h.parked x q hx

/-- A thread without an instruction left is not in `sched` or in `push_off`. -/
theorem Good.idle (h : Good s) (htodo : (s.cur c).top.todo = []) :
    Live (s.cpu c).proc (s.cur c) (s.cpu c) ∧ Ends (s.cpu c).proc (s.cur c).rest (s.cur c).n := by
  rcases (h.running c).live_or with hl | ⟨p, r', -, -, ht⟩
  · refine ⟨hl, ?_⟩
    rcases hl.ready with hf | ⟨r', ht, -⟩
    · rw [htodo] at hf
      exact hf
    · rw [htodo] at ht
      cases ht
  · rw [htodo] at ht
    cases ht

theorem Good.call {f : List Instr} (h : Good s) (htodo : (s.cur c).top.todo = [])
    (hcalls : Calls (s.cpu c).proc (s.cur c) f) : Good (s.put c (s.view c f)) := by
  have hrun := h.running c
  obtain ⟨hl, hend⟩ := h.idle htodo
  have hfine := calls_fine hcalls hrun.card hend
  refine h.put ⟨rfl, ⟨hrun.noff, hrun.off, hrun.card, .inl ⟨.inl hfine, hl.below, ?_⟩⟩, h.locked c,
    fun _ _ _ => Iff.rfl⟩
  intro ho hn
  rcases hl.kept ho hn with hs | ⟨-, -, ht | ⟨p, ht⟩⟩
  · exact .inl hs
  · rw [htodo] at ht
    cases ht
  · rw [htodo] at ht
    cases ht

/-- While interrupts are on, a thread has not turned them off and holds no lock. -/
theorem Running.free {T : Thread} {k : Cpu} {owner : Option Nat} (h : Running owner T k)
    (hn : T.n = 0) : T.held = ∅ := by
  have hcard := h.card
  exact Finset.card_eq_zero.mp (by omega)

theorem Good.trap (h : Good s) (hon : (s.cpu c).intr = true) :
    Good (s.put c ⟨{ s.cpu c with intr := false }, s.lock,
      { s.cur c with top := .start [], rest := (s.cur c).top :: (s.cur c).rest }⟩) := by
  have hrun := h.running c
  have hn : (s.cur c).n = 0 := by
    by_contra hne
    rw [hrun.off (pos_of_ne_zero hne)] at hon
    cases hon
  have hl : Live (s.cpu c).proc (s.cur c) (s.cpu c) := by
    rcases hrun.live_or with hl | ⟨p, r', -, hs, -⟩
    · exact hl
    · rw [hs.n] at hn
      cases hn
  have hready := hl.ready
  rw [hn, hrun.free hn, hon] at hready
  refine h.put ⟨rfl, ⟨hrun.noff, fun _ => rfl, hrun.card, .inl ⟨.inl ends_cons, ⟨hready, hl.below⟩,
    ?_⟩⟩, h.locked c, fun _ _ _ => Iff.rfl⟩
  intro _ hpos
  change 0 < (s.cur c).n at hpos
  omega

theorem Good.ret {f : Frame} {fs : List Frame} (h : Good s) (htodo : (s.cur c).top.todo = [])
    (hrest : (s.cur c).rest = f :: fs) (hn : (s.cur c).n = 0) :
    Good (s.put c ⟨{ s.cpu c with intr := true }, s.lock,
      { s.cur c with top := f, rest := fs }⟩) := by
  have hrun := h.running c
  obtain ⟨hl, -⟩ := h.idle htodo
  have hbelow := hl.below
  rw [hrest] at hbelow
  refine h.put ⟨rfl, ⟨hrun.noff, ?_, hrun.card, .inl ⟨?_, hbelow.2, ?_⟩⟩, h.locked c,
    fun _ _ _ => Iff.rfl⟩
  · intro hpos
    change 0 < (s.cur c).n at hpos
    omega
  · show Ready _ _ f (s.cur c).n (s.cur c).held true
    rw [hn, hrun.free hn]
    exact hbelow.1
  · intro _ hpos
    change 0 < (s.cur c).n at hpos
    omega

theorem suspended_fresh (p : Nat) : Suspended p (.fresh p) :=
  ⟨rfl, rfl, trivial, .inr ⟨rfl, rfl⟩⟩

theorem Good.fork (h : Good s) (haway : s.Away p) :
    Good { s with thread := update s.thread (.proc p) (.fresh p) } := by
  have hcur : ∀ x, State.cur { s with
      thread := update s.thread (.proc p) (.fresh p) } x = s.cur x := by
    intro x
    refine update_of_ne ?_ ..
    intro he
    change s.tid x = .proc p at he
    cases hx : (s.cpu x).proc with
    | none =>
      rw [tid_none hx] at he
      cases he
    | some q =>
      rw [tid_some hx] at he
      cases he
      exact haway x hx
  refine ⟨fun x => ?_, fun x => ?_, h.one, fun q hq => ?_, fun x q hx => ?_⟩
  · rw [hcur]
    exact h.running x
  · rw [hcur]
    exact h.locked x
  · by_cases hqp : q = p
    · subst hqp
      dsimp only
      rw [update_self]
      exact suspended_fresh q
    · dsimp only
      rw [update_of_ne (by simpa using hqp)]
      exact h.away q hq
  · dsimp only
    rw [update_of_ne (by simp)]
    exact h.parked x q hx

theorem Good.step (h : Good s) (hs : Step s s') : Good s' := by
  cases hs with
  | @exec c i r v htodo hv =>
    by_cases hi : i = .sched
    · subst hi
      exact h.sched htodo hv
    · exact h.put (exec_leaves (h.running c) (h.locked c) htodo hi hv)
  | run htodo haway => exact h.switch htodo haway
  | call htodo hcalls => exact h.call htodo hcalls
  | trap hon => exact h.trap hon
  | ret htodo hrest hn => exact h.ret htodo hrest hn
  | fork haway => exact h.fork haway

theorem good_boot : Good boot := by
  refine ⟨fun c => ?_, fun c l => ?_, fun c c' p h => ?_, fun p _ => suspended_fresh p,
    fun c p h => ?_⟩
  · refine ⟨rfl, fun h => absurd h (lt_irrefl 0), le_rfl, .inl ⟨.inl ?_, trivial, ?_⟩⟩
    · exact fine_scheduler fun _ _ => rfl
    · intro h
      exact absurd rfl h
  · show none = some c ↔ l ∈ (∅ : Finset Lock)
    simp
  · cases h
  · cases h

theorem Reach.good (h : Reach s) : Good s := by
  induction h with
  | refl => exact good_boot
  | tail _ hs ih => exact ih.step hs

/-! ## What follows -/

/-- The only panic is that of `acquire` for a lock that the thread already holds. -/
theorem Good.panics {msg : String} (h : Good s) (hp : s.Panics c msg) : msg = "acquire" := by
  obtain ⟨i, r, htodo, hmsg⟩ := hp
  have hrun := h.running c
  have hnoff := hrun.noff
  have hlock := h.locked c
  rcases hrun.live_or with hl | ⟨p, r', -, -, ht⟩
  · rcases hl.ready with hfine | ⟨r', ht, -⟩
    · rw [htodo] at hfine
      cases i with
      | swap l =>
        change execSwap c l _ = _ at hmsg
        unfold execSwap at hmsg
        split at hmsg
        · cases hmsg
          rfl
        split at hmsg <;> cases hmsg
      | clear l =>
        change execClear c l _ = _ at hmsg
        unfold execClear at hmsg
        rw [if_neg (show ¬ (s.view c r).lock l ≠ some c from not_not.mpr ((hlock l).mpr hfine.1))]
          at hmsg
        cases hmsg
      | popOff =>
        have hpos : (s.cur c).held.card < (s.cur c).n := hfine.1
        have hoff : (s.cpu c).intr = false := hrun.off (by omega)
        change execPopOff _ = _ at hmsg
        unfold execPopOff at hmsg
        rw [if_neg (by simp [State.view, hoff]), if_neg (by simp only [State.view]; omega)] at hmsg
        cases hmsg
      | sched =>
        obtain ⟨r', -, hn, ⟨p, hp, hheld⟩, -⟩ := fine_sched_iff hfine
        have hoff : (s.cpu c).intr = false := hrun.off (by omega)
        have hmine : s.lock (.proc p) = some c := (hlock _).mpr (by simp [hheld])
        change execSched c _ = _ at hmsg
        unfold execSched at hmsg
        rw [if_neg (by simp [State.view, hp, hmine]), if_neg (by simp only [State.view]; omega),
          if_neg (by simp [State.view, hoff])] at hmsg
        cases hmsg
      | _ => cases hmsg
    · rw [htodo] at ht
      cases ht
      cases hmsg
  · rw [htodo] at ht
    cases ht
    cases hmsg

/-- The outermost `pop_off` sets interrupts to `intena`. -/
theorem popOff_ok {w : View} (h : exec c .popOff w = .ok () v) (hzero : v.cpu.noff = 0) :
    w.cpu.noff = 1 ∧ v.cpu.intr = w.cpu.intena := by
  change execPopOff w = _ at h
  unfold execPopOff at h
  split at h
  · cases h
  rename_i hoff
  split at h
  · cases h
  cases h
  rw [Bool.not_eq_true] at hoff
  dsimp only at hzero ⊢
  refine ⟨by omega, ?_⟩
  rw [hoff]
  cases w.cpu.intena <;> simp [hzero]

/-- What holds of interrupts at any time. -/
structure Follows (s : State) : Prop where
  /-- `noff` is the count of the thread that the CPU executes -/
  count : ∀ c, (s.cpu c).noff = (s.cur c).n
  off : ∀ c, 0 < (s.cpu c).noff → (s.cpu c).intr = false
  /-- neither `pop_off` nor `release` nor `sched` panics -/
  panics : ∀ c msg, s.Panics c msg → msg = "acquire"
  /-- the outermost `pop_off` of a process leaves interrupts as they were at its outermost
      `push_off`; the lock that `forkret` releases was acquired by the scheduler -/
  outermost : ∀ c p r v, (s.cpu c).proc = some p → (s.cur c).top.todo = .popOff :: r →
    exec c .popOff (s.view c r) = .ok () v → v.cpu.noff = 0 →
    (s.cur c).top.was = some v.cpu.intr ∨
      ((s.cur c).top.was = none ∧ .popOff :: r <:+ forkret p)

/-- Whatever threads do on whichever CPUs, interrupts follow the thread. -/
theorem interrupts_follow (h : Reach s) : Follows s := by
  have hgood := h.good
  refine ⟨fun c => (hgood.running c).noff, fun c hc => ?_, fun c msg => hgood.panics,
    fun c p r v hp htodo hv hzero => ?_⟩
  · have hrun := hgood.running c
    have hnoff := hrun.noff
    exact hrun.off (by omega)
  · have hrun := hgood.running c
    have hnoff := hrun.noff
    have hl : Live (s.cpu c).proc (s.cur c) (s.cpu c) := by
      rcases hrun.live_or with hl | ⟨q, r', -, -, ht⟩
      · exact hl
      · rw [htodo] at ht
        cases ht
    obtain ⟨hone, hintr⟩ := popOff_ok hv hzero
    change (s.cpu c).noff = 1 at hone
    rw [show v.cpu.intr = (s.cpu c).intena from hintr]
    rcases hl.kept (by rw [hp]; simp) (by omega) with hs | ⟨hs, -, ht | ⟨q, ht⟩⟩
    · exact .inl hs
    · rw [htodo] at ht
      rw [ht]
      exact .inr ⟨hs, ⟨[.clear (.proc p)], rfl⟩⟩
    · rw [htodo] at ht
      cases ht

end

/-- A process that has just begun, with its lock. -/
theorem interrupts_follow_forkret : ∃ s, Reach s ∧ (s.cpu 0).proc = some 0 ∧
    (s.cpu 0).noff = 1 ∧ Follows s := by
  -- the scheduler turns interrupts on, locks the process and switches to it
  have hon := Relation.ReflTransGen.tail (r := Step) (.refl (a := boot)) (.exec (c := 0) rfl rfl)
  have hget := hon.tail (.exec (c := 0) rfl rfl)
  have hoff := hget.tail (.exec (c := 0) rfl rfl)
  have hswap := hoff.tail (.exec (c := 0) rfl rfl)
  have hrun := hswap.tail (.run (c := 0) (p := 0) rfl fun c hc => by
    by_cases h : c = 0
    · subst h
      cases hc
    · simp only [put_cpu_ne h] at hc
      cases hc)
  exact ⟨_, hrun, rfl, rfl, interrupts_follow hrun⟩

end Xv6.Intr
