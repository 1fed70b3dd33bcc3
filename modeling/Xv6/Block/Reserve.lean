import Xv6.Block.Log
import Mathlib.Tactic
import Mathlib.Data.List.Nodup
import Mathlib.Algebra.BigOperators.Group.Finset.Basic

/-!
# Log space: what `begin_op` reserves and what `log_write` accepts

`begin_op` admits an operation while the logged blocks and `MAXOPBLOCKS` for every outstanding
operation fit in `LOGSIZE` blocks. `log_write` panics when the log already holds `LOGSIZE` blocks
*or* `log.size - 1` of them. `log.size` is the `nlog` of the superblock and counts the header
block too, so the two limits agree only when `nlog` is at least `LOGSIZE + 1`; `mkfs` writes
`nlog = LOGSIZE`.

A run here is the list of what happens at the log: operations begin, log blocks, end, and a
commit clears the log. `exec` refuses (`none`) what cannot happen: `begin_op` returning while it
must sleep, an operation that logs without being outstanding or past its `MAXOPBLOCKS` distinct
blocks, a commit nobody started. Only the counts are here: neither what `commit` does on the disk nor
the buffers it does it with, so that nothing is said of its panic when it finds no free buffer.
-/

namespace Xv6.Reserve

open Function List

/-- What happens at the log; `i` identifies an operation. -/
inductive Event where
  /-- `begin_op` returns in operation `i` -/
  | beginOp (i : Nat)
  /-- operation `i` calls `log_write` on a buffer of block `b` -/
  | logWrite (i b : Nat)
  /-- operation `i` calls `end_op` -/
  | endOp (i : Nat)
  /-- `commit` sets `log.lh.n = 0` -/
  | clear
  /-- the committing `end_op` sets `log.committing = 0` -/
  | uncommit
  deriving DecidableEq

/-- The log, and for every outstanding operation the distinct blocks it has logged. -/
structure St where
  log : Log
  live : Finset Nat
  ops : Nat → List Nat

/-- One event; `none` when it cannot happen, an error when `log_write` or `end_op` panics. Of `commit`
    there are its start, in `endOp`, and its two effects on `log`. -/
def step (x : St) : Event → Option (Except String St)
  | .beginOp i =>
    if i ∈ x.live then none
    else (x.log.beginOp).map fun l =>
      .ok { log := l, live := insert i x.live, ops := update x.ops i [] }
  | .logWrite i b =>
    if i ∈ x.live ∧ ((x.ops i).insert b).length ≤ MAXOPBLOCKS then
      some ((x.log.logWrite b).map fun r =>
        { x with log := r.2, ops := update x.ops i ((x.ops i).insert b) })
    else none
  | .endOp i =>
    if i ∈ x.live then
      some ((x.log.endOp).map fun r => { x with log := r.2, live := x.live.erase i })
    else none
  | .clear =>
    if x.log.committing then
      some (.ok { x with log := { x.log with lh := { x.log.lh with n := 0 } } })
    else none
  | .uncommit =>
    if x.log.committing ∧ x.log.lh.n = 0 then
      some (.ok { x with log := { x.log with committing := false } })
    else none

/-- A run, up to its end or to the first panic. -/
def exec (x : St) : List Event → Option (Except String St)
  | [] => some (.ok x)
  | e :: es =>
    match step x e with
    | none => none
    | some (.error m) => some (.error m)
    | some (.ok x') => exec x' es

/-- The distinct blocks the operations of the current commit group have logged: a function of
    what was asked of the log, not of what the log did. -/
def grouped (es : List Event) : List Nat :=
  es.foldl (fun g e =>
    match e with
    | .logWrite _ b => g.insert b
    | .clear => []
    | _ => g) []

/-- The log after `initlog` on a file system with `nlog` log blocks, header included. -/
def initial (nlog : Nat) : St where
  log := { start := 2, size := nlog, outstanding := 0, committing := false, dev := 1,
           lh := { n := 0, block := fun _ => 0 } }
  live := ∅
  ops _ := []

/-- `nlog` of `mkfs/mkfs.c`. -/
def mkfsNlog : Nat := LOGSIZE

theorem grouped_concat (es : List Event) (e : Event) :
    grouped (es ++ [e]) = match e with
      | .logWrite _ b => (grouped es).insert b
      | .clear => []
      | _ => grouped es := by
  simp only [grouped, foldl_append, foldl_cons, foldl_nil]

/-! ## The reservation invariant -/

/-- Room promised to the outstanding operations: what each may still log. -/
def promised (x : St) : Nat := ∑ i ∈ x.live, (MAXOPBLOCKS - (x.ops i).length)

/-- What holds after the events `es`. -/
structure Inv (nlog : Nat) (es : List Event) (x : St) : Prop where
  size : x.log.size = nlog
  nodup : x.log.lh.blocks.Nodup
  mem : ∀ b, b ∈ x.log.lh.blocks ↔ b ∈ grouped es
  gnodup : (grouped es).Nodup
  outstanding : x.log.outstanding = x.live.card
  /-- while a commit runs no operation is outstanding -/
  committing : x.log.committing = true → x.live = ∅
  logged : ∀ i ∈ x.live, ∀ b ∈ x.ops i, b ∈ grouped es
  /-- the admission test keeps its promise -/
  room : x.log.lh.n + promised x ≤ LOGSIZE

/-- The in-memory count is the number of distinct blocks logged by the group. -/
theorem Inv.n_eq {nlog : Nat} {es : List Event} {x : St} (h : Inv nlog es x) :
    x.log.lh.n = (grouped es).length := by
  rw [← LogHeader.blocks_length]
  exact ((perm_ext_iff_of_nodup h.nodup h.gnodup).mpr h.mem).length_eq

theorem inv_initial (nlog : Nat) : Inv nlog [] (initial nlog) where
  size := rfl
  nodup := by simp [initial, LogHeader.blocks]
  mem := by simp [initial, LogHeader.blocks, grouped]
  gnodup := by simp [grouped]
  outstanding := by simp [initial]
  committing := by simp [initial]
  logged := by simp [initial]
  room := by simp [initial, promised]

variable {nlog : Nat} {es : List Event} {x x' : St}

theorem promised_le (x : St) : promised x ≤ x.live.card * MAXOPBLOCKS := by
  refine (Finset.sum_le_card_nsmul x.live _ MAXOPBLOCKS fun i _ => Nat.sub_le _ _).trans ?_
  simp

/-- Operation `i` logs one more block: what is promised to the others stays. -/
theorem promised_update {i : Nat} (hi : i ∈ x.live) (l : Log) (bs : List Nat) :
    promised { x with log := l, ops := update x.ops i bs } +
      (MAXOPBLOCKS - (x.ops i).length) = promised x + (MAXOPBLOCKS - bs.length) := by
  unfold promised
  dsimp only
  rw [← Finset.add_sum_erase _ _ hi, ← Finset.add_sum_erase x.live _ hi]
  have hrest : ∑ j ∈ x.live.erase i, (MAXOPBLOCKS - (update x.ops i bs j).length)
      = ∑ j ∈ x.live.erase i, (MAXOPBLOCKS - (x.ops j).length) :=
    Finset.sum_congr rfl fun j hj => by rw [update_of_ne (Finset.ne_of_mem_erase hj)]
  rw [hrest, update_self]
  omega

theorem Inv.beginOp {i : Nat} (h : Inv nlog es x) (hs : step x (.beginOp i) = some (.ok x')) :
    Inv nlog (es ++ [.beginOp i]) x' := by
  simp only [step] at hs
  split at hs
  · simp at hs
  next hi =>
  simp only [Option.map_eq_some_iff, Except.ok.injEq] at hs
  obtain ⟨l, hl, rfl⟩ := hs
  unfold Log.beginOp at hl
  split at hl
  · simp at hl
  next hc =>
  split at hl
  · simp at hl
  next hroom =>
  simp only [Option.some.injEq] at hl
  subst hl
  have hg : grouped (es ++ [.beginOp i]) = grouped es := grouped_concat ..
  have hne : ∀ j ∈ x.live, j ≠ i := by
    rintro j hj rfl
    exact hi hj
  have hp : promised ⟨{ x.log with outstanding := x.log.outstanding + 1 }, insert i x.live,
      update x.ops i []⟩ = promised x + MAXOPBLOCKS := by
    unfold promised
    dsimp only
    rw [Finset.sum_insert hi, update_self, add_comm]
    congr 1
    exact Finset.sum_congr rfl fun j hj => by rw [update_of_ne (hne j hj)]
  have hcard : (insert i x.live).card = x.live.card + 1 := Finset.card_insert_of_notMem hi
  have hle := promised_le x
  have hout := h.outstanding
  refine ⟨h.size, h.nodup, hg ▸ h.mem, hg ▸ h.gnodup, ?_, fun h' => absurd h' hc, ?_, ?_⟩
  · simp only [hcard]
    push_cast
    omega
  · intro j hj b hb
    rw [hg]
    rcases Finset.mem_insert.mp hj with rfl | hj
    · simp at hb
    · dsimp only at hb
      rw [update_of_ne (hne j hj)] at hb
      exact h.logged j hj b hb
  · rw [hp]
    dsimp only
    simp only [LOGSIZE, MAXOPBLOCKS] at *
    omega

theorem Inv.logWrite {i b : Nat} (h : Inv nlog es x)
    (hs : step x (.logWrite i b) = some (.ok x')) : Inv nlog (es ++ [.logWrite i b]) x' := by
  simp only [step] at hs
  split at hs
  swap
  · simp at hs
  next hib =>
  obtain ⟨hi, hlen⟩ := hib
  have hg : grouped (es ++ [.logWrite i b]) = (grouped es).insert b := grouped_concat ..
  have hroom := h.room
  rw [Log.logWrite_eq] at hs
  split at hs
  · simp [Except.map] at hs
  split at hs
  · simp [Except.map] at hs
  split at hs
  · -- absorbed: the log is as before, only the operation's own count may grow
    next hb =>
    simp only [Except.map, Option.some.injEq, Except.ok.injEq] at hs
    subst hs
    have hgb : (grouped es).insert b = grouped es := insert_of_mem ((h.mem b).mp hb)
    have hp := promised_update hi x.log ((x.ops i).insert b)
    have hle : (x.ops i).length ≤ ((x.ops i).insert b).length := length_le_length_insert
    rw [hgb] at hg
    refine ⟨h.size, h.nodup, hg ▸ h.mem, hg ▸ h.gnodup, h.outstanding, h.committing, ?_, ?_⟩
    · intro j hj c hc
      rw [hg]
      by_cases hji : j = i
      · subst hji
        dsimp only at hc
        rw [update_self] at hc
        rcases mem_insert_iff.mp hc with rfl | hc
        · exact (h.mem c).mp hb
        · exact h.logged j hj c hc
      · dsimp only at hc
        rw [update_of_ne hji] at hc
        exact h.logged j hj c hc
    · dsimp only at hp ⊢
      omega
  · -- a new block: the log grows by one and the promise to `i` shrinks by one
    next hb =>
    simp only [Except.map, Option.some.injEq, Except.ok.injEq] at hs
    subst hs
    have hbg : b ∉ grouped es := fun hm => hb ((h.mem b).mpr hm)
    have hbi : b ∉ x.ops i := fun hm => hbg (h.logged i hi b hm)
    have hlen' : ((x.ops i).insert b).length = (x.ops i).length + 1 :=
      length_insert_of_not_mem hbi
    have hp := promised_update hi { x.log with lh := x.log.lh.push b } ((x.ops i).insert b)
    have hbl : (x.log.lh.push b).blocks = x.log.lh.blocks ++ [b] := LogHeader.blocks_push ..
    refine ⟨h.size, ?_, ?_, hg ▸ h.gnodup.insert, h.outstanding, h.committing, ?_, ?_⟩
    · dsimp only
      rw [hbl]
      exact nodup_append.mpr ⟨h.nodup, by simp, by
        rintro a ha c hc rfl
        rw [mem_singleton] at hc
        exact hb (hc ▸ ha)⟩
    · intro c
      dsimp only
      rw [hbl, hg, mem_append, mem_singleton, mem_insert_iff, h.mem c, or_comm]
    · intro j hj c hc
      rw [hg, mem_insert_iff]
      by_cases hji : j = i
      · subst hji
        dsimp only at hc
        rw [update_self] at hc
        exact (mem_insert_iff.mp hc).imp_right (h.logged j hj c)
      · dsimp only at hc
        rw [update_of_ne hji] at hc
        exact .inr (h.logged j hj c hc)
    · have hn : (x.log.lh.push b).n = x.log.lh.n + 1 := rfl
      dsimp only at hp ⊢
      simp only [LOGSIZE, MAXOPBLOCKS] at *
      omega

theorem Inv.endOp {i : Nat} (h : Inv nlog es x) (hs : step x (.endOp i) = some (.ok x')) :
    Inv nlog (es ++ [.endOp i]) x' := by
  simp only [step] at hs
  split at hs
  swap
  · simp at hs
  next hi =>
  have hg : grouped (es ++ [.endOp i]) = grouped es := grouped_concat ..
  have hcard : (x.live.erase i).card = x.live.card - 1 := Finset.card_erase_of_mem hi
  have hpos : 0 < x.live.card := Finset.card_pos.mpr ⟨i, hi⟩
  have hout := h.outstanding
  have hroom := h.room
  have hp : ∑ j ∈ x.live.erase i, (MAXOPBLOCKS - (x.ops j).length) ≤ promised x :=
    Finset.sum_le_sum_of_subset (Finset.erase_subset i x.live)
  have hlog : ∀ j ∈ x.live.erase i, ∀ b ∈ x.ops j, b ∈ grouped es :=
    fun j hj => h.logged j (Finset.mem_of_mem_erase hj)
  unfold Log.endOp at hs
  dsimp only at hs
  split at hs
  · simp [Except.map] at hs
  next hc =>
  split at hs
  · next h0 =>
    simp only [Except.map, Option.some.injEq, Except.ok.injEq] at hs
    subst hs
    refine ⟨h.size, h.nodup, hg ▸ h.mem, hg ▸ h.gnodup, ?_, fun _ => ?_, hg ▸ hlog, ?_⟩
    · dsimp only
      rw [hcard]
      omega
    · exact Finset.card_eq_zero.mp (by dsimp only; rw [hcard]; omega)
    · unfold promised at hp ⊢
      dsimp only at hp ⊢
      unfold promised at hroom
      omega
  · simp only [Except.map, Option.some.injEq, Except.ok.injEq] at hs
    subst hs
    refine ⟨h.size, h.nodup, hg ▸ h.mem, hg ▸ h.gnodup, ?_, fun h' => absurd h' hc, hg ▸ hlog, ?_⟩
    · dsimp only
      rw [hcard]
      omega
    · unfold promised at hp ⊢
      dsimp only at hp ⊢
      unfold promised at hroom
      omega

theorem Inv.clear (h : Inv nlog es x) (hs : step x .clear = some (.ok x')) :
    Inv nlog (es ++ [.clear]) x' := by
  simp only [step] at hs
  split at hs
  swap
  · simp at hs
  next hc =>
  simp only [Option.some.injEq, Except.ok.injEq] at hs
  subst hs
  have hlive := h.committing hc
  have hg : grouped (es ++ [.clear]) = [] := grouped_concat ..
  refine ⟨h.size, by simp [LogHeader.blocks], by simp [LogHeader.blocks, hg], by simp [hg],
    h.outstanding, h.committing, by simp [hlive], by simp [promised, hlive]⟩

theorem Inv.uncommit (h : Inv nlog es x) (hs : step x .uncommit = some (.ok x')) :
    Inv nlog (es ++ [.uncommit]) x' := by
  simp only [step] at hs
  split at hs
  swap
  · simp at hs
  simp only [Option.some.injEq, Except.ok.injEq] at hs
  subst hs
  have hg : grouped (es ++ [.uncommit]) = grouped es := grouped_concat ..
  exact ⟨h.size, h.nodup, hg ▸ h.mem, hg ▸ h.gnodup, h.outstanding, by simp, hg ▸ h.logged, h.room⟩

/-- Every event keeps the invariant. -/
theorem Inv.step {e : Event} (h : Inv nlog es x) (hs : step x e = some (.ok x')) :
    Inv nlog (es ++ [e]) x' := by
  cases e with
  | beginOp i => exact h.beginOp hs
  | logWrite i b => exact h.logWrite hs
  | endOp i => exact h.endOp hs
  | clear => exact h.clear hs
  | uncommit => exact h.uncommit hs

/-- The only panic is `log_write`'s, and only when the log is full for it. -/
theorem Inv.step_error {e : Event} {m : String} (h : Inv nlog es x)
    (hs : Reserve.step x e = some (.error m)) :
    m = "too big a transaction" ∧ (∃ i b, e = .logWrite i b) ∧
      (LOGSIZE ≤ x.log.lh.n ∨ nlog - 1 ≤ x.log.lh.n) := by
  cases e with
  | beginOp i =>
    simp only [Reserve.step] at hs
    split at hs
    · simp at hs
    · simp at hs
  | logWrite i b =>
    simp only [Reserve.step] at hs
    split at hs
    swap
    · simp at hs
    next hib =>
    have hpos : 0 < x.live.card := Finset.card_pos.mpr ⟨i, hib.1⟩
    have hout := h.outstanding
    rw [Log.logWrite_eq] at hs
    split at hs
    · next hfull =>
      simp only [Except.map, Option.some.injEq, Except.error.injEq] at hs
      exact ⟨hs.symm, ⟨i, b, rfl⟩, h.size ▸ hfull⟩
    split at hs
    · omega
    split at hs <;> simp [Except.map] at hs
  | endOp i =>
    simp only [Reserve.step] at hs
    split at hs
    swap
    · simp at hs
    next hi =>
    unfold Log.endOp at hs
    dsimp only at hs
    split at hs
    · next hc => exact absurd (h.committing hc) (Finset.ne_empty_of_mem hi)
    · split at hs <;> simp [Except.map] at hs
  | clear =>
    simp only [Reserve.step] at hs
    split at hs <;> simp at hs
  | uncommit =>
    simp only [Reserve.step] at hs
    split at hs <;> simp at hs

/-- A `log_write` that returned found room under both limits. -/
theorem Inv.logWrite_room {i b : Nat} (h : Inv nlog es x)
    (hs : Reserve.step x (.logWrite i b) = some (.ok x')) :
    x.log.lh.n < LOGSIZE ∧ x.log.lh.n < nlog - 1 := by
  have hsize := h.size
  simp only [Reserve.step] at hs
  split at hs
  swap
  · simp at hs
  rw [Log.logWrite_eq] at hs
  split at hs
  · simp [Except.map] at hs
  · omega

/-! ## When the reservation holds -/

/-- **What `begin_op` does guarantee**: an outstanding operation that logs a block it has not
    logged before finds fewer than `LOGSIZE` blocks in the log. -/
theorem Inv.reserved {i b : Nat} (h : Inv nlog es x) (hi : i ∈ x.live) (hb : b ∉ x.ops i)
    (hlen : ((x.ops i).insert b).length ≤ MAXOPBLOCKS) : x.log.lh.n < LOGSIZE := by
  rw [length_insert_of_not_mem hb] at hlen
  have hle : MAXOPBLOCKS - (x.ops i).length ≤ promised x :=
    Finset.single_le_sum (f := fun j => MAXOPBLOCKS - (x.ops j).length)
      (fun _ _ => Nat.zero_le _) hi
  have := h.room
  omega

/-- A run from a state the invariant holds of ends in the panic exactly when one of its
    `log_write` calls comes with the log full for it. Induction on the run; the events before it
    are carried in `pre`. -/
theorem exec_tooBig_iff (es : List Event) : ∀ (pre : List Event) (x : St), Inv nlog pre x →
    (exec x es).isSome →
    (exec x es ≠ some (.error "too big a transaction") ↔
      ∀ mid i b, mid ++ [.logWrite i b] <+: es →
        (grouped (pre ++ mid)).length < LOGSIZE ∧ (grouped (pre ++ mid)).length < nlog - 1) := by
  induction es with
  | nil =>
    intro pre x _ _
    refine ⟨fun _ mid i b hp => ?_, fun _ => by simp [exec]⟩
    have := hp.length_le
    simp at this
  | cons e es ih =>
    intro pre x h hlegal
    have hn := h.n_eq
    unfold exec at hlegal ⊢
    cases hs : step x e with
    | none => rw [hs] at hlegal; simp at hlegal
    | some o =>
      cases o with
      | error m =>
        obtain ⟨rfl, ⟨i, b, rfl⟩, hfull⟩ := h.step_error hs
        refine ⟨fun hne => absurd rfl hne, fun hall => ?_⟩
        have := hall [] i b (by simp)
        rw [append_nil] at this
        omega
      | ok x' =>
        rw [hs] at hlegal
        dsimp only at hlegal ⊢
        rw [ih (pre ++ [e]) x' (h.step hs) hlegal]
        constructor
        · intro hall mid i b hp
          cases mid with
          | nil =>
            obtain rfl : Event.logWrite i b = e := by simpa using hp
            rw [append_nil]
            have := h.logWrite_room hs
            omega
          | cons e' mid =>
            rw [cons_append, cons_prefix_cons] at hp
            obtain ⟨rfl, hp⟩ := hp
            simpa using hall mid i b hp
        · intro hall mid i b hp
          have := hall (e :: mid) i b (by simpa using hp)
          simpa using this

/-- **Log space on a `mkfs` image.** Take any run of operations, each logging at most
    `MAXOPBLOCKS` distinct blocks. It never ends in the panic "too big a transaction" if and only
    if each `log_write` is called while the operations of its commit group have logged at most
    `LOGSIZE - 2` distinct blocks. -/
theorem mkfs_log_never_too_big_iff (es : List Event)
    (legal : (exec (initial mkfsNlog) es).isSome) :
    exec (initial mkfsNlog) es ≠ some (.error "too big a transaction") ↔
      ∀ mid i b, mid ++ [.logWrite i b] <+: es → (grouped mid).length ≤ LOGSIZE - 2 := by
  rw [exec_tooBig_iff es [] _ (inv_initial mkfsNlog) legal]
  simp only [nil_append, mkfsNlog, LOGSIZE, MAXOPBLOCKS]
  exact forall_congr' fun mid => forall_congr' fun i => forall_congr' fun b =>
    forall_congr' fun _ => by omega

/-- Three operations are admitted together and each logs `MAXOPBLOCKS` blocks of its own. -/
def threeMaximal : List Event :=
  [.beginOp 0, .beginOp 1, .beginOp 2] ++
    (range 30).map fun b => .logWrite (b / 10) (100 + b)

/-- The log that `mkfs` lays out is one block short of what `begin_op` promises: the thirtieth
    block of three maximal operations panics. -/
theorem mkfs_log_too_small : ¬ ∀ es, (exec (initial mkfsNlog) es).isSome →
    exec (initial mkfsNlog) es ≠ some (.error "too big a transaction") := by
  have hrun : exec (initial mkfsNlog) threeMaximal = some (.error "too big a transaction") := rfl
  exact fun h => h threeMaximal (by rw [hrun]; rfl) hrun

/-- Two maximal operations that share a commit are within the condition. -/
theorem mkfs_log_two_maximal :
    let es := [.beginOp 0, .beginOp 1] ++ (range 20).map fun b => .logWrite (b / 10) (100 + b)
    (exec (initial mkfsNlog) es).isSome ∧
      (exec (initial mkfsNlog) es ≠ some (.error "too big a transaction") ↔
        ∀ mid i b, mid ++ [.logWrite i b] <+: es → (grouped mid).length ≤ LOGSIZE - 2) :=
  ⟨rfl, mkfs_log_never_too_big_iff _ rfl⟩

/-- A log with one block more than `mkfs` makes would do for `log_write`: it then never panics in a run
    in which no operation logs a block that it has logged before. Induction on the run, from any state
    with the invariant. -/
theorem log_never_too_big (hnlog : LOGSIZE < nlog) (es : List Event)
    (once : ∀ mid i b y, mid ++ [.logWrite i b] <+: es →
      exec (initial nlog) mid = some (.ok y) → b ∉ y.ops i) :
    exec (initial nlog) es ≠ some (.error "too big a transaction") := by
  have h := inv_initial nlog
  generalize initial nlog = x at once h ⊢
  generalize ([] : List Event) = pre at h
  induction es generalizing pre x with
  | nil => simp [exec]
  | cons e es ih =>
    unfold exec
    cases hs : step x e with
    | none => simp
    | some o =>
      cases o with
      | error m =>
        obtain ⟨-, ⟨i, b, rfl⟩, hfull⟩ := h.step_error hs
        have hb : b ∉ x.ops i := once [] i b x (by simp) rfl
        simp only [step] at hs
        split at hs
        · next hi =>
          have := h.reserved hi.1 hb hi.2
          omega
        · cases hs
      | ok x' =>
        refine ih x' (fun mid i b y hp hy => once (e :: mid) i b y ?_ ?_) (pre ++ [e]) (h.step hs)
        · exact (prefix_cons_inj e).mpr hp
        · unfold exec
          rw [hs]
          exact hy

/-- With that block the three maximal operations have room for all that they log. -/
theorem log_never_too_big_three : (exec (initial (LOGSIZE + 1)) threeMaximal).isSome ∧
    exec (initial (LOGSIZE + 1)) threeMaximal ≠ some (.error "too big a transaction") := by
  refine ⟨rfl, log_never_too_big (Nat.lt_succ_self _) _ fun mid i b y hp hy => ?_⟩
  have hall : ∀ k < 33,
      (match threeMaximal[k]?, exec (initial (LOGSIZE + 1)) (threeMaximal.take k) with
      | some (Event.logWrite i b), some (Except.ok y) => !(y.ops i).contains b
      | _, _ => true) = true := by
    decide
  obtain ⟨rest, hrest⟩ := hp
  have htake : threeMaximal.take mid.length = mid := by
    rw [← hrest, append_assoc, take_left]
  have hat : threeMaximal[mid.length]? = some (.logWrite i b) := by
    rw [← hrest]
    simp
  have hlen : mid.length < 33 := (List.getElem?_eq_some_iff.mp hat).1
  have hnew := hall mid.length hlen
  rw [htake, hat, hy] at hnew
  simpa using hnew

end Xv6.Reserve
