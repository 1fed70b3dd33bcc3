import Xv6.Sched.Code

/-!
# Process ids

The process table as `fork`, `exit`, `wait` and `kill` of `kernel/proc.c` change it, with `nextpid`
as the 32-bit `int` that it is. A process id names a process to `kill` and to `holdingsleep`, so no
two processes may have the same one; and `kill` must not find a slot that has none, which is a slot
with process id 0.

A search of the table is one step, together with what is done to the slot it finds: `allocproc`,
`kill` and each scan of `wait` are atomic here, where the code takes the lock of one slot after the
other. So is `exit`. `fork` leaves the lock of the new slot between filling it in and making it
`RUNNABLE`, so it has two steps. Steps of the scheduler are there for a process to be in all its
states; `Sched` has the interleavings.
-/

namespace Xv6.Pids

open List

open Function (update update_eq_self update_eq_self_iff update_of_ne update_self)

open Sched (Procstate Chan)

/-- The fields of `struct proc` that these functions use. -/
structure Slot where
  state : Procstate
  pid : Int
  killed : Bool
  parent : Option Nat
  chan : Option Chan
  xstate : Int

structure Table where
  slot : Nat → Slot
  nextpid : Int
  initproc : Nat

def Table.set (t : Table) (q : Nat) (x : Slot) : Table :=
  { t with slot := update t.slot q x }

/-- A slot as it is before it is used and after `freeproc`. -/
def Slot.zero : Slot := ⟨.unused, 0, false, none, none, 0⟩

/-! ## The functions of `proc.c` -/

/-- free a proc structure and the data hanging from it -/
def freeproc (t : Table) (q : Nat) : Table := t.set q .zero

/-- Look in the process table for an UNUSED proc; `memory` says whether there are pages for its
    trapframe and its page table. -/
def allocproc (memory : Bool) (t : Table) : Option Nat × Table :=
  match (range NPROC).find? fun q => (t.slot q).state = .unused with
  | none => (none, t)
  | some q =>
    let t' := { t.set q { t.slot q with pid := t.nextpid, state := .used } with
      nextpid := nextInt t.nextpid }
    if memory then (some q, t') else (none, freeproc t' q)

/-- `fork` up to where it leaves the lock of the new slot; `copied` says whether there is memory for
    a copy of the parent's. -/
def forkStart (memory copied : Bool) (t : Table) : Table :=
  match allocproc memory t with
  | (none, t') => t'
  | (some q, t') => if copied then t' else freeproc t' q

/-- The rest of `fork`. -/
def forkEnd (p q : Nat) (t : Table) : Table :=
  t.set q { t.slot q with parent := some p, state := .runnable }

/-- Wake up all processes sleeping on `chan`. -/
def wakeup (p : Nat) (chan : Chan) (t : Table) : Table :=
  { t with
    slot := fun q =>
      if q ≠ p ∧ (t.slot q).state = .sleeping ∧ (t.slot q).chan = some chan then
        { t.slot q with state := .runnable }
      else t.slot q }

/-- `reparent` at one slot. -/
def reparentOne (p : Nat) (t : Table) (q : Nat) : Table :=
  if (t.slot q).parent = some p then
    wakeup p (.proc t.initproc) (t.set q { t.slot q with parent := some t.initproc })
  else t

/-- Pass `p`'s abandoned children to init. -/
def reparent (p : Nat) (t : Table) : Table := (range NPROC).foldl (reparentOne p) t

/-- `wakeup(p->parent)` -/
def wakeupParent (p : Nat) (t : Table) : Table :=
  match (t.slot p).parent with
  | none => t
  | some r => wakeup p (.proc r) t

/-- Exit the process `p`, which is not init. -/
def exit (p : Nat) (status : Int) (t : Table) : Table :=
  let t' := wakeupParent p (reparent p t)
  t'.set p { t'.slot p with xstate := status, state := .zombie }

/-- One scan of `wait`; `copied` says whether the exit status can be copied to the user. -/
def wait (p : Nat) (copied : Bool) (t : Table) : Table :=
  match (range NPROC).find? fun q =>
      (t.slot q).parent = some p ∧ (t.slot q).state = .zombie with
  | some q => if copied then freeproc t q else t
  | none =>
    if (range NPROC).all (fun q => (t.slot q).parent ≠ some p) ∨ (t.slot p).killed = true then
      t
    else t.set p { t.slot p with chan := some (.proc p), state := .sleeping }

/-- A slot that `kill` has found. -/
def Slot.kill (x : Slot) : Slot :=
  { x with
    killed := true
    -- Wake process from sleep().
    state := if x.state = .sleeping then .runnable else x.state }

/-- Kill the process with the given pid. Returns whether `kill` returns 0. -/
def kill (pid : Int) (t : Table) : Bool × Table :=
  match (range NPROC).find? fun q => (t.slot q).pid = pid with
  | none => (false, t)
  | some q => (true, t.set q (t.slot q).kill)

/-! ## Runs -/

/-- What may happen next. -/
inductive Op where
  | forkStart (p : Nat) (memory copied : Bool)
  | forkEnd (p q : Nat)
  | exit (p : Nat) (status : Int)
  | wait (p : Nat) (copied : Bool)
  | kill (p : Nat) (pid : Int)
  | setkilled (p : Nat)
  | sleep (p : Nat) (chan : Chan)
  | wakeup (p : Nat) (chan : Chan)
  | run (p : Nat)
  | yield (p : Nat)

inductive Step : Op → Table → Table → Prop where
  | forkStart {t : Table} {p : Nat} (memory copied : Bool) : (t.slot p).state = .running →
      Step (.forkStart p memory copied) t (forkStart memory copied t)
  | forkEnd {t : Table} {p q : Nat} : (t.slot p).state = .running → (t.slot q).state = .used →
      Step (.forkEnd p q) t (forkEnd p q t)
  | exit {t : Table} {p : Nat} (status : Int) : (t.slot p).state = .running → p ≠ t.initproc →
      Step (.exit p status) t (exit p status t)
  | wait {t : Table} {p : Nat} (copied : Bool) : (t.slot p).state = .running →
      Step (.wait p copied) t (wait p copied t)
  | kill {t : Table} {p : Nat} (pid : Int) : (t.slot p).state = .running →
      Step (.kill p pid) t (kill pid t).2
  | setkilled {t : Table} {p : Nat} : (t.slot p).state = .running →
      Step (.setkilled p) t (t.set p { t.slot p with killed := true })
  | sleep {t : Table} {p : Nat} (chan : Chan) : (t.slot p).state = .running →
      Step (.sleep p chan) t (t.set p { t.slot p with chan := some chan, state := .sleeping })
  | wakeup {t : Table} (p : Nat) (chan : Chan) : Step (.wakeup p chan) t (wakeup p chan t)
  /-- the scheduler switches to a process, which clears `chan` where it comes from `sleep` -/
  | run {t : Table} {p : Nat} : (t.slot p).state = .runnable →
      Step (.run p) t (t.set p { t.slot p with chan := none, state := .running })
  | yield {t : Table} {p : Nat} : (t.slot p).state = .running →
      Step (.yield p) t (t.set p { t.slot p with state := .runnable })

/-- The table with `init` in slot 0, in a given state, and nothing else. -/
def initOnly (state : Procstate) (nextpid : Int) : Table where
  slot := update (fun _ => .zero) 0 ⟨state, 1, false, none, none, 0⟩
  nextpid := nextpid
  initproc := 0

/-- After `userinit`. -/
def boot : Table := initOnly .runnable 2

/-- The tables that steps which meet a condition lead to. -/
def Reach (ok : Table → Op → Prop) : Table → Prop :=
  Relation.ReflTransGen (fun t t' => ∃ op, ok t op ∧ Step op t t') boot

/-! ## What a step does to ids and marks -/

/-- The slot is in use. -/
def Table.Live (t : Table) (q : Nat) : Prop := (t.slot q).state ≠ .unused

/-- The slots have the same id and are in use as before. -/
structure Steady (t t' : Table) : Prop where
  pid : ∀ q, (t'.slot q).pid = (t.slot q).pid
  live : ∀ q, t'.Live q ↔ t.Live q
  nextpid : t'.nextpid = t.nextpid

variable {t t' : Table} {p q : Nat} {x : Slot} {pid : Int} {ok : Table → Op → Prop} {op : Op}

theorem set_self : (t.set q x).slot q = x := update_self ..

theorem set_ne (h : p ≠ q) : (t.set q x).slot p = t.slot p := update_of_ne h ..

theorem Steady.refl : Steady t t := ⟨fun _ => rfl, fun _ => .rfl, rfl⟩

theorem Steady.trans {t'' : Table} (h : Steady t t') (h' : Steady t' t'') : Steady t t'' :=
  ⟨fun q => (h'.pid q).trans (h.pid q), fun q => (h'.live q).trans (h.live q),
    h'.nextpid.trans h.nextpid⟩

theorem Steady.set (hpid : x.pid = (t.slot q).pid)
    (hlive : x.state ≠ .unused ↔ t.Live q) : Steady t (t.set q x) := by
  refine ⟨fun r => ?_, fun r => ?_, rfl⟩
  · by_cases hr : r = q
    · rw [hr, set_self, hpid]
    · rw [set_ne hr]
  · unfold Table.Live
    by_cases hr : r = q
    · rw [hr, set_self]
      exact hlive
    · rw [set_ne hr]

/-- A process that is in use stays so. -/
theorem Steady.set_live (hlive : t.Live q) (hx : x.state ≠ .unused)
    (hpid : x.pid = (t.slot q).pid) : Steady t (t.set q x) :=
  .set hpid (iff_of_true hx hlive)

theorem wakeup_slot (p : Nat) (chan : Chan) (t : Table) (q : Nat) :
    (wakeup p chan t).slot q = t.slot q ∨ (t.slot q).state = .sleeping ∧
      (wakeup p chan t).slot q = { t.slot q with state := .runnable } := by
  unfold wakeup
  dsimp only
  split
  · next h => exact .inr ⟨h.2.1, rfl⟩
  · exact .inl rfl

theorem wakeup_steady (p : Nat) (chan : Chan) (t : Table) : Steady t (wakeup p chan t) := by
  refine ⟨fun q => ?_, fun q => ?_, rfl⟩
  · rcases wakeup_slot p chan t q with h | ⟨-, h⟩ <;> rw [h]
  · unfold Table.Live
    rcases wakeup_slot p chan t q with h | ⟨hs, h⟩ <;> rw [h]
    rw [hs]
    exact iff_of_true (by simp) (by simp)

theorem reparentOne_steady (p : Nat) (t : Table) (q : Nat) : Steady t (reparentOne p t q) := by
  unfold reparentOne
  split
  · exact .trans (.set (x := { t.slot q with parent := some t.initproc }) rfl .rfl)
      (wakeup_steady ..)
  · exact .refl

theorem reparent_steady (p : Nat) (t : Table) : Steady t (reparent p t) := by
  unfold reparent
  induction range NPROC generalizing t with
  | nil => exact .refl
  | cons q qs ih => exact (reparentOne_steady p t q).trans (ih _)

theorem wakeupParent_steady (p : Nat) (t : Table) : Steady t (wakeupParent p t) := by
  unfold wakeupParent
  split
  · exact .refl
  · exact wakeup_steady ..

theorem exit_steady (status : Int) (h : t.Live p) : Steady t (exit p status t) := by
  have hs := (reparent_steady p t).trans (wakeupParent_steady p (reparent p t))
  unfold exit
  generalize wakeupParent p (reparent p t) = t' at hs ⊢
  exact hs.trans (.set_live ((hs.live p).mpr h) (by simp) rfl)

theorem wait_cases (copied : Bool) (h : (t.slot p).state = .running) :
    Steady t (wait p copied t) ∨ ∃ q, wait p copied t = freeproc t q := by
  unfold wait
  split
  · next q hq =>
    split
    · exact .inr ⟨q, rfl⟩
    · exact .inl .refl
  · split
    · exact .inl .refl
    · exact .inl (.set_live (by simp [Table.Live, h]) (by simp) rfl)

/-- The slot that `allocproc` returns. -/
theorem allocproc_cases (memory : Bool) (t : Table) :
    allocproc memory t = (none, t) ∨ ∃ q < NPROC, (t.slot q).state = .unused ∧
      (allocproc memory t = (some q, { t.set q { t.slot q with pid := t.nextpid, state := .used }
        with nextpid := nextInt t.nextpid }) ∨
      allocproc memory t = (none, { freeproc t q with nextpid := nextInt t.nextpid })) := by
  unfold allocproc
  cases hf : (range NPROC).find? fun q => (t.slot q).state = .unused with
  | none => exact .inl rfl
  | some q =>
    have hq : q < NPROC := mem_range.mp (mem_of_find?_eq_some hf)
    have hun : (t.slot q).state = .unused := by simpa using find?_some hf
    refine .inr ⟨q, hq, hun, ?_⟩
    cases memory with
    | true => exact .inl rfl
    | false =>
      refine .inr ?_
      simp [freeproc, Table.set]

/-- `fork` up to where it leaves the lock: nothing, or a slot gets the next id, or there is not
    enough memory and the slot is free again. -/
theorem forkStart_cases (memory copied : Bool) (t : Table) :
    forkStart memory copied t = t ∨ ∃ q < NPROC, (t.slot q).state = .unused ∧
      (forkStart memory copied t = { t.set q { t.slot q with pid := t.nextpid, state := .used }
        with nextpid := nextInt t.nextpid } ∨
      forkStart memory copied t = { freeproc t q with nextpid := nextInt t.nextpid }) := by
  unfold forkStart
  rcases allocproc_cases memory t with h | ⟨q, hq, hun, h | h⟩ <;> rw [h] <;> dsimp only
  · exact .inl rfl
  · refine .inr ⟨q, hq, hun, ?_⟩
    cases copied with
    | true => exact .inl rfl
    | false =>
      refine .inr ?_
      simp [freeproc, Table.set]
  · exact .inr ⟨q, hq, hun, .inr rfl⟩

theorem kill_cases (pid : Int) (t : Table) :
    ((∀ q < NPROC, (t.slot q).pid ≠ pid) ∧ kill pid t = (false, t)) ∨
    ∃ q < NPROC, (t.slot q).pid = pid ∧ (∀ r < q, (t.slot r).pid ≠ pid) ∧
      kill pid t = (true, t.set q (t.slot q).kill) := by
  unfold kill
  cases hf : (range NPROC).find? fun q => (t.slot q).pid = pid with
  | none =>
    refine .inl ⟨fun q hq hp => ?_, rfl⟩
    have := find?_eq_none.mp hf q (mem_range.mpr hq)
    exact this (decide_eq_true hp)
  | some q =>
    obtain ⟨hp, as, bs, hsplit, hbefore⟩ := find?_eq_some_iff_append.mp hf
    refine .inr ⟨q, mem_range.mp (mem_of_find?_eq_some hf), by simpa using hp,
      fun r hr hc => ?_, rfl⟩
    -- the slots before `q` are those before it in the range
    have hmem : r ∈ as := by
      have hlen : as.length = q := by
        have hget : (range NPROC)[as.length]? = some q := by rw [hsplit]; simp
        rw [getElem?_eq_some_iff] at hget
        obtain ⟨hlt, hget⟩ := hget
        rwa [getElem_range] at hget
      have hget : (range NPROC)[r]? = as[r]? := by
        rw [hsplit, getElem?_append_left (by omega)]
      have hlt : r < NPROC := by
        have := mem_range.mp (mem_of_find?_eq_some hf)
        omega
      rw [getElem?_range hlt] at hget
      exact mem_of_getElem? hget.symm
    simpa [hc] using hbefore r hmem

theorem Slot.kill_live : x.kill.state ≠ .unused ↔ x.state ≠ .unused := by
  unfold Slot.kill
  dsimp only
  split
  · next h => simp [h]
  · rfl

theorem kill_steady (pid : Int) (t : Table) : Steady t (kill pid t).2 := by
  rcases kill_cases pid t with ⟨-, h⟩ | ⟨q, -, -, -, h⟩ <;> rw [h]
  · exact .refl
  · exact .set rfl Slot.kill_live

/-- Only `fork` gives a slot an id, and only `freeproc` takes one away. -/
theorem step_cases (h : Step op t t') : Steady t t' ∨ (∃ q, t' = freeproc t q) ∨
    ∃ p memory copied, op = .forkStart p memory copied ∧ t' = forkStart memory copied t := by
  cases h with
  | @forkStart _ p memory copied hp => exact .inr (.inr ⟨p, memory, copied, rfl, rfl⟩)
  | forkEnd hp hq => exact .inl (.set_live (by simp [Table.Live, hq]) (by simp) rfl)
  | exit status hp hinit => exact .inl (exit_steady status (by simp [Table.Live, hp]))
  | wait copied hp =>
    rcases wait_cases copied hp with hs | hf
    · exact .inl hs
    · exact .inr (.inl hf)
  | kill pid hp => exact .inl (kill_steady pid t)
  | setkilled hp => exact .inl (.set_live (by simp [Table.Live, hp]) (by simp [hp]) rfl)
  | sleep chan hp => exact .inl (.set_live (by simp [Table.Live, hp]) (by simp) rfl)
  | wakeup p chan => exact .inl (wakeup_steady ..)
  | run hp => exact .inl (.set_live (by simp [Table.Live, hp]) (by simp) rfl)
  | yield hp => exact .inl (.set_live (by simp [Table.Live, hp]) (by simp) rfl)

/-! ## Ids are distinct until `nextpid` wraps around -/

/-- Any two slots in use have different ids, and these are positive. -/
structure Distinct (t : Table) : Prop where
  positive : ∀ q, t.Live q → 0 < (t.slot q).pid
  inj : ∀ q r, t.Live q → t.Live r → (t.slot q).pid = (t.slot r).pid → q = r

structure Fresh (t : Table) : Prop extends Distinct t where
  below : 0 < t.nextpid → ∀ q, t.Live q → (t.slot q).pid < t.nextpid
  range : t.nextpid < 2 ^ 31

/-- `nextpid` has not wrapped around when a slot is allocated. A `fork` that finds the table full does
    not use it. -/
def Unwrapped (t : Table) : Op → Prop
  | .forkStart _ _ _ => ∀ q < NPROC, (t.slot q).state = .unused → 0 < t.nextpid
  | _ => True

theorem nextInt_lt (n : Int) : nextInt n < 2 ^ 31 := by
  unfold nextInt
  omega

theorem nextInt_pos {n : Int} (h0 : 0 < n) (hn : n < 2 ^ 31) (h : 0 < nextInt n) :
    nextInt n = n + 1 := by
  unfold nextInt at *
  omega

theorem Fresh.steady (h : Fresh t) (hs : Steady t t') : Fresh t' where
  positive q hq := by
    rw [hs.pid]
    exact h.positive q ((hs.live q).mp hq)
  inj q r hq hr he := by
    rw [hs.pid, hs.pid] at he
    exact h.inj q r ((hs.live q).mp hq) ((hs.live r).mp hr) he
  below hn q hq := by
    rw [hs.nextpid] at hn ⊢
    rw [hs.pid]
    exact h.below hn q ((hs.live q).mp hq)
  range := hs.nextpid ▸ h.range

/-- The slots in use after `freeproc`. -/
theorem live_freeproc (h : (freeproc t q).Live p) :
    t.Live p ∧ (freeproc t q).slot p = t.slot p := by
  have hne : p ≠ q := by
    intro hpq
    rw [Table.Live, hpq, freeproc, set_self] at h
    exact h rfl
  have hslot : (freeproc t q).slot p = t.slot p := set_ne hne
  rw [Table.Live, hslot] at h
  exact ⟨h, hslot⟩

theorem Fresh.freeproc (h : Fresh t) (q : Nat) : Fresh (freeproc t q) where
  positive r hr := by
    rw [(live_freeproc hr).2]
    exact h.positive r (live_freeproc hr).1
  inj r r' hr hr' he := by
    rw [(live_freeproc hr).2, (live_freeproc hr').2] at he
    exact h.inj r r' (live_freeproc hr).1 (live_freeproc hr').1 he
  below hn r hr := by
    rw [(live_freeproc hr).2]
    exact h.below hn r (live_freeproc hr).1
  range := h.range

/-- `nextpid` moves on. -/
theorem Fresh.next (h : Fresh t) (hn : 0 < t.nextpid) :
    Fresh { t with nextpid := nextInt t.nextpid } where
  positive := h.positive
  inj := h.inj
  below hpos q hq := by
    have hlt := h.below hn q hq
    have := nextInt_pos hn h.range hpos
    show (t.slot q).pid < nextInt t.nextpid
    omega
  range := nextInt_lt _

/-- A slot gets the next id. -/
theorem Fresh.alloc (h : Fresh t) (hn : 0 < t.nextpid) (hpid : x.pid = t.nextpid) :
    Fresh { t.set q x with nextpid := nextInt t.nextpid } := by
  -- a slot in use is the new one or an old one, whose id is smaller
  have hcase : ∀ r, (t.set q x).Live r →
      r = q ∧ ((t.set q x).slot r).pid = t.nextpid ∨
      t.Live r ∧ (t.set q x).slot r = t.slot r := by
    intro r hr
    by_cases hrq : r = q
    · exact .inl ⟨hrq, by rw [hrq, set_self, hpid]⟩
    · rw [Table.Live, set_ne hrq] at hr
      exact .inr ⟨hr, set_ne hrq⟩
  refine ⟨⟨fun r hr => ?_, fun r r' hr hr' he => ?_⟩, fun hpos r hr => ?_, nextInt_lt _⟩
  · rcases hcase r hr with ⟨-, hp⟩ | ⟨hl, hs⟩
    · exact hp ▸ hn
    · exact hs ▸ h.positive r hl
  · have he : ((t.set q x).slot r).pid = ((t.set q x).slot r').pid := he
    rcases hcase r hr with ⟨hrq, hp⟩ | ⟨hl, hs⟩ <;>
      rcases hcase r' hr' with ⟨hrq', hp'⟩ | ⟨hl', hs'⟩
    · rw [hrq, hrq']
    · have := h.below hn r' hl'
      rw [hp, hs'] at he
      omega
    · have := h.below hn r hl
      rw [hs, hp'] at he
      omega
    · rw [hs, hs'] at he
      exact h.inj r r' hl hl' he
  · have hnext : nextInt t.nextpid = t.nextpid + 1 := nextInt_pos hn h.range hpos
    show ((t.set q x).slot r).pid < nextInt t.nextpid
    rcases hcase r hr with ⟨-, hp⟩ | ⟨hl, hs⟩
    · omega
    · have := h.below hn r hl
      rw [hs]
      omega

theorem Fresh.step (h : Fresh t) (hs : Step op t t') (hok : Unwrapped t op) : Fresh t' := by
  rcases step_cases hs with hst | ⟨q, rfl⟩ | ⟨p, memory, copied, rfl, rfl⟩
  · exact h.steady hst
  · exact h.freeproc q
  · rcases forkStart_cases memory copied t with he | ⟨q, hq, hun, he | he⟩ <;> rw [he]
    · exact h
    · exact h.alloc (hok q hq hun) rfl
    · exact (h.freeproc q).next (hok q hq hun)

theorem initOnly_ne {state : Procstate} {n : Int} (h : q ≠ 0) :
    (initOnly state n).slot q = .zero := by
  unfold initOnly
  dsimp only
  rw [update_of_ne h]

theorem fresh_boot : Fresh boot := by
  have hlive : ∀ q, boot.Live q → q = 0 := by
    intro q hq
    by_contra hne
    exact hq (by rw [boot, initOnly_ne hne]; rfl)
  refine ⟨⟨fun q hq => ?_, fun q r hq hr _ => ?_⟩, fun _ q hq => ?_, by decide⟩
  · rw [hlive q hq]
    decide
  · rw [hlive q hq, hlive r hr]
  · rw [hlive q hq]
    decide

theorem Reach.fresh (h : Reach Unwrapped t) : Fresh t := by
  induction h with
  | refl => exact fresh_boot
  | tail _ hs ih =>
    obtain ⟨op, hok, hs⟩ := hs
    exact ih.step hs hok

/-- In every run in which `nextpid` has not wrapped around whenever a slot is allocated, ids of slots
    in use are positive and distinct. -/
theorem pids_distinct (h : Reach Unwrapped t) : Distinct t := h.fresh.toDistinct

theorem Reach.step (h : Reach ok t) (hs : Step op t t') (hok : ok t op) : Reach ok t' :=
  h.tail ⟨op, hok, hs⟩

theorem Reach.started (hok : ok boot (.run 0)) : Reach ok (initOnly .running 2) := by
  have hs := Reach.step .refl (.run (p := 0) rfl) hok
  have he : boot.set 0 { boot.slot 0 with chan := none, state := .running } =
      initOnly .running 2 := by
    simp [boot, initOnly, Table.set]
  rwa [he] at hs

/-- `init` has forked twice. -/
def family : Table := forkStart true true (forkEnd 0 1 (forkStart true true (initOnly .running 2)))

theorem Reach.family (hok : ∀ t op, 0 < t.nextpid → (∀ p pid, op ≠ .kill p pid) → ok t op) :
    Reach ok family := by
  have hstart : Reach ok (initOnly .running 2) := .started (hok _ _ (by decide) (by simp))
  have hchild := hstart.step (.forkStart (p := 0) true true rfl) (hok _ _ (by decide) (by simp))
  have hready := hchild.step (.forkEnd (p := 0) (q := 1) rfl rfl) (hok _ _ (by decide) (by simp))
  exact hready.step (.forkStart (p := 0) true true rfl) (hok _ _ (by decide) (by simp))

theorem pids_distinct_family : Reach Unwrapped family ∧ Distinct family ∧
    (range 4).map (fun q => (family.slot q).pid) = [1, 2, 3, 0] := by
  have hr : Reach Unwrapped family := by
    refine .family fun t op hn _ => ?_
    cases op with
    | forkStart => exact fun _ _ _ => hn
    | _ => trivial
  exact ⟨hr, pids_distinct hr, rfl⟩

/-! ### Two to the thirty-first -/

/-- Any step is allowed. -/
def Any (_ : Table) (_ : Op) : Prop := True

/-- `init` runs, and slot 1 has got the id `n`. -/
def withChild (n : Int) (x : Slot) : Table :=
  { (initOnly .running n).set 1 x with nextpid := nextInt n }

theorem withChild_set {n : Int} {y : Slot} : (withChild n x).set 1 y = withChild n y := by
  simp [withChild, Table.set]

theorem withChild_cases (n : Int) (x : Slot) (q : Nat) : (withChild n x).slot q = x ∨
    (withChild n x).slot q = .zero ∨ (withChild n x).slot q = ⟨.running, 1, false, none, none, 0⟩ := by
  by_cases h1 : q = 1
  · rw [h1]
    exact .inl rfl
  by_cases h0 : q = 0
  · rw [h0]
    exact .inr (.inr rfl)
  · refine .inr (.inl ?_)
    show update (initOnly .running n).slot 1 x q = _
    rw [update_of_ne h1, initOnly_ne h0]

theorem forkStart_initOnly (n : Int) : forkStart true true (initOnly .running n) =
    withChild n ⟨.used, n, false, none, none, 0⟩ := rfl

/-- A process without children that exits while nobody sleeps. -/
theorem exit_alone {status : Int} (hkids : ∀ q, (t.slot q).parent ≠ some p)
    (hsleep : ∀ q, (t.slot q).state ≠ .sleeping) :
    exit p status t = t.set p { t.slot p with xstate := status, state := .zombie } := by
  have hreparent : reparent p t = t := by
    unfold reparent
    generalize range NPROC = qs
    induction qs with
    | nil => rfl
    | cons q qs ih => rw [foldl_cons, reparentOne, if_neg (hkids q), ih]
  have hwake : ∀ chan, wakeup p chan t = t := by
    intro chan
    have hslot : (wakeup p chan t).slot = t.slot := by
      funext q
      rcases wakeup_slot p chan t q with h | ⟨hs, -⟩
      · exact h
      · exact absurd hs (hsleep q)
    show { wakeup p chan t with slot := (wakeup p chan t).slot } = t
    rw [hslot]
    rfl
  have hparent : wakeupParent p t = t := by
    unfold wakeupParent
    split
    · rfl
    · exact hwake _
  unfold exit
  rw [hreparent, hparent]

/-- A child is forked, runs, exits and is waited for. -/
theorem Reach.round {n : Int} (h : Reach Any (initOnly .running n)) :
    Reach Any (initOnly .running (nextInt n)) := by
  have hfork : Reach Any (withChild n ⟨.used, n, false, none, none, 0⟩) := by
    have hs := h.step (.forkStart (p := 0) true true rfl) trivial
    rwa [forkStart_initOnly] at hs
  have hready : Reach Any (withChild n ⟨.runnable, n, false, some 0, none, 0⟩) := by
    have hs := hfork.step (.forkEnd (p := 0) (q := 1) rfl rfl) trivial
    rwa [forkEnd, withChild_set] at hs
  have hruns : Reach Any (withChild n ⟨.running, n, false, some 0, none, 0⟩) := by
    have hs := hready.step (.run (p := 1) rfl) trivial
    rwa [withChild_set] at hs
  have hexit : Reach Any (withChild n ⟨.zombie, n, false, some 0, none, 0⟩) := by
    have hs := hruns.step (.exit (p := 1) 0 rfl Nat.one_ne_zero) trivial
    rwa [exit_alone, withChild_set] at hs
    · intro q
      rcases withChild_cases n ⟨.running, n, false, some 0, none, 0⟩ q with hq | hq | hq <;>
        simp [hq, Slot.zero]
    · intro q
      rcases withChild_cases n ⟨.running, n, false, some 0, none, 0⟩ q with hq | hq | hq <;>
        simp [hq, Slot.zero]
  have hs := hexit.step (.wait (p := 0) true rfl) trivial
  have hwait : wait 0 true (withChild n ⟨.zombie, n, false, some 0, none, 0⟩) =
      (withChild n ⟨.zombie, n, false, some 0, none, 0⟩).set 1 .zero := rfl
  have hzero : withChild n .zero = initOnly .running (nextInt n) := by
    have hslot : update (initOnly .running n).slot 1 .zero =
        (initOnly .running n).slot := update_eq_self_iff.mpr rfl
    rw [withChild, Table.set, hslot]
    rfl
  rwa [hwait, withChild_set, hzero] at hs

/-- After enough rounds `nextpid` has any value. -/
theorem Reach.rounds (k : Nat) :
    Reach Any (initOnly .running ((2 + k + 2 ^ 31) % 2 ^ 32 - 2 ^ 31)) := by
  induction k with
  | zero => exact .started trivial
  | succ k ih =>
    have hs := ih.round
    have hn : nextInt ((2 + k + 2 ^ 31) % 2 ^ 32 - 2 ^ 31) =
        (2 + (k + 1 : Nat) + 2 ^ 31) % 2 ^ 32 - 2 ^ 31 := by
      unfold nextInt
      omega
    rwa [hn] at hs

/-- A `fork` when `nextpid` is `n`. -/
theorem Reach.forked (k : Nat) {n : Int} (hn : (2 + k + 2 ^ 31) % 2 ^ 32 - 2 ^ 31 = n) :
    Reach Any (withChild n ⟨.used, n, false, none, none, 0⟩) := by
  have hs := (Reach.rounds k).step (.forkStart (p := 0) true true rfl) trivial
  rwa [forkStart_initOnly, hn] at hs

/-- After `2 ^ 31 - 1` forks a process gets a negative id, and after `2 ^ 32` forks one gets the id
    of `init`, which is still there. -/
theorem pids_wrap :
    (∃ t, Reach Any t ∧ t.Live 1 ∧ (t.slot 1).pid < 0) ∧
    ∃ t, Reach Any t ∧ t.Live 0 ∧ t.Live 1 ∧ (t.slot 0).pid = (t.slot 1).pid := by
  refine ⟨⟨_, Reach.forked (2 ^ 31 - 2) rfl, ?_, ?_⟩, _, Reach.forked (2 ^ 32 - 1) rfl, ?_, ?_, ?_⟩
  · simp [Table.Live, withChild, Table.set]
  · show ((2 + (2 ^ 31 - 2 : Nat) + 2 ^ 31) % 2 ^ 32 - 2 ^ 31 : Int) < 0
    decide
  · simp [Table.Live, withChild, Table.set, initOnly]
  · simp [Table.Live, withChild, Table.set]
  · show (1 : Int) = (2 + (2 ^ 32 - 1 : Nat) + 2 ^ 31) % 2 ^ 32 - 2 ^ 31
    decide

/-! ## `kill` -/

/-- `kill(pid)` returns 0 exactly if a slot in use has this id; then it changes this slot only, and
    otherwise nothing. -/
structure KillsNamed (t : Table) (pid : Int) : Prop where
  returns : (kill pid t).1 = true ↔ ∃ q < NPROC, t.Live q ∧ (t.slot q).pid = pid
  hit : (kill pid t).1 = true → ∃ q < NPROC, t.Live q ∧ (t.slot q).pid = pid ∧
    (kill pid t).2 = t.set q { t.slot q with
      killed := true
      state := if (t.slot q).state = .sleeping then .runnable else (t.slot q).state }
  miss : (kill pid t).1 = false → (kill pid t).2 = t

/-- The first slot with the id is in use; or it is marked as killed already, and so is a process
    with this id that is not asleep. -/
def Named (t : Table) (pid : Int) : Prop :=
  ∀ q < NPROC, (t.slot q).pid = pid → (∀ r < q, (t.slot r).pid ≠ pid) →
    t.Live q ∨ (t.slot q).killed = true ∧ ∃ r < NPROC, t.Live r ∧ (t.slot r).pid = pid ∧
      (t.slot r).killed = true ∧ (t.slot r).state ≠ .sleeping

theorem set_eq_self (h : x = t.slot q) : t.set q x = t := by
  rw [h, Table.set, update_eq_self]

theorem Slot.kill_eq_self (h : x.killed = true) (hs : x.state ≠ .sleeping) : x.kill = x := by
  rw [Slot.kill, if_neg hs, ← h]

theorem KillsNamed.of_named (h : Named t pid) : KillsNamed t pid := by
  rcases kill_cases pid t with ⟨hno, hk⟩ | ⟨q, hq, hpid, hfirst, hk⟩
  · refine ⟨?_, fun hc => ?_, fun _ => by rw [hk]⟩
    · rw [hk]
      refine iff_of_false (by simp) ?_
      rintro ⟨q, hq, -, hp⟩
      exact hno q hq hp
    · rw [hk] at hc
      cases hc
  · -- the slot that is found is in use, or marking it again is marking the other one again
    have hslot : ∃ r < NPROC, t.Live r ∧ (t.slot r).pid = pid ∧
        t.set q (t.slot q).kill = t.set r (t.slot r).kill := by
      rcases h q hq hpid hfirst with hl | ⟨hkilled, r, hr, hl, hp, hkr, hsr⟩
      · exact ⟨q, hq, hl, hpid, rfl⟩
      · by_cases hlq : t.Live q
        · exact ⟨q, hq, hlq, hpid, rfl⟩
        have hun : (t.slot q).state = .unused := not_not.mp hlq
        refine ⟨r, hr, hl, hp, ?_⟩
        rw [set_eq_self (Slot.kill_eq_self hkilled (by simp [hun])),
          set_eq_self (Slot.kill_eq_self hkr hsr)]
    obtain ⟨r, hr, hl, hp, he⟩ := hslot
    refine ⟨?_, fun _ => ⟨r, hr, hl, hp, ?_⟩, fun hc => ?_⟩
    · rw [hk]
      exact iff_of_true rfl ⟨r, hr, hl, hp⟩
    · rw [hk]
      exact he
    · rw [hk] at hc
      cases hc

theorem KillsNamed.named (h : KillsNamed t pid) : Named t pid := by
  intro q hq hpid hfirst
  by_cases hl : t.Live q
  · exact .inl hl
  refine .inr ?_
  rcases kill_cases pid t with ⟨hno, -⟩ | ⟨q', -, hpid', hfirst', hk⟩
  · exact absurd hpid (hno q hq)
  -- the slot that `kill` finds is this one
  have hqq : q' = q := by
    rcases lt_trichotomy q' q with hlt | heq | hgt
    · exact absurd hpid' (hfirst q' hlt)
    · exact heq
    · exact absurd hpid (hfirst' q hgt)
  rw [hqq] at hk
  obtain ⟨r, hr, hlr, hpr, he⟩ := h.hit (by rw [hk])
  have hne : r ≠ q := fun hrq => hl (hrq ▸ hlr)
  rw [hk] at he
  have hsame : ∀ p, (t.set q (t.slot q).kill).slot p = (t.set r (t.slot r).kill).slot p :=
    fun p => congrArg (fun t => t.slot p) he
  have hatq := hsame q
  have hatr := hsame r
  rw [set_self, set_ne hne.symm] at hatq
  rw [set_self, set_ne hne] at hatr
  refine ⟨by rw [← hatq, Slot.kill], r, hr, hlr, hpr, by rw [hatr, Slot.kill], fun hs => ?_⟩
  rw [hatr, Slot.kill] at hs
  dsimp only at hs
  split at hs
  · cases hs
  · next hc => exact hc hs

/-- Slots that are not in use have no id. -/
def Nameless (t : Table) : Prop := ∀ q, ¬ t.Live q → (t.slot q).pid = 0

theorem Nameless.set (h : Nameless t) (hx : x.state ≠ .unused) : Nameless (t.set q x) := by
  intro r hr
  by_cases hrq : r = q
  · rw [hrq, Table.Live, set_self] at hr
    exact absurd hx hr
  · rw [Table.Live, set_ne hrq] at hr
    rw [set_ne hrq]
    exact h r hr

theorem Nameless.freeproc (h : Nameless t) (q : Nat) : Nameless (freeproc t q) := by
  intro r hr
  by_cases hrq : r = q
  · rw [hrq, Pids.freeproc, set_self]
    rfl
  · rw [Pids.freeproc, Table.Live, set_ne hrq] at hr
    rw [Pids.freeproc, set_ne hrq]
    exact h r hr

theorem Nameless.step (h : Nameless t) (hs : Step op t t') : Nameless t' := by
  rcases step_cases hs with hst | ⟨q, rfl⟩ | ⟨p, memory, copied, rfl, rfl⟩
  · intro q hq
    rw [hst.pid]
    exact h q (mt (hst.live q).mpr hq)
  · exact h.freeproc q
  · rcases forkStart_cases memory copied t with he | ⟨q, -, -, he | he⟩ <;> rw [he]
    · exact h
    · exact h.set (by simp)
    · exact h.freeproc q

theorem boot_unused (h : ¬ boot.Live q) : boot.slot q = .zero := by
  by_cases hq : q = 0
  · rw [hq] at h
    exact absurd (fun hc => by cases hc) h
  · exact initOnly_ne hq

theorem Reach.nameless (h : Reach ok t) : Nameless t := by
  induction h with
  | refl => exact fun q hq => by rw [boot_unused hq]; rfl
  | tail _ hs ih =>
    obtain ⟨op, -, hs⟩ := hs
    exact ih.step hs

theorem Nameless.named (h : Nameless t) (hpid : pid ≠ 0) : Named t pid := by
  intro q _ hq _
  refine .inl fun hun => hpid ?_
  rw [← hq]
  exact h q (not_not.mpr hun)

/-! ### No process is born killed -/

/-- Slots that are not in use are not marked. -/
def Unmarked (t : Table) : Prop := ∀ q, ¬ t.Live q → (t.slot q).killed = false

/-- A slot is changed that is in use then, or that is not marked. -/
theorem Unmarked.set (h : Unmarked t) (hx : x.state ≠ .unused ∨ x.killed = false) :
    Unmarked (t.set q x) := by
  intro r hr
  by_cases hrq : r = q
  · rw [hrq, Table.Live, set_self] at hr
    rw [hrq, set_self]
    exact hx.resolve_left hr
  · rw [Table.Live, set_ne hrq] at hr
    rw [set_ne hrq]
    exact h r hr

theorem Unmarked.wakeup {chan : Chan} (h : Unmarked t) : Unmarked (wakeup p chan t) := by
  intro q hq
  rw [Table.Live] at hq
  rcases wakeup_slot p chan t q with he | ⟨-, he⟩ <;> rw [he] at hq ⊢
  · exact h q hq
  · exact absurd (by simp) hq

theorem Unmarked.reparent (h : Unmarked t) (p : Nat) : Unmarked (reparent p t) := by
  unfold Pids.reparent
  generalize range NPROC = qs
  induction qs generalizing t with
  | nil => exact h
  | cons q qs ih =>
    refine ih ?_
    unfold reparentOne
    split
    · refine (h.set (x := { t.slot q with parent := some t.initproc }) ?_).wakeup
      by_cases hl : t.Live q
      · exact .inl hl
      · exact .inr (h q hl)
    · exact h

theorem Unmarked.exit {status : Int} (h : Unmarked t) : Unmarked (exit p status t) := by
  have hw : Unmarked (wakeupParent p (Pids.reparent p t)) := by
    unfold wakeupParent
    split
    · exact h.reparent p
    · exact (h.reparent p).wakeup
  exact hw.set (.inl (by simp))

theorem Unmarked.wait {copied : Bool} (h : Unmarked t) : Unmarked (wait p copied t) := by
  unfold Pids.wait
  split
  · split
    · exact h.set (.inr rfl)
    · exact h
  · split
    · exact h
    · exact h.set (.inl (by simp))

theorem Unmarked.kill (h : Unmarked t) (hn : Named t pid) : Unmarked (kill pid t).2 := by
  rcases kill_cases pid t with ⟨-, hk⟩ | ⟨q, hq, hpid, hfirst, hk⟩ <;> rw [hk]
  · exact h
  · have hl : t.Live q := by
      rcases hn q hq hpid hfirst with hl | ⟨hkilled, -⟩
      · exact hl
      · intro hun
        have := h q (not_not.mpr hun)
        rw [hkilled] at this
        cases this
    exact h.set (.inl (Slot.kill_live.mpr hl))

/-- Every `kill` finds a process, or nothing. -/
def NamesProcess (t : Table) : Op → Prop
  | .kill _ pid => Named t pid
  | _ => True

theorem Unmarked.step (h : Unmarked t) (hs : Step op t t') (hok : NamesProcess t op) :
    Unmarked t' := by
  cases hs with
  | forkStart memory copied hp =>
    rcases forkStart_cases memory copied t with he | ⟨q, -, -, he | he⟩ <;> rw [he]
    · exact h
    · exact h.set (.inl (by simp))
    · exact h.set (.inr rfl)
  | forkEnd hp hq => exact h.set (.inl (by simp))
  | exit status hp hinit => exact h.exit
  | wait copied hp => exact h.wait
  | kill pid hp => exact h.kill hok
  | setkilled hp => exact h.set (.inl (by simp [hp]))
  | sleep chan hp => exact h.set (.inl (by simp))
  | wakeup p chan => exact h.wakeup
  | run hp => exact h.set (.inl (by simp))
  | yield hp => exact h.set (.inl (by simp))

theorem Reach.unmarked (h : Reach NamesProcess t) : Unmarked t := by
  induction h with
  | refl => exact fun q hq => by rw [boot_unused hq]; rfl
  | tail _ hs ih =>
    obtain ⟨op, hok, hs⟩ := hs
    exact ih.step hs hok

/-- `kill` affects the process that it names, and no other slot, exactly if the slot it finds first
    is in use (or marking it once more makes no difference), which is so for every id but 0; and if
    each `kill` of a run does so, no slot is marked as killed when it is allocated. -/
theorem kill_affects_named (h : Reach Any t) (pid : Int) :
    (KillsNamed t pid ↔ Named t pid) ∧ (pid ≠ 0 → Named t pid) ∧
      (Reach NamesProcess t → ∀ memory q t', allocproc memory t = (some q, t') →
        (t'.slot q).killed = false) := by
  refine ⟨⟨KillsNamed.named, KillsNamed.of_named⟩, h.nameless.named, ?_⟩
  intro hrun memory q t' ha
  rcases allocproc_cases memory t with hc | ⟨r, -, hun, hc | hc⟩ <;> rw [hc] at ha <;> cases ha
  show ((t.set q _).slot q).killed = false
  rw [set_self]
  exact hrun.unmarked q (not_not.mpr hun)

theorem kill_affects_named_family : KillsNamed family 3 ∧ (kill 3 family).1 = true ∧
    Reach NamesProcess (kill 3 family).2 ∧ ((kill 3 family).2.slot 2).killed = true ∧
    (allocproc true (kill 3 family).2).1 = some 3 ∧
    ((allocproc true (kill 3 family).2).2.slot 3).killed = false := by
  have hany : Reach Any family := .family fun _ _ _ _ => trivial
  obtain ⟨hiff, hnamed, -⟩ := kill_affects_named hany 3
  have hnamed := hnamed (by decide)
  have hr : Reach NamesProcess family := by
    refine .family fun t op _ hk => ?_
    cases op with
    | kill p pid => exact absurd rfl (hk p pid)
    | _ => trivial
  have hkilled := hr.step (.kill (p := 0) 3 rfl) hnamed
  obtain ⟨-, -, hborn⟩ := kill_affects_named (hany.step (.kill (p := 0) 3 rfl) trivial) 3
  exact ⟨hiff.mpr hnamed, rfl, hkilled, rfl, rfl, hborn hkilled true 3 _ rfl⟩

/-- `kill(0)` finds the first slot that is not in use: it returns 0 although no process has the id
    0, and the next process is born killed. -/
theorem kill_zero : ∃ t, Reach Any t ∧ (∀ q < NPROC, t.Live q → (t.slot q).pid ≠ 0) ∧
    (kill 0 t).1 = true ∧ ∃ t', Step (.kill 0 0) t t' ∧
      (allocproc true t').1 = some 1 ∧ ((allocproc true t').2.slot 1).killed = true := by
  have hr : Reach Any (initOnly .running 2) := Reach.rounds 0
  refine ⟨initOnly .running 2, hr, fun q _ hl => ?_, rfl, _, .kill 0 rfl, rfl, rfl⟩
  by_cases hq : q = 0
  · rw [hq]
    decide
  · rw [Table.Live, initOnly_ne hq] at hl
    exact absurd rfl hl

end Xv6.Pids
