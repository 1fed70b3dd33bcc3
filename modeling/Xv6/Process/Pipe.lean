import Xv6.Lib.Ring

/-!
# A pipe is a bounded first-in first-out queue

`pipewrite` and `piperead` of `kernel/pipe.c`, called by any number of processes at once. A call
holds `pi->lock` from where it starts or wakes up to where it sleeps or returns, so these stretches
are the atomic steps. A sleeping call may be woken up at any time. The flag that `killed` reads
belongs to no lock that is held, so each time it is read it may be anything.

`stored` and `delivered` are histories that the code does not keep: every byte that was put into
the pipe and every byte that was taken out, each with the call that did it.
-/

namespace Xv6.Pipes

open Lib Function List

abbrev PIPESIZE : Nat := 512

/-- `struct pipe`. The two counters are 32-bit unsigned integers. -/
structure Pipe where
  data : Nat → UInt8
  /-- number of bytes read -/
  nread : Nat
  /-- number of bytes written -/
  nwrite : Nat
  /-- read fd is still open -/
  readopen : Bool
  /-- write fd is still open -/
  writeopen : Bool

/-- `pi->data[pi->nwrite++ % PIPESIZE] = ch` -/
def Pipe.put (pi : Pipe) (ch : UInt8) : Pipe :=
  { pi with
    data := update pi.data (pi.nwrite % PIPESIZE) ch
    nwrite := (pi.nwrite + 1) % 2 ^ 32 }

/-- `pi->data[pi->nread++ % PIPESIZE]`: the byte -/
def Pipe.front (pi : Pipe) : UInt8 := pi.data (pi.nread % PIPESIZE)

/-- `pi->data[pi->nread++ % PIPESIZE]`: the counter -/
def Pipe.drop (pi : Pipe) : Pipe := { pi with nread := (pi.nread + 1) % 2 ^ 32 }

/-- The loop of `pipewrite` after `i` bytes, up to a sleep or the end. Returns the bytes written
    so far and, at the end, the result. -/
def pipewrite (killed : Nat → Bool) (src : Nat → UInt8) (n : Int) (i : Nat) (pi : Pipe) :
    Pipe × Nat × Option Int :=
  if i < n then
    if pi.readopen = false ∨ killed i = true then (pi, i, some (-1))
    else if pi.nwrite = (pi.nread + PIPESIZE) % 2 ^ 32 then (pi, i, none)
    else pipewrite killed src n (i + 1) (pi.put (src i))
  else (pi, i, some i)
termination_by (n - i).toNat
decreasing_by omega

/-- The copying loop of `piperead` after `i` bytes. -/
def pipereadFrom (n : Int) (i : Nat) (pi : Pipe) : Pipe × List UInt8 :=
  if i < n then
    if pi.nread = pi.nwrite then (pi, [])
    else
      let r := pipereadFrom n (i + 1) pi.drop
      (r.1, pi.front :: r.2)
  else (pi, [])
termination_by (n - i).toNat
decreasing_by omega

/-- `piperead` up to a sleep or the end. At the end, the result and the bytes that were copied to
    the user. -/
def piperead (killed : Bool) (n : Int) (pi : Pipe) : Pipe × Option (Int × List UInt8) :=
  if pi.nread = pi.nwrite ∧ pi.writeopen = true then
    if killed then (pi, some (-1, [])) else (pi, none)
  else
    let r := pipereadFrom n 0 pi
    (r.1, some (r.2.length, r.2))

def Pipe.close (pi : Pipe) (writable : Bool) : Pipe :=
  if writable then { pi with writeopen := false } else { pi with readopen := false }

/-! ## Calls that run at the same time -/

/-- A call of `pipewrite` or `piperead`, before, during and after. -/
inductive Call where
  | idle
  /-- in `pipewrite(pi, src, n)`, with `i` bytes written -/
  | writing (src : Nat → UInt8) (n : Int) (i : Nat)
  | wrote (src : Nat → UInt8) (n : Int) (i : Nat) (r : Int)
  /-- in `piperead(pi, buf, n)` -/
  | reading (n : Int)
  | hasRead (n : Int) (r : Int) (buf : List UInt8)

/-- A call of `pipewrite` when it has gone to sleep or returned. -/
def Call.after (src : Nat → UInt8) (n : Int) (i : Nat) : Option Int → Call
  | none => .writing src n i
  | some r => .wrote src n i r

structure Sys where
  pipe : Pipe
  call : Nat → Call
  stored : List (Nat × UInt8)
  delivered : List (Nat × UInt8)

/-- A new pipe. -/
def init (data : Nat → UInt8) : Sys :=
  ⟨⟨data, 0, 0, true, true⟩, fun _ => .idle, [], []⟩

inductive Step : Sys → Sys → Prop where
  | write {s : Sys} (c : Nat) (src : Nat → UInt8) (n : Int) : s.call c = .idle →
      Step s { s with call := update s.call c (.writing src n 0) }
  | read {s : Sys} (c : Nat) (n : Int) : s.call c = .idle →
      Step s { s with call := update s.call c (.reading n) }
  | pipewrite {s : Sys} {c : Nat} {src : Nat → UInt8} {n : Int} {i j : Nat} {r : Option Int}
      {pi : Pipe} (killed : Nat → Bool) :
      s.call c = .writing src n i → pipewrite killed src n i s.pipe = (pi, j, r) →
      Step s { s with
        pipe := pi
        call := update s.call c (.after src n j r)
        stored := s.stored ++ (range' i (j - i)).map fun k => (c, src k) }
  | piperead {s : Sys} {c : Nat} {n : Int} {r : Int} {bs : List UInt8} {pi : Pipe}
      (killed : Bool) :
      s.call c = .reading n → piperead killed n s.pipe = (pi, some (r, bs)) →
      Step s { s with
        pipe := pi
        call := update s.call c (.hasRead n r bs)
        delivered := s.delivered ++ bs.map fun b => (c, b) }
  | pipeclose {s : Sys} (writable : Bool) : Step s { s with pipe := s.pipe.close writable }

/-- The states of a run. -/
def Reach (data : Nat → UInt8) : Sys → Prop := Relation.ReflTransGen Step (init data)

/-! ## The queue -/

/-- The bytes of a history. -/
def bytes (l : List (Nat × UInt8)) : List UInt8 := l.map Prod.snd

/-- The bytes of a history that belong to one call. -/
def bytesOf (c : Nat) (l : List (Nat × UInt8)) : List UInt8 :=
  bytes (l.filter fun x => x.1 = c)

/-- The pipe holds what was written, `W`, except for what was read, `R`. -/
structure Fifo (pi : Pipe) (W R : List UInt8) : Prop where
  before : R <+: W
  room : W.length ≤ R.length + PIPESIZE
  nread : pi.nread = R.length % 2 ^ 32
  nwrite : pi.nwrite = W.length % 2 ^ 32
  holds : Holds PIPESIZE pi.data W R.length

section

variable {pi pi' : Pipe} {W R : List UInt8}

theorem Fifo.le (h : Fifo pi W R) : R.length ≤ W.length := h.before.length_le

theorem Fifo.empty_iff (h : Fifo pi W R) : pi.nread = pi.nwrite ↔ R.length = W.length := by
  rw [h.nread, h.nwrite]
  exact counter_empty_iff h.le (by have := h.room; simp only [PIPESIZE] at this; omega)

theorem Fifo.full_iff (h : Fifo pi W R) :
    pi.nwrite = (pi.nread + PIPESIZE) % 2 ^ 32 ↔ W.length = R.length + PIPESIZE := by
  rw [h.nread, h.nwrite]
  exact counter_full_iff h.room h.le (by decide)

theorem Fifo.put (h : Fifo pi W R) {ch : UInt8}
    (hroom : pi.nwrite ≠ (pi.nread + PIPESIZE) % 2 ^ 32) : Fifo (pi.put ch) (W ++ [ch]) R := by
  have hlt : W.length < R.length + PIPESIZE := by
    have := h.room
    have := mt h.full_iff.mpr hroom
    omega
  refine ⟨h.before.trans (prefix_append W [ch]), ?_, h.nread, ?_, ?_⟩
  · rw [length_append, length_singleton]
    omega
  · rw [Pipe.put, h.nwrite, counter_succ, length_append, length_singleton]
  · rw [Pipe.put, h.nwrite, counter_cell (by decide)]
    exact h.holds.push hlt

theorem Fifo.drop (h : Fifo pi W R) (hne : pi.nread ≠ pi.nwrite) :
    Fifo pi.drop W (R ++ [pi.front]) := by
  have hlt : R.length < W.length := by
    have := h.le
    have := mt h.empty_iff.mpr hne
    omega
  have hfront : pi.front = W[R.length] := by
    rw [Pipe.front, h.nread, counter_cell (by decide)]
    exact h.holds.head hlt
  refine ⟨?_, ?_, ?_, h.nwrite, ?_⟩
  · obtain ⟨T, rfl⟩ := h.before
    cases T with
    | nil =>
      rw [append_nil] at hlt
      exact absurd hlt (lt_irrefl _)
    | cons b T =>
      have hb : pi.front = b := by
        rw [hfront]
        exact getElem_of_append rfl rfl
      rw [hb]
      exact ⟨T, by rw [append_assoc, singleton_append]⟩
  · rw [length_append, length_singleton]
    have := h.room
    omega
  · rw [Pipe.drop, h.nread, counter_succ, length_append, length_singleton]
  · rw [length_append, length_singleton]
    exact h.holds.pop

theorem Fifo.close (h : Fifo pi W R) (writable : Bool) : Fifo (pi.close writable) W R := by
  cases writable with
  | false => exact ⟨h.before, h.room, h.nread, h.nwrite, h.holds⟩
  | true => exact ⟨h.before, h.room, h.nread, h.nwrite, h.holds⟩

/-- `pipewrite` puts bytes of its source into the pipe, in their order. -/
theorem pipewrite_fifo {killed : Nat → Bool} {src : Nat → UInt8} {n : Int} {i j : Nat}
    {r : Option Int} (h : Fifo pi W R) (hw : pipewrite killed src n i pi = (pi', j, r)) :
    i ≤ j ∧ Fifo pi' (W ++ (range' i (j - i)).map src) R ∧
      ∀ v, r = some v → v = -1 ∨ v = j ∧ n ≤ j := by
  -- on the number of bytes still to be written
  induction hd : (n - i).toNat using Nat.strong_induction_on generalizing i pi W with
  | _ d ih =>
  rw [pipewrite] at hw
  have hstay : Fifo pi (W ++ (range' i (i - i)).map src) R := by
    rw [Nat.sub_self, range'_zero, map_nil, append_nil]
    exact h
  split at hw
  · next hin =>
    split at hw
    · cases hw
      exact ⟨le_rfl, hstay, fun v hv => .inl (Option.some.inj hv).symm⟩
    · split at hw
      · cases hw
        exact ⟨le_rfl, hstay, fun v hv => by cases hv⟩
      · next hfull =>
        obtain ⟨hij, hf, hr⟩ := ih _ (by omega) (h.put hfull) hw rfl
        refine ⟨by omega, ?_, hr⟩
        have hsplit : range' i (j - i) = i :: range' (i + 1) (j - (i + 1)) := by
          rw [show j - i = j - (i + 1) + 1 by omega, range'_succ]
        rw [hsplit, map_cons]
        rwa [append_assoc, singleton_append] at hf
  · next hout =>
    cases hw
    exact ⟨le_rfl, hstay, fun v hv => .inr ⟨(Option.some.inj hv).symm, by omega⟩⟩

/-- The loop of `piperead` takes bytes out of the pipe, and stops early only if it is empty. -/
theorem pipereadFrom_fifo {n : Int} {i : Nat} (h : Fifo pi W R) :
    Fifo (pipereadFrom n i pi).1 W (R ++ (pipereadFrom n i pi).2) ∧
      ((pipereadFrom n i pi).2 = [] → i < n →
        pi.nread = pi.nwrite ∧ (pipereadFrom n i pi).1 = pi) := by
  induction hd : (n - i).toNat using Nat.strong_induction_on generalizing i pi R with
  | _ d ih =>
  rw [pipereadFrom]
  split
  · next hin =>
    split
    · next hemp =>
      rw [append_nil]
      exact ⟨h, fun _ _ => ⟨hemp, rfl⟩⟩
    · next hne =>
      obtain ⟨hf, -⟩ := ih (n - (i + 1 : Nat)).toNat (by omega) (h.drop hne) (i := i + 1) rfl
      rw [append_assoc, singleton_append] at hf
      exact ⟨hf, fun hc => by cases hc⟩
  · next hout =>
    rw [append_nil]
    exact ⟨h, fun _ hc => absurd hc hout⟩

/-- `piperead` takes bytes out of the pipe; with nothing to take, the pipe is empty and the write
    end is closed. -/
theorem piperead_fifo {killed : Bool} {n r : Int} {bs : List UInt8} (h : Fifo pi W R)
    (hr : piperead killed n pi = (pi', some (r, bs))) :
    Fifo pi' W (R ++ bs) ∧ (r = bs.length ∨ r = -1 ∧ bs = []) ∧
      (r = 0 → 0 < n → pi'.nread = pi'.nwrite ∧ pi'.writeopen = false) := by
  rw [piperead] at hr
  split at hr
  · split at hr
    · cases hr
      rw [append_nil]
      exact ⟨h, .inr ⟨rfl, rfl⟩, fun hc => by cases hc⟩
    · cases hr
  · next hwait =>
    obtain ⟨hf, hemp⟩ := pipereadFrom_fifo (n := n) (i := 0) h
    cases hr
    refine ⟨hf, .inl rfl, fun h0 hn => ?_⟩
    have hnil : (pipereadFrom n 0 pi).2 = [] := length_eq_zero_iff.mp (by omega)
    obtain ⟨he, hsame⟩ := hemp hnil (by omega)
    rw [hsame]
    exact ⟨he, by simpa [he] using hwait⟩

end

/-! ## Runs -/

/-- What is known of a call from the bytes it has stored and those delivered to it. -/
def Call.Ok (st de : List UInt8) : Call → Prop
  | .idle => st = [] ∧ de = []
  | .writing src _ i => st = (range i).map src ∧ de = []
  | .wrote src n i r => st = (range i).map src ∧ de = [] ∧ (r = -1 ∨ r = i ∧ n ≤ i)
  | .reading _ => st = [] ∧ de = []
  | .hasRead _ r buf => st = [] ∧ de = buf ∧ (r = buf.length ∨ r = -1 ∧ buf = [])

structure Good (s : Sys) : Prop where
  fifo : Fifo s.pipe (bytes s.stored) (bytes s.delivered)
  calls : ∀ c, (s.call c).Ok (bytesOf c s.stored) (bytesOf c s.delivered)

section

variable {s s' : Sys} {c d : Nat} {l : List (Nat × UInt8)} {data : Nat → UInt8}

theorem bytes_append_map {β : Type} (xs : List β) (f : β → UInt8) :
    bytes (l ++ xs.map fun x => (c, f x)) = bytes l ++ xs.map f := by
  rw [bytes, bytes, map_append, map_map]
  rfl

theorem bytesOf_append_self {β : Type} (xs : List β) (f : β → UInt8) :
    bytesOf c (l ++ xs.map fun x => (c, f x)) = bytesOf c l ++ xs.map f := by
  have hall : (xs.map fun x => (c, f x)).filter (fun x => x.1 = c) = xs.map fun x => (c, f x) := by
    rw [filter_eq_self]
    intro a ha
    obtain ⟨x, -, rfl⟩ := mem_map.mp ha
    exact decide_eq_true rfl
  rw [bytesOf, bytesOf, filter_append, hall]
  exact bytes_append_map xs f

theorem bytesOf_append_of_ne {β : Type} (hcd : d ≠ c) (xs : List β) (f : β → UInt8) :
    bytesOf d (l ++ xs.map fun x => (c, f x)) = bytesOf d l := by
  have hnone : (xs.map fun x => (c, f x)).filter (fun x => x.1 = d) = [] := by
    rw [filter_eq_nil_iff]
    intro a ha
    obtain ⟨x, -, rfl⟩ := mem_map.mp ha
    exact fun hc => hcd (of_decide_eq_true hc).symm
  rw [bytesOf, bytesOf, filter_append, hnone, append_nil]

theorem good_init (data : Nat → UInt8) : Good (init data) :=
  ⟨⟨prefix_refl [], Nat.zero_le _, rfl, rfl, .nil data⟩, fun _ => ⟨rfl, rfl⟩⟩

/-- A call takes a step; the other calls have stored and received what they had. -/
theorem Good.update {x : Call} {W R : List (Nat × UInt8)} {pi : Pipe} (h : Good s)
    (hf : Fifo pi (bytes W) (bytes R)) (hc : x.Ok (bytesOf c W) (bytesOf c R))
    (hW : ∀ d, d ≠ c → bytesOf d W = bytesOf d s.stored)
    (hR : ∀ d, d ≠ c → bytesOf d R = bytesOf d s.delivered) :
    Good ⟨pi, update s.call c x, W, R⟩ := by
  refine ⟨hf, fun d => ?_⟩
  by_cases hd : d = c
  · subst hd
    simp only [update_self]
    exact hc
  · simp only [update_of_ne hd, hW d hd, hR d hd]
    exact h.calls d

theorem Good.step (h : Good s) (hs : Step s s') : Good s' := by
  cases hs with
  | write c src n hi =>
    have hc := h.calls c
    rw [hi] at hc
    exact h.update h.fifo ⟨hc.1, hc.2⟩ (fun _ _ => rfl) fun _ _ => rfl
  | read c n hi =>
    have hc := h.calls c
    rw [hi] at hc
    exact h.update h.fifo hc (fun _ _ => rfl) fun _ _ => rfl
  | @pipewrite c src n i j r pi killed hi hw =>
    have hc := h.calls c
    rw [hi] at hc
    obtain ⟨hij, hf, hr⟩ := pipewrite_fifo h.fifo hw
    have hst : bytesOf c (s.stored ++ (range' i (j - i)).map fun k => (c, src k))
        = (range j).map src := by
      have hrange : range i ++ range' i (j - i) = range j := by
        rw [range_eq_range', range_eq_range']
        have := range'_append_1 (s := 0) (m := i) (n := j - i)
        rwa [zero_add, Nat.add_sub_cancel' hij] at this
      rw [bytesOf_append_self, hc.1, ← map_append, hrange]
    refine h.update (by rwa [bytes_append_map]) ?_ (fun d hd => bytesOf_append_of_ne hd _ _)
      fun _ _ => rfl
    cases r with
    | none => exact ⟨hst, hc.2⟩
    | some v => exact ⟨hst, hc.2, hr v rfl⟩
  | @piperead c n r bs pi killed hi hp =>
    have hc := h.calls c
    rw [hi] at hc
    obtain ⟨hf, hr, -⟩ := piperead_fifo h.fifo hp
    have hall := bytes_append_map (c := c) (l := s.delivered) bs id
    have hown := bytesOf_append_self (c := c) (l := s.delivered) bs id
    rw [map_id] at hall hown
    rw [hc.2, nil_append] at hown
    exact h.update (hall ▸ hf) ⟨hc.1, hown, hr⟩ (fun _ _ => rfl)
      fun d hd => bytesOf_append_of_ne hd bs id
  | pipeclose writable => exact ⟨h.fifo.close writable, h.calls⟩

theorem Reach.good (h : Reach data s) : Good s := by
  induction h with
  | refl => exact good_init data
  | tail _ hs ih => exact ih.step hs

/-- A read of at least one byte that returns 0 leaves an empty pipe whose write end is closed. -/
theorem Good.read_zero {n : Int} {buf : List UInt8} (h : Good s) (hs : Step s s')
    (hc : s.call c = .reading n) (hn : 0 < n) (hc' : s'.call c = .hasRead n 0 buf) :
    s'.pipe.nread = s'.pipe.nwrite ∧ s'.pipe.writeopen = false := by
  -- only the step of this call itself can have made it return
  have hother : ∀ {d : Nat} {x : Call}, (∀ r b, x ≠ .hasRead n r b) ∨ d ≠ c →
      Function.update s.call d x c = .hasRead n 0 buf → False := by
    intro d x hx hu
    by_cases hd : c = d
    · subst hd
      rw [update_self] at hu
      exact hx.elim (fun hx => hx _ _ hu) fun hne => hne rfl
    · rw [update_of_ne hd, hc] at hu
      cases hu
  cases hs with
  | write d src m hi => exact (hother (.inl fun _ _ hx => by cases hx) hc').elim
  | read d m hi => exact (hother (.inl fun _ _ hx => by cases hx) hc').elim
  | @pipewrite d src m i j r pi killed hi hw =>
    refine (hother (.inl fun r' b hx => ?_) hc').elim
    cases r with
    | none => cases hx
    | some v => cases hx
  | @piperead d m r bs pi killed hi hp =>
    by_cases hd : d = c
    · subst hd
      obtain ⟨-, -, hzero⟩ := piperead_fifo h.fifo hp
      simp only [update_self] at hc'
      cases hc'
      exact hzero rfl hn
    · exact (hother (.inr hd) hc').elim
  | pipeclose writable =>
    rw [hc] at hc'
    cases hc'

/-- In every run of a pipe: there are at most `PIPESIZE` bytes in it; what was delivered is a prefix
    of what was stored, and what is missing is in the pipe; the bytes of each call are in its own
    order; and a read returns 0 only from an empty pipe that is closed for writing. -/
theorem pipe_fifo (h : Reach data s) :
    (s.pipe.nwrite + 2 ^ 32 - s.pipe.nread) % 2 ^ 32 ≤ PIPESIZE ∧
    s.pipe.nwrite = s.stored.length % 2 ^ 32 ∧ s.pipe.nread = s.delivered.length % 2 ^ 32 ∧
    bytes s.delivered <+: bytes s.stored ∧
    s.stored.length = s.delivered.length + (s.pipe.nwrite + 2 ^ 32 - s.pipe.nread) % 2 ^ 32 ∧
    (∀ c, (s.call c).Ok (bytesOf c s.stored) (bytesOf c s.delivered)) ∧
    ∀ s', Step s s' → ∀ c n buf, s.call c = .reading n → 0 < n → s'.call c = .hasRead n 0 buf →
      s'.pipe.nread = s'.pipe.nwrite ∧ s'.pipe.writeopen = false := by
  have hg := h.good
  have hW : (bytes s.stored).length = s.stored.length := length_map _
  have hR : (bytes s.delivered).length = s.delivered.length := length_map _
  have hle := hg.fifo.le
  have hroom := hg.fifo.room
  have hnw := hg.fifo.nwrite
  have hnr := hg.fifo.nread
  rw [hW] at hle hroom hnw
  rw [hR] at hle hroom hnr
  have hsub : (s.pipe.nwrite + 2 ^ 32 - s.pipe.nread) % 2 ^ 32
      = s.stored.length - s.delivered.length := by
    rw [hnw, hnr]
    exact counter_sub hle (by simp only [PIPESIZE] at hroom; omega)
  refine ⟨by omega, hnw, hnr, hg.fifo.before, by omega, hg.calls, ?_⟩
  exact fun s' hs c n buf hc hn hc' => hg.read_zero hs hc hn hc'

end

/-! ## Two bytes are written and one is read -/

def twoBytes (k : Nat) : UInt8 := if k = 0 then 7 else 8

theorem pipewrite_twoBytes : pipewrite (fun _ => false) twoBytes 2 0 (init fun _ => 0).pipe
    = (((init fun _ => 0).pipe.put 7).put 8, 2, some 2) := by
  rw [pipewrite, if_pos (by decide), if_neg (by decide), if_neg (by decide),
    pipewrite, if_pos (by decide), if_neg (by decide), if_neg (by decide),
    pipewrite, if_neg (by decide)]
  rfl

theorem piperead_twoBytes : piperead false 1 (((init fun _ => 0).pipe.put 7).put 8)
    = ((((init fun _ => 0).pipe.put 7).put 8).drop, some (1, [7])) := by
  rw [piperead, if_neg (by decide), pipereadFrom, if_pos (by decide), if_neg (by decide),
    pipereadFrom, if_neg (by decide)]
  rfl

/-- Call 0 has written two bytes, and call 1 has read the first of them. -/
theorem pipe_fifo_twoBytes : ∃ s, Reach (fun _ => 0) s ∧ s.call 1 = .hasRead 1 1 [7] ∧
    bytes s.stored = [7, 8] ∧ bytes s.delivered = [7] ∧ bytes s.delivered <+: bytes s.stored ∧
    (s.pipe.nwrite + 2 ^ 32 - s.pipe.nread) % 2 ^ 32 = 1 := by
  have h₁ : Reach (fun _ => 0) _ := .single (.write 0 twoBytes 2 rfl)
  have h₂ : Reach (fun _ => 0) _ := h₁.tail (.pipewrite (c := 0) _ rfl pipewrite_twoBytes)
  have h₃ : Reach (fun _ => 0) _ := h₂.tail (.read 1 1 rfl)
  have h₄ : Reach (fun _ => 0) _ := h₃.tail (.piperead (c := 1) _ rfl piperead_twoBytes)
  obtain ⟨-, -, -, hbefore, hlen, -⟩ := pipe_fifo h₄
  exact ⟨_, h₄, rfl, rfl, rfl, hbefore, (Nat.add_left_cancel hlen).symm⟩

end Xv6.Pipes
