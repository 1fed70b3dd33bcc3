import Xv6.Console.Code
import Xv6.Lib.Ring

/-!
# The line discipline of the console

The buffer of the console shows the two lists of the editor: over the history `R` of all that was
read, the three indices are the lengths of `R`, `R` with what can be read, and both with the line,
modulo `2 ^ 32`, and the cells are a ring that holds what is not in `R` yet. Each key and each
stretch of a read keeps that up, so a run of the code and a run of the editor with the same events
return the same bytes.
-/

namespace Xv6.Console

open Lib Function List

/-- The buffer shows the editor after `R` has been read. -/
structure Shows (R : List UInt8) (s : Cons) (ed : Editor) : Prop where
  r : s.r = R.length % 2 ^ 32
  w : s.w = (R.length + ed.committed.length) % 2 ^ 32
  e : s.e = (R.length + (ed.committed.length + ed.line.length)) % 2 ^ 32
  cells : Holds INPUT_BUF_SIZE s.buf (R ++ (ed.committed ++ ed.line)) R.length
  room : ed.committed.length + ed.line.length ≤ INPUT_BUF_SIZE
  full : ed.committed.length + ed.line.length = INPUT_BUF_SIZE → ed.line = []
  line : newline ∉ ed.line

section

variable {R : List UInt8} {s : Cons} {ed : Editor}

/-! ## What the indices say -/

theorem inc_mod (n : Nat) : inc (n % 2 ^ 32) = (n + 1) % 2 ^ 32 := counter_succ n

theorem dec_mod (n : Nat) : dec ((n + 1) % 2 ^ 32) = n % 2 ^ 32 := by
  unfold dec
  omega

theorem dec_inc (n : Nat) : dec (inc (n % 2 ^ 32)) = n % 2 ^ 32 := by
  rw [inc_mod, dec_mod]

theorem index_cell (n : Nat) : n % 2 ^ 32 % INPUT_BUF_SIZE = n % INPUT_BUF_SIZE :=
  counter_cell (by decide) n

theorem Shows.bound (h : Shows R s ed) : ed.committed.length + ed.line.length ≤ 128 := h.room

theorem Shows.edit_sub (h : Shows R s ed) :
    sub s.e s.r = ed.committed.length + ed.line.length := by
  have hroom := h.bound
  unfold sub
  rw [h.e, h.r, counter_sub (by omega) (by omega)]
  omega

theorem Shows.write_sub (h : Shows R s ed) : sub s.w s.r = ed.committed.length := by
  have hroom := h.bound
  unfold sub
  rw [h.w, h.r, counter_sub (by omega) (by omega)]
  omega

theorem Shows.line_sub (h : Shows R s ed) : sub s.e s.w = ed.line.length := by
  have hroom := h.bound
  unfold sub
  rw [h.e, h.w, counter_sub (by omega) (by omega)]
  omega

theorem Shows.edited_iff (h : Shows R s ed) : s.e = s.w ↔ ed.line = [] := by
  have hroom := h.bound
  rw [h.e, h.w, eq_comm, counter_empty_iff (by omega) (by omega), ← length_eq_zero_iff]
  omega

theorem Shows.empty_iff (h : Shows R s ed) : s.r = s.w ↔ ed.committed = [] := by
  have hroom := h.bound
  rw [h.r, h.w, counter_empty_iff (by omega) (by omega), ← length_eq_zero_iff]
  omega

/-! ## Keys -/

/-- The last character of the line is given up. -/
theorem Shows.back {c : UInt8} {l : List UInt8} (h : Shows R s ed) (hl : ed.line = l ++ [c]) :
    Shows R { s with e := dec s.e } { ed with line := l } := by
  have hroom := h.room
  have hcells := h.cells
  have hline := h.line
  have he := h.e
  rw [hl] at hroom hcells hline he
  rw [length_append, length_singleton] at hroom he
  rw [← append_assoc, ← append_assoc] at hcells
  refine ⟨h.r, h.w, ?_, ?_, ?_, ?_, ?_⟩
  · show dec s.e = _
    rw [he, show R.length + (ed.committed.length + (l.length + 1)) =
      R.length + (ed.committed.length + l.length) + 1 by omega, dec_mod]
  · rw [← append_assoc]
    exact hcells.erase
  · show ed.committed.length + l.length ≤ _
    omega
  · intro hfull
    change ed.committed.length + l.length = _ at hfull
    omega
  · intro hin
    exact hline (mem_append_left _ hin)

/-- The last character of the line is in the cell before the edit index. -/
theorem Shows.last {c : UInt8} {l : List UInt8} (h : Shows R s ed) (hl : ed.line = l ++ [c]) :
    s.buf (dec s.e % INPUT_BUF_SIZE) = c := by
  have he := (h.back hl).e
  change dec s.e = _ at he
  have hcells := h.cells
  rw [hl, ← append_assoc, ← append_assoc] at hcells
  have hlen : (R ++ ed.committed ++ l).length = R.length + (ed.committed.length + l.length) := by
    rw [length_append, length_append, add_assoc]
  rw [he, index_cell, ← hlen]
  rw [hcells _ (by omega) (by simp)]
  exact getElem_concat_length rfl _

theorem Shows.kill (h : Shows R s ed) :
    Shows R (killLine ed.line.length s) { ed with line := [] } := by
  -- from the last character of the line to the first
  obtain ⟨committed, line⟩ := ed
  induction line using reverseRecOn generalizing s with
  | nil => exact h
  | append_singleton l c ih =>
    have hne : s.e ≠ s.w := by
      rw [Ne, h.edited_iff]
      simp
    have hc : c ≠ newline := by
      intro hc
      exact h.line (by simp [hc])
    rw [length_append, length_singleton]
    unfold killLine
    rw [h.last rfl, if_pos ⟨hne, hc⟩]
    exact ih (h.back rfl)

/-- The buffer after a character was stored and before it is decided whether the line ends. -/
theorem Shows.put {c : UInt8} (h : Shows R s ed)
    (hroom : ed.committed.length + ed.line.length < INPUT_BUF_SIZE) :
    Holds INPUT_BUF_SIZE (update s.buf (s.e % INPUT_BUF_SIZE) c)
        (R ++ (ed.committed ++ (ed.line ++ [c]))) R.length ∧
      inc s.e = (R.length + (ed.committed.length + (ed.line.length + 1))) % 2 ^ 32 := by
  have hlen : (R ++ (ed.committed ++ ed.line)).length =
      R.length + (ed.committed.length + ed.line.length) := by
    rw [length_append, length_append]
  have hcells := h.cells.push (x := c) (by rw [hlen]; omega)
  rw [hlen, append_assoc, append_assoc] at hcells
  rw [h.e, index_cell]
  exact ⟨hcells, by rw [inc_mod]; congr 1⟩

theorem Shows.store {c : UInt8} (h : Shows R s ed)
    (hroom : ed.committed.length + ed.line.length < INPUT_BUF_SIZE) :
    Shows R (store c s) (ed.append c) := by
  obtain ⟨hcells, he⟩ := h.put (c := c) hroom
  have hbound := h.bound
  have hsub : sub (inc s.e) s.r = ed.committed.length + ed.line.length + 1 := by
    unfold sub
    rw [he, h.r, counter_sub (by omega) (by omega)]
    omega
  unfold Console.store Editor.append
  simp only [hsub]
  by_cases hend : c = newline ∨ c = ctrlD ∨
      ed.committed.length + ed.line.length + 1 = INPUT_BUF_SIZE
  · rw [if_pos hend, if_pos hend]
    refine ⟨h.r, ?_, ?_, ?_, ?_, ?_, by simp⟩
    · simp only [length_append, length_singleton]
      exact he
    · simp only [length_append, length_singleton, length_nil, add_zero]
      exact he
    · rw [append_nil]
      exact hcells
    · simp only [length_append, length_singleton, length_nil]
      omega
    · intro _
      rfl
  · rw [if_neg hend, if_neg hend]
    push Not at hend
    obtain ⟨hn, -, hsize⟩ := hend
    refine ⟨h.r, h.w, ?_, hcells, ?_, ?_, ?_⟩
    · simp only [length_append, length_singleton]
      exact he
    · simp only [length_append, length_singleton]
      omega
    · simp only [length_append, length_singleton]
      intro hfull
      omega
    · simp only [mem_append, mem_singleton, not_or]
      exact ⟨h.line, fun hc => hn hc.symm⟩

theorem Shows.key (h : Shows R s ed) (c : UInt8) : Shows R (consoleintr c s) (ed.key c) := by
  unfold consoleintr Editor.key
  by_cases hp : c = ctrlP
  · rw [if_pos hp, if_pos hp]
    exact h
  rw [if_neg hp, if_neg hp]
  by_cases hu : c = ctrlU
  · rw [if_pos hu, if_pos hu, h.line_sub]
    exact h.kill
  rw [if_neg hu, if_neg hu]
  by_cases hb : c = ctrlH ∨ c = deleteKey
  · rw [if_pos hb, if_pos hb]
    obtain hnil | ⟨l, x, hl⟩ := eq_nil_or_concat ed.line
    · rw [if_neg (by rw [not_not, h.edited_iff]; exact hnil), hnil]
      rw [show ({ ed with line := [].dropLast } : Editor) = ed by rw [dropLast_nil, ← hnil]]
      exact h
    · rw [concat_eq_append] at hl
      rw [if_pos (by rw [Ne, h.edited_iff, hl]; simp), hl, dropLast_concat]
      exact h.back hl
  rw [if_neg hb, if_neg hb, h.edit_sub]
  by_cases hroom : c ≠ 0 ∧ ed.committed.length + ed.line.length < INPUT_BUF_SIZE
  · rw [if_pos hroom, if_pos hroom]
    exact h.store hroom.2
  · rw [if_neg hroom, if_neg hroom]
    exact h

/-! ## Reads -/

/-- The first character that can be read is in the cell of the read index. -/
theorem Shows.first {c : UInt8} {l : List UInt8} (h : Shows R s ed) (hl : ed.committed = c :: l) :
    s.buf (s.r % INPUT_BUF_SIZE) = c := by
  have hcells := h.cells
  rw [hl] at hcells
  rw [h.r, index_cell, hcells _ (by omega) (by simp)]
  simp

/-- A character is read. -/
theorem Shows.take {c : UInt8} {l : List UInt8} (h : Shows R s ed) (hl : ed.committed = c :: l) :
    Shows (R ++ [c]) { s with r := inc s.r } ⟨l, ed.line⟩ := by
  have hw := h.w
  have he := h.e
  have hcells := h.cells.pop
  have hroom := h.room
  rw [hl, length_cons] at hw he hroom
  rw [hl] at hcells
  refine ⟨?_, ?_, ?_, ?_, ?_, ?_, h.line⟩
  · show inc s.r = _
    rw [h.r, inc_mod, length_append, length_singleton]
  · show s.w = _
    rw [hw, length_append, length_singleton]
    dsimp only
    congr 1
    omega
  · show s.e = _
    rw [he, length_append, length_singleton]
    dsimp only
    congr 1
    omega
  · simpa using hcells
  · show l.length + ed.line.length ≤ _
    omega
  · intro hfull
    change l.length + ed.line.length = _ at hfull
    omega

/-- A stretch of a read takes from the buffer what it takes from the editor, and sleeps or returns
    as it does there. -/
theorem Shows.read (target : Nat) (h : Shows R s ed) (n : Nat) :
    (∃ R', Shows R' (consoleread target n s).1 (ed.read target n).1) ∧
      (consoleread target n s).2 = (ed.read target n).2 := by
  obtain ⟨committed, line⟩ := ed
  unfold Editor.read
  induction n generalizing s R committed with
  | zero => exact ⟨⟨R, h⟩, rfl⟩
  | succ n ih =>
    unfold consoleread
    cases committed with
    | nil =>
      rw [if_pos (h.empty_iff.mpr rfl)]
      exact ⟨⟨R, h⟩, rfl⟩
    | cons c l =>
      rw [if_neg (by rw [h.empty_iff]; simp)]
      have htake := h.take rfl
      simp only [readLine, h.first rfl]
      by_cases hd : c = ctrlD
      · rw [if_pos hd, if_pos hd]
        refine ⟨?_, rfl⟩
        by_cases hn : n + 1 < target
        · -- the character is put back
          rw [if_pos hn, if_pos hn]
          refine ⟨R, ?_⟩
          rw [show dec (inc s.r) = s.r by rw [h.r, dec_inc]]
          exact h
        · rw [if_neg hn, if_neg hn]
          exact ⟨_, htake⟩
      rw [if_neg hd, if_neg hd]
      by_cases hn : c = newline
      · rw [if_pos hn, if_pos hn]
        exact ⟨⟨_, htake⟩, rfl⟩
      rw [if_neg hn, if_neg hn]
      obtain ⟨hshow, hres⟩ := ih l htake
      refine ⟨hshow, ?_⟩
      dsimp only at hres ⊢
      rw [hres]

end

/-! ## Runs -/

theorem step_current {σ : Type} {D : Device σ} {s : Sys σ} {ev : Event} {x : Nat × Call}
    (h : s.current ev = some x) : s.step D ev = s.go D x.1 x.2 := by
  unfold Sys.step
  cases ev with
  | key c => exact absurd h (by simp [Sys.current])
  | read p n => rw [h]
  | wake p => rw [h]

theorem step_idle {σ : Type} {D : Device σ} {s : Sys σ} {ev : Event} (h : s.current ev = none) :
    (s.step D ev).call = s.call ∧ (s.step D ev).returned = s.returned := by
  unfold Sys.step
  cases ev with
  | key c => exact ⟨rfl, rfl⟩
  | read p n => rw [h]; exact ⟨rfl, rfl⟩
  | wake p => rw [h]; exact ⟨rfl, rfl⟩

/-- Two consoles with the same readers, one of which shows the other. -/
def Alike (s : Sys Cons) (t : Sys Editor) : Prop :=
  (∃ R, Shows R s.dev t.dev) ∧ s.call = t.call ∧ s.returned = t.returned

theorem Alike.go {s : Sys Cons} {t : Sys Editor} (h : Alike s t) (p : Nat) (x : Call) :
    Alike (s.go consDevice p x) (t.go editorDevice p x) := by
  obtain ⟨⟨R, hshow⟩, hcall, hret⟩ := h
  obtain ⟨hshow', hres⟩ := hshow.read x.target x.n
  unfold Sys.go
  dsimp only [consDevice, editorDevice]
  rw [hres, hcall, hret]
  cases (t.dev.read x.target x.n).2.2 with
  | none => exact ⟨hshow', rfl, rfl⟩
  | some n => exact ⟨hshow', rfl, rfl⟩

theorem Alike.step {s : Sys Cons} {t : Sys Editor} (h : Alike s t) (ev : Event) :
    Alike (s.step consDevice ev) (t.step editorDevice ev) := by
  have hcur : s.current ev = t.current ev := by
    unfold Sys.current
    rw [h.2.1]
  cases hx : t.current ev with
  | some x =>
    rw [step_current hx, step_current (hcur.trans hx)]
    exact h.go x.1 x.2
  | none =>
    cases ev with
    | key c =>
      obtain ⟨⟨R, hshow⟩, hcall, hret⟩ := h
      exact ⟨⟨R, hshow.key c⟩, hcall, hret⟩
    | read p n =>
      unfold Sys.step
      rw [hcur, hx]
      exact h
    | wake p =>
      unfold Sys.step
      rw [hcur, hx]
      exact h

theorem Alike.run {s : Sys Cons} {t : Sys Editor} (h : Alike s t) (evs : List Event) :
    Alike (s.run consDevice evs) (t.run editorDevice evs) := by
  induction evs generalizing s t with
  | nil => exact h
  | cons ev evs ih => exact ih (h.step ev)

theorem alike_boot : Alike boot ideal :=
  ⟨⟨[], rfl, rfl, rfl, Holds.nil _, by simp [ideal], fun _ => rfl, by simp [ideal]⟩, rfl, rfl⟩

/-! ## What a read of the editor returns -/

/-- What a stretch of a call may do with the characters `l`, if `n` bytes of `target` are to go: it
    leaves `left`, gets `got`, and `sleeps` says how many bytes are to go if it waits. -/
structure Serves (target n : Nat) (l left got : List UInt8) (sleeps : Option Nat) : Prop where
  short : got.length ≤ n
  noEnd : ctrlD ∉ got
  /-- a newline is the last character -/
  oneLine : newline ∉ got.dropLast
  /-- it gets the first characters; only an end-of-file that a whole call returns for is lost -/
  taken : l = got ++ left ∨ (got = [] ∧ n = target ∧ l = ctrlD :: left)
  /-- it returns without a character exactly for an end-of-file -/
  zero : got = [] ∧ sleeps = none ↔ l.head? = some ctrlD
  /-- it waits only if there is nothing left and what it got is not a line -/
  waits : ∀ m, sleeps = some m → left = [] ∧ got.length + m = n ∧ 0 < m ∧ newline ∉ got
  /-- it returns with a line, with all that was asked for, or before an end-of-file -/
  ends : sleeps = none → newline ∈ got ∨ got.length = n ∨
    (l.drop got.length).head? = some ctrlD

theorem readLine_serves {target n : Nat} (hn : 0 < n) (ht : n ≤ target) (l : List UInt8) :
    Serves target n l (readLine target n l).1 (readLine target n l).2.1
      (readLine target n l).2.2 := by
  induction l generalizing n with
  | nil =>
    obtain _ | n := n
    · omega
    unfold readLine
    refine ⟨by simp, by simp, by simp, .inl rfl, by simp, ?_, by simp⟩
    rintro m ⟨⟩
    exact ⟨rfl, by simp, hn, by simp⟩
  | cons c l ih =>
    obtain _ | n := n
    · omega
    unfold readLine
    by_cases hd : c = ctrlD
    · rw [if_pos hd]
      subst hd
      refine ⟨by simp, by simp, by simp, ?_, by simp, by simp, by simp⟩
      by_cases hlt : n + 1 < target
      · exact .inl (by simp [hlt])
      · exact .inr ⟨rfl, by omega, by simp [hlt]⟩
    rw [if_neg hd]
    split
    · next hnl =>
      refine ⟨by simp, ?_, by simp, .inl rfl, ?_, by simp, ?_⟩
      · rw [hnl]
        exact show ctrlD ∉ [newline] by decide
      · simp [hd]
      · intro _
        exact .inl (by simp [hnl])
    rename_i hnl
    dsimp only
    cases n with
    | zero =>
      -- all that was asked for
      unfold readLine
      refine ⟨by simp, ?_, by simp, .inl rfl, by simp [hd], by simp, by simp⟩
      simp only [mem_singleton]
      exact fun h => hd h.symm
    | succ n =>
      have hrest : Serves target (n + 1) l _ _ _ := ih (Nat.succ_pos n) (by omega)
      refine ⟨?_, ?_, ?_, ?_, by simp [hd], ?_, ?_⟩
      · have := hrest.short
        simp only [length_cons]
        omega
      · simp only [mem_cons, not_or]
        exact ⟨fun h => hd h.symm, hrest.noEnd⟩
      · have hone := hrest.oneLine
        cases hgot : (readLine target (n + 1) l).2.1 with
        | nil => simp
        | cons x xs =>
          rw [hgot] at hone
          rw [dropLast_cons_of_ne_nil (by simp), mem_cons, not_or]
          exact ⟨fun h => hnl h.symm, hone⟩
      · obtain htaken | ⟨-, hwhole, -⟩ := hrest.taken
        · exact .inl (by rw [cons_append, ← htaken])
        · omega
      · intro m hm
        obtain ⟨hleft, hlen, hpos, hno⟩ := hrest.waits m hm
        refine ⟨hleft, by simp only [length_cons]; omega, hpos, ?_⟩
        simp only [mem_cons, not_or]
        exact ⟨fun h => hnl h.symm, hno⟩
      · intro hnone
        obtain hin | hlen | hend := hrest.ends hnone
        · exact .inl (mem_cons_of_mem _ hin)
        · exact .inr (.inl (by rw [length_cons, hlen]))
        · exact .inr (.inr (by simpa using hend))

/-- What is known of a call that goes on: what it got is a part of a line. -/
structure Call.Open (x : Call) : Prop where
  some : 0 < x.n
  sum : x.got.length + x.n = x.target
  noEnd : ctrlD ∉ x.got
  noLine : newline ∉ x.got

/-- What a call returned is at most a line. -/
def AtMostLine (target : Nat) (b : List UInt8) : Prop :=
  b.length ≤ target ∧ ctrlD ∉ b ∧ newline ∉ b.dropLast

/-- The calls of a console are as they should be. -/
def Orderly (t : Sys Editor) : Prop :=
  (∀ p x, t.call p = some x → x.Open) ∧ ∀ q ∈ t.returned, AtMostLine q.2.1 q.2.2

theorem Orderly.current {t : Sys Editor} (h : Orderly t) {ev : Event} {p : Nat} {x : Call}
    (hx : t.current ev = some (p, x)) : x.Open := by
  cases ev with
  | key c => exact absurd hx (by simp [Sys.current])
  | read q n =>
    simp only [Sys.current] at hx
    split at hx
    · cases hx
    · rename_i hno
      cases hx
      exact ⟨pos_of_ne_zero fun hz => hno (.inr hz), by simp, by simp, by simp⟩
  | wake q =>
    simp only [Sys.current, Option.map_eq_some_iff] at hx
    obtain ⟨y, hy, hpx⟩ := hx
    cases hpx
    exact h.1 _ _ hy

theorem Call.Open.serves {x : Call} (h : x.Open) (ed : Editor) :
    Serves x.target x.n ed.committed (ed.read x.target x.n).1.committed
      (ed.read x.target x.n).2.1 (ed.read x.target x.n).2.2 := by
  have hsum := h.sum
  exact readLine_serves h.some (by omega) ed.committed

theorem not_mem_dropLast_append {a : UInt8} {l m : List UInt8} (hl : a ∉ l) (hm : a ∉ m.dropLast) :
    a ∉ (l ++ m).dropLast := by
  cases m with
  | nil =>
    rw [append_nil]
    exact fun h => hl (mem_of_mem_dropLast h)
  | cons b m =>
    rw [dropLast_append_of_ne_nil (by simp), mem_append, not_or]
    exact ⟨hl, hm⟩

theorem Orderly.go {t : Sys Editor} (h : Orderly t) (p : Nat) {x : Call} (hx : x.Open) :
    Orderly (t.go editorDevice p x) := by
  have hserves := hx.serves t.dev
  have hshort := hserves.short
  have hsum := hx.sum
  unfold Sys.go
  dsimp only [editorDevice]
  cases hres : (t.dev.read x.target x.n).2.2 with
  | none =>
    refine ⟨fun q y hy => ?_, fun q hq => ?_⟩
    · dsimp only at hy
      by_cases hqp : q = p
      · rw [hqp, update_self] at hy
        cases hy
      · rw [update_of_ne hqp] at hy
        exact h.1 q y hy
    · rw [mem_append, mem_singleton] at hq
      obtain hq | hq := hq
      · exact h.2 q hq
      · rw [hq]
        refine ⟨by simp only [length_append]; omega, ?_, ?_⟩
        · rw [mem_append, not_or]
          exact ⟨hx.noEnd, hserves.noEnd⟩
        · exact not_mem_dropLast_append hx.noLine hserves.oneLine
  | some n =>
    obtain ⟨-, hlen, hpos, hno⟩ := hserves.waits n hres
    refine ⟨fun q y hy => ?_, h.2⟩
    dsimp only at hy
    by_cases hqp : q = p
    · rw [hqp, update_self] at hy
      cases hy
      refine ⟨hpos, ?_, ?_, ?_⟩
      · simp only [length_append]
        omega
      · rw [mem_append, not_or]
        exact ⟨hx.noEnd, hserves.noEnd⟩
      · rw [mem_append, not_or]
        exact ⟨hx.noLine, hno⟩
    · rw [update_of_ne hqp] at hy
      exact h.1 q y hy

theorem Orderly.step {t : Sys Editor} (h : Orderly t) (ev : Event) :
    Orderly (t.step editorDevice ev) := by
  cases hx : t.current ev with
  | some x =>
    rw [step_current hx]
    exact h.go x.1 (h.current hx)
  | none =>
    obtain ⟨hcall, hret⟩ := step_idle (D := editorDevice) hx
    unfold Orderly
    rw [hcall, hret]
    exact h

theorem Orderly.run {t : Sys Editor} (h : Orderly t) (evs : List Event) :
    Orderly (t.run editorDevice evs) := by
  induction evs generalizing t with
  | nil => exact h
  | cons ev evs ih => exact ih (h.step ev)

theorem orderly_ideal : Orderly ideal := by
  refine ⟨fun p x h => ?_, fun q h => ?_⟩
  · cases h
  · cases h

/-! ## The discipline -/

/-- The characters between the read and the write index. -/
def pending (s : Cons) : List UInt8 :=
  (range (sub s.w s.r)).map fun i => s.buf ((s.r + i) % 2 ^ 32 % INPUT_BUF_SIZE)

theorem Shows.pending {R : List UInt8} {s : Cons} {ed : Editor} (h : Shows R s ed) :
    pending s = ed.committed := by
  unfold Console.pending
  rw [h.write_sub, h.r]
  refine ext_getElem (by simp) fun i hi hi' => ?_
  rw [getElem_map, getElem_range, Nat.mod_add_mod, index_cell]
  rw [h.cells _ (by omega) (by simp only [length_append]; omega)]
  rw [getElem_append_right (by omega), getElem_append_left (by omega)]
  congr 1
  omega

/-- The keys that erase move the edit index only. -/
theorem killLine_keeps (m : Nat) (s : Cons) :
    (killLine m s).r = s.r ∧ (killLine m s).w = s.w ∧ (killLine m s).buf = s.buf := by
  induction m generalizing s with
  | zero => exact ⟨rfl, rfl, rfl⟩
  | succ m ih =>
    unfold killLine
    split
    · exact ih _
    · exact ⟨rfl, rfl, rfl⟩

theorem erase_keeps {c : UInt8} (hc : c = ctrlU ∨ c = ctrlH ∨ c = deleteKey) (s : Cons) :
    (consoleintr c s).r = s.r ∧ (consoleintr c s).w = s.w ∧ (consoleintr c s).buf = s.buf := by
  have hp : c ≠ ctrlP := by
    obtain rfl | rfl | rfl := hc <;> decide
  unfold consoleintr
  rw [if_neg hp]
  by_cases hu : c = ctrlU
  · rw [if_pos hu]
    exact killLine_keeps _ s
  · rw [if_neg hu, if_pos (hc.resolve_left hu)]
    split <;> exact ⟨rfl, rfl, rfl⟩

/-- How the code `s` and the editor `t` stand to each other, and what is known of both, at any
    time. -/
structure Disciplined (s : Sys Cons) (t : Sys Editor) : Prop where
  write_le : sub s.dev.w s.dev.r ≤ sub s.dev.e s.dev.r
  edit_le : sub s.dev.e s.dev.r ≤ INPUT_BUF_SIZE
  full : sub s.dev.e s.dev.r = INPUT_BUF_SIZE → s.dev.w = s.dev.e
  /-- backspace, the delete key and `^U` leave what is committed alone -/
  erase : ∀ c, c = ctrlU ∨ c = ctrlH ∨ c = deleteKey →
    (consoleintr c s.dev).r = s.dev.r ∧ (consoleintr c s.dev).w = s.dev.w ∧
      (consoleintr c s.dev).buf = s.dev.buf
  committed : pending s.dev = t.dev.committed
  /-- the calls have got and returned the same bytes -/
  call : s.call = t.call
  returned : s.returned = t.returned
  /-- what was returned is at most a line -/
  lines : ∀ q ∈ t.returned, AtMostLine q.2.1 q.2.2
  /-- a call that goes on has a part of a line, and is served from what is committed -/
  serves : ∀ ev p x, t.current ev = some (p, x) → x.Open ∧
    Serves x.target x.n t.dev.committed (t.dev.read x.target x.n).1.committed
      (t.dev.read x.target x.n).2.1 (t.dev.read x.target x.n).2.2

/-- Keys and reads in any order, for as long as it may be. -/
theorem console_disciplined (evs : List Event) :
    Disciplined (boot.run consDevice evs) (ideal.run editorDevice evs) := by
  obtain ⟨⟨R, hshow⟩, hcall, hret⟩ := alike_boot.run evs
  have horder := orderly_ideal.run evs
  refine ⟨?_, ?_, ?_, fun c hc => erase_keeps hc _, hshow.pending, hcall, hret, horder.2, ?_⟩
  · rw [hshow.write_sub, hshow.edit_sub]
    omega
  · rw [hshow.edit_sub]
    exact hshow.room
  · rw [hshow.edit_sub]
    intro hfull
    exact (hshow.edited_iff.mpr (hshow.full hfull)).symm
  · intro ev p x hx
    have hopen := horder.current hx
    exact ⟨hopen, hopen.serves _⟩

end Xv6.Console
