import Mathlib.Data.List.TakeWhile
import Xv6.Grep.Match
import Xv6.Libc.Memmove

/-!
# The loop of `grep` over its input

`grep` reads into what is free of a buffer of 1024 bytes, writes the complete lines in it that match,
and moves the incomplete line at the end to the front. What `read` returns is up to the file: `cut`
says how many bytes a `read` that finds so many left would return, if it may. At the head of the
loop the buffer holds the part of the current line that has been read, whatever `cut` is
(`grepLoop_eq`).

A line that fills the buffer before its newline has come leaves no room: the next `read` asks for no
bytes, returns 0, and `grep` takes that for the end of the file. So the lines from the first one of
1023 bytes or more on are never looked at (`grep_output`).
-/

namespace Xv6.Grep

open Function List

abbrev newline : UInt8 := 10

/-- `sizeof(buf)` -/
abbrev BUFSIZE : Nat := 1024

abbrev Buf : Type := Nat → UInt8

def Buf.load (buf : Buf) (i : Nat) : R UInt8 :=
  if i < BUFSIZE then .ok (buf i) else .error .fault

def Buf.store (buf : Buf) (i : Nat) (c : UInt8) : R Buf :=
  if i < BUFSIZE then .ok (update buf i c) else .error .fault

/-- The `n` bytes from `buf + p` on. -/
def Buf.bytes (buf : Buf) (p n : Nat) : List UInt8 := (range' p n).map buf

theorem nul_not_mem_takeWhile (w : List UInt8) : 0 ∉ w.takeWhile (· ≠ 0) := by
  intro h
  have hne := mem_takeWhile_imp h
  simp at hne

/-- The string at `buf + p`, if there is a NUL behind it in the buffer. -/
def Buf.str (buf : Buf) (p : Nat) : R Str :=
  let s := (buf.bytes p (BUFSIZE - p)).takeWhile (· ≠ 0)
  if p + s.length < BUFSIZE then .ok ⟨s, nul_not_mem_takeWhile _⟩
  else .error .fault

/-- `strchr(buf + s, c)` -/
def strchr (buf : Buf) (c : UInt8) : Nat → Nat → R (Option Nat)
  | 0, _ => .error .fuel
  | fuel + 1, s => do
    let x ← buf.load s
    if x = 0 then .ok none else if x = c then .ok (some s) else strchr buf c fuel (s + 1)

/-- `memmove(buf, buf + p, m)` -/
def Buf.move (buf : Buf) (p m : Nat) : Buf := fun i => if i < m then buf (p + i) else buf i

/-- What `read` puts at `buf + m`. -/
def Buf.fill (buf : Buf) (m : Nat) (bytes : List UInt8) : Buf :=
  fun i => if m ≤ i ∧ i < m + bytes.length then bytes.getD (i - m) 0 else buf i

/-- The result of a `read` of at most `k` bytes of a file with `left` bytes left. -/
def readLen (cut : Nat → Nat) (k left : Nat) : Nat :=
  if k = 0 ∨ left = 0 then 0 else min (max (cut left) 1) (min k left)

/-- The inner loop, with what has been written so far. It returns `buf`, `p` and what is written. -/
def scan (pattern : Str) : Nat → Buf → Nat → List UInt8 → R (Buf × Nat × List UInt8)
  | 0, _, _, _ => .error .fuel
  | fuel + 1, buf, p, out => do
    match ← strchr buf newline BUFSIZE p with
    | none => .ok (buf, p, out)
    | some q => do
      let buf ← buf.store q 0
      let text ← buf.str p
      if ← match_ pattern text (enough pattern text) then do
        let buf ← buf.store q newline
        scan pattern fuel buf (q + 1) (out ++ buf.bytes p (q + 1 - p))
      else scan pattern fuel buf (q + 1) out

/-- The outer loop on the rest of the file. It returns all that is written. -/
def grepLoop (pattern : Str) (cut : Nat → Nat) :
    Nat → List UInt8 → Buf → Nat → List UInt8 → R (List UInt8)
  | 0, _, _, _, _ => .error .fuel
  | fuel + 1, file, buf, m, out =>
    let n := readLen cut (BUFSIZE - m - 1) file.length
    if n = 0 then .ok out
    else do
      let buf ← (buf.fill m (file.take n)).store (m + n) 0
      let (buf, p, out) ← scan pattern BUFSIZE buf 0 out
      if m + n > 0 then
        grepLoop pattern cut fuel (file.drop n) (buf.move p (m + n - p)) (m + n - p) out
      else grepLoop pattern cut fuel (file.drop n) buf (m + n) out

/-- `grep(pattern, fd)`; `buf` is a global array, with what an earlier call left in it. -/
def grep (pattern : Str) (cut : Nat → Nat) (file : List UInt8) (buf : Buf) : R (List UInt8) :=
  grepLoop pattern cut (file.length + 1) file buf 0 []

/-! ## Lines -/

/-- The lines of a file that end with a newline, without it. -/
def lines (file : List UInt8) : List (List UInt8) := (file.splitOn newline).dropLast

/-- What is behind the last newline. -/
def rest (file : List UInt8) : List UInt8 := (file.splitOn newline).getLastD []

open Classical in
/-- The lines that match, each with its newline. -/
noncomputable def matching (pattern : List UInt8) (ls : List (List UInt8)) : List UInt8 :=
  (ls.filter fun l => decide (Matches pattern l)).flatMap (· ++ [newline])

section

variable {pattern l r w : List UInt8} {ls ls' : List (List UInt8)}

theorem lines_of_not_mem (h : newline ∉ w) : lines w = [] := by
  rw [lines, splitOn_eq_singleton h]
  rfl

theorem rest_of_not_mem (h : newline ∉ w) : rest w = w := by
  rw [rest, splitOn_eq_singleton h]
  rfl

theorem lines_append (h : newline ∉ l) : lines (l ++ newline :: r) = l :: lines r := by
  rw [lines, splitOn_append_cons_self_of_not_mem h,
    dropLast_cons_of_ne_nil (splitOn_ne_nil newline r)]
  rfl

theorem rest_append (h : newline ∉ l) : rest (l ++ newline :: r) = rest r := by
  obtain ⟨x, xs, hx⟩ := exists_cons_of_ne_nil (splitOn_ne_nil newline r)
  rw [rest, rest, splitOn_append_cons_self_of_not_mem h, hx]
  rfl

/-- A file is one incomplete line, or it starts with a complete one. -/
theorem line_cases (w : List UInt8) :
    newline ∉ w ∨ ∃ l r, w = l ++ newline :: r ∧ newline ∉ l := by
  by_cases h : newline ∈ w
  · obtain ⟨l, r, hw, hl⟩ := eq_append_cons_of_mem h
    exact .inr ⟨l, r, hw, hl⟩
  · exact .inl h

/-- Induction over the complete lines of a file. -/
theorem line_induction {motive : List UInt8 → Prop}
    (last : ∀ w, newline ∉ w → motive w)
    (line : ∀ l r, newline ∉ l → motive r → motive (l ++ newline :: r)) (w : List UInt8) :
    motive w := by
  induction hn : w.length using Nat.strongRecOn generalizing w with
  | ind n ih =>
    rcases line_cases w with hw | ⟨l, r, rfl, hl⟩
    · exact last w hw
    · refine line l r hl (ih r.length ?_ r rfl)
      rw [← hn, length_append, length_cons]
      omega

theorem newline_not_mem_rest (w : List UInt8) : newline ∉ rest w := by
  induction w using line_induction with
  | last w hw => rwa [rest_of_not_mem hw]
  | line l r hl ih => rwa [rest_append hl]

/-- What comes behind a part of the file does not change the complete lines of the part. -/
theorem lines_append_file (w file : List UInt8) :
    lines (w ++ file) = lines w ++ lines (rest w ++ file) := by
  induction w using line_induction with
  | last w hw => rw [lines_of_not_mem hw, rest_of_not_mem hw, nil_append]
  | line l r hl ih =>
    rw [append_assoc, cons_append, lines_append hl, ih, lines_append hl, rest_append hl,
      cons_append]

theorem length_of_mem_lines (w : List UInt8) (h : l ∈ lines w) : l.length < w.length := by
  induction w using line_induction with
  | last w hw => simp [lines_of_not_mem hw] at h
  | line l' r hl ih =>
    rw [length_append, length_cons]
    rw [lines_append hl, mem_cons] at h
    rcases h with rfl | h
    · omega
    · have := ih h
      omega

theorem matching_append (pattern : List UInt8) (ls ls' : List (List UInt8)) :
    matching pattern (ls ++ ls') = matching pattern ls ++ matching pattern ls' := by
  rw [matching, filter_append, flatMap_append]
  rfl

theorem matching_nil : matching pattern [] = [] := rfl

theorem matching_cons_of (h : Matches pattern l) :
    matching pattern (l :: ls) = l ++ newline :: matching pattern ls := by
  simp [matching, h]

theorem matching_cons_of_not (h : ¬ Matches pattern l) :
    matching pattern (l :: ls) = matching pattern ls := by
  simp [matching, h]

theorem matching_eq_nil : matching pattern ls = [] ↔ ∀ l ∈ ls, ¬ Matches pattern l := by
  simp [matching, flatMap_eq_nil_iff]

end

/-! ## The buffer -/

section

variable {buf : Buf} {p q i m n fuel : Nat} {c x : UInt8} {l r w : List UInt8}

/-- The bytes `w` stand in the buffer at `p`. -/
def Buf.At (buf : Buf) (p : Nat) (w : List UInt8) : Prop := buf.bytes p w.length = w

theorem at_iff : buf.At p w ↔ ∀ i (h : i < w.length), buf (p + i) = w[i] := by
  constructor
  · intro h i hi
    have hget := getElem_of_eq h.symm hi
    rw [hget]
    simp [Buf.bytes]
  · intro h
    refine ext_getElem (by simp [Buf.bytes]) fun i _ hi => ?_
    rw [← h i hi]
    simp [Buf.bytes]

theorem at_nil (buf : Buf) (p : Nat) : buf.At p [] := rfl

theorem at_cons : buf.At p (x :: w) ↔ buf p = x ∧ buf.At (p + 1) w := by
  rw [Buf.At, Buf.bytes, length_cons, range'_succ, map_cons, cons.injEq]
  rfl

theorem at_append : buf.At p (l ++ r) ↔ buf.At p l ∧ buf.At (p + l.length) r := by
  induction l generalizing p with
  | nil => simp [at_nil]
  | cons x l ih =>
    rw [cons_append, at_cons, at_cons, ih, and_assoc, length_cons, Nat.add_right_comm,
      add_assoc]

theorem Buf.At.congr {buf' : Buf} (h : buf.At p w)
    (heq : ∀ i, p ≤ i → i < p + w.length → buf' i = buf i) : buf'.At p w := by
  rw [Buf.At, Buf.bytes] at h ⊢
  rw [← h, length_map, length_range', map_inj_left]
  intro i hi
  rw [mem_range'_1] at hi
  exact heq i hi.1 hi.2

theorem Buf.At.update (h : buf.At p w) (hq : q < p ∨ p + w.length ≤ q) (c : UInt8) :
    Buf.At (update buf q c) p w :=
  h.congr fun i hlo hhi => update_of_ne (by omega) c buf

theorem load_eq (hp : p < BUFSIZE) : buf.load p = .ok (buf p) := if_pos hp

theorem store_eq (hp : p < BUFSIZE) : buf.store p c = .ok (update buf p c) := if_pos hp

/-- A NUL-terminated string in the buffer. -/
structure Buf.Holds (buf : Buf) (p : Nat) (w : List UInt8) : Prop where
  at_ : buf.At p w
  nul : buf (p + w.length) = 0
  noNul : 0 ∉ w
  fits : p + w.length < BUFSIZE

theorem Buf.Holds.tail (h : buf.Holds p (x :: w)) : buf.Holds (p + 1) w := by
  obtain ⟨hat, hnul, hno, hfits⟩ := h
  rw [length_cons] at hnul hfits
  exact ⟨(at_cons.mp hat).2, by rw [← hnul]; congr 1; omega,
    fun hc => hno (mem_cons_of_mem x hc), by omega⟩

theorem Buf.Holds.head (h : buf.Holds p (x :: w)) : buf p = x ∧ x ≠ 0 ∧ p < BUFSIZE := by
  refine ⟨(at_cons.mp h.at_).1, fun hx => h.noNul (hx ▸ mem_cons_self), ?_⟩
  have := h.fits
  omega

theorem Buf.Holds.takeWhile_bytes (h : buf.Holds p w) :
    (buf.bytes p (BUFSIZE - p)).takeWhile (· ≠ 0) = w := by
  have hsucc : ∀ p, p < BUFSIZE →
      buf.bytes p (BUFSIZE - p) = buf p :: buf.bytes (p + 1) (BUFSIZE - (p + 1)) := by
    intro p hp
    rw [Buf.bytes, show BUFSIZE - p = BUFSIZE - (p + 1) + 1 by omega, range'_succ]
    rfl
  induction w generalizing p with
  | nil =>
    have hnul : buf p = 0 := h.nul
    rw [hsucc p h.fits, hnul]
    simp
  | cons x w ih =>
    obtain ⟨hx, hne, hp⟩ := h.head
    rw [hsucc p hp, hx, takeWhile_cons, ih h.tail]
    simp [hne]

theorem Buf.Holds.str_eq (h : buf.Holds p w) : buf.str p = .ok ⟨w, h.noNul⟩ := by
  have htake := h.takeWhile_bytes
  simp only [Buf.str, htake]
  exact if_pos h.fits

/-- `strchr` finds the first newline, or the NUL. -/
theorem Buf.Holds.strchr_none (h : buf.Holds p w) (hw : newline ∉ w) (hfuel : w.length < fuel) :
    strchr buf newline fuel p = .ok none := by
  induction w generalizing p fuel with
  | nil =>
    obtain _ | fuel := fuel
    · omega
    have hnul : buf p = 0 := h.nul
    rw [strchr, load_eq (show p < BUFSIZE from h.fits), hnul]
    rfl
  | cons x w ih =>
    obtain _ | fuel := fuel
    · omega
    obtain ⟨hx, hne, hp⟩ := h.head
    rw [mem_cons, not_or] at hw
    rw [strchr, load_eq hp, hx, ok_bind, if_neg hne, if_neg (Ne.symm hw.1)]
    exact ih h.tail hw.2 (Nat.lt_of_succ_lt_succ hfuel)

theorem Buf.Holds.strchr_some (h : buf.Holds p (l ++ newline :: r)) (hl : newline ∉ l)
    (hfuel : l.length < fuel) : strchr buf newline fuel p = .ok (some (p + l.length)) := by
  induction l generalizing p fuel with
  | nil =>
    obtain _ | fuel := fuel
    · omega
    obtain ⟨hx, hne, hp⟩ := h.head
    rw [strchr, load_eq hp, hx, ok_bind, if_neg hne, if_pos rfl]
    rfl
  | cons x l ih =>
    obtain _ | fuel := fuel
    · omega
    obtain ⟨hx, hne, hp⟩ := h.head
    rw [mem_cons, not_or] at hl
    rw [strchr, load_eq hp, hx, ok_bind, if_neg hne, if_neg (Ne.symm hl.1),
      ih h.tail hl.2 (Nat.lt_of_succ_lt_succ hfuel), length_cons]
    congr 2
    omega

/-! ## The loops -/

/-- What is behind the first line stays, whatever is stored at its newline. -/
theorem Buf.Holds.skip (h : buf.Holds p (l ++ newline :: r)) (c : UInt8) :
    Buf.Holds (update buf (p + l.length) c) (p + l.length + 1) r := by
  obtain ⟨hat, hnul, hno, hfits⟩ := h
  rw [length_append, length_cons] at hnul hfits
  refine ⟨(at_cons.mp (at_append.mp hat).2).2.update (.inl (by omega)) c, ?_, ?_, by omega⟩
  · rw [update_of_ne (by omega), ← hnul]
    congr 1
    omega
  · exact fun hc => hno (mem_append_right l (mem_cons_of_mem newline hc))

/-- The first line, once its newline is a NUL. -/
theorem Buf.Holds.line (h : buf.Holds p (l ++ newline :: r)) :
    Buf.Holds (update buf (p + l.length) 0) p l := by
  obtain ⟨hat, -, hno, hfits⟩ := h
  rw [length_append, length_cons] at hfits
  exact ⟨(at_append.mp hat).1.update (.inr le_rfl) 0, update_self ..,
    fun hc => hno (mem_append_left _ hc), by omega⟩

/-- The first line and its newline, once that has been put back. -/
theorem Buf.Holds.restored (h : buf.Holds p (l ++ newline :: r)) :
    Buf.bytes (update buf (p + l.length) newline) p (p + l.length + 1 - p) =
      l ++ [newline] := by
  have hat : Buf.At (update buf (p + l.length) newline) p (l ++ [newline]) := by
    refine at_append.mpr ⟨(at_append.mp h.at_).1.update (.inr le_rfl) newline, ?_⟩
    exact at_cons.mpr ⟨update_self .., at_nil ..⟩
  rw [Buf.At, length_append, length_singleton] at hat
  rw [show p + l.length + 1 - p = l.length + 1 by omega, hat]

/-- The inner loop writes the complete lines that match and stops at the incomplete one. -/
theorem scan_eq (pattern : Str) (w : List UInt8) (h : buf.Holds p w) (hfuel : w.length < fuel)
    (out : List UInt8) : ∃ buf' p', scan pattern fuel buf p out =
      .ok (buf', p', out ++ matching pattern.chars (lines w)) ∧ buf'.Holds p' (rest w) ∧
        p' + (rest w).length = p + w.length := by
  induction w using line_induction generalizing buf p fuel out with
  | last w hw =>
    obtain _ | fuel := fuel
    · omega
    have hfits := h.fits
    refine ⟨buf, p, ?_, by rwa [rest_of_not_mem hw], by rw [rest_of_not_mem hw]⟩
    rw [scan, h.strchr_none hw (by omega), lines_of_not_mem hw, matching_nil, append_nil]
    rfl
  | line l r hl ih =>
    obtain _ | fuel := fuel
    · omega
    have hfits := h.fits
    rw [length_append, length_cons] at hfits hfuel
    obtain ⟨b, hmatch, hb⟩ := match_decides pattern ⟨l, h.line.noNul⟩ le_rfl
    rw [scan, h.strchr_some hl (by omega)]
    simp only [ok_bind, store_eq (show p + l.length < BUFSIZE by omega), h.line.str_eq, hmatch]
    rw [lines_append hl, rest_append hl]
    have hr : r.length < fuel := by omega
    cases b with
    | true =>
      rw [matching_cons_of (hb.mp rfl)]
      simp only [if_true, update_idem]
      obtain ⟨buf', p', hscan, hholds, hp'⟩ := ih (h.skip newline) hr (out ++ (l ++ [newline]))
      refine ⟨buf', p', ?_, hholds, ?_⟩
      · rw [h.restored]
        simpa using hscan
      · rw [hp', length_append, length_cons]
        omega
    | false =>
      rw [matching_cons_of_not fun hm => Bool.false_ne_true (hb.mpr hm)]
      obtain ⟨buf', p', hscan, hholds, hp'⟩ := ih (h.skip 0) hr out
      refine ⟨buf', p', hscan, hholds, ?_⟩
      rw [hp', length_append, length_cons]
      omega

/-- What `read` and the store of the NUL leave: the incomplete line, and what has been read. -/
theorem holds_fill {file : List UInt8} (h : buf.At 0 w) (hw : 0 ∉ w) (hfile : 0 ∉ file)
    (hfits : w.length + n < BUFSIZE) (hn : n ≤ file.length) :
    Buf.Holds (update (buf.fill w.length (file.take n)) (w.length + n) 0) 0
      (w ++ file.take n) := by
  have hlen : (file.take n).length = n := length_take_of_le hn
  have hend : (w ++ file.take n).length = w.length + n := by rw [length_append, hlen]
  refine ⟨?_, ?_, ?_, by omega⟩
  · refine Buf.At.update (at_append.mpr ⟨?_, ?_⟩) (.inr (by omega)) 0
    · refine h.congr fun i _ hi => if_neg ?_
      omega
    · refine at_iff.mpr fun i hi => ?_
      rw [zero_add, Buf.fill, if_pos (by omega), Nat.add_sub_cancel_left,
        getD_eq_getElem _ _ hi]
  · rw [zero_add, hend, update_self]
  · intro hc
    rcases mem_append.mp hc with hc | hc
    · exact hw hc
    · exact hfile (mem_of_mem_take hc)

/-- `Buf.move` is what the library's `memmove` does to a buffer anywhere in memory. -/
theorem memmove_eq_move (mem : Libc.Memory) {base : BitVec 64} (hbase : base.toNat + BUFSIZE ≤ 2 ^ 64)
    (hpm : p + m ≤ BUFSIZE) (hi : i < BUFSIZE) :
    Libc.User.memmove mem base (base + BitVec.ofNat 64 p) (BitVec.ofNat 32 m)
        (base + BitVec.ofNat 64 i) =
      Buf.move (fun i => mem (base + BitVec.ofNat 64 i)) p m i := by
  simp only [BUFSIZE] at hbase hpm hi
  have hm : (BitVec.ofNat 32 m).toNat = m := by
    rw [BitVec.toNat_ofNat]
    omega
  have hoff : ∀ k, k ≤ 1024 → (BitVec.ofNat 64 k).toNat = k := by
    intro k hk
    rw [BitVec.toNat_ofNat]
    omega
  rw [Libc.User.memmove_eq, Libc.moved, Buf.move, hm,
    show base + BitVec.ofNat 64 i - base = BitVec.ofNat 64 i by ring, hoff i hi.le]
  · rw [BitVec.ofNat_add, BitVec.add_assoc]
  · rw [BitVec.toInt_eq_toNat_cond, hm, if_pos (by omega)]
    omega
  · rw [BitVec.toNat_add, hoff p (by omega), hm]
    omega
  · rw [hm]
    omega

theorem at_move (h : buf.At p w) : (buf.move p w.length).At 0 w := by
  refine at_iff.mpr fun i hi => ?_
  rw [zero_add, Buf.move, if_pos hi, at_iff.mp h i hi]

theorem readLen_spec (cut : Nat → Nat) (k left : Nat) :
    readLen cut k left ≤ k ∧ readLen cut k left ≤ left ∧
      (readLen cut k left = 0 ↔ k = 0 ∨ left = 0) := by
  unfold readLen
  split <;> omega

/-- The lines that `grep` gets to see. -/
noncomputable def seen (pattern file : List UInt8) : List UInt8 :=
  matching pattern ((lines file).takeWhile fun l => l.length < BUFSIZE - 1)

/-- Nothing is left to be seen if the file has ended, or if the line has filled the buffer. -/
theorem seen_of_full {pattern file : List UInt8} (hw : newline ∉ w)
    (h : file = [] ∨ BUFSIZE - 1 ≤ w.length) : seen pattern (w ++ file) = [] := by
  rw [seen]
  rcases h with rfl | h
  · rw [append_nil, lines_of_not_mem hw]
    rfl
  · rcases line_cases file with hfile | ⟨l, r, rfl, hl⟩
    · have hnot : newline ∉ w ++ file := fun hc => (mem_append.mp hc).elim hw hfile
      rw [lines_of_not_mem hnot]
      rfl
    · have hnot : newline ∉ w ++ l := fun hc => (mem_append.mp hc).elim hw hl
      rw [← append_assoc, lines_append hnot, takeWhile_cons_of_neg]
      · rfl
      · rw [length_append, decide_eq_true_eq]
        omega

/-- What fits the buffer is seen. -/
theorem seen_append {pattern file : List UInt8} (hw : w.length < BUFSIZE) :
    seen pattern (w ++ file) = matching pattern (lines w) ++ seen pattern (rest w ++ file) := by
  rw [seen, lines_append_file, takeWhile_append_of_pos, matching_append]
  · rfl
  · intro l hl
    have := length_of_mem_lines w hl
    rw [decide_eq_true_eq]
    omega

/-- At the head of the loop `buf` holds the part `w` of a line, and `file` is still to be read. -/
theorem grepLoop_eq {pattern : Str} {cut : Nat → Nat} {file out : List UInt8} (h : buf.At 0 w)
    (hline : newline ∉ w) (hw : 0 ∉ w) (hfile : 0 ∉ file) (hlen : w.length < BUFSIZE)
    (hfuel : file.length < fuel) :
    grepLoop pattern cut fuel file buf w.length out =
      .ok (out ++ seen pattern.chars (w ++ file)) := by
  induction fuel generalizing file buf w out with
  | zero => omega
  | succ fuel ih =>
    obtain ⟨hk, hleft, hzero⟩ := readLen_spec cut (BUFSIZE - w.length - 1) file.length
    simp only [grepLoop]
    generalize readLen cut (BUFSIZE - w.length - 1) file.length = n at hk hleft hzero
    by_cases hn : n = 0
    · rw [if_pos hn, seen_of_full hline, append_nil]
      refine (hzero.mp hn).symm.imp (fun h0 => length_eq_zero_iff.mp h0) fun hfull => ?_
      omega
    · have hfits : w.length + n < BUFSIZE := by omega
      have htake : (w ++ file.take n).length = w.length + n := by
        rw [length_append, length_take_of_le hleft]
      have hholds := holds_fill h hw hfile hfits hleft
      obtain ⟨buf', p', hscan, hrest, hp'⟩ := scan_eq pattern (w ++ file.take n) hholds
        (htake ▸ hfits) out
      have hm : w.length + n - p' = (rest (w ++ file.take n)).length := by omega
      have hfuel' : (file.drop n).length < fuel := by
        rw [length_drop]
        omega
      rw [if_neg hn, store_eq hfits, ok_bind, hscan, ok_bind, if_pos (by omega), hm,
        ih (at_move hrest.at_) (newline_not_mem_rest _) hrest.noNul
          (fun hc => hfile (mem_of_mem_drop hc)) (by omega) hfuel', append_assoc,
        ← seen_append (by omega), append_assoc, take_append_drop]

/-- What `grep` writes, for every way of cutting the file. -/
theorem grep_output (pattern : Str) (cut : Nat → Nat) {file : List UInt8} (hfile : 0 ∉ file)
    (buf : Buf) : grep pattern cut file buf = .ok (seen pattern.chars file) := by
  show grepLoop pattern cut (file.length + 1) file buf ([] : List UInt8).length [] =
    .ok ([] ++ seen pattern.chars ([] ++ file))
  exact grepLoop_eq (at_nil buf 0) not_mem_nil not_mem_nil hfile (by decide)
    (Nat.lt_succ_self file.length)

/-- `grep` writes the lines that match, however `read` cuts the file, if and only if none of them is
    at or behind the first line of 1023 bytes or more. -/
theorem grep_writes_matching_iff (pattern : Str) (cut : Nat → Nat) (file : List UInt8)
    (hfile : 0 ∉ file) (buf : Buf) :
    grep pattern cut file buf = .ok (matching pattern.chars (lines file)) ↔
      ∀ l ∈ (lines file).dropWhile fun l => l.length < BUFSIZE - 1, ¬ Matches pattern.chars l := by
  have hsplit : matching pattern.chars (lines file) = seen pattern.chars file ++
      matching pattern.chars ((lines file).dropWhile fun l => l.length < BUFSIZE - 1) := by
    rw [seen, ← matching_append, takeWhile_append_dropWhile]
  rw [grep_output pattern cut hfile buf, hsplit, Except.ok.injEq, self_eq_append_right,
    matching_eq_nil]

/-- Two lines, the second one empty, and a pattern that matches both. -/
theorem grep_writes_matching_short :
    grep ⟨[], not_mem_nil⟩ (fun _ => 1) [97, newline, newline] (fun _ => 0) =
      .ok (matching [] (lines [97, newline, newline])) := by
  refine (grep_writes_matching_iff ⟨[], not_mem_nil⟩ (fun _ => 1) [97, newline, newline]
    (by decide) (fun _ => 0)).mpr fun l hl => ?_
  have hnone : (lines [97, newline, newline]).dropWhile (fun l => l.length < BUFSIZE - 1) = [] := by
    decide
  rw [hnone] at hl
  exact absurd hl not_mem_nil

theorem matches_empty (text : List UInt8) : Matches [] text := by
  refine (matches_any ⟨[], not_mem_nil⟩ (by simp) text).mpr ?_
  exact ⟨[], text, rfl, here_nil text⟩

/-- A line of 1023 bytes and an empty one: `grep` with the empty pattern writes neither. -/
theorem grep_loses_lines :
    grep ⟨[], not_mem_nil⟩ (fun left => left) (replicate 1023 97 ++ [newline, newline])
        (fun _ => 0) = .ok [] ∧
      matching [] (lines (replicate 1023 97 ++ [newline, newline])) =
        replicate 1023 97 ++ [newline, newline] := by
  have hno : newline ∉ replicate 1023 97 := fun hc =>
    absurd (eq_of_mem_replicate hc) (by decide)
  have hlines : lines (replicate 1023 97 ++ [newline, newline]) =
      [replicate 1023 97, []] := by
    rw [lines_append hno]
    rfl
  constructor
  · rw [grep_output]
    · rw [seen, hlines, takeWhile_cons_of_neg (by rw [length_replicate]; decide)]
      rfl
    · intro hc
      rcases mem_append.mp hc with hc | hc
      · exact absurd (eq_of_mem_replicate hc) (by decide)
      · exact absurd hc (by decide)
  · rw [hlines, matching_cons_of (matches_empty _), matching_cons_of (matches_empty _)]
    rfl

end

end Xv6.Grep
