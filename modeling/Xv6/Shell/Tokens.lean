import Xv6.Shell.Code

/-!
# Tokens

What the tokens of a line are, without `gettoken`: `lex` takes blanks, operators and longest words
off the front of a list. `At` says which tokens are left at an offset of the line. `gettoken` takes
the first of them, and `peek` looks at it.
-/

namespace Xv6.Shell

open List

inductive Tok where
  | word (w : Word)
  | bar
  | lpar
  | rpar
  | semi
  | amp
  | lt
  | gt
  | gtgt
  deriving DecidableEq

/-- The characters that are tokens by themselves. -/
def operators : List (UInt8 × Tok) :=
  [(Shell.bar, .bar), (Shell.lpar, .lpar), (Shell.rpar, .rpar), (Shell.semi, .semi),
    (Shell.amp, .amp), (Shell.lt, .lt), (Shell.gt, .gt)]

def Tok.ofChar (c : UInt8) : Option Tok := (operators.find? fun x => x.1 = c).map Prod.snd

/-- The tokens of a text that starts at the offset `s`. -/
def lex (s : Nat) (l : List UInt8) : List Tok :=
  match l with
  | [] => []
  | c :: l =>
    if isBlank c then lex (s + 1) l
    else if c = Shell.gt ∧ l.head? = some Shell.gt then .gtgt :: lex (s + 2) l.tail
    else
      match Tok.ofChar c with
      | some t => t :: lex (s + 1) l
      | none =>
        let k := (l.takeWhile isWordChar).length
        .word ⟨s, s + 1 + k⟩ :: lex (s + 1 + k) (l.drop k)
termination_by l.length
decreasing_by all_goals simp only [length_cons, length_tail, length_drop]; omega

/-- The tokens that are left at an offset of the line. -/
structure At (line : Line) (s : Nat) (ts : List Tok) : Prop where
  le : s ≤ line.es
  toks : lex s (line.chars.drop s) = ts

section

variable {line : Line} {s : Nat} {ts : List Tok} {t : Tok} {p : UInt8 → Bool}

theorem ok_bind {α β : Type} {a : α} {f : α → R β} : ((.ok a : R α) >>= f) = f a := rfl

/-! ## Characters -/

theorem load_of_drop {c : UInt8} {l : List UInt8} (h : line.chars.drop s = c :: l) :
    load line s = .ok c := by
  have hlt : s < line.es := by
    by_contra hge
    rw [drop_eq_nil_of_le (not_lt.mp hge)] at h
    cases h
  have hdrop := drop_eq_getElem_cons (show s < line.chars.length from hlt)
  rw [h] at hdrop
  unfold load
  rw [dif_pos hlt, (cons.inj hdrop).1]
  rfl

theorem load_es : load line line.es = .ok 0 := by
  unfold load
  rw [dif_neg (lt_irrefl _), if_pos rfl]

theorem drop_succ {c : UInt8} {l : List UInt8} (h : line.chars.drop s = c :: l) :
    s < line.es ∧ line.chars.drop (s + 1) = l := by
  constructor
  · by_contra hge
    rw [drop_eq_nil_of_le (not_lt.mp hge)] at h
    cases h
  · rw [← drop_drop, h]
    rfl

theorem drop_es : line.chars.drop line.es = [] := drop_length

theorem scan_eq (n : Nat) (hn : line.es ≤ s + n) (hs : s ≤ line.es) :
    scan line p n s = .ok (s + ((line.chars.drop s).takeWhile p).length) := by
  induction n generalizing s with
  | zero =>
    have hes : s = line.es := by omega
    rw [hes, drop_es]
    rfl
  | succ n ih =>
    unfold scan
    cases hd : line.chars.drop s with
    | nil =>
      have hge : line.es ≤ s := drop_eq_nil_iff.mp hd
      rw [if_neg (by omega)]
      rfl
    | cons c l =>
      obtain ⟨hlt, hl⟩ := drop_succ hd
      rw [if_pos hlt, load_of_drop hd]
      show (if p c then scan line p n (s + 1) else .ok s) = _
      by_cases hp : p c
      · rw [if_pos hp, ih (by omega) (by omega), hl, takeWhile_cons_of_pos hp,
          length_cons]
        congr 1
        omega
      · rw [if_neg hp, takeWhile_cons_of_neg hp]
        rfl

/-- The offset of the next character that is not a blank. -/
def nextChar (line : Line) (s : Nat) : Nat :=
  s + ((line.chars.drop s).takeWhile isBlank).length

theorem skipBlanks_eq (hs : s ≤ line.es) : skipBlanks line s = .ok (nextChar line s) :=
  scan_eq _ (by omega) hs

theorem nextChar_le (hs : s ≤ line.es) : nextChar line s ≤ line.es := by
  have hlen : ((line.chars.drop s).takeWhile isBlank).length ≤ (line.chars.drop s).length :=
    ( takeWhile_prefix _).length_le
  rw [length_drop] at hlen
  unfold nextChar Line.es at *
  omega

theorem drop_nextChar : line.chars.drop (nextChar line s) =
    (line.chars.drop s).dropWhile isBlank := by
  unfold nextChar
  rw [← drop_drop]
  conv_lhs => rw [← takeWhile_append_dropWhile (p := isBlank) (l := line.chars.drop s)]
  rw [drop_append_of_le_length (by simp)]
  simp

/-! ## The lexer -/

theorem lex_nil : lex s [] = [] := by
  rw [lex]

theorem lex_blank {c : UInt8} {l : List UInt8} (h : isBlank c) : lex s (c :: l) = lex (s + 1) l := by
  rw [lex, if_pos h]

theorem lex_blanks (l : List UInt8) :
    lex s l = lex (s + (l.takeWhile isBlank).length) (l.dropWhile isBlank) := by
  induction l generalizing s with
  | nil => rfl
  | cons c l ih =>
    by_cases hc : isBlank c
    · rw [lex_blank hc, ih, takeWhile_cons_of_pos hc, dropWhile_cons_of_pos hc,
        length_cons]
      congr 1
      omega
    · rw [takeWhile_cons_of_neg hc, dropWhile_cons_of_neg hc]
      rfl

theorem At.next (h : At line s ts) : At line (nextChar line s) ts := by
  refine ⟨nextChar_le h.le, ?_⟩
  rw [drop_nextChar, ← h.toks, lex_blanks (line.chars.drop s)]
  rfl

/-- What is at the next character: the end of the line, or the first character of a token. -/
theorem At.cases (h : At line s ts) :
    (ts = [] ∧ nextChar line s = line.es) ∨
    ∃ c l, line.chars.drop (nextChar line s) = c :: l ∧ isBlank c = false ∧ c ≠ 0 ∧
      lex (nextChar line s) (c :: l) = ts := by
  have hnext := h.next
  cases hd : line.chars.drop (nextChar line s) with
  | nil =>
    have hge : line.es ≤ nextChar line s := drop_eq_nil_iff.mp hd
    have hes : nextChar line s = line.es := le_antisymm hnext.le hge
    refine .inl ⟨?_, hes⟩
    rw [← hnext.toks, hd, lex_nil]
  | cons c l =>
    refine .inr ⟨c, l, rfl, ?_, ?_, by rw [← hd]; exact hnext.toks⟩
    · have hne : (line.chars.drop s).dropWhile isBlank ≠ [] := by
        rw [← drop_nextChar, hd]
        simp
      have hhead := head_dropWhile_not isBlank hne
      simpa [← drop_nextChar, hd] using hhead
    · intro hc
      refine line.noNul (mem_of_mem_drop (i := nextChar line s) ?_)
      rw [hd, hc]
      exact mem_cons_self

/-! ## Tokens and characters -/

/-- What `gettoken` returns for a token. -/
def Tok.code : Tok → UInt8
  | .word _ => letterA
  | .bar => Shell.bar
  | .lpar => Shell.lpar
  | .rpar => Shell.rpar
  | .semi => Shell.semi
  | .amp => Shell.amp
  | .lt => Shell.lt
  | .gt => Shell.gt
  | .gtgt => plus

/-- The first character of an operator. -/
def Tok.sym : Tok → Option UInt8
  | .word _ => none
  | .gtgt => some Shell.gt
  | t => some t.code

/-- If the token is a word, it is the one from `q` to `e`. -/
def Tok.Spans (t : Tok) (q e : Nat) : Prop := ∀ w, t = .word w → w = ⟨q, e⟩

theorem ofChar_some {c : UInt8} (h : Tok.ofChar c = some t) :
    t.code = c ∧ t.sym = some c ∧ c ∈ symbols := by
  obtain ⟨x, hx, rfl⟩ := Option.map_eq_some_iff.mp h
  obtain rfl : x.1 = c := by simpa using find?_some hx
  have hall : ∀ x ∈ operators, x.2.code = x.1 ∧ x.2.sym = some x.1 ∧ x.1 ∈ symbols := by decide
  exact hall x (mem_of_find?_eq_some hx)

theorem ofChar_none {c : UInt8} (h : Tok.ofChar c = none) : c ∉ symbols := by
  intro hc
  have hall : ∀ c ∈ symbols, ∃ x ∈ operators, x.1 = c := by decide +kernel
  obtain ⟨x, hx, hxc⟩ := hall c hc
  have hnone := find?_eq_none.mp (Option.map_eq_none_iff.mp h) x hx
  exact hnone (by simpa using hxc)

theorem mem_symbols {c : UInt8} : c ∈ symbols ↔
    (c = bar ∨ c = lpar ∨ c = rpar ∨ c = semi ∨ c = amp ∨ c = lt) ∨ c = gt := by
  simp only [symbols, mem_cons, not_mem_nil, or_false]
  tauto

/-- What the switch of `gettoken` makes of a token that starts with `c` at `s`. -/
def Finds (line : Line) (s : Nat) (c : UInt8) (l : List UInt8) : Prop :=
  ∃ t e, tokenAt line c s = .ok (t.code, e) ∧ e ≤ line.es ∧
    lex s (c :: l) = t :: lex e (line.chars.drop e) ∧ t.Spans s e ∧
    (t.sym = some c ∨ t.sym = none ∧ c ∉ symbols)

theorem finds_gtgt {l : List UInt8} (hd : line.chars.drop s = gt :: gt :: l) :
    Finds line s gt (gt :: l) := by
  obtain ⟨-, hl⟩ := drop_succ hd
  obtain ⟨hlt, hl'⟩ := drop_succ hl
  refine ⟨.gtgt, s + 2, ?_, hlt, ?_, ?_, .inl rfl⟩
  · unfold tokenAt
    rw [if_neg (by decide), if_neg (by decide), if_pos rfl, load_of_drop hl]
    rfl
  · rw [lex, if_neg (by decide), if_pos ⟨rfl, rfl⟩, show line.chars.drop (s + 2) = l from hl']
    rfl
  · intro w hw
    cases hw

theorem finds_operator {c : UInt8} {l : List UInt8} (hd : line.chars.drop s = c :: l)
    (hb : isBlank c = false) (hc : c ≠ 0) (hgg : ¬ (c = gt ∧ l.head? = some gt))
    (ht : Tok.ofChar c = some t) : Finds line s c l := by
  obtain ⟨hlt, hl⟩ := drop_succ hd
  obtain ⟨hcode, hsym, hmem⟩ := ofChar_some ht
  refine ⟨t, s + 1, ?_, hlt, ?_, ?_, .inl hsym⟩
  · unfold tokenAt
    rw [if_neg hc, hcode]
    by_cases hcg : c = gt
    · -- `>` and what follows it
      have hnext : ∃ d, load line (s + 1) = .ok d ∧ d ≠ gt := by
        cases l with
        | nil =>
          have hge : line.es ≤ s + 1 := drop_eq_nil_iff.mp hl
          rw [show s + 1 = line.es by omega]
          exact ⟨0, load_es, by decide⟩
        | cons d l =>
          exact ⟨d, load_of_drop hl, fun hdg => hgg ⟨hcg, by rw [hdg]; rfl⟩⟩
      obtain ⟨d, hload, hdg⟩ := hnext
      rw [if_neg (by rw [hcg]; decide), if_pos hcg, hload, ok_bind, if_neg hdg]
    · rw [if_pos ((mem_symbols.mp hmem).resolve_right hcg)]
  · rw [lex, if_neg (by simp [hb]), if_neg hgg, ht, hl]
  · intro w hw
    rw [hw] at hsym
    cases hsym

theorem finds_word {c : UInt8} {l : List UInt8} (hd : line.chars.drop s = c :: l)
    (hb : isBlank c = false) (hc : c ≠ 0) (ht : Tok.ofChar c = none) : Finds line s c l := by
  obtain ⟨hlt, hl⟩ := drop_succ hd
  have hsymbols := ofChar_none ht
  have hne := mem_symbols.not.mp hsymbols
  rw [not_or] at hne
  have hwc : isWordChar c = true := by
    simp only [isWordChar, Bool.and_eq_true, Bool.not_eq_true', contains_eq_mem,
      decide_eq_false_iff_not]
    exact ⟨by simpa [isBlank] using hb, hsymbols⟩
  have hscan : scan line isWordChar (line.es - s) s =
      .ok (s + 1 + (l.takeWhile isWordChar).length) := by
    rw [scan_eq _ (by omega) (by omega), hd, takeWhile_cons_of_pos hwc, length_cons]
    congr 1
    omega
  refine ⟨.word ⟨s, s + 1 + (l.takeWhile isWordChar).length⟩,
    s + 1 + (l.takeWhile isWordChar).length, ?_, ?_, ?_, ?_, .inr ⟨rfl, hsymbols⟩⟩
  · unfold tokenAt
    rw [if_neg hc, if_neg hne.1, if_neg hne.2, hscan]
    rfl
  · have hlen : (l.takeWhile isWordChar).length ≤ l.length := ( takeWhile_prefix _).length_le
    rw [← hl, length_drop] at hlen
    unfold Line.es at *
    rw [← hl]
    omega
  · rw [lex, if_neg (by simp [hb]), if_neg (fun h => hne.2 h.1), ht, ← drop_drop, hl]
  · intro w hw
    cases hw
    rfl

/-- The switch of `gettoken` finds the first token. -/
theorem finds {c : UInt8} {l : List UInt8} (hd : line.chars.drop s = c :: l)
    (hb : isBlank c = false) (hc : c ≠ 0) : Finds line s c l := by
  by_cases hgg : c = gt ∧ l.head? = some gt
  · obtain ⟨rfl, hhead⟩ := hgg
    cases l with
    | nil => cases hhead
    | cons d l =>
      obtain rfl : d = gt := Option.some.inj hhead
      exact finds_gtgt hd
  · cases ht : Tok.ofChar c with
    | some t => exact finds_operator hd hb hc hgg ht
    | none => exact finds_word hd hb hc ht

/-! ## `gettoken` and `peek` -/

theorem gettoken_nil (h : At line s []) :
    gettoken line s = .ok ⟨0, line.es, line.es, line.es⟩ ∧ At line line.es [] := by
  have hnil : At line line.es [] := ⟨le_rfl, by rw [drop_es, lex_nil]⟩
  have hend : nextChar line line.es = line.es := by
    unfold nextChar
    rw [drop_es]
    rfl
  rcases h.cases with ⟨-, hes⟩ | ⟨c, l, hd, hb, hc, hlex⟩
  · refine ⟨?_, hnil⟩
    unfold gettoken
    rw [skipBlanks_eq h.le, hes, ok_bind, load_es, ok_bind]
    show (do
      let s ← skipBlanks line line.es
      .ok ⟨0, line.es, line.es, s⟩ : R Token) = _
    rw [skipBlanks_eq le_rfl, hend, ok_bind]
  · obtain ⟨t, e, -, -, hcons, -⟩ := finds hd hb hc
    rw [hlex] at hcons
    cases hcons

theorem gettoken_cons (h : At line s (t :: ts)) : ∃ q e s',
    gettoken line s = .ok ⟨t.code, q, e, s'⟩ ∧ At line s' ts ∧ t.Spans q e := by
  rcases h.cases with ⟨hnil, -⟩ | ⟨c, l, hd, hb, hc, hlex⟩
  · cases hnil
  · obtain ⟨t', e, htok, hle, hcons, hspans, -⟩ := finds hd hb hc
    rw [hlex] at hcons
    cases hcons
    have hat : At line e (lex e (line.chars.drop e)) := ⟨hle, rfl⟩
    refine ⟨nextChar line s, e, nextChar line e, ?_, hat.next, hspans⟩
    unfold gettoken
    rw [skipBlanks_eq h.le, ok_bind, load_of_drop hd, ok_bind, htok, ok_bind, skipBlanks_eq hle,
      ok_bind]

/-- The first token is an operator that starts with one of `toks`. -/
def starts (toks : List UInt8) (ts : List Tok) : Bool :=
  (ts.head?.bind Tok.sym).any toks.contains

theorem starts_iff {toks : List UInt8} :
    starts toks ts = true ↔ ∃ t us c, ts = t :: us ∧ t.sym = some c ∧ c ∈ toks := by
  constructor
  · intro h
    cases ts with
    | nil => cases h
    | cons t us =>
      cases hc : t.sym with
      | none => simp [starts, hc] at h
      | some c => exact ⟨t, us, c, rfl, hc, by simpa [starts, hc] using h⟩
  · rintro ⟨t, us, c, rfl, hc, hin⟩
    simpa [starts, hc] using hin

theorem peek_eq {toks : List UInt8} (htoks : ∀ c ∈ toks, c ∈ symbols) (h : At line s ts) :
    peek line toks s = .ok (starts toks ts, nextChar line s) := by
  unfold peek
  rw [skipBlanks_eq h.le, ok_bind]
  rcases h.cases with ⟨rfl, hes⟩ | ⟨c, l, hd, hb, hc, hlex⟩
  · rw [hes, load_es, ok_bind]
    rfl
  · rw [load_of_drop hd, ok_bind]
    obtain ⟨t, e, -, -, hcons, -, hsym⟩ := finds hd hb hc
    rw [hlex] at hcons
    rw [hcons]
    congr 2
    rcases hsym with hsym | ⟨hsym, hno⟩
    · simp [starts, hsym, hc]
    · have hnot : c ∉ toks := fun hin => hno (htoks c hin)
      simp [starts, hsym, hnot]

end

end Xv6.Shell
