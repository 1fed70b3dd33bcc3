import Mathlib.Computability.Language
import Mathlib.Data.List.GetD
import Mathlib.Tactic

/-!
# The matcher of `grep`

`match`, `matchhere` and `matchstar` of `user/grep.c` try every split of the text while they walk
along the pattern. What a pattern means is said apart from them: it is read from left to right
into a list of items (`parse`), each item is a language, and a pattern matches the words of the
product (`Matches`). The two are joined by how a pattern matches at the start of a text
(`Pattern.Here`), which unfolds along the pattern as `matchhere` does (`here_star`, `here_one`,
`here_dollar`).

Pointers are offsets from the start of their string. A load behind the NUL is a fault.
-/

namespace Xv6.Grep

open Computability List

/-- The characters `*`, `.`, `$` and `^`. -/
abbrev star : UInt8 := 42
abbrev dot : UInt8 := 46
abbrev dollar : UInt8 := 36
abbrev caret : UInt8 := 94

/-- A NUL-terminated string: the bytes before the NUL. -/
structure Str where
  chars : List UInt8
  noNul : 0 ∉ chars

/-- How a call does not return. -/
inductive Err where
  | fault
  | fuel

abbrev R (α : Type) : Type := Except Err α

/-- `s[i]` -/
def Str.load (s : Str) (i : Nat) : R UInt8 :=
  if i ≤ s.chars.length then .ok (s.chars.getD i 0) else .error .fault

mutual

/-- `matchhere(re + i, text + j)` -/
def matchhere (re text : Str) : Nat → Nat → Nat → R Bool
  | 0, _, _ => .error .fuel
  | fuel + 1, i, j => do
    let c ← re.load i
    if c = 0 then .ok true
    else do
      let d ← re.load (i + 1)
      if d = star then matchstar re text fuel c (i + 2) j
      else do
        let t ← text.load j
        if c = dollar ∧ d = 0 then .ok (t = 0)
        else if t ≠ 0 ∧ (c = dot ∨ c = t) then matchhere re text fuel (i + 1) (j + 1)
        else .ok false

/-- `matchstar(c, re + i, text + j)`; a round of the loop is a call. -/
def matchstar (re text : Str) : Nat → UInt8 → Nat → Nat → R Bool
  | 0, _, _, _ => .error .fuel
  | fuel + 1, c, i, j => do
    if ← matchhere re text fuel i j then .ok true
    else do
      let t ← text.load j
      if t ≠ 0 ∧ (t = c ∨ c = dot) then matchstar re text fuel c i (j + 1) else .ok false

end

/-- The loop of `match` from `text + j` on. -/
def matchLoop (re text : Str) : Nat → Nat → R Bool
  | 0, _ => .error .fuel
  | fuel + 1, j => do
    if ← matchhere re text fuel 0 j then .ok true
    else do
      let t ← text.load j
      if t ≠ 0 then matchLoop re text fuel (j + 1) else .ok false

/-- `match(re, text)` -/
def match_ (re text : Str) (fuel : Nat) : R Bool := do
  let c ← re.load 0
  if c = caret then matchhere re text fuel 1 0 else matchLoop re text fuel 0

/-! ## What a pattern means -/

/-- `c`, or `c*`. -/
inductive Item where
  | one (c : UInt8)
  | star (c : UInt8)

/-- The character `x` may stand where the pattern has `c`. -/
def Reads (c x : UInt8) : Prop := c = dot ∨ c = x

/-- The words of one character that reads as `c`. -/
def charLang (c : UInt8) : Language UInt8 := {w | ∃ x, Reads c x ∧ w = [x]}

def Item.lang : Item → Language UInt8
  | .one c => charLang c
  | .star c => (charLang c)∗

/-- A pattern behind a leading `^`; `atEnd` if it ends with a `$` that stands for the end of the text. -/
structure Pattern where
  items : List Item
  atEnd : Bool

def Pattern.cons (item : Item) (p : Pattern) : Pattern := { p with items := item :: p.items }

/-- A pattern, read from left to right. -/
def parse : List UInt8 → Pattern
  | [] => ⟨[], false⟩
  | [c] => if c = dollar then ⟨[], true⟩ else ⟨[.one c], false⟩
  | c :: d :: r => if d = star then (parse r).cons (.star c) else (parse (d :: r)).cons (.one c)

/-- The part `w` of a text matches, with `rest` behind it. -/
def Pattern.Reads (p : Pattern) (w rest : List UInt8) : Prop :=
  w ∈ (p.items.map Item.lang).prod ∧ (p.atEnd → rest = [])

/-- A substring of `text` matches, or a prefix if the pattern starts with `^`. -/
def Matches (re text : List UInt8) : Prop :=
  if re.head? = some caret then ∃ w rest, text = w ++ rest ∧ (parse re.tail).Reads w rest
  else ∃ before w rest, text = before ++ w ++ rest ∧ (parse re).Reads w rest

/-! ## Matching at the start of a text -/

/-- Some prefix of `text` matches. -/
def Pattern.Here (p : Pattern) (text : List UInt8) : Prop :=
  ∃ w rest, text = w ++ rest ∧ p.Reads w rest

section

variable {c d : UInt8} {r t : List UInt8} {p : Pattern}

theorem here_nil (t : List UInt8) : (parse []).Here t :=
  ⟨[], t, rfl, rfl, fun h => absurd h Bool.false_ne_true⟩

theorem mem_star (c : UInt8) (w : List UInt8) : w ∈ (Item.star c).lang ↔ ∀ x ∈ w, Reads c x := by
  rw [Item.lang, Language.mem_kstar]
  constructor
  · rintro ⟨ws, rfl, hws⟩ x hx
    obtain ⟨v, hv, hxv⟩ := mem_flatten.mp hx
    obtain ⟨y, hy, rfl⟩ := hws v hv
    rwa [mem_singleton.mp hxv]
  · intro h
    refine ⟨w.map fun x => [x], ?_, ?_⟩
    · induction w with
      | nil => rfl
      | cons x w ih => simp [← ih fun y hy => h y (mem_cons_of_mem x hy)]
    · intro v hv
      obtain ⟨x, hx, rfl⟩ := mem_map.mp hv
      exact ⟨x, h x hx, rfl⟩

/-- A first item takes a word of its language off the text. -/
theorem here_cons (item : Item) :
    (p.cons item).Here t ↔ ∃ w t', t = w ++ t' ∧ w ∈ item.lang ∧ p.Here t' := by
  constructor
  · rintro ⟨w, rest, rfl, hw, hend⟩
    rw [Pattern.cons, map_cons, prod_cons, Language.mem_mul] at hw
    obtain ⟨w₁, hw₁, w₂, hw₂, rfl⟩ := hw
    exact ⟨w₁, w₂ ++ rest, append_assoc .., hw₁, w₂, rest, rfl, hw₂, hend⟩
  · rintro ⟨w₁, t', rfl, hw₁, w₂, rest, rfl, hw₂, hend⟩
    refine ⟨w₁ ++ w₂, rest, (append_assoc ..).symm, ?_, hend⟩
    rw [Pattern.cons, map_cons, prod_cons, Language.mem_mul]
    exact ⟨w₁, hw₁, w₂, hw₂, rfl⟩

/-- `c*r` takes characters that read as `c`, any number of them. -/
def StarHere (c : UInt8) (r t : List UInt8) : Prop :=
  ∃ w t', t = w ++ t' ∧ (∀ x ∈ w, Reads c x) ∧ (parse r).Here t'

theorem here_star (c : UInt8) (r t : List UInt8) :
    (parse (c :: star :: r)).Here t ↔ StarHere c r t := by
  rw [parse, if_pos rfl, here_cons]
  simp only [mem_star, StarHere]

theorem here_dollar (t : List UInt8) : (parse [dollar]).Here t ↔ t = [] := by
  rw [parse, if_pos rfl]
  constructor
  · rintro ⟨w, rest, rfl, hw, hend⟩
    rw [hend rfl, append_nil]
    exact hw
  · rintro rfl
    exact ⟨[], [], rfl, rfl, fun _ => rfl⟩

/-- Any other character takes one character. -/
theorem here_one (hstar : r.head? ≠ some star) (hdollar : ¬ (c = dollar ∧ r = [])) :
    (parse (c :: r)).Here t ↔ ∃ x t', t = x :: t' ∧ Reads c x ∧ (parse r).Here t' := by
  have hparse : parse (c :: r) = (parse r).cons (.one c) := by
    cases r with
    | nil =>
      simp only [parse]
      rw [if_neg fun hc => hdollar ⟨hc, rfl⟩]
      rfl
    | cons d r => rw [parse, if_neg fun hd => hstar (by rw [hd]; rfl)]
  rw [hparse, here_cons]
  constructor
  · rintro ⟨_, t', rfl, ⟨x, hx, rfl⟩, ht⟩
    exact ⟨x, t', rfl, hx, ht⟩
  · rintro ⟨x, t', rfl, hx, ht⟩
    exact ⟨[x], t', rfl, ⟨x, hx, rfl⟩, ht⟩

/-- `c*r` matches if `r` does, or if it does behind a character that reads as `c`. -/
theorem starHere_iff : StarHere c r t ↔
    (parse r).Here t ∨ ∃ x t', t = x :: t' ∧ Reads c x ∧ StarHere c r t' := by
  constructor
  · rintro ⟨w, t', rfl, hw, ht⟩
    cases w with
    | nil => exact .inl ht
    | cons x w =>
      exact .inr ⟨x, w ++ t', rfl, hw x mem_cons_self, w, t', rfl,
        fun y hy => hw y (mem_cons_of_mem x hy), ht⟩
  · rintro (ht | ⟨x, _, rfl, hx, w, t', rfl, hw, ht⟩)
    · exact ⟨[], t, rfl, fun x hx => absurd hx not_mem_nil, ht⟩
    · exact ⟨x :: w, t', rfl, forall_mem_cons.mpr ⟨hx, hw⟩, ht⟩

end

/-! ## The code -/

section

variable {s re text : Str} {c : UInt8} {r : List UInt8} {i j fuel : Nat}

theorem Str.load_nil (hi : i ≤ s.chars.length) (h : s.chars.drop i = []) : s.load i = .ok 0 := by
  rw [Str.load, if_pos hi, getD_eq_default _ _ (drop_eq_nil_iff.mp h)]

theorem Str.load_cons (h : s.chars.drop i = c :: r) : s.load i = .ok c ∧ c ≠ 0 ∧
    s.chars.drop (i + 1) = r ∧ i + 1 ≤ s.chars.length := by
  have hlt : i < s.chars.length := by
    by_contra hge
    rw [drop_eq_nil_of_le (by omega)] at h
    exact absurd h.symm (cons_ne_nil c r)
  have hget := drop_eq_getElem_cons hlt
  rw [h] at hget
  obtain ⟨hc, hr⟩ := cons.inj hget
  refine ⟨?_, ?_, hr.symm, hlt⟩
  · rw [Str.load, if_pos hlt.le, getD_eq_getElem _ _ hlt, ← hc]
  · rintro rfl
    exact s.noNul (hc ▸ getElem_mem hlt)

theorem ok_bind {α β : Type} (a : α) (f : α → R β) : (Except.ok a >>= f) = f a := rfl

/-- The call returns, with the truth of `P`. -/
def Decides (x : R Bool) (P : Prop) : Prop := ∃ b, x = .ok b ∧ (b = true ↔ P)

theorem Decides.congr {x : R Bool} {P Q : Prop} (h : Decides x P) (hPQ : P ↔ Q) : Decides x Q := by
  obtain ⟨b, hx, hb⟩ := h
  exact ⟨b, hx, hb.trans hPQ⟩

/-- `if(x) return 1;` and then `y`. -/
theorem Decides.orElse {x y : R Bool} {P Q : Prop} (hx : Decides x P) (hy : Decides y Q) :
    Decides (x >>= fun b => if b then .ok true else y) (P ∨ Q) := by
  obtain ⟨b, rfl, hb⟩ := hx
  cases b with
  | true => exact ⟨true, rfl, by simp [hb.mp rfl]⟩
  | false =>
    obtain ⟨b', rfl, hb'⟩ := hy
    have hP : ¬ P := fun hP => Bool.false_ne_true (hb.mpr hP)
    exact ⟨b', rfl, by simp [hP, hb']⟩

/-- The step to the next character of the text, if there is one and it reads as `c`. -/
theorem Decides.next {y : R Bool} {test : UInt8 → Prop} [DecidablePred test] {Q : List UInt8 → Prop}
    (hj : j ≤ text.chars.length) (htest : ∀ x, test x ↔ Reads c x)
    (hy : ∀ x t, text.chars.drop j = x :: t → Decides y (Q t)) :
    Decides (text.load j >>= fun t => if t ≠ 0 ∧ test t then y else .ok false)
      (∃ x t, text.chars.drop j = x :: t ∧ Reads c x ∧ Q t) := by
  cases ht : text.chars.drop j with
  | nil =>
    rw [Str.load_nil hj ht]
    exact ⟨false, rfl, by simp⟩
  | cons x t =>
    obtain ⟨hload, hne, -, -⟩ := Str.load_cons ht
    rw [hload]
    by_cases hx : test x
    · rw [show (Except.ok x >>= fun t => if t ≠ 0 ∧ test t then y else .ok false) = y from
        if_pos ⟨hne, hx⟩]
      refine (hy x t ht).congr ⟨fun hQ => ⟨x, t, rfl, (htest x).mp hx, hQ⟩, ?_⟩
      rintro ⟨_, _, heq, -, hQ⟩
      rwa [(cons.inj heq).2]
    · refine ⟨false, if_neg fun hc => hx hc.2, ?_⟩
      simp [← htest, hx]

/-- Both calls return if the fuel is enough for what is left of the pattern and of the text. -/
theorem match_spec (re text : Str) (fuel : Nat) :
    (∀ i j, i ≤ re.chars.length → j ≤ text.chars.length →
      2 * (re.chars.length - i) + (text.chars.length - j) + 1 ≤ fuel →
      Decides (matchhere re text fuel i j)
        ((parse (re.chars.drop i)).Here (text.chars.drop j))) ∧
    (∀ c i j, i ≤ re.chars.length → j ≤ text.chars.length →
      2 * (re.chars.length - i) + (text.chars.length - j) + 2 ≤ fuel →
      Decides (matchstar re text fuel c i j)
        (StarHere c (re.chars.drop i) (text.chars.drop j))) := by
  induction fuel with
  | zero => exact ⟨fun i j _ _ h => by omega, fun c i j _ _ h => by omega⟩
  | succ fuel ih =>
    obtain ⟨ihHere, ihStar⟩ := ih
    refine ⟨fun i j hi hj hfuel => ?_, fun c i j hi hj hfuel => ?_⟩
    · rw [matchhere]
      cases hre : re.chars.drop i with
      | nil =>
        rw [Str.load_nil hi hre]
        exact ⟨true, rfl, by simp [here_nil]⟩
      | cons c r =>
        obtain ⟨hload, hne, hr, hi'⟩ := Str.load_cons hre
        have hnext : ∀ x t, text.chars.drop j = x :: t →
            Decides (matchhere re text fuel (i + 1) (j + 1)) ((parse r).Here t) := by
          intro x t ht
          obtain ⟨-, -, ht', hj'⟩ := Str.load_cons ht
          rw [← hr, ← ht']
          exact ihHere (i + 1) (j + 1) hi' hj' (by omega)
        simp only [hload, ok_bind, hne, if_false]
        cases r with
        | nil =>
          simp only [Str.load_nil hi' hr, ok_bind]
          rw [if_neg (by decide)]
          by_cases hc : c = dollar
          · subst hc
            simp only [and_self, if_true]
            rw [here_dollar]
            cases ht : text.chars.drop j with
            | nil => exact ⟨true, by rw [Str.load_nil hj ht]; rfl, by simp⟩
            | cons x t =>
              obtain ⟨hx, hx0, -, -⟩ := Str.load_cons ht
              exact ⟨false, by simp [hx, ok_bind, hx0], by simp⟩
          · simp only [hc, false_and, if_false]
            rw [here_one (by simp) fun h => hc h.1]
            exact Decides.next hj (fun x => Iff.rfl) hnext
        | cons d r =>
          obtain ⟨hload', hne', hr', hi''⟩ := Str.load_cons hr
          simp only [hload', ok_bind, hne', and_false, if_false]
          by_cases hd : d = star
          · rw [if_pos hd, hd, here_star, ← hr']
            exact ihStar c (i + 2) j hi'' hj (by omega)
          · rw [if_neg hd, here_one (by simpa using hd) fun h => cons_ne_nil d r h.2]
            exact Decides.next hj (fun x => Iff.rfl) hnext
    · rw [matchstar, starHere_iff]
      refine (ihHere i j hi hj (by omega)).orElse ?_
      refine Decides.next hj (fun x => by rw [Reads, or_comm, @eq_comm _ x]) fun x t ht => ?_
      obtain ⟨-, -, ht', hj'⟩ := Str.load_cons ht
      rw [← ht']
      exact ihStar c i (j + 1) hi hj' (by omega)

theorem matchLoop_spec (hj : j ≤ text.chars.length)
    (hfuel : 2 * re.chars.length + (text.chars.length - j) + 2 ≤ fuel) :
    Decides (matchLoop re text fuel j)
      (∃ before t, text.chars.drop j = before ++ t ∧ (parse re.chars).Here t) := by
  induction fuel generalizing j with
  | zero => omega
  | succ fuel ih =>
    have hhere := (match_spec re text fuel).1 0 j (Nat.zero_le _) hj (by omega)
    rw [drop_zero] at hhere
    rw [matchLoop]
    cases ht : text.chars.drop j with
    | nil =>
      have hlast : Decides (text.load j >>= fun t =>
          if t ≠ 0 then matchLoop re text fuel (j + 1) else .ok false) False := by
        rw [Str.load_nil hj ht]
        exact ⟨false, rfl, by simp⟩
      refine (hhere.orElse hlast).congr ?_
      rw [ht]
      simp
    | cons x t =>
      obtain ⟨hload, hne, ht', hj'⟩ := Str.load_cons ht
      have hnext : Decides (text.load j >>= fun t =>
          if t ≠ 0 then matchLoop re text fuel (j + 1) else .ok false)
          (∃ before t', t = before ++ t' ∧ (parse re.chars).Here t') := by
        rw [hload, ok_bind, if_pos hne, ← ht']
        exact ih hj' (by omega)
      refine (hhere.orElse hnext).congr ?_
      rw [ht]
      constructor
      · rintro (hhere | ⟨before, t', rfl, hhere⟩)
        · exact ⟨[], x :: t, rfl, hhere⟩
        · exact ⟨x :: before, t', rfl, hhere⟩
      · rintro ⟨before, t', heq, hhere⟩
        rcases cons_eq_append_iff.mp heq with ⟨-, rfl⟩ | ⟨before', -, rfl⟩
        · exact .inl hhere
        · exact .inr ⟨before', t', rfl, hhere⟩

theorem matches_caret (re : Str) (h : re.chars.head? = some caret) (text : List UInt8) :
    Matches re.chars text ↔ (parse (re.chars.drop 1)).Here text := by
  rw [Matches, if_pos h, drop_one]
  rfl

theorem matches_any (re : Str) (h : re.chars.head? ≠ some caret) (text : List UInt8) :
    Matches re.chars text ↔ ∃ before t, text = before ++ t ∧ (parse re.chars).Here t := by
  rw [Matches, if_neg h]
  constructor
  · rintro ⟨before, w, rest, rfl, hw⟩
    exact ⟨before, w ++ rest, append_assoc .., w, rest, rfl, hw⟩
  · rintro ⟨before, t, rfl, w, rest, rfl, hw⟩
    exact ⟨before, w, rest, (append_assoc ..).symm, hw⟩

/-- Fuel that is enough for `match(re, text)`. -/
def enough (re text : Str) : Nat := 2 * re.chars.length + text.chars.length + 2

theorem match_decides (re text : Str) (hfuel : enough re text ≤ fuel) :
    Decides (match_ re text fuel) (Matches re.chars text.chars) := by
  unfold enough at hfuel
  unfold match_
  cases hre : re.chars.drop 0 with
  | nil =>
    rw [Str.load_nil (Nat.zero_le _) hre, ok_bind, if_neg (by decide)]
    rw [drop_zero] at hre
    refine (matchLoop_spec (Nat.zero_le _) (by omega)).congr ?_
    rw [matches_any re (by simp [hre]), drop_zero]
  | cons c r =>
    obtain ⟨hload, -, -, hlen⟩ := Str.load_cons hre
    rw [drop_zero] at hre
    rw [hload, ok_bind]
    split
    · next hc =>
      refine ((match_spec re text fuel).1 1 0 hlen (Nat.zero_le _) (by omega)).congr ?_
      rw [matches_caret re (by rw [hre, hc]; rfl), drop_zero]
    · next hc =>
      refine (matchLoop_spec (Nat.zero_le _) (by omega)).congr ?_
      rw [matches_any re (by simpa [hre] using hc), drop_zero]

/-- `match` returns, without a load behind either NUL, and returns 1 if and only if the text matches.
    `matchhere` and `matchstar` return too, from every place in the two strings. -/
theorem matcher_correct (re text : Str) :
    (∀ fuel, enough re text ≤ fuel →
      ∃ b, match_ re text fuel = .ok b ∧ (b = true ↔ Matches re.chars text.chars)) ∧
    ∀ fuel i j, enough re text ≤ fuel → i ≤ re.chars.length → j ≤ text.chars.length →
      (∃ b, matchhere re text fuel i j = .ok b) ∧
        ∀ c, ∃ b, matchstar re text fuel c i j = .ok b := by
  refine ⟨fun fuel hfuel => match_decides re text hfuel, fun fuel i j hfuel hi hj => ?_⟩
  unfold enough at hfuel
  obtain ⟨hhere, hstar⟩ := match_spec re text fuel
  obtain ⟨b, hb, -⟩ := hhere i j hi hj (by omega)
  refine ⟨⟨b, hb⟩, fun c => ?_⟩
  obtain ⟨b', hb', -⟩ := hstar c i j hi hj (by omega)
  exact ⟨b', hb'⟩

/-- The pattern `a*$` and the text `baa`. -/
theorem matcher_correct_star :
    ∃ b, match_ ⟨[97, star, dollar], by decide⟩ ⟨[98, 97, 97], by decide⟩ 11 = .ok b ∧
      (b = true ↔ Matches [97, star, dollar] [98, 97, 97]) :=
  (matcher_correct ⟨[97, star, dollar], by decide⟩ ⟨[98, 97, 97], by decide⟩).1 11 (by decide)

end

end Xv6.Grep
