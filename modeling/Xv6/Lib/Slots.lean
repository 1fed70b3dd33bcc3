import Mathlib.Data.List.Range

/-!
# Tables of slots

A table has `size` slots in a row, and a slot is empty or has a key and a value. A key is looked up
from the front, so that the first slot with the key counts; a new key goes to the first empty slot,
or to the end. If this is done only for keys that are not there, no key is there twice, and the
table is a map from keys to values.
-/

namespace Xv6.Lib

open Function

/-- A table; the slots from `size` on do not matter. -/
structure Slots (κ ν : Type) where
  size : Nat
  slot : Nat → Option (κ × ν)

namespace Slots

variable {κ ν : Type} (T : Slots κ ν) {e e' : Nat} {k k' : κ} {v v' : ν} {x : Option (κ × ν)}

/-- The first empty slot, or the end of the table. -/
def gap : Nat := ((List.range T.size).find? fun e => (T.slot e).isNone).getD T.size

/-- The table with another slot `e`. -/
def set (e : Nat) (x : Option (κ × ν)) : Slots κ ν :=
  ⟨max T.size (e + 1), update T.slot e x⟩

/-- No two slots have the same key. -/
def Unique : Prop :=
  ∀ e < T.size, ∀ e' < T.size, ∀ k v v', T.slot e = some (k, v) → T.slot e' = some (k, v') → e = e'

/-- The first slot with the key `k`. -/
def find [DecidableEq κ] (k : κ) : Option Nat :=
  (List.range T.size).find? fun e => (T.slot e).map Prod.fst = some k

/-- The value of the key `k`. -/
def look [DecidableEq κ] (k : κ) : Option ν :=
  (T.find k).bind fun e => (T.slot e).map Prod.snd

variable {T}

theorem slot_set_self : (T.set e x).slot e = x := update_self ..

theorem slot_set_ne (h : e' ≠ e) : (T.set e x).slot e' = T.slot e' := update_of_ne h ..

/-! ## The gap -/

theorem gap_le : T.gap ≤ T.size := by
  rw [gap]
  cases h : (List.range T.size).find? fun e => (T.slot e).isNone with
  | none => exact le_rfl
  | some e => exact Nat.le_of_lt (List.mem_range.mp (List.mem_of_find?_eq_some h))

/-- If the gap is inside of the table then it is an empty slot. -/
theorem slot_gap (h : T.gap < T.size) : T.slot T.gap = none := by
  rw [gap] at h ⊢
  cases hf : (List.range T.size).find? fun e => (T.slot e).isNone with
  | none =>
    rw [hf] at h
    exact absurd h (lt_irrefl _)
  | some e =>
    have := (List.find?_range_eq_some.mp hf).1
    exact Option.isNone_iff_eq_none.mp this

/-- A slot before the gap is in use. -/
theorem slot_before_gap (h : e < T.gap) : T.slot e ≠ none := by
  have he : e < T.size := h.trans_le gap_le
  intro hc
  rw [gap] at h
  cases hf : (List.range T.size).find? fun e => (T.slot e).isNone with
  | none =>
    have := List.find?_eq_none.mp hf e (List.mem_range.mpr he)
    rw [hc] at this
    exact this rfl
  | some e' =>
    rw [hf, Option.getD_some] at h
    have := (List.find?_range_eq_some.mp hf).2.2 e h
    rw [hc] at this
    exact absurd this (by simp)

/-- A key in the gap. -/
theorem slot_set_gap (he : e' < (T.set T.gap (some (k, v))).size) :
    (T.set T.gap (some (k, v))).slot e' = some (k', v') ↔
      e' = T.gap ∧ k' = k ∧ v' = v ∨ e' < T.size ∧ T.slot e' = some (k', v') := by
  have hle : T.gap ≤ T.size := gap_le
  have hlt : e' < max T.size (T.gap + 1) := he
  by_cases hg : e' = T.gap
  · subst hg
    rw [slot_set_self]
    constructor
    · intro h
      cases h
      exact .inl ⟨rfl, rfl, rfl⟩
    · rintro (⟨-, rfl, rfl⟩ | ⟨hin, hs⟩)
      · rfl
      · rw [slot_gap hin] at hs
        cases hs
  · rw [slot_set_ne hg]
    constructor
    · exact fun h => .inr ⟨by omega, h⟩
    · rintro (⟨hc, -⟩ | ⟨-, hs⟩)
      · exact absurd hc hg
      · exact hs

/-- What is left in a table with a slot cleared. -/
theorem slot_set_none (he : e ≤ T.size) (he' : e' < (T.set e none).size)
    (hs : (T.set e none).slot e' = some (k, v)) : e' < T.size ∧ T.slot e' = some (k, v) := by
  have hlt : e' < max T.size (e + 1) := he'
  by_cases h : e' = e
  · rw [h, slot_set_self] at hs
    cases hs
  · rw [slot_set_ne h] at hs
    exact ⟨by omega, hs⟩

theorem Unique.clear (h : T.Unique) (he : e ≤ T.size) : (T.set e none).Unique := by
  intro a ha a' ha' k v v' hs hs'
  obtain ⟨hlt, hs⟩ := slot_set_none he ha hs
  obtain ⟨hlt', hs'⟩ := slot_set_none he ha' hs'
  exact h a hlt a' hlt' k v v' hs hs'

/-! ## Looking up a key -/

variable [DecidableEq κ]

theorem find_eq_some : T.find k = some e ↔
    e < T.size ∧ (∃ v, T.slot e = some (k, v)) ∧ ∀ e' < e, ∀ v, T.slot e' ≠ some (k, v) := by
  have hkey : ∀ e, (T.slot e).map Prod.fst = some k ↔ ∃ v, T.slot e = some (k, v) := by
    intro e
    rw [Option.map_eq_some_iff]
    constructor
    · rintro ⟨⟨k', v⟩, he, rfl⟩
      exact ⟨v, he⟩
    · rintro ⟨v, he⟩
      exact ⟨(k, v), he, rfl⟩
  rw [find, List.find?_range_eq_some]
  simp only [decide_eq_true_eq, List.mem_range, hkey, Bool.not_eq_true', decide_eq_false_iff_not,
    not_exists, ne_eq]
  tauto

theorem find_eq_none : T.find k = none ↔ ∀ e < T.size, ∀ v, T.slot e ≠ some (k, v) := by
  constructor
  · intro h e he v hv
    have := List.find?_eq_none.mp h e (List.mem_range.mpr he)
    simp [hv] at this
  · intro h
    cases hf : T.find k with
    | none => rfl
    | some e =>
      obtain ⟨he, ⟨v, hv⟩, -⟩ := find_eq_some.mp hf
      exact absurd hv (h e he v)

theorem look_of_find (h : T.find k = some e) (hv : T.slot e = some (k, v)) : T.look k = some v := by
  rw [look, h, Option.bind_some, hv, Option.map_some]

theorem look_eq_none : T.look k = none ↔ T.find k = none := by
  cases h : T.find k with
  | none =>
    rw [look, h]
    exact iff_of_true rfl rfl
  | some e =>
    obtain ⟨-, ⟨v, hv⟩, -⟩ := find_eq_some.mp h
    rw [look_of_find h hv]
    exact iff_of_false (by simp) (by simp)

theorem find_clear (he : e ≤ T.size) (h : T.find k = none) : (T.set e none).find k = none := by
  refine find_eq_none.mpr fun e' he' v hs => ?_
  obtain ⟨hlt, hs⟩ := slot_set_none he he' hs
  exact find_eq_none.mp h e' hlt v hs

/-- The slots with another key are the same after a key was put in the gap. -/
theorem find_put_ne (h : k' ≠ k) : (T.set T.gap (some (k, v))).find k' = T.find k' := by
  have hslot : ∀ e v', e < (T.set T.gap (some (k, v))).size →
      ((T.set T.gap (some (k, v))).slot e = some (k', v') ↔
        e < T.size ∧ T.slot e = some (k', v')) := by
    intro e v' he
    rw [slot_set_gap he]
    exact or_iff_right fun hc => h hc.2.1
  have hsize : ∀ e, e < T.size → e < (T.set T.gap (some (k, v))).size :=
    fun e he => he.trans_le (le_max_left ..)
  cases hf : T.find k' with
  | none =>
    refine find_eq_none.mpr fun e he v' hs => ?_
    obtain ⟨hin, hs⟩ := (hslot e v' he).mp hs
    exact find_eq_none.mp hf e hin v' hs
  | some e =>
    obtain ⟨he, ⟨v', hv'⟩, hfirst⟩ := find_eq_some.mp hf
    refine find_eq_some.mpr ⟨hsize e he, ⟨v', ?_⟩, fun e' he' v'' hs => ?_⟩
    · exact (hslot e v' (hsize e he)).mpr ⟨he, hv'⟩
    · exact hfirst e' he' v'' ((hslot e' v'' (hsize e' (he'.trans he))).mp hs).2

theorem find_put_self (hk : T.find k = none) :
    (T.set T.gap (some (k, v))).find k = some T.gap := by
  have hgap : T.gap < (T.set T.gap (some (k, v))).size :=
    (Nat.lt_succ_self _).trans_le (le_max_right ..)
  refine find_eq_some.mpr ⟨hgap, ⟨v, slot_set_self⟩, fun e he v' hs => ?_⟩
  obtain ⟨rfl, -⟩ | ⟨hin, hs⟩ := (slot_set_gap (he.trans hgap)).mp hs
  · exact absurd he (lt_irrefl _)
  · exact find_eq_none.mp hk e hin v' hs

/-- A new key has its value, and every other key has the one that it had. -/
theorem look_put (hk : T.find k = none) :
    (T.set T.gap (some (k, v))).look k' = if k' = k then some v else T.look k' := by
  by_cases h : k' = k
  · subst h
    rw [if_pos rfl]
    exact look_of_find (find_put_self hk) slot_set_self
  · rw [if_neg h]
    cases hf : T.find k' with
    | none => rw [look_eq_none.mpr hf, look_eq_none, find_put_ne h, hf]
    | some e =>
      obtain ⟨he, ⟨v', hv'⟩, -⟩ := find_eq_some.mp hf
      have hne : e ≠ T.gap := by
        rintro rfl
        rw [slot_gap he] at hv'
        cases hv'
      rw [look_of_find hf hv', look_of_find ((find_put_ne h).trans hf) ((slot_set_ne hne).trans hv')]

theorem Unique.put (h : T.Unique) (hk : T.find k = none) :
    (T.set T.gap (some (k, v))).Unique := by
  have hnone := find_eq_none.mp hk
  intro e he e' he' k' v₁ v₂ hs hs'
  rcases (slot_set_gap he).mp hs with ⟨rfl, rfl, -⟩ | ⟨hin, hold⟩
  · rcases (slot_set_gap he').mp hs' with ⟨rfl, -, -⟩ | ⟨hin', hold'⟩
    · rfl
    · exact absurd hold' (hnone e' hin' v₂)
  · rcases (slot_set_gap he').mp hs' with ⟨rfl, rfl, -⟩ | ⟨hin', hold'⟩
    · exact absurd hold (hnone e hin v₁)
    · exact h e hin e' hin' k' v₁ v₂ hold hold'

end Slots
end Xv6.Lib
