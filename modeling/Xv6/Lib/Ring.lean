import Mathlib.Tactic

/-!
# Ring buffers with free-running counters

A ring of `cap` cells is written and read through two counters that only ever grow and are kept
modulo `M`, a multiple of `cap`. Over the history `hist` of everything that was ever written, of
which the first `r` entries have been taken out, the ring `Holds` the rest. The two tests that such
a buffer makes on its counters, for being empty and for being full, are decided by the history.
-/

namespace Xv6.Lib

open Function

variable {α : Type}

/-- The cells hold the entries of the history from the `r`-th on. -/
def Holds (cap : Nat) (cells : Nat → α) (hist : List α) (r : Nat) : Prop :=
  ∀ j, r ≤ j → (h : j < hist.length) → cells (j % cap) = hist[j]

variable {cap M r w : Nat} {cells : Nat → α} {hist : List α} {x : α}

theorem Holds.nil (cells : Nat → α) : Holds cap cells [] 0 :=
  fun _ _ h => absurd h (Nat.not_lt_zero _)

/-- Two counters that are less than `cap` apart name different cells. -/
theorem cell_ne (h : r < w) (hw : w < r + cap) : r % cap ≠ w % cap := by
  intro he
  have hd : cap ∣ w - r := (Nat.modEq_iff_dvd' h.le).mp he
  have := Nat.le_of_dvd (by omega) hd
  omega

/-- Writing to the cell of the write counter loses no entry. -/
theorem Holds.write (h : Holds cap cells hist r) (hroom : hist.length < r + cap) :
    Holds cap (update cells (hist.length % cap) x) hist r := by
  intro j hr hj
  rw [update_of_ne (cell_ne hj (by omega))]
  exact h j hr hj

/-- What is in the cell of the write counter becomes the next entry. -/
theorem Holds.append (h : Holds cap cells hist r) (hx : cells (hist.length % cap) = x) :
    Holds cap cells (hist ++ [x]) r := by
  intro j hr hj
  rw [List.length_append, List.length_singleton] at hj
  by_cases he : j = hist.length
  · subst he
    rw [hx, List.getElem_concat_length rfl]
  · have hlt : j < hist.length := by omega
    rw [List.getElem_append_left hlt]
    exact h j hr hlt

/-- A new entry goes to the cell of the write counter. -/
theorem Holds.push (h : Holds cap cells hist r) (hroom : hist.length < r + cap) :
    Holds cap (update cells (hist.length % cap) x) (hist ++ [x]) r :=
  (h.write hroom).append (update_self ..)

/-- The oldest entry is in the cell of the read counter. -/
theorem Holds.head (h : Holds cap cells hist r) (hr : r < hist.length) :
    cells (r % cap) = hist[r] := h r (Nat.le_refl r) hr

/-- Entries at the end of the history may be given up. -/
theorem Holds.erase {last : List α} (h : Holds cap cells (hist ++ last) r) :
    Holds cap cells hist r := by
  intro j hr hj
  rw [h j hr (by rw [List.length_append]; omega), List.getElem_append_left hj]

theorem Holds.pop (h : Holds cap cells hist r) : Holds cap cells hist (r + 1) :=
  fun j hj hlt => h j (by omega) hlt

/-- A counter that is kept modulo a multiple of the capacity names the same cell. -/
theorem counter_cell (hM : cap ∣ M) (n : Nat) : n % M % cap = n % cap := Nat.mod_mod_of_dvd n hM

theorem counter_succ (n : Nat) : (n % M + 1) % M = (n + 1) % M := Nat.mod_add_mod n M 1

/-- The test for an empty buffer. -/
theorem counter_empty_iff (hrw : r ≤ w) (hw : w < r + M) : r % M = w % M ↔ r = w := by
  refine ⟨fun h => ?_, fun h => by rw [h]⟩
  by_contra hne
  exact cell_ne (by omega) hw h

/-- The test for a full buffer. -/
theorem counter_full_iff (hw : w ≤ r + cap) (hrw : r ≤ w) (hM : cap < M) :
    w % M = (r % M + cap) % M ↔ w = r + cap := by
  rw [Nat.mod_add_mod]
  exact counter_empty_iff hw (by omega)

/-- The number of entries, computed from the counters. -/
theorem counter_sub (hrw : r ≤ w) (hw : w < r + M) : (w % M + M - r % M) % M = w - r := by
  have hM : 0 < M := by omega
  have hr := Nat.mod_lt r hM
  have hdr := Nat.div_add_mod r M
  have hdw := Nat.div_add_mod w M
  have hmod : (w % M + M - r % M) ≡ (w - r) [MOD M] := by
    have h1 : (w % M + M - r % M) + r ≡ (w - r) + r [MOD M] := by
      rw [Nat.sub_add_cancel hrw]
      calc (w % M + M - r % M) + r = w % M + M - r % M + (M * (r / M) + r % M) := by rw [hdr]
        _ = w % M + M * (r / M + 1) := by rw [Nat.mul_add]; omega
        _ ≡ w % M [MOD M] := by
          rw [Nat.ModEq, Nat.add_mul_mod_self_left]
        _ ≡ w [MOD M] := Nat.mod_modEq w M
    exact Nat.ModEq.add_right_cancel' r h1
  rw [hmod]
  exact Nat.mod_eq_of_lt (by omega)

end Xv6.Lib
