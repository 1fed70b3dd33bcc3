import Mathlib.Tactic

/-!
# Items with at most one owner

Each place of a type `ι` refers to an item or, where it is zero, to none. The items that can be
given out are the numbers from `lo` up to `hi`. `Owns lo hi f used` says that no two places refer
to the same item and that an item is in use exactly when some place refers to it.
-/

namespace Xv6.Lib

open Function

variable {ι : Type}

structure Owns (lo hi : Nat) (f : ι → Nat) (used : Nat → Prop) : Prop where
  pos : 0 < lo
  range : ∀ x, f x ≠ 0 → lo ≤ f x ∧ f x < hi
  inj : ∀ x y, f x = f y → f x ≠ 0 → x = y
  used : ∀ b, lo ≤ b → b < hi → (used b ↔ ∃ x, f x = b)

variable {lo hi b : Nat} {f g : ι → Nat} {used used' : Nat → Prop} {x y : ι}

theorem Owns.congr (h : Owns lo hi f used) (hg : ∀ x, g x = f x) : Owns lo hi g used := by
  have : g = f := funext hg
  rwa [this]

variable [DecidableEq ι]

/-- A free item is given to a place that has none. -/
theorem Owns.give (h : Owns lo hi f used) (hx : f x = 0) (hlo : lo ≤ b) (hhi : b < hi)
    (hfree : ¬ used b) (hused : ∀ c, lo ≤ c → c < hi → (used' c ↔ used c ∨ c = b)) :
    Owns lo hi (update f x b) used' := by
  have hnone : ∀ y, f y ≠ b := fun y hy => hfree ((h.used b hlo hhi).mpr ⟨y, hy⟩)
  refine ⟨h.pos, fun y hy => ?_, fun y z hyz hy => ?_, fun c hc hc' => ?_⟩
  · by_cases hyx : y = x
    · rw [hyx, update_self]
      exact ⟨hlo, hhi⟩
    · rw [update_of_ne hyx] at hy ⊢
      exact h.range y hy
  · by_cases hyx : y = x <;> by_cases hzx : z = x
    · rw [hyx, hzx]
    · rw [hyx, update_self, update_of_ne hzx] at hyz
      exact absurd hyz.symm (hnone z)
    · rw [hzx, update_self, update_of_ne hyx] at hyz
      exact absurd hyz (hnone y)
    · rw [update_of_ne hyx, update_of_ne hzx] at hyz
      rw [update_of_ne hyx] at hy
      exact h.inj y z hyz hy
  · rw [hused c hc hc']
    constructor
    · rintro (hu | rfl)
      · obtain ⟨y, hy⟩ := (h.used c hc hc').mp hu
        refine ⟨y, ?_⟩
        rw [update_of_ne, hy]
        rintro rfl
        have := h.pos
        omega
      · exact ⟨x, update_self ..⟩
    · rintro ⟨y, hy⟩
      by_cases hyx : y = x
      · rw [hyx, update_self] at hy
        exact .inr hy.symm
      · rw [update_of_ne hyx] at hy
        exact .inl ((h.used c hc hc').mpr ⟨y, hy⟩)

/-- An item is taken from the place that has it. -/
theorem Owns.take (h : Owns lo hi f used) (hx : f x = b)
    (hused : ∀ c, lo ≤ c → c < hi → (used' c ↔ used c ∧ c ≠ b)) :
    Owns lo hi (update f x 0) used' := by
  have hkept : ∀ y, update f x 0 y ≠ 0 → y ≠ x ∧ update f x 0 y = f y := by
    intro y hy
    have hyx : y ≠ x := by
      rintro rfl
      exact hy (update_self ..)
    exact ⟨hyx, update_of_ne hyx ..⟩
  refine ⟨h.pos, fun y hy => ?_, fun y z hyz hy => ?_, fun c hc hc' => ?_⟩
  · obtain ⟨-, he⟩ := hkept y hy
    rw [he] at hy ⊢
    exact h.range y hy
  · obtain ⟨-, he⟩ := hkept y hy
    obtain ⟨-, he'⟩ := hkept z (hyz ▸ hy)
    rw [he] at hy
    exact h.inj y z (by rwa [he, he'] at hyz) hy
  · rw [hused c hc hc', h.used c hc hc']
    have hpos := h.pos
    constructor
    · rintro ⟨⟨y, hy⟩, hne⟩
      refine ⟨y, ?_⟩
      rw [update_of_ne, hy]
      rintro rfl
      exact hne (hy.symm.trans hx)
    · rintro ⟨y, hy⟩
      obtain ⟨hyx, he⟩ := hkept y (by omega)
      rw [he] at hy
      refine ⟨⟨y, hy⟩, fun hcb => hyx (h.inj y x (by rw [hy, hx, hcb]) (by omega))⟩

end Xv6.Lib
