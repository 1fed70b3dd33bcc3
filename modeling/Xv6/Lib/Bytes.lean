import Mathlib.Tactic

/-!
# Little-endian integers in a byte store

A byte store is a function from addresses to bytes. `leGet k m a` is the `k`-byte
little-endian number at address `a`, and `lePut k m a v` stores one. The three facts every
client needs are here once, for every width: what was stored is read back
(`leGet_lePut_self`), a store leaves every disjoint field alone (`leGet_lePut_of_disjoint`),
and a field depends only on its own bytes (`leGet_congr`). `blit` copies a run of bytes.
-/

namespace Xv6.Lib

/-- A byte store. -/
abbrev Bytes := Nat → UInt8

/-- The `k`-byte little-endian number at `a`. -/
def leGet : Nat → Bytes → Nat → Nat
  | 0, _, _ => 0
  | k + 1, m, a => (m a).toNat + 256 * leGet k m (a + 1)

/-- Store the low `k` bytes of `v` at `a`, least significant first. -/
def lePut (k : Nat) (m : Bytes) (a v : Nat) : Bytes :=
  fun i => if a ≤ i ∧ i < a + k then UInt8.ofNat (v / 256 ^ (i - a)) else m i

theorem leGet_congr {k a : Nat} {m m' : Bytes} (h : ∀ i, a ≤ i → i < a + k → m i = m' i) :
    leGet k m a = leGet k m' a := by
  induction k generalizing a with
  | zero => rfl
  | succ k ih =>
    simp only [leGet]
    rw [h a (Nat.le_refl a) (by omega), ih fun i hi hk => h i (by omega) (by omega)]

theorem leGet_lt (k : Nat) (m : Bytes) (a : Nat) : leGet k m a < 256 ^ k := by
  induction k generalizing a with
  | zero => simp [leGet]
  | succ k ih =>
    have hb : (m a).toNat < 256 := (m a).toNat_lt
    have := ih (a + 1)
    simp only [leGet, pow_succ]
    omega

/-- An all-zero field reads as zero. -/
theorem leGet_eq_zero {k a : Nat} {m : Bytes} (h : ∀ i, a ≤ i → i < a + k → m i = 0) :
    leGet k m a = 0 := by
  induction k generalizing a with
  | zero => rfl
  | succ k ih =>
    simp only [leGet]
    rw [h a (Nat.le_refl a) (by omega), ih fun i hi hk => h i (by omega) (by omega)]
    rfl

theorem lePut_apply_of_lt {k a v i : Nat} {m : Bytes} (h : i < a) : lePut k m a v i = m i :=
  if_neg fun hc => absurd hc.1 (by omega)

theorem lePut_apply_of_ge {k a v i : Nat} {m : Bytes} (h : a + k ≤ i) : lePut k m a v i = m i :=
  if_neg fun hc => absurd hc.2 (by omega)

theorem leGet_lePut_of_disjoint {k k' a a' v : Nat} {m : Bytes} (h : a + k ≤ a' ∨ a' + k' ≤ a) :
    leGet k' (lePut k m a v) a' = leGet k' m a' := by
  refine leGet_congr fun i hi hk => ?_
  rcases h with h | h
  · exact lePut_apply_of_ge (by omega)
  · exact lePut_apply_of_lt (by omega)

/-- Reading back a store, peeled one byte at a time: the induction carries the shifted value. -/
theorem leGet_eq_mod {k a v : Nat} {m : Bytes}
    (h : ∀ i < k, m (a + i) = UInt8.ofNat (v / 256 ^ i)) : leGet k m a = v % 256 ^ k := by
  induction k generalizing a v with
  | zero => simp [leGet, Nat.mod_one]
  | succ k ih =>
    have h0 : m a = UInt8.ofNat v := by simpa using h 0 (Nat.succ_pos k)
    have htail : leGet k m (a + 1) = v / 256 % 256 ^ k := by
      refine ih fun i hi => ?_
      have := h (i + 1) (by omega)
      rw [show a + (i + 1) = a + 1 + i by omega] at this
      rw [this, Nat.div_div_eq_div_mul, pow_succ, mul_comm]
    have hbyte : (UInt8.ofNat v).toNat = v % 256 := by simp
    simp only [leGet]
    rw [h0, htail, hbyte, pow_succ, mul_comm (256 ^ k) 256, Nat.mod_mul]

theorem leGet_lePut_self {k a v : Nat} {m : Bytes} :
    leGet k (lePut k m a v) a = v % 256 ^ k := by
  refine leGet_eq_mod fun i hi => ?_
  rw [lePut, if_pos ⟨by omega, by omega⟩, Nat.add_sub_cancel_left]

/-! ## Runs of bytes -/

/-- Byte `i` of the number `v`. -/
def leByte (v i : Nat) : UInt8 := UInt8.ofNat (v / 256 ^ i)

/-- Copy the first `n` bytes of `src` to `off`. -/
def blit (m : Bytes) (off : Nat) (src : Bytes) (n : Nat) : Bytes :=
  fun i => if off ≤ i ∧ i < off + n then src (i - off) else m i

variable {m src : Bytes} {off n i k a v : Nat}

theorem blit_inside (h : i < n) : blit m off src n (off + i) = src i := by
  rw [blit, if_pos ⟨by omega, by omega⟩, Nat.add_sub_cancel_left]

theorem blit_outside (h : i < off ∨ off + n ≤ i) : blit m off src n i = m i :=
  if_neg fun hc => by omega

/-- A number whose bytes are all there. -/
theorem leGet_leByte (h : ∀ i < k, m (a + i) = leByte v i) (hv : v < 256 ^ k) :
    leGet k m a = v :=
  (leGet_eq_mod h).trans (Nat.mod_eq_of_lt hv)

end Xv6.Lib
