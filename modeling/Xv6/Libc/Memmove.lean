import Mathlib.Data.BitVec
import Xv6.Mem.Kalloc

/-!
# `memmove` in the kernel and in the user library

`kernel/string.c` and `user/ulib.c` both copy byte by byte, upwards or downwards, but they choose the
direction by different tests. Each of the two loops is right where it never reads a byte that it has
written before (`copyUp_eq`, `copyDown_eq`): upwards that is if the source does not start below the
destination and reach into it, and downwards the other way round. Addresses are 64-bit numbers and
offsets from an address wrap around, so these facts need no bounds; the bounds come in where the
tests are compared with them.
-/

namespace Xv6.Libc

open Function

/-- The bytes of an address space. -/
abbrev Memory : Type := BitVec 64 → UInt8

/-- `while(n-- > 0) *d++ = *s++;` -/
def copyUp (m : Memory) (d s : BitVec 64) : Nat → Memory
  | 0 => m
  | n + 1 => copyUp (update m d (m s)) (d + 1) (s + 1) n

/-- `while(n-- > 0) *--d = *--s;` -/
def copyDown (m : Memory) (d s : BitVec 64) : Nat → Memory
  | 0 => m
  | n + 1 => copyDown (update m (d - 1) (m (s - 1))) (d - 1) (s - 1) n

namespace Kernel

/-- `memmove` of `kernel/string.c`; `n` is a `uint`. -/
def memmove (m : Memory) (dst src : BitVec 64) (n : BitVec 32) : Memory :=
  if n = 0 then m
  else if src < dst ∧ src + n.setWidth 64 > dst then
    copyDown m (dst + n.setWidth 64) (src + n.setWidth 64) n.toNat
  else copyUp m dst src n.toNat

end Kernel

namespace User

/-- `memmove` of `user/ulib.c`; `n` is an `int`. -/
def memmove (m : Memory) (dst src : BitVec 64) (n : BitVec 32) : Memory :=
  if src > dst then copyUp m dst src n.toInt.toNat
  else copyDown m (dst + n.signExtend 64) (src + n.signExtend 64) n.toInt.toNat

end User

/-! ## The loops -/

/-- The `n` bytes from `s` on have been moved to `d`. -/
def moved (m : Memory) (d s : BitVec 64) (n : Nat) : Memory :=
  fun a => if (a - d).toNat < n then m (s + (a - d)) else m a

section

variable {m : Memory} {d s dst src a o : BitVec 64} {n : Nat}

theorem toNat_pos (h : o ≠ 0) : 0 < o.toNat :=
  pos_of_ne_zero fun hc => h (BitVec.eq_of_toNat_eq hc)

theorem toNat_sub_one (h : o ≠ 0) : (o - 1).toNat = o.toNat - 1 := by
  have hpos := toNat_pos h
  have hlt := o.isLt
  rw [BitVec.toNat_sub, show (1 : BitVec 64).toNat = 1 from rfl]
  omega

theorem eq_ofNat (hn : n < 2 ^ 64) : o = BitVec.ofNat 64 n ↔ o.toNat = n := by
  constructor
  · rintro rfl
    rw [BitVec.toNat_ofNat, Nat.mod_eq_of_lt hn]
  · rintro rfl
    rw [BitVec.ofNat_toNat, BitVec.setWidth_eq]

theorem setWidth_eq_ofNat (n : BitVec 32) : n.setWidth 64 = BitVec.ofNat 64 n.toNat := by
  refine BitVec.eq_of_toNat_eq ?_
  rw [BitVec.toNat_setWidth, BitVec.toNat_ofNat]

theorem copyUp_eq (hn : n < 2 ^ 64) (h : d = s ∨ n ≤ (d - s).toNat) :
    copyUp m d s n = moved m d s n := by
  induction n generalizing m d s with
  | zero =>
    funext a
    simp [copyUp, moved]
  | succ n ih =>
    have hnext : d + 1 = s + 1 ∨ n ≤ (d + 1 - (s + 1)).toNat := by
      rw [show d + 1 - (s + 1) = d - s by ring]
      refine h.imp (fun hds => by rw [hds]) fun hle => Nat.le_of_succ_le hle
    rw [copyUp, ih (Nat.lt_of_succ_lt hn) hnext]
    funext a
    unfold moved
    rw [show a - (d + 1) = a - d - 1 by ring, show s + 1 + (a - d - 1) = s + (a - d) by ring]
    by_cases ha : a = d
    · -- the byte that is written in this round
      subst ha
      rw [BitVec.sub_self, if_neg (by simp; omega), if_pos (by simp), update_self,
        BitVec.add_zero]
    · have ho : a - d ≠ 0 := fun hc => ha (sub_eq_zero.mp hc)
      have hpos := toNat_pos ho
      rw [toNat_sub_one ho]
      by_cases hin : (a - d).toNat < n + 1
      · have hread : s + (a - d) ≠ d := by
          intro heq
          have hds : d - s = a - d := sub_eq_of_eq_add' heq.symm
          rcases h with h | h
          · exact ho (hds.symm.trans (sub_eq_zero.mpr h))
          · rw [hds] at h
            omega
        rw [if_pos (by omega), if_pos hin, update_of_ne hread]
      · rw [if_neg (by omega), if_neg hin, update_of_ne ha]

theorem copyDown_eq (hn : n < 2 ^ 64) (h : d = s ∨ n ≤ (s - d).toNat) :
    copyDown m (d + BitVec.ofNat 64 n) (s + BitVec.ofNat 64 n) n = moved m d s n := by
  induction n generalizing m with
  | zero =>
    funext a
    simp [copyDown, moved]
  | succ n ih =>
    have hpred : ∀ x : BitVec 64, x + BitVec.ofNat 64 (n + 1) - 1 = x + BitVec.ofNat 64 n := by
      intro x
      rw [BitVec.ofNat_add, show BitVec.ofNat 64 1 = 1 from rfl]
      ring
    have hlt : n < 2 ^ 64 := Nat.lt_of_succ_lt hn
    rw [copyDown, hpred, hpred, ih hlt (h.imp_right Nat.le_of_succ_le)]
    funext a
    unfold moved
    by_cases hlast : (a - d).toNat = n
    · -- the byte that is written in this round
      have ho := (eq_ofNat hlt).mpr hlast
      have ha : a = d + BitVec.ofNat 64 n := by rw [← ho]; ring
      rw [if_neg (by omega), if_pos (by omega), ho, ha, update_self]
    · have ha : a ≠ d + BitVec.ofNat 64 n := by
        rintro rfl
        refine hlast ?_
        rw [show d + BitVec.ofNat 64 n - d = BitVec.ofNat 64 n by ring]
        exact (eq_ofNat hlt).mp rfl
      by_cases hin : (a - d).toNat < n
      · have hread : s + (a - d) ≠ d + BitVec.ofNat 64 n := by
          intro heq
          have hsd : s - d = BitVec.ofNat 64 n - (a - d) := by
            rw [show s = s + (a - d) - (a - d) by ring, heq]
            ring
          have hnat : (BitVec.ofNat 64 n - (a - d)).toNat = n - (a - d).toNat := by
            rw [BitVec.toNat_sub, BitVec.toNat_ofNat, Nat.mod_eq_of_lt hlt]
            omega
          rcases h with h | h
          · rw [← hsd, h, BitVec.sub_self] at hnat
            simp only [BitVec.toNat_ofNat, Nat.zero_mod] at hnat
            rw [h] at hin
            omega
          · rw [hsd, hnat] at h
            omega
        rw [if_pos hin, if_pos (by omega), update_of_ne hread]
      · rw [if_neg hin, if_neg (by omega), update_of_ne ha]

/-! ## The two functions -/

theorem toNat_sub_of_lt (h : s < d) : (d - s).toNat = d.toNat - s.toNat ∧
    (s - d).toNat = 2 ^ 64 - (d.toNat - s.toNat) := by
  have hlt : s.toNat < d.toNat := h
  have hd := d.isLt
  rw [BitVec.toNat_sub, BitVec.toNat_sub]
  omega

theorem Kernel.memmove_eq {n : BitVec 32} (hsrc : src.toNat + n.toNat ≤ 2 ^ 64)
    (hdst : dst.toNat + n.toNat ≤ 2 ^ 64) :
    Kernel.memmove m dst src n = moved m dst src n.toNat := by
  have hn : n.toNat < 2 ^ 64 := n.isLt.trans (by decide)
  have hw := setWidth_eq_ofNat n
  unfold Kernel.memmove
  split
  · next h0 =>
    subst h0
    funext a
    simp [moved]
  rw [hw]
  split
  · next hback =>
    refine copyDown_eq hn (.inr ?_)
    have := (toNat_sub_of_lt hback.1).2
    have hlt : src.toNat < dst.toNat := hback.1
    omega
  · next hback =>
    refine copyUp_eq hn ?_
    rcases lt_trichotomy src.toNat dst.toNat with hlt | heq | hgt
    · refine .inr ?_
      have hsum : (src + BitVec.ofNat 64 n.toNat).toNat = src.toNat + n.toNat := by
        rw [BitVec.toNat_add, BitVec.toNat_ofNat, Nat.mod_eq_of_lt hn]
        omega
      have hnot : ¬ dst.toNat < src.toNat + n.toNat := fun hc => hback ⟨hlt, by
        show dst.toNat < (src + BitVec.ofNat 64 n.toNat).toNat
        rwa [hsum]⟩
      have := (toNat_sub_of_lt hlt).1
      omega
    · exact .inl (BitVec.eq_of_toNat_eq heq.symm)
    · refine .inr ?_
      have := (toNat_sub_of_lt hgt).2
      omega

theorem User.memmove_eq {n : BitVec 32} (hn0 : 0 ≤ n.toInt) (hsrc : src.toNat + n.toNat ≤ 2 ^ 64)
    (hdst : dst.toNat + n.toNat ≤ 2 ^ 64) :
    User.memmove m dst src n = moved m dst src n.toNat := by
  have hn : n.toNat < 2 ^ 64 := n.isLt.trans (by decide)
  have hmsb : n.msb = false := by
    rw [BitVec.msb_eq_toInt]
    simpa using hn0
  have hint : n.toInt.toNat = n.toNat := by
    rw [BitVec.toInt_eq_toNat_of_msb hmsb]
    rfl
  have hw : n.signExtend 64 = BitVec.ofNat 64 n.toNat := by
    rw [BitVec.signExtend_eq_setWidth_of_msb_false hmsb, setWidth_eq_ofNat]
  unfold User.memmove
  rw [hint, hw]
  split
  · next hup =>
    refine copyUp_eq hn (.inr ?_)
    have := (toNat_sub_of_lt hup).2
    have hlt : dst.toNat < src.toNat := hup
    omega
  · next hup =>
    refine copyDown_eq hn ?_
    rcases lt_or_ge src.toNat dst.toNat with hlt | hge
    · refine .inr ?_
      have := (toNat_sub_of_lt hlt).2
      omega
    · have hle : ¬ dst.toNat < src.toNat := hup
      exact .inl (BitVec.eq_of_toNat_eq (by omega))

/-- Regions that do not wrap around: an address is in the destination or not. -/
theorem moved_spec (hdst : dst.toNat + n ≤ 2 ^ 64) :
    (∀ i < n, moved m dst src n (dst + BitVec.ofNat 64 i) = m (src + BitVec.ofNat 64 i)) ∧
      ∀ a, a.toNat < dst.toNat ∨ dst.toNat + n ≤ a.toNat → moved m dst src n a = m a := by
  refine ⟨fun i hi => ?_, fun a ha => ?_⟩
  · have hoff : dst + BitVec.ofNat 64 i - dst = BitVec.ofNat 64 i := by ring
    unfold moved
    rw [hoff, if_pos]
    rw [BitVec.toNat_ofNat]
    exact (Nat.mod_le _ _).trans_lt hi
  · refine if_neg ?_
    have hd := dst.isLt
    have hlt := a.isLt
    rw [BitVec.toNat_sub]
    omega

/-- After `memmove` the destination holds what the source held, and nothing else has changed, however
    the two overlap. So the kernel's function and the library's agree. -/
theorem memmove_correct (m : Memory) (dst src : BitVec 64) (n : BitVec 32)
    (hsrc : src.toNat + n.toNat ≤ 2 ^ 64) (hdst : dst.toNat + n.toNat ≤ 2 ^ 64) :
    ((∀ i < n.toNat,
        Kernel.memmove m dst src n (dst + BitVec.ofNat 64 i) = m (src + BitVec.ofNat 64 i)) ∧
      ∀ a, a.toNat < dst.toNat ∨ dst.toNat + n.toNat ≤ a.toNat →
        Kernel.memmove m dst src n a = m a) ∧
    (0 ≤ n.toInt →
      ((∀ i < n.toNat,
          User.memmove m dst src n (dst + BitVec.ofNat 64 i) = m (src + BitVec.ofNat 64 i)) ∧
        ∀ a, a.toNat < dst.toNat ∨ dst.toNat + n.toNat ≤ a.toNat →
          User.memmove m dst src n a = m a) ∧
      User.memmove m dst src n = Kernel.memmove m dst src n) := by
  have hk := Kernel.memmove_eq (m := m) hsrc hdst
  rw [hk]
  refine ⟨moved_spec hdst, fun hn0 => ?_⟩
  rw [User.memmove_eq hn0 hsrc hdst]
  exact ⟨moved_spec hdst, rfl⟩

/-- The destination starts in the middle of the source. -/
theorem memmove_correct_overlap : Kernel.memmove (fun a => UInt8.ofNat a.toNat) 102 100 4 103 = 101 := by
  have h := (memmove_correct (fun a => UInt8.ofNat a.toNat) 102 100 4 (by decide) (by decide)).1.1 1
    (by decide)
  exact h

/-- What `Mem.copy` says of a copy in physical memory is what the kernel's `memmove` does. -/
theorem memmove_copy {m : Lib.Bytes} {dst src : Nat} {n : BitVec 32}
    (hsrc : src + n.toNat ≤ 2 ^ 64) (hdst : dst + n.toNat ≤ 2 ^ 64) (a : BitVec 64) :
    Kernel.memmove (fun a => m a.toNat) (BitVec.ofNat 64 dst) (BitVec.ofNat 64 src) n a =
      Mem.copy m dst src n.toNat a.toNat := by
  have ha := a.isLt
  rw [Kernel.memmove_eq]
  · unfold moved Mem.copy
    rcases Nat.eq_zero_or_pos n.toNat with h0 | hpos
    · rw [h0, if_neg (Nat.not_lt_zero _), if_neg (by omega)]
    · have hd : (BitVec.ofNat 64 dst).toNat = dst := by
        rw [BitVec.toNat_ofNat]
        omega
      have hs : (BitVec.ofNat 64 src).toNat = src := by
        rw [BitVec.toNat_ofNat]
        omega
      by_cases hin : dst ≤ a.toNat ∧ a.toNat < dst + n.toNat
      · have hoff : (a - BitVec.ofNat 64 dst).toNat = a.toNat - dst := by
          rw [BitVec.toNat_sub, hd]
          omega
        rw [if_pos (by omega), if_pos hin]
        refine congrArg m ?_
        rw [BitVec.toNat_add, hs, hoff]
        omega
      · rw [if_neg hin, if_neg]
        rw [BitVec.toNat_sub, hd]
        omega
  · rw [BitVec.toNat_ofNat]
    omega
  · rw [BitVec.toNat_ofNat]
    omega

end

end Xv6.Libc
