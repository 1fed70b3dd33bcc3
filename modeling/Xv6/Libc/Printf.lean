import Mathlib.Data.Nat.Digits.Defs
import Mathlib.Tactic

/-!
# `printf` in the kernel and in the user library

Both `printf`s write a number digit by digit into a buffer of 16 bytes, last digit first, and emit
the buffer backwards. One lemma about the digit loop (`digitLoop_eq`) says that what it leaves in the
buffer is the numeral; the rest is what sign and base each caller passes. The kernel passes
`sign = 1` for `%x` too, so a value with the top bit set comes out as a negative number there
(`Kernel.printf_x`), where the library's `%x` is unsigned.

A string is the list of its characters before the NUL. `none` is a read outside a table or a store
outside the buffer.
-/

namespace Xv6.Libc

/-- The slots that `va_arg` takes the arguments from, one after the other. -/
abbrev VaList : Type := Nat → BitVec 64

/-- `ap` after one `va_arg`. -/
def VaList.next (ap : VaList) : VaList := fun i => ap (i + 1)

/-- The strings in memory, by their address. -/
abbrev Strings : Type := BitVec 64 → List Char

/-- `do { buf[i++] = digits[x % base]; } while((x /= base) != 0);` with room for `room` more
    characters. The buffer is kept last character first. -/
def digitLoop (digits : List Char) (base : Nat) : Nat → Nat → List Char → Option (List Char)
  | 0, _, _ => none
  | room + 1, x, buf => do
    let c ← digits[x % base]?
    if x / base = 0 then some (c :: buf) else digitLoop digits base room (x / base) (c :: buf)

/-- `buf[i++] = c;` -/
def store (buf : List Char) (c : Char) : Option (List Char) :=
  if buf.length < 16 then some (c :: buf) else none

/-- The body of both `printint`s. Each clears its sign flag unless `xx` is negative, the kernel's in
    the parameter and the library's in `neg`. -/
def printintWith (digits : List Char) (xx : BitVec 32) (base : Nat) (sign : Bool) :
    Option (List Char) := do
  let neg := sign && xx.slt 0
  let x := if neg then -xx else xx
  let buf ← digitLoop digits base 16 x.toNat []
  if neg then store buf '-' else some buf

/-- The loop of both `printptr`s: the top four bits of `x`, then `x <<= 4`. -/
def ptrLoop (digits : List Char) : Nat → BitVec 64 → Option (List Char)
  | 0, _ => some []
  | n + 1, x => do
    let c ← digits[(x >>> 60).toNat]?
    let rest ← ptrLoop digits n (x <<< 4)
    some (c :: rest)

/-- `0x` and 16 digits. -/
def printptr (digits : List Char) (x : BitVec 64) : Option (List Char) := do
  let ds ← ptrLoop digits 16 x
  some ('0' :: 'x' :: ds)

/-- `if(s == 0) s = "(null)";` and the characters of `s`. -/
def printstr (mem : Strings) (s : BitVec 64) : List Char :=
  if s = 0 then "(null)".toList else mem s

namespace Kernel

def digits : List Char := "0123456789abcdef".toList

/-- `printint(xx, base, sign)`. -/
def printint (xx : BitVec 32) (base : Nat) (sign : Bool) : Option (List Char) :=
  printintWith digits xx base sign

/-- The `switch(c)` of `printf`: what is emitted, and the arguments that are left. -/
def convert (mem : Strings) (c : Char) (ap : VaList) : Option (List Char × VaList) :=
  if c = 'd' then (printint ((ap 0).setWidth 32) 10 true).map (·, ap.next)
  else if c = 'x' then (printint ((ap 0).setWidth 32) 16 true).map (·, ap.next)
  else if c = 'p' then (printptr digits (ap 0)).map (·, ap.next)
  else if c = 's' then some (printstr mem (ap 0), ap.next)
  else if c = '%' then some (['%'], ap)
  else some (['%', c], ap)

/-- The loop of `printf` over the format: all that is emitted. -/
def printf (mem : Strings) : List Char → VaList → Option (List Char)
  | [], _ => some []
  | c :: fmt, ap =>
    if c ≠ '%' then (printf mem fmt ap).map (c :: ·)
    else
      match fmt with
      | [] => some []
      | c :: fmt => do
        let (out, ap) ← convert mem c ap
        (printf mem fmt ap).map (out ++ ·)

end Kernel

namespace User

def digits : List Char := "0123456789ABCDEF".toList

/-- `printint(fd, xx, base, sgn)`. -/
def printint (xx : BitVec 32) (base : Nat) (sgn : Bool) : Option (List Char) :=
  printintWith digits xx base sgn

/-- The tests of `vprintf` in state `'%'`. -/
def convert (mem : Strings) (c : Char) (ap : VaList) : Option (List Char × VaList) :=
  if c = 'd' then (printint ((ap 0).setWidth 32) 10 true).map (·, ap.next)
  else if c = 'l' then (printint ((ap 0).setWidth 32) 10 false).map (·, ap.next)
  else if c = 'x' then (printint ((ap 0).setWidth 32) 16 false).map (·, ap.next)
  else if c = 'p' then (printptr digits (ap 0)).map (·, ap.next)
  else if c = 's' then some (printstr mem (ap 0), ap.next)
  else if c = 'c' then some ([Char.ofNat ((ap 0).toNat % 256)], ap.next)
  else if c = '%' then some (['%'], ap)
  else some (['%', c], ap)

/-- The loop of `vprintf`; `state` is true after a `'%'`. -/
def vprintf (mem : Strings) (state : Bool) : List Char → VaList → Option (List Char)
  | [], _ => some []
  | c :: fmt, ap =>
    if state then do
      let (out, ap) ← convert mem c ap
      (vprintf mem false fmt ap).map (out ++ ·)
    else if c = '%' then vprintf mem true fmt ap
    else (vprintf mem false fmt ap).map (c :: ·)

/-- `printf` and `fprintf`. -/
def printf (mem : Strings) (fmt : List Char) (ap : VaList) : Option (List Char) :=
  vprintf mem false fmt ap

end User

/-! ## Numbers -/

/-- The table has the digits of `base`, up to the case of the letters. -/
def Digits (digits : List Char) (base : Nat) (f : Char → Char) : Prop :=
  ∀ d < base, digits[d]? = some (f d.digitChar)

theorem Kernel.digits_ok : Digits Kernel.digits 16 id := by
  unfold Digits
  decide

theorem User.digits_ok : Digits User.digits 16 Char.toUpper := by
  unfold Digits
  decide

section

variable {ds : List Char} {f : Char → Char} {base room x : Nat} {buf : List Char}

theorem Digits.mono {base' : Nat} (h : Digits ds base f) (hle : base' ≤ base) : Digits ds base' f :=
  fun d hd => h d (hd.trans_le hle)

/-- The loop leaves the numeral of `x` in the buffer, if there is room for it. -/
theorem digitLoop_eq (h : Digits ds base f) (hbase : 1 < base) (hroom : 0 < room)
    (hx : x < base ^ room) :
    digitLoop ds base room x buf = some ((Nat.toDigits base x).map f ++ buf) := by
  induction room generalizing x buf with
  | zero => exact absurd hroom (lt_irrefl 0)
  | succ room ih =>
    have hc := h (x % base) (Nat.mod_lt x (Nat.zero_lt_of_lt hbase))
    unfold digitLoop
    rw [hc]
    simp only [Option.bind_eq_bind, Option.bind_some]
    rcases lt_or_ge x base with hlt | hge
    · rw [if_pos (Nat.div_eq_of_lt hlt), Nat.toDigits_of_lt_base hlt, Nat.mod_eq_of_lt hlt]
      simp
    · have hne : x / base ≠ 0 := (Nat.div_pos hge (Nat.zero_lt_of_lt hbase)).ne'
      have hsmall : x / base < base ^ room := by
        rw [Nat.div_lt_iff_lt_mul (Nat.zero_lt_of_lt hbase), ← Nat.pow_succ]
        exact hx
      have hpos : 0 < room := by
        rcases Nat.eq_zero_or_pos room with h0 | hpos
        · rw [h0, Nat.pow_zero, Nat.lt_one_iff] at hsmall
          exact absurd hsmall hne
        · exact hpos
      rw [if_neg hne, ih hpos hsmall, Nat.toDigits_of_base_le hbase hge]
      simp

/-- Ten digits are enough in base ten and above. -/
theorem digitLoop_word (h : Digits ds base f) (hbase : 10 ≤ base) (v : BitVec 32) :
    digitLoop ds base 16 v.toNat [] = some ((Nat.toDigits base v.toNat).map f) ∧
      ((Nat.toDigits base v.toNat).map f).length ≤ 10 := by
  have hten : v.toNat < base ^ 10 :=
    calc v.toNat < 10 ^ 10 := v.isLt.trans (by decide)
      _ ≤ base ^ 10 := Nat.pow_le_pow_left hbase 10
  refine ⟨?_, ?_⟩
  · rw [digitLoop_eq h (by omega) (by decide) (hten.trans_le (Nat.pow_le_pow_right (by omega)
      (by decide))), List.append_nil]
  · rw [List.length_map]
    exact (Nat.length_toDigits_le_iff (by omega) (by decide)).mpr hten

/-- What both `printint`s emit: the magnitude, with a sign in front if one is asked for and needed. -/
def numeral (f : Char → Char) (v : BitVec 32) (base : Nat) (sign : Bool) : List Char :=
  if sign ∧ v.toInt < 0 then '-' :: (Nat.toDigits base v.toInt.natAbs).map f
  else (Nat.toDigits base v.toNat).map f

theorem toNat_neg_of_neg {v : BitVec 32} (h : v.toInt < 0) : (-v).toNat = v.toInt.natAbs := by
  have hlt := v.isLt
  rw [BitVec.toInt_eq_toNat_cond] at h ⊢
  rw [BitVec.toNat_neg]
  split at h
  · omega
  · next hbig =>
    rw [if_neg hbig]
    omega

theorem slt_zero (v : BitVec 32) : v.slt 0 = decide (v.toInt < 0) := rfl

theorem printintWith_eq (h : Digits ds base f) (hbase : 10 ≤ base) (v : BitVec 32) (sign : Bool) :
    printintWith ds v base sign = some (numeral f v base sign) := by
  unfold printintWith numeral
  rw [slt_zero]
  by_cases hneg : sign ∧ v.toInt < 0
  · obtain ⟨hloop, hlen⟩ := digitLoop_word h hbase (-v)
    rw [toNat_neg_of_neg hneg.2] at hloop hlen
    simp only [hneg.1, hneg.2, decide_true, Bool.and_self, if_true, and_self]
    rw [toNat_neg_of_neg hneg.2, hloop]
    simp only [Option.bind_eq_bind, Option.bind_some]
    rw [store, if_pos (by omega)]
  · have hfalse : (sign && decide (v.toInt < 0)) = false := by
      simpa using hneg
    rw [hfalse, if_neg hneg]
    simp [(digitLoop_word h hbase v).1]

theorem exists_of_mem_toDigits {n : Nat} {c : Char} (hbase : 1 < base)
    (h : c ∈ Nat.toDigits base n) : ∃ d < base, c = d.digitChar := by
  induction n using Nat.strongRecOn with
  | ind n ih =>
    rw [Nat.toDigits_eq_if hbase] at h
    split at h
    · next hlt => exact ⟨n, hlt, List.mem_singleton.mp h⟩
    · next hge =>
      rcases List.mem_append.mp h with h | h
      · exact ih (n / base) (Nat.div_lt_self (by omega) hbase) h
      · exact ⟨n % base, Nat.mod_lt n (by omega), List.mem_singleton.mp h⟩

/-- In base ten the letters play no part. -/
theorem numeral_ten (hf : ∀ d < 10, f d.digitChar = d.digitChar) (v : BitVec 32) :
    numeral f v 10 true = (toString v.toInt).toList := by
  have hmap : ∀ n, (Nat.toDigits 10 n).map f = Nat.toDigits 10 n := by
    intro n
    refine (List.map_congr_left fun c hc => ?_).trans (List.map_id _)
    obtain ⟨d, hd, rfl⟩ := exists_of_mem_toDigits (by decide) hc
    exact hf d hd
  have hstr : toString v.toInt = v.toInt.repr := rfl
  unfold numeral
  rw [hmap, hmap, hstr, Int.repr_eq_if]
  by_cases hneg : v.toInt < 0
  · rw [if_pos ⟨rfl, hneg⟩, if_neg (by omega), Nat.repr_eq_ofList_toDigits, String.toList_append,
      show (-v.toInt).toNat = v.toInt.natAbs by omega]
    simp
  · have hnat : v.toInt.toNat = v.toNat := by
      have hlt := v.isLt
      rw [BitVec.toInt_eq_toNat_cond] at hneg ⊢
      split <;> omega
    rw [if_neg (fun hc => hneg hc.2), if_pos (by omega), Nat.repr_eq_ofList_toDigits,
      String.toList_ofList, hnat]

/-! ## The conversions -/

/-- The `%c` conversion of an argument whose low 32 bits are `v` emits `out`, wherever it stands in the
    format and whatever the other arguments are. -/
def Emits (printf : Strings → List Char → VaList → Option (List Char)) (c : Char) (v : BitVec 32)
    (out : List Char) : Prop :=
  ∀ mem fmt ap, (ap 0).setWidth 32 = v →
    printf mem ('%' :: c :: fmt) ap = (printf mem fmt (VaList.next ap)).map (out ++ ·)

variable {v : BitVec 32}

theorem Kernel.printf_d (v : BitVec 32) : Emits Kernel.printf 'd' v (numeral id v 10 true) := by
  intro mem fmt ap hv
  have hd := printintWith_eq (Kernel.digits_ok.mono (show 10 ≤ 16 by decide)) le_rfl v true
  rw [Kernel.printf]
  simp [Kernel.convert, Kernel.printint, hv, hd]

theorem Kernel.printf_x (v : BitVec 32) : Emits Kernel.printf 'x' v (numeral id v 16 true) := by
  intro mem fmt ap hv
  have hd := printintWith_eq Kernel.digits_ok (by decide) v true
  rw [Kernel.printf]
  simp [Kernel.convert, Kernel.printint, hv, hd]

theorem User.printf_d (v : BitVec 32) :
    Emits User.printf 'd' v (numeral Char.toUpper v 10 true) := by
  intro mem fmt ap hv
  have hd := printintWith_eq (User.digits_ok.mono (show 10 ≤ 16 by decide)) le_rfl v true
  unfold User.printf
  rw [User.vprintf, User.vprintf]
  simp [User.convert, User.printint, hv, hd]

theorem User.printf_x (v : BitVec 32) :
    Emits User.printf 'x' v (numeral Char.toUpper v 16 false) := by
  intro mem fmt ap hv
  have hd := printintWith_eq User.digits_ok (by decide) v false
  unfold User.printf
  rw [User.vprintf, User.vprintf]
  simp [User.convert, User.printint, hv, hd]

/-! ## No conversion overruns its buffer -/

theorem ptrLoop_isSome (h : Digits ds 16 f) (n : Nat) (x : BitVec 64) :
    (ptrLoop ds n x).isSome := by
  induction n generalizing x with
  | zero => rfl
  | succ n ih =>
    have hlt : (x >>> 60).toNat < 16 := by
      have := x.isLt
      rw [BitVec.toNat_ushiftRight, Nat.shiftRight_eq_div_pow]
      omega
    obtain ⟨rest, hrest⟩ := Option.isSome_iff_exists.mp (ih (x <<< 4))
    rw [ptrLoop, h _ hlt]
    simp [hrest]

theorem Kernel.convert_isSome (mem : Strings) (c : Char) (ap : VaList) :
    (Kernel.convert mem c ap).isSome := by
  have hint : ∀ v base, 10 ≤ base → base ≤ 16 → ∀ b, (Kernel.printint v base b).isSome := by
    intro v base hlo hhi b
    rw [Kernel.printint, printintWith_eq (Kernel.digits_ok.mono hhi) hlo]
    rfl
  unfold Kernel.convert
  split_ifs <;> simp [hint, printptr, ptrLoop_isSome Kernel.digits_ok, Option.isSome_bind]

theorem User.convert_isSome (mem : Strings) (c : Char) (ap : VaList) :
    (User.convert mem c ap).isSome := by
  have hint : ∀ v base, 10 ≤ base → base ≤ 16 → ∀ b, (User.printint v base b).isSome := by
    intro v base hlo hhi b
    rw [User.printint, printintWith_eq (User.digits_ok.mono hhi) hlo]
    rfl
  unfold User.convert
  split_ifs <;> simp [hint, printptr, ptrLoop_isSome User.digits_ok, Option.isSome_bind]

theorem Kernel.printf_isSome (mem : Strings) (fmt : List Char) (ap : VaList) :
    (Kernel.printf mem fmt ap).isSome := by
  fun_induction Kernel.printf mem fmt ap with
  | case1 ap => rfl
  | case2 ap c fmt hc ih => simpa using ih
  | case3 ap c hc => rfl
  | case4 c ap hc d fmt ih =>
    obtain ⟨r, hr⟩ := Option.isSome_iff_exists.mp (Kernel.convert_isSome mem d ap)
    simpa [hr] using ih r.2

theorem User.vprintf_isSome (mem : Strings) (state : Bool) (fmt : List Char) (ap : VaList) :
    (User.vprintf mem state fmt ap).isSome := by
  induction fmt generalizing state ap with
  | nil => rfl
  | cons c fmt ih =>
    obtain ⟨r, hr⟩ := Option.isSome_iff_exists.mp (User.convert_isSome mem c ap)
    unfold User.vprintf
    split_ifs <;> simp [hr, ih]

/-! ## The two `printf`s -/

/-- `%d` is the signed decimal numeral and `%x` the unsigned hexadecimal one, with the library's letters
    in upper case, and no conversion runs over its buffer. -/
structure Formats (v : BitVec 32) : Prop where
  kernel_d : Emits Kernel.printf 'd' v (toString v.toInt).toList
  user_d : Emits User.printf 'd' v (toString v.toInt).toList
  kernel_x : Emits Kernel.printf 'x' v (Nat.toDigits 16 v.toNat)
  user_x : Emits User.printf 'x' v ((Nat.toDigits 16 v.toNat).map Char.toUpper)
  fits : ∀ mem fmt ap, (Kernel.printf mem fmt ap).isSome ∧ (User.printf mem fmt ap).isSome

/-- What a conversion emits is determined. -/
theorem Emits.unique {c : Char} {out out' : List Char}
    (h : Emits Kernel.printf c v out) (h' : Emits Kernel.printf c v out') : out = out' := by
  let ap : VaList := fun _ => v.setWidth 64
  have hv : (ap 0).setWidth 32 = v := BitVec.setWidth_setWidth_of_le v (by decide)
  have heq := (h (fun _ => []) [] ap hv).symm.trans (h' (fun _ => []) [] ap hv)
  simpa [Kernel.printf] using heq

/-- The kernel's `%x` is signed: a value with the top bit set is printed as its magnitude with a minus
    sign in front. -/
theorem formats_iff (v : BitVec 32) : Formats v ↔ v.toNat < 2 ^ 31 := by
  have hsign : v.toInt < 0 ↔ 2 ^ 31 ≤ v.toNat := by
    have hlt := v.isLt
    rw [BitVec.toInt_eq_toNat_cond]
    split <;> omega
  constructor
  · intro h
    by_contra hbig
    have hneg : v.toInt < 0 := hsign.mpr (by omega)
    have heq := (Kernel.printf_x v).unique h.kernel_x
    rw [numeral, if_pos ⟨rfl, hneg⟩] at heq
    -- a numeral has no minus sign
    have hmem : '-' ∈ Nat.toDigits 16 v.toNat := heq ▸ List.mem_cons_self
    obtain ⟨d, hd, hminus⟩ := exists_of_mem_toDigits (by decide) hmem
    exact (show ∀ d < 16, '-' ≠ d.digitChar by decide) d hd hminus
  · intro hlt
    have hpos : ¬ v.toInt < 0 := fun hc => absurd (hsign.mp hc) (by omega)
    have hd := Kernel.printf_d v
    have hx := Kernel.printf_x v
    have hud := User.printf_d v
    have hux := User.printf_x v
    rw [numeral_ten (by decide)] at hd hud
    rw [numeral, if_neg (fun hc => hpos hc.2), List.map_id] at hx
    rw [numeral, if_neg (fun hc => Bool.false_ne_true hc.1)] at hux
    exact ⟨hd, hud, hx, hux, fun mem fmt ap =>
      ⟨Kernel.printf_isSome mem fmt ap, User.vprintf_isSome mem false fmt ap⟩⟩

/-- `printf("%x", 0xffffffff)` in the kernel and in a program. -/
theorem kernel_x_signed :
    Kernel.printf (fun _ => []) "%x".toList (fun _ => 0xffffffff) = some "-1".toList ∧
      User.printf (fun _ => []) "%x".toList (fun _ => 0xffffffff) = some "FFFFFFFF".toList := by
  decide +kernel

end

end Xv6.Libc
