import Mathlib.Tactic

/-!
# Sv39 page tables: constants and macros

The macros of `kernel/riscv.h` and `kernel/memlayout.h` on 64-bit numbers, and what they mean in
terms of division: a virtual address belongs to the virtual page `va / PGSIZE`, `PX` extracts the
base-512 digits of the page number, and a page-table entry is a physical page number over ten
flag bits.
-/

namespace Xv6.Mem

abbrev PGSIZE : Nat := 4096
abbrev PGSHIFT : Nat := 12

abbrev PTE_V : Nat := 1
abbrev PTE_R : Nat := 2
abbrev PTE_W : Nat := 4
abbrev PTE_X : Nat := 8
abbrev PTE_U : Nat := 16

/-- one beyond the highest possible virtual address -/
abbrev MAXVA : Nat := 2 ^ 38

/-- the number of virtual pages -/
abbrev NPAGES : Nat := 2 ^ 26

abbrev UART0 : Nat := 0x10000000
abbrev VIRTIO0 : Nat := 0x10001000
abbrev PLIC : Nat := 0x0c000000
abbrev KERNBASE : Nat := 0x80000000
abbrev PHYSTOP : Nat := KERNBASE + 128 * 1024 * 1024

abbrev TRAMPOLINE : Nat := MAXVA - PGSIZE
abbrev TRAPFRAME : Nat := TRAMPOLINE - PGSIZE

def kstack (p : Nat) : Nat := TRAMPOLINE - (p + 1) * 2 * PGSIZE

/-- `((sz)+PGSIZE-1) & ~(PGSIZE-1)` -/
def pgroundup (sz : Nat) : Nat := (sz + PGSIZE - 1) % 2 ^ 64 / PGSIZE * PGSIZE

/-- `(a) & ~(PGSIZE-1)` -/
def pgrounddown (a : Nat) : Nat := a / PGSIZE * PGSIZE

/-- A 64-bit number that is assigned to an `int` and widened again. -/
def asInt (x : Nat) : Nat :=
  if x % 2 ^ 32 < 2 ^ 31 then x % 2 ^ 32 else x % 2 ^ 32 + (2 ^ 64 - 2 ^ 32)

/-- shift a physical address to the right place for a PTE -/
def pa2pte (pa : Nat) : Nat := (pa >>> 12) <<< 10

def pte2pa (pte : Nat) : Nat := (pte >>> 10) <<< 12 % 2 ^ 64

def pteFlags (pte : Nat) : Nat := pte &&& 0x3FF

def pxshift (level : Nat) : Nat := PGSHIFT + 9 * level

/-- extract a 9-bit page table index from a virtual address -/
def px (level va : Nat) : Nat := (va >>> pxshift level) &&& 0x1FF

/-- The index of virtual page `v` in its page table of a level. -/
def idx (level v : Nat) : Nat := v / 512 ^ level % 512

/-- `*pte & PTE_V` -/
def Valid (pte : Nat) : Prop := pte &&& PTE_V ≠ 0

instance (pte : Nat) : Decidable (Valid pte) := by unfold Valid; infer_instance

/-! ## Addresses -/

theorem px_eq (level va : Nat) : px level va = idx level (va / PGSIZE) := by
  have hmask : (0x1FF : Nat) = 2 ^ 9 - 1 := rfl
  rw [px, hmask, Nat.and_two_pow_sub_one_eq_mod, Nat.shiftRight_eq_div_pow, idx,
    Nat.div_div_eq_div_mul]
  congr 2
  rw [pxshift, pow_add, pow_mul]
  rfl

theorem idx_lt (level v : Nat) : idx level v < 512 := Nat.mod_lt _ (by decide)

/-- A virtual page is determined by its three indices. -/
theorem idx_inj {v w : Nat} (hv : v < NPAGES) (hw : w < NPAGES)
    (h : ∀ l ≤ 2, idx l v = idx l w) : v = w := by
  have h0 := h 0 (by decide)
  have h1 := h 1 (by decide)
  have h2 := h 2 (by decide)
  simp only [idx, pow_zero, Nat.div_one, pow_one] at h0 h1 h2
  norm_num at h2
  simp only [NPAGES] at hv hw
  omega

theorem pgroundup_eq {sz : Nat} (h : sz ≤ 2 ^ 64 - PGSIZE) :
    pgroundup sz = (sz + PGSIZE - 1) / PGSIZE * PGSIZE := by
  rw [pgroundup, Nat.mod_eq_of_lt]
  simp only [PGSIZE] at *
  omega

theorem asInt_eq {x : Nat} (h : x < 2 ^ 31) : asInt x = x := by
  rw [asInt, Nat.mod_eq_of_lt (by omega), if_pos h]

/-! ## Page-table entries -/

theorem valid_iff {e : Nat} : Valid e ↔ e % 2 = 1 := by
  rw [Valid, PTE_V, Nat.and_one_is_mod]
  omega

theorem not_valid_zero : ¬ Valid 0 := by decide

theorem valid_or (e : Nat) : Valid (e ||| PTE_V) := by
  rw [valid_iff, PTE_V, Nat.or_mod_two_eq_one]
  exact .inr rfl

/-- A physical address over ten flag bits. -/
theorem pa2pte_or {pa f : Nat} (hf : f < 1024) : pa2pte pa ||| f = pa / PGSIZE * 1024 + f := by
  rw [pa2pte, ← Nat.shiftLeft_add_eq_or_of_lt (by simpa using hf), Nat.shiftLeft_eq,
    Nat.shiftRight_eq_div_pow]

theorem pte2pa_eq (e : Nat) : pte2pa e = e / 1024 * PGSIZE % 2 ^ 64 := by
  rw [pte2pa, Nat.shiftLeft_eq, Nat.shiftRight_eq_div_pow]

theorem pteFlags_eq (e : Nat) : pteFlags e = e % 1024 := by
  have hmask : (0x3FF : Nat) = 2 ^ 10 - 1 := rfl
  rw [pteFlags, hmask, Nat.and_two_pow_sub_one_eq_mod]

theorem pte2pa_mod (e : Nat) : pte2pa e % PGSIZE = 0 := by
  rw [pte2pa_eq]
  simp only [PGSIZE]
  omega

theorem pte2pa_pa2pte {pa f : Nat} (hpa : pa < 2 ^ 64) (hf : f < 1024) :
    pte2pa (pa2pte pa ||| f) = pa / PGSIZE * PGSIZE := by
  rw [pa2pte_or hf, pte2pa_eq]
  simp only [PGSIZE]
  omega

theorem pteFlags_pa2pte {pa f : Nat} (hf : f < 1024) : pteFlags (pa2pte pa ||| f) = f := by
  rw [pa2pte_or hf, pteFlags_eq]
  omega

theorem pa2pte_or_lt {pa f : Nat} (hpa : pa < 2 ^ 64) (hf : f < 1024) :
    pa2pte pa ||| f < 2 ^ 64 := by
  rw [pa2pte_or hf]
  simp only [PGSIZE]
  omega

theorem or_lt_1024 {f g : Nat} (hf : f < 1024) (hg : g < 1024) : f ||| g < 1024 :=
  Nat.or_lt_two_pow (n := 10) hf hg

/-- `*pte &= ~PTE_U` -/
def clearU (e : Nat) : Nat := e &&& (2 ^ 64 - 1 - PTE_U)

theorem pte2pa_clearU {e : Nat} (h : e < 2 ^ 64) : pte2pa (clearU e) = pte2pa e := by
  have hm : (2 ^ 64 - 1 - PTE_U) >>> 10 = 2 ^ 54 - 1 := by decide
  have hlt : e >>> 10 < 2 ^ 54 := by
    rw [Nat.shiftRight_eq_div_pow]
    omega
  rw [pte2pa, pte2pa, clearU, Nat.shiftRight_and_distrib, hm, Nat.and_two_pow_sub_one_eq_mod,
    Nat.mod_eq_of_lt hlt]

theorem pteFlags_clearU (e : Nat) : pteFlags (clearU e) = pteFlags e &&& (0x3FF - PTE_U) := by
  have hm : (2 ^ 64 - 1 - PTE_U) &&& 0x3FF = 0x3FF &&& (0x3FF - PTE_U) := by decide
  rw [pteFlags, pteFlags, clearU, Nat.and_assoc, hm, Nat.and_assoc]

theorem valid_clearU {e : Nat} : Valid (clearU e) ↔ Valid e := by
  have hm : (2 ^ 64 - 1 - PTE_U) &&& PTE_V = PTE_V := by decide
  rw [Valid, Valid, clearU, Nat.and_assoc, hm]

theorem clearU_lt {e : Nat} (h : e < 2 ^ 64) : clearU e < 2 ^ 64 :=
  Nat.and_le_left.trans_lt h

end Xv6.Mem
