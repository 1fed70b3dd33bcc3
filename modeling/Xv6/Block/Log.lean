import Xv6.Block.Data
import Mathlib.Logic.Function.Basic

/-!
# The log's memory, `kernel/log.c`

`struct log` and the critical sections under `log.lock` as functions of it. A sleep is `none`
(the loop of `begin_op` tries again), a panic is an error with its message. The header block has
the same layout on the disk as in memory: `n`, then `LOGSIZE` block numbers.
-/

namespace Xv6

open Function List

/-- `struct logheader`. -/
structure LogHeader where
  n : Nat
  block : Nat → Nat

namespace LogHeader

/-- The logged block numbers, in log order. -/
def blocks (h : LogHeader) : List Nat := (range h.n).map h.block

/-- The index at which `log_write`'s scan stops: the first entry for `blockno`, or `n`. -/
def find (h : LogHeader) (blockno : Nat) : Nat :=
  ((range h.n).find? fun i => h.block i == blockno).getD h.n

/-- The header as `read_head` finds it in a block. -/
def ofBlock (b : Block) : LogHeader where
  n := b.u32 0
  block i := b.u32 (4 + 4 * i)

/-- The in-memory header after `read_head` has copied the block's `n` entries into it. -/
def load (h : LogHeader) (b : Block) : LogHeader where
  n := (ofBlock b).n
  block i := if i < (ofBlock b).n then (ofBlock b).block i else h.block i

/-- The header block as `write_head` leaves it: entries from `n` on keep their old bytes. -/
def toBlock (h : LogHeader) (old : Block) : Block :=
  (range h.n).foldl (fun b i => b.setU32 (4 + 4 * i) (h.block i)) (old.setU32 0 h.n)

theorem blocks_length (h : LogHeader) : h.blocks.length = h.n := by simp [blocks]

theorem mem_blocks {h : LogHeader} {b : Nat} : b ∈ h.blocks ↔ ∃ i < h.n, h.block i = b := by
  simp [blocks]

/-- Writing the entries does not disturb the count, and each entry written is read back. -/
theorem foldl_setU32 {block : Nat → Nat} {k : Nat} (old : Block) (hk : k ≤ LOGSIZE)
    (hlt : ∀ i < k, block i < 2 ^ 32) :
    let b := (range k).foldl (fun b i => b.setU32 (4 + 4 * i) (block i)) old
    b.u32 0 = old.u32 0 ∧ ∀ i < k, b.u32 (4 + 4 * i) = block i := by
  induction k with
  | zero => simp
  | succ k ih =>
    obtain ⟨h0, hi⟩ := ih (by omega) fun i hik => hlt i (by omega)
    simp only [range_succ, foldl_append, foldl_cons, foldl_nil]
    refine ⟨?_, fun i hik => ?_⟩
    · rw [Block.u32_setU32_of_disjoint (by decide) (by omega), h0]
    · have hB : 4 + 4 * i + 4 ≤ BSIZE := by simp only [BSIZE, LOGSIZE, MAXOPBLOCKS] at *; omega
      rcases Nat.lt_succ_iff_lt_or_eq.mp hik with hlt' | rfl
      · rw [Block.u32_setU32_of_disjoint hB (by omega), hi i hlt']
      · rw [Block.u32_setU32_self hB (hlt i hik)]

/-- What `write_head` writes, `read_head` reads. -/
theorem ofBlock_toBlock {h : LogHeader} (old : Block) (hn : h.n ≤ LOGSIZE)
    (hlt : ∀ i < h.n, h.block i < 2 ^ 32) :
    (ofBlock (h.toBlock old)).n = h.n ∧
      ∀ i < h.n, (ofBlock (h.toBlock old)).block i = h.block i := by
  obtain ⟨h0, hi⟩ := foldl_setU32 (old.setU32 0 h.n) hn hlt
  refine ⟨?_, hi⟩
  have hn' : h.n < 2 ^ 32 := by simp only [LOGSIZE, MAXOPBLOCKS] at hn; omega
  exact h0.trans (Block.u32_setU32_self (by decide) hn')

theorem find_lt_or_eq (h : LogHeader) (b : Nat) :
    (h.find b < h.n ∧ h.block (h.find b) = b) ∨ (h.find b = h.n ∧ b ∉ h.blocks) := by
  unfold find
  cases hf : (range h.n).find? fun i => h.block i == b with
  | none =>
    refine .inr ⟨rfl, fun hm => ?_⟩
    obtain ⟨i, hi, hb⟩ := mem_blocks.mp hm
    have := find?_eq_none.mp hf i (mem_range.mpr hi)
    exact this (by simpa using hb)
  | some i =>
    have hm := mem_of_find?_eq_some hf
    have hb := find?_some hf
    exact .inl ⟨mem_range.mp hm, by simpa using hb⟩

/-- The header with one more entry. -/
def push (h : LogHeader) (b : Nat) : LogHeader where
  n := h.n + 1
  block := update h.block h.n b

theorem blocks_push (h : LogHeader) (b : Nat) : (h.push b).blocks = h.blocks ++ [b] := by
  simp only [blocks, push, range_succ, map_append, map_cons, map_nil,
    update_self]
  congr 1
  refine map_congr_left fun i hi => ?_
  rw [update_of_ne (Nat.ne_of_lt (mem_range.mp hi))]

end LogHeader

/-- `struct log`, less its spin-lock. -/
structure Log where
  start : Nat
  size : Nat
  /-- how many FS sys calls are executing. -/
  outstanding : Int
  /-- in commit(), please wait. -/
  committing : Bool
  dev : Nat
  lh : LogHeader

namespace Log

/-- The test of `begin_op`: `none` while the caller must sleep. -/
def beginOp (l : Log) : Option Log :=
  if l.committing then none
  else if (l.lh.n : Int) + (l.outstanding + 1) * MAXOPBLOCKS > LOGSIZE then none
  else some { l with outstanding := l.outstanding + 1 }

/-- The first critical section of `end_op`; the answer is `do_commit`. -/
def endOp (l : Log) : Except String (Bool × Log) :=
  let l := { l with outstanding := l.outstanding - 1 }
  if l.committing then .error "log.committing"
  else if l.outstanding = 0 then .ok (true, { l with committing := true })
  else .ok (false, l)

/-- `log_write` of a buffer of block `blockno`; the answer says whether the buffer is to be
    pinned (a new entry) or was absorbed. -/
def logWrite (l : Log) (blockno : Nat) : Except String (Bool × Log) :=
  if l.lh.n ≥ LOGSIZE ∨ l.lh.n ≥ l.size - 1 then .error "too big a transaction"
  else if l.outstanding < 1 then .error "log_write outside of trans"
  else
    let i := l.lh.find blockno
    let lh := { l.lh with block := update l.lh.block i blockno }
    if i = lh.n then .ok (true, { l with lh := { lh with n := lh.n + 1 } })
    else .ok (false, { l with lh := lh })

/-- `log_write` in one line: a block already logged changes nothing, a new one is appended. -/
theorem logWrite_eq (l : Log) (b : Nat) :
    l.logWrite b =
      if l.lh.n ≥ LOGSIZE ∨ l.lh.n ≥ l.size - 1 then .error "too big a transaction"
      else if l.outstanding < 1 then .error "log_write outside of trans"
      else if b ∈ l.lh.blocks then .ok (false, l)
      else .ok (true, { l with lh := l.lh.push b }) := by
  unfold logWrite
  dsimp only
  split
  · rfl
  split
  · rfl
  rcases l.lh.find_lt_or_eq b with ⟨hlt, hb⟩ | ⟨heq, hb⟩
  · have hm : b ∈ l.lh.blocks := LogHeader.mem_blocks.mpr ⟨_, hlt, hb⟩
    have hu : update l.lh.block (l.lh.find b) b = l.lh.block := by
      nth_rewrite 2 [← hb]
      exact update_eq_self ..
    rw [if_neg hlt.ne, if_pos hm, hu]
  · rw [if_pos heq, if_neg hb, heq]
    rfl

end Log
end Xv6
