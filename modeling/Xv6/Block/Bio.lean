import Xv6.Lib.Prog
import Xv6.Block.Data
import Mathlib.Logic.Function.Basic

/-!
# The buffer cache, `kernel/bio.c`

`bcache` is an array of `NBUF` buffers and a list of all of them sorted by how recently each
was used; `lru` is that list from `head.next` (most recent) to `head.prev` (least recent), by
array index. The functions here are the critical sections under `bcache.lock`, as functions of
the cache alone; `Block.Sys` makes them the atomic steps of processes.

A buffer's sleep-lock is `some t` while process `t` holds it (`lock->locked` and `lock->pid`).
-/

namespace Xv6

open Function List

/-- `struct buf`. -/
structure Buf (T : Type) where
  /-- has data been read from disk? -/
  valid : Bool
  dev : Nat
  blockno : Nat
  lock : Option T
  refcnt : Nat
  data : Block

/-- A buffer that has not been given a block since `binit`: it looks like block 0 of device 0. -/
def Buf.Blank {T : Type} (b : Buf T) : Prop :=
  b.dev = 0 ∧ b.blockno = 0 ∧ b.valid = false ∧ b.refcnt = 0

/-- `bcache`. -/
structure Bcache (T : Type) where
  buf : Nat → Buf T
  lru : List Nat

namespace Bcache

variable {T : Type}

/-- `binit`: each buffer in turn is linked in at the head of the list; all fields are zero. -/
def binit : Bcache T where
  buf _ := { valid := false, dev := 0, blockno := 0, lock := none, refcnt := 0, data := fun _ => 0 }
  lru := (range NBUF).reverse

/-- Replace buffer `i`. -/
def set (c : Bcache T) (i : Nat) (b : Buf T) : Bcache T :=
  { c with buf := update c.buf i b }

/-- `bget`'s first scan, from the most recently used: is the block already cached? -/
def lookup (c : Bcache T) (dev blockno : Nat) : Option Nat :=
  c.lru.find? fun i => (c.buf i).dev == dev && (c.buf i).blockno == blockno

/-- `bget`'s second scan, from the least recently used: an unused buffer. -/
def victim (c : Bcache T) : Option Nat :=
  c.lru.reverse.find? fun i => (c.buf i).refcnt == 0

/-- `bget` up to its `acquiresleep`; `none` is the panic "bget: no buffers". -/
def bget (c : Bcache T) (dev blockno : Nat) : Option (Nat × Bcache T) :=
  match c.lookup dev blockno with
  | some i => some (i, c.set i { c.buf i with refcnt := (c.buf i).refcnt + 1 })
  | none =>
    match c.victim with
    | some i =>
      some (i, c.set i { c.buf i with dev := dev, blockno := blockno, valid := false, refcnt := 1 })
    | none => none

/-- The second half of `brelse`: drop the reference, and move a buffer nobody is waiting for to
    the front of the list. -/
def unref (c : Bcache T) (i : Nat) : Bcache T :=
  let c' := c.set i { c.buf i with refcnt := (c.buf i).refcnt - 1 }
  if (c'.buf i).refcnt = 0 then { c' with lru := i :: c.lru.erase i } else c'

def bpin (c : Bcache T) (i : Nat) : Bcache T :=
  c.set i { c.buf i with refcnt := (c.buf i).refcnt + 1 }

def bunpin (c : Bcache T) (i : Nat) : Bcache T :=
  c.set i { c.buf i with refcnt := (c.buf i).refcnt - 1 }

@[simp] theorem set_lru (c : Bcache T) (i : Nat) (b : Buf T) : (c.set i b).lru = c.lru := rfl

@[simp] theorem set_buf_self (c : Bcache T) (i : Nat) (b : Buf T) : (c.set i b).buf i = b :=
  update_self ..

theorem set_buf_of_ne (c : Bcache T) {i j : Nat} (b : Buf T) (h : j ≠ i) :
    (c.set i b).buf j = c.buf j := update_of_ne h ..

theorem unref_buf (c : Bcache T) (i : Nat) :
    (c.unref i).buf = (c.set i { c.buf i with refcnt := (c.buf i).refcnt - 1 }).buf := by
  unfold unref
  dsimp only
  split <;> rfl

theorem lookup_some {c : Bcache T} {dev blockno i : Nat} (h : c.lookup dev blockno = some i) :
    i ∈ c.lru ∧ (c.buf i).dev = dev ∧ (c.buf i).blockno = blockno := by
  have hp := find?_some h
  simp only [Bool.and_eq_true, beq_iff_eq] at hp
  exact ⟨mem_of_find?_eq_some h, hp⟩

theorem lookup_none {c : Bcache T} {dev blockno i : Nat} (h : c.lookup dev blockno = none)
    (hi : i ∈ c.lru) : ¬ ((c.buf i).dev = dev ∧ (c.buf i).blockno = blockno) := by
  have := find?_eq_none.mp h i hi
  simpa only [Bool.and_eq_true, beq_iff_eq] using this

theorem victim_some {c : Bcache T} {i : Nat} (h : c.victim = some i) :
    i ∈ c.lru ∧ (c.buf i).refcnt = 0 := by
  have hp := find?_some h
  exact ⟨by simpa using mem_of_find?_eq_some h, by simpa using hp⟩

/-- What `bget` can do: reference a buffer that holds the block, or recycle an unused one. -/
theorem bget_cases {c c' : Bcache T} {dev blockno i : Nat} (h : c.bget dev blockno = some (i, c')) :
    (i ∈ c.lru ∧ (c.buf i).dev = dev ∧ (c.buf i).blockno = blockno ∧
      c' = c.set i { c.buf i with refcnt := (c.buf i).refcnt + 1 }) ∨
    (i ∈ c.lru ∧ (c.buf i).refcnt = 0 ∧
      (∀ j ∈ c.lru, ¬ ((c.buf j).dev = dev ∧ (c.buf j).blockno = blockno)) ∧
      c' = c.set i
        { c.buf i with dev := dev, blockno := blockno, valid := false, refcnt := 1 }) := by
  unfold bget at h
  split at h
  · next j hj =>
    obtain ⟨hm, hd, hb⟩ := lookup_some hj
    simp only [Option.some.injEq, Prod.mk.injEq] at h
    obtain ⟨rfl, rfl⟩ := h
    exact .inl ⟨hm, hd, hb, rfl⟩
  · next hn =>
    split at h
    · next j hj =>
      obtain ⟨hm, hr⟩ := victim_some hj
      simp only [Option.some.injEq, Prod.mk.injEq] at h
      obtain ⟨rfl, rfl⟩ := h
      exact .inr ⟨hm, hr, fun k hk => lookup_none hn hk, rfl⟩
    · simp at h

/-- `bget` panics if the block is in no buffer and no buffer is free for it. -/
theorem bget_eq_none {c : Bcache T} {dev blockno : Nat} : c.bget dev blockno = none ↔
    (∀ i ∈ c.lru, ¬ ((c.buf i).dev = dev ∧ (c.buf i).blockno = blockno)) ∧
      ∀ i ∈ c.lru, (c.buf i).refcnt ≠ 0 := by
  have hlook : c.lookup dev blockno = none ↔
      ∀ i ∈ c.lru, ¬ ((c.buf i).dev = dev ∧ (c.buf i).blockno = blockno) := by
    simp [lookup]
  have hvictim : c.victim = none ↔ ∀ i ∈ c.lru, (c.buf i).refcnt ≠ 0 := by
    simp [victim]
  rw [← hlook, ← hvictim, bget]
  cases c.lookup dev blockno <;> cases c.victim <;> simp

/-- `bget`'s first scan skips no match. -/
theorem lookup_first {c : Bcache T} {dev blockno i : Nat} (h : c.lookup dev blockno = some i) :
    ∃ l₁ l₂, c.lru = l₁ ++ i :: l₂ ∧
      ∀ j ∈ l₁, ¬ ((c.buf j).dev = dev ∧ (c.buf j).blockno = blockno) := by
  obtain ⟨-, l₁, l₂, hl, hno⟩ := find?_eq_some_iff_append.mp h
  refine ⟨l₁, l₂, hl, fun j hj hc => ?_⟩
  have := hno j hj
  simp [hc.1, hc.2] at this

/-! ## No two buffers for one block

The buffers that `binit` leaves all look like block 0 of device 0. They do no harm, because
`bget` finds the one in use before any of them. -/

/-- The list has all buffers, no two buffers in use have one block, and a blank buffer comes
    after one in use for the block it looks like. -/
structure Ok (c : Bcache T) : Prop where
  lru : c.lru.Perm (range NBUF)
  uniq : ∀ i < NBUF, ∀ j < NBUF, ¬ (c.buf i).Blank → ¬ (c.buf j).Blank →
    (c.buf j).dev = (c.buf i).dev → (c.buf j).blockno = (c.buf i).blockno → j = i
  order : c.lru.Pairwise fun i j =>
    (c.buf i).Blank → (c.buf j).dev = 0 → (c.buf j).blockno = 0 → (c.buf j).Blank

theorem Ok.mem_lru {c : Bcache T} (h : c.Ok) {i : Nat} : i ∈ c.lru ↔ i < NBUF :=
  h.lru.mem_iff.trans mem_range

theorem Ok.nodup {c : Bcache T} (h : c.Ok) : c.lru.Nodup :=
  h.lru.nodup_iff.mpr nodup_range

theorem binit_ok : (binit : Bcache T).Ok where
  lru := reverse_perm _
  uniq _ _ _ _ hi := absurd ⟨rfl, rfl, rfl, rfl⟩ hi
  order := pairwise_of_forall fun _ _ _ _ _ => ⟨rfl, rfl, rfl, rfl⟩

/-- A buffer changes, keeps its block and does not come into use. -/
theorem Ok.set {c : Bcache T} (h : c.Ok) {i : Nat} {b : Buf T} (hi : i < NBUF)
    (hd : b.dev = (c.buf i).dev) (hb : b.blockno = (c.buf i).blockno)
    (hu : (c.buf i).Blank → b.Blank) : (c.set i b).Ok := by
  have hid : ∀ j, ((c.set i b).buf j).dev = (c.buf j).dev ∧
      ((c.set i b).buf j).blockno = (c.buf j).blockno ∧
      ((c.buf j).Blank → ((c.set i b).buf j).Blank) := by
    intro j
    by_cases hji : j = i
    · subst hji
      rw [set_buf_self]
      exact ⟨hd, hb, hu⟩
    · rw [set_buf_of_ne _ _ hji]
      exact ⟨rfl, rfl, id⟩
  refine ⟨h.lru, ?_, ?_⟩
  · intro a ha j hj hua huj
    rw [(hid a).1, (hid a).2.1, (hid j).1, (hid j).2.1]
    exact h.uniq a ha j hj (mt (hid a).2.2 hua) (mt (hid j).2.2 huj)
  · refine List.Pairwise.imp_of_mem ?_ (h.order.and h.nodup)
    rintro a j ha hj ⟨hab, hne⟩ hblank
    rw [(hid j).1, (hid j).2.1]
    intro hdj hbj
    by_cases hua : (c.buf a).Blank
    · exact (hid j).2.2 (hab hua hdj hbj)
    · -- buffer `a` went out of use, so no other buffer was in use for its block
      rw [Buf.Blank, (hid a).1, (hid a).2.1] at hblank
      by_contra huj
      refine hne (h.uniq a (h.mem_lru.mp ha) j (h.mem_lru.mp hj) hua (mt (hid j).2.2 huj) ?_
        ?_).symm
      · rw [hdj, hblank.1]
      · rw [hbj, hblank.2.1]

theorem Ok.unref {c : Bcache T} (h : c.Ok) {i : Nat} (hi : i < NBUF) (hu : ¬ (c.buf i).Blank) :
    (c.unref i).Ok := by
  have h' : (c.set i { c.buf i with refcnt := (c.buf i).refcnt - 1 }).Ok :=
    h.set hi rfl rfl fun hb => absurd hb hu
  unfold Bcache.unref
  dsimp only
  split
  · refine ⟨?_, h'.uniq, ?_⟩
    · exact (perm_cons_erase (h.mem_lru.mpr hi)).symm.trans h.lru
    · refine pairwise_cons.mpr ⟨fun j hj hblank hdj hbj => ?_, ?_⟩
      · have hji : j ≠ i := by
          rintro rfl
          exact h.nodup.not_mem_erase hj
        rw [set_buf_self] at hblank
        rw [set_buf_of_ne _ _ hji] at hdj hbj ⊢
        by_contra huj
        refine hji (h.uniq i hi j (h.mem_lru.mp (mem_of_mem_erase hj)) hu huj ?_ ?_)
        · rw [hdj]
          exact hblank.1.symm
        · rw [hbj]
          exact hblank.2.1.symm
      · exact h'.order.sublist erase_sublist
  · exact h'

/-- `bget` keeps blocks and buffers one to one, whether it finds a buffer in use, finds a blank
    one, or recycles. -/
theorem Ok.bget {c c' : Bcache T} (h : c.Ok) {dev blockno i : Nat}
    (hb : c.bget dev blockno = some (i, c')) : c'.Ok := by
  unfold Bcache.bget at hb
  split at hb
  · next k hk =>
    obtain ⟨hm, hd, hbn⟩ := lookup_some hk
    obtain ⟨l₁, l₂, hl, hno⟩ := lookup_first hk
    simp only [Option.some.injEq, Prod.mk.injEq] at hb
    obtain ⟨rfl, rfl⟩ := hb
    have hi := h.mem_lru.mp hm
    by_cases hblank : (c.buf k).Blank
    · -- the buffers in use for this block come first, so there is none
      have hnone : ∀ j < NBUF, j ≠ k → (c.buf j).dev = (c.buf k).dev →
          (c.buf j).blockno = (c.buf k).blockno → (c.buf j).Blank := by
        intro j hj hjk hdj hbj
        have hmem := h.mem_lru.mpr hj
        have hord := h.order
        rw [hl] at hmem hord
        rcases mem_append.mp hmem with hj₁ | hj₂
        · exact absurd ⟨hdj.trans hd, hbj.trans hbn⟩ (hno j hj₁)
        · rcases mem_cons.mp hj₂ with rfl | hj₂
          · exact absurd rfl hjk
          · have := (pairwise_cons.mp (pairwise_append.mp hord).2.1).1 j hj₂
            exact this hblank (hdj.trans hblank.1) (hbj.trans hblank.2.1)
      have hself : ¬ (Buf.Blank { c.buf k with refcnt := (c.buf k).refcnt + 1 }) :=
        fun hc => Nat.succ_ne_zero _ hc.2.2.2
      refine ⟨h.lru, ?_, ?_⟩
      · intro a ha j hj hua huj hdj hbj
        by_cases hak : a = k <;> by_cases hjk : j = k
        · rw [hak, hjk]
        · subst hak
          rw [set_buf_of_ne _ _ hjk] at huj hdj hbj
          rw [set_buf_self] at hdj hbj
          exact absurd (hnone j hj hjk hdj hbj) huj
        · subst hjk
          rw [set_buf_of_ne _ _ hak] at hua hdj hbj
          rw [set_buf_self] at hdj hbj
          exact absurd (hnone a ha hak hdj.symm hbj.symm) hua
        · rw [set_buf_of_ne _ _ hak] at hua hdj hbj
          rw [set_buf_of_ne _ _ hjk] at huj hdj hbj
          exact h.uniq a ha j hj hua huj hdj hbj
      · have hord := h.order
        have hnd := h.nodup
        rw [hl] at hord hnd
        show (c.lru).Pairwise _
        rw [hl, pairwise_append, pairwise_cons]
        rw [pairwise_append, pairwise_cons] at hord
        rw [nodup_append, nodup_cons] at hnd
        have hne₁ : ∀ j ∈ l₁, j ≠ k := fun j hj => hnd.2.2 j hj k mem_cons_self
        have hne₂ : ∀ j ∈ l₂, j ≠ k := fun j hj hjk => hnd.2.1.1 (hjk ▸ hj)
        refine ⟨?_, ⟨?_, ?_⟩, ?_⟩
        · refine hord.1.imp_of_mem fun {a j} ha hj hab => ?_
          rwa [set_buf_of_ne _ _ (hne₁ a ha), set_buf_of_ne _ _ (hne₁ j hj)]
        · intro j hj hbk
          rw [set_buf_self] at hbk
          exact absurd hbk hself
        · refine hord.2.1.2.imp_of_mem fun {a j} ha hj hab => ?_
          rwa [set_buf_of_ne _ _ (hne₂ a ha), set_buf_of_ne _ _ (hne₂ j hj)]
        · intro a ha j hj hba
          rw [set_buf_of_ne _ _ (hne₁ a ha)] at hba
          exact absurd ⟨hba.1.trans (hblank.1.symm.trans hd),
            hba.2.1.trans (hblank.2.1.symm.trans hbn)⟩ (hno a ha)
    · exact h.set hi rfl rfl fun hb => absurd hb hblank
  · next hn =>
    split at hb
    · next k hk =>
      obtain ⟨hm, -⟩ := victim_some hk
      simp only [Option.some.injEq, Prod.mk.injEq] at hb
      obtain ⟨rfl, rfl⟩ := hb
      have hi := h.mem_lru.mp hm
      have hno : ∀ j < NBUF, ¬ ((c.buf j).dev = dev ∧ (c.buf j).blockno = blockno) :=
        fun j hj => lookup_none hn (h.mem_lru.mpr hj)
      refine ⟨h.lru, ?_, ?_⟩
      · intro a ha j hj hua huj hdj hbj
        by_cases hak : a = k <;> by_cases hjk : j = k
        · rw [hak, hjk]
        · subst hak
          rw [set_buf_of_ne _ _ hjk, set_buf_self] at hdj hbj
          exact absurd ⟨hdj, hbj⟩ (hno j hj)
        · subst hjk
          rw [set_buf_of_ne _ _ hak, set_buf_self] at hdj hbj
          exact absurd ⟨hdj.symm, hbj.symm⟩ (hno a ha)
        · rw [set_buf_of_ne _ _ hak] at hua hdj hbj
          rw [set_buf_of_ne _ _ hjk] at huj hdj hbj
          exact h.uniq a ha j hj hua huj hdj hbj
      · refine h.order.imp_of_mem fun {a j} ha hj hab hba hdj hbj => ?_
        have hak : a ≠ k := by
          rintro rfl
          rw [set_buf_self] at hba
          exact absurd hba.2.2.2 (by simp)
        rw [set_buf_of_ne _ _ hak] at hba
        by_cases hjk : j = k
        · subst hjk
          rw [set_buf_self] at hdj hbj
          exact absurd ⟨hba.1.trans hdj.symm, hba.2.1.trans hbj.symm⟩ (hno a (h.mem_lru.mp ha))
        · rw [set_buf_of_ne _ _ hjk] at hdj hbj ⊢
          exact hab hba hdj hbj
    · simp at hb

end Bcache
end Xv6
