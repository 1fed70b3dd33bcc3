import Xv6.Block.Bio
import Xv6.Lib.Dlist

/-!
# The list of buffers in `kernel/bio.c`

`Bcache` keeps the list of buffers as a list. The code keeps it in the pointers `next` and `prev` of
the buffers and of `bcache.head`, which is what this file is about: `binit`, `bget` and `brelse` as
they work on the pointers. A buffer is its index in the array, and the head comes after the last one.

The list is a ring in every state that can be reached (`Reach.ok`), so that the loops of `bget` end,
and the functions of `Bcache` are what the code does as seen in the list (`bget_refines`,
`unref_refines`).
-/

namespace Xv6

open Lib List Function

/-- `bcache` with its pointers. -/
structure LinkedCache (T : Type) where
  buf : Nat → Buf T
  links : Links Nat

namespace LinkedCache

variable {T : Type}

/-- `bcache.head` -/
abbrev head : Nat := NBUF

/-- Memory before `binit`. -/
def zero : LinkedCache T where
  buf _ := { valid := false, dev := 0, blockno := 0, lock := none, refcnt := 0, data := fun _ => 0 }
  links := ⟨fun _ => 0, fun _ => 0⟩

/-- Create linked list of buffers. -/
def binit (c : LinkedCache T) : LinkedCache T :=
  let L := c.links.setPrev head head
  let L := L.setNext head head
  { c with links := (range NBUF).foldl (fun L b => L.linkFront head b) L }

/-- Replace buffer `i`. -/
def set (c : LinkedCache T) (i : Nat) (b : Buf T) : LinkedCache T :=
  { c with buf := update c.buf i b }

/-- `bget` up to its `acquiresleep`. A loop that goes on for longer than there are buffers never
    ends. `refcnt` is a `uint`. -/
def bget (c : LinkedCache T) (dev blockno : Nat) : Outcome (LinkedCache T) Nat :=
  -- Is the block already cached?
  match c.links.find head (fun i => (c.buf i).dev == dev && (c.buf i).blockno == blockno) (NBUF + 1)
      (c.links.next head) with
  | none => .wait
  | some (some i) =>
    .ok i (c.set i { c.buf i with refcnt := ((c.buf i).refcnt + 1) % 2 ^ 32 })
  | some none =>
    -- Not cached. Recycle the least recently used (LRU) unused buffer.
    match c.links.flip.find head (fun i => (c.buf i).refcnt == 0) (NBUF + 1) (c.links.prev head) with
    | none => .wait
    | some (some i) =>
      .ok i (c.set i
        { c.buf i with dev := dev, blockno := blockno, valid := false, refcnt := 1 })
    | some none => .panic "bget: no buffers"

/-- `n - 1` for a `uint` -/
@[irreducible] def uintPred (n : Nat) : Nat := (n + (2 ^ 32 - 1)) % 2 ^ 32

/-- The second half of `brelse`, after `releasesleep`. -/
def unref (c : LinkedCache T) (i : Nat) : LinkedCache T :=
  let c := c.set i { c.buf i with refcnt := uintPred (c.buf i).refcnt }
  if (c.buf i).refcnt = 0 then { c with links := (c.links.unlink i).linkFront head i } else c

/-- `brelse` by process `t`. -/
def brelse [DecidableEq T] (c : LinkedCache T) (t : T) (i : Nat) : Outcome (LinkedCache T) Unit :=
  if (c.buf i).lock = some t then .ok () ((c.set i { c.buf i with lock := none }).unref i)
  else .panic "brelse"

/-- The buffers in the order in which `next` leads to them from the head. -/
def order (c : LinkedCache T) : List Nat :=
  (range NBUF).map fun k => c.links.next^[k + 1] head

/-- What the code does to the cache. Others may take the lock of a buffer between the two halves of
    `brelse`, so the second one is a step. In between, whoever holds a buffer uses it freely:
    takes and releases its lock, reads and changes its data, pins it. -/
inductive Step : LinkedCache T → LinkedCache T → Prop
  | bget {c c' : LinkedCache T} {dev blockno i : Nat} (h : c.bget dev blockno = .ok i c') : Step c c'
  | unref {c : LinkedCache T} {i : Nat} (h : i < NBUF) : Step c (c.unref i)
  | use {c : LinkedCache T} {i : Nat} {b : Buf T} (hdev : b.dev = (c.buf i).dev)
      (hblockno : b.blockno = (c.buf i).blockno) : Step c (c.set i b)

/-- The states after `binit`. -/
inductive Reach : LinkedCache T → Prop
  | binit : Reach zero.binit
  | step {c c' : LinkedCache T} (h : Reach c) (hs : Step c c') : Reach c'

/-! ## The ring -/

/-- The pointers make a ring of the head and all buffers, in the order `l`. -/
structure Ok (c : LinkedCache T) (l : List Nat) : Prop where
  ring : Dlist c.links head l
  all : l.Perm (range NBUF)

variable {c c' : LinkedCache T} {l l₁ l₂ : List Nat} {i j x dev blockno : Nat} {b : Buf T}

@[simp] theorem set_links : (c.set i b).links = c.links := rfl

@[simp] theorem set_self : (c.set i b).buf i = b := update_self ..

theorem Ok.set (h : c.Ok l) : (c.set i b).Ok l := ⟨h.ring, h.all⟩

theorem Ok.length (h : c.Ok l) : l.length = NBUF := by
  rw [h.all.length_eq, length_range]

theorem Ok.mem (h : c.Ok l) : i ∈ l ↔ i < NBUF := h.all.mem_iff.trans mem_range

theorem Ok.iterate (h : c.Ok l) : c.order = l ∧ c.links.next^[NBUF + 1] head = head := by
  have hit := h.ring.chain.iterate
  rw [h.length, range_succ, map_append, map_singleton] at hit
  have hlen : ((range NBUF).map fun k => c.links.next^[k + 1] head).length = l.length := by
    rw [length_map, length_range, h.length]
  obtain ⟨horder, hlast⟩ := append_inj hit hlen
  exact ⟨horder, singleton_inj.mp hlast⟩

theorem Ok.inverse (h : c.Ok l) (hx : x ≤ NBUF) :
    c.links.prev (c.links.next x) = x ∧ c.links.next (c.links.prev x) = x := by
  have hmem : x ∈ head :: l := by
    rcases lt_or_eq_of_le hx with hx | hx
    · exact mem_cons_of_mem _ (h.mem.mpr hx)
    · exact hx ▸ mem_cons_self
  refine ⟨h.ring.chain.prev_next hmem, h.ring.flip.chain.prev_next ?_⟩
  simpa using hmem

theorem foldl_ring (n : Nat) (hn : n ≤ NBUF) {L : Links Nat} (h : Dlist L head []) :
    Dlist ((range n).foldl (fun L b => L.linkFront head b) L) head (range n).reverse := by
  induction n with
  | zero => exact h
  | succ n ih =>
    rw [range_succ, foldl_append, reverse_append]
    refine (ih (Nat.le_of_succ_le hn)).linkFront ?_
    simp only [head, mem_cons, mem_reverse, mem_range]
    omega

theorem binit_ok (c : LinkedCache T) : c.binit.Ok (range NBUF).reverse := by
  refine ⟨foldl_ring NBUF le_rfl ⟨nodup_singleton _, ?_, ?_⟩, reverse_perm _⟩
  · simp
  · simp

/-! ## `bget` -/

theorem Ok.lookup (h : c.Ok l) (p : Nat → Bool) :
    c.links.find head p (NBUF + 1) (c.links.next head) = some (l.find? p) :=
  h.ring.find (by rw [h.length]; exact Nat.lt_succ_self _)

theorem Ok.victim (h : c.Ok l) (p : Nat → Bool) :
    c.links.flip.find head p (NBUF + 1) (c.links.prev head) = some (l.reverse.find? p) :=
  h.ring.flip.find (by rw [length_reverse, h.length]; exact Nat.lt_succ_self _)

/-- What `bget` does, in terms of the list. -/
theorem Ok.bget_eq (h : c.Ok l) (dev blockno : Nat) : c.bget dev blockno =
    match l.find? fun i => (c.buf i).dev == dev && (c.buf i).blockno == blockno with
    | some i => .ok i (c.set i { c.buf i with refcnt := ((c.buf i).refcnt + 1) % 2 ^ 32 })
    | none =>
      match l.reverse.find? fun i => (c.buf i).refcnt == 0 with
      | some i => .ok i (c.set i
          { c.buf i with dev := dev, blockno := blockno, valid := false, refcnt := 1 })
      | none => .panic "bget: no buffers" := by
  unfold LinkedCache.bget
  rw [h.lookup, h.victim]
  cases l.find? fun i => (c.buf i).dev == dev && (c.buf i).blockno == blockno with
  | some i => rfl
  | none => cases l.reverse.find? fun i => (c.buf i).refcnt == 0 <;> rfl

/-- Buffer `i` is the one of the block. -/
def Holds (c : LinkedCache T) (dev blockno i : Nat) : Prop :=
  (c.buf i).dev = dev ∧ (c.buf i).blockno = blockno

/-- The three ways in which `bget` ends, of which the last two are for a block that is not cached: it
    takes one more reference to the first buffer of the block, or gives the block the last buffer
    that is not in use, or there is none. -/
inductive Gets (c : LinkedCache T) (l : List Nat) (dev blockno : Nat) :
    Outcome (LinkedCache T) Nat → Prop where
  | hit {i : Nat} {l₁ l₂ : List Nat} (list : l = l₁ ++ i :: l₂) (holds : c.Holds dev blockno i)
      (first : ∀ j ∈ l₁, ¬ c.Holds dev blockno j) : Gets c l dev blockno
      (.ok i (c.set i { c.buf i with refcnt := ((c.buf i).refcnt + 1) % 2 ^ 32 }))
  | recycled {i : Nat} {l₁ l₂ : List Nat} (miss : ∀ j < NBUF, ¬ c.Holds dev blockno j)
      (list : l = l₁ ++ i :: l₂) (free : (c.buf i).refcnt = 0)
      (last : ∀ j ∈ l₂, (c.buf j).refcnt ≠ 0) : Gets c l dev blockno
      (.ok i (c.set i { c.buf i with dev := dev, blockno := blockno, valid := false, refcnt := 1 }))
  | full (miss : ∀ j < NBUF, ¬ c.Holds dev blockno j) (used : ∀ j < NBUF, (c.buf j).refcnt ≠ 0) :
      Gets c l dev blockno (.panic "bget: no buffers")

theorem Ok.gets (h : c.Ok l) (dev blockno : Nat) :
    c.Gets l dev blockno (c.bget dev blockno) := by
  have hiff : ∀ j, ((c.buf j).dev == dev && (c.buf j).blockno == blockno) = true ↔
      c.Holds dev blockno j := fun j => by simp [Holds]
  rw [h.bget_eq]
  cases hf : l.find? fun i => (c.buf i).dev == dev && (c.buf i).blockno == blockno with
  | some i =>
    obtain ⟨hi, l₁, l₂, hl, hbefore⟩ := find?_eq_some_iff_append.mp hf
    refine .hit hl ((hiff i).mp hi) fun j hj hc => ?_
    have := hbefore j hj
    rw [(hiff j).mpr hc] at this
    exact absurd this (by decide)
  | none =>
    have hmiss : ∀ j < NBUF, ¬ c.Holds dev blockno j := fun j hj hc =>
      find?_eq_none.mp hf j (h.mem.mpr hj) ((hiff j).mpr hc)
    cases hv : l.reverse.find? fun i => (c.buf i).refcnt == 0 with
    | some i =>
      obtain ⟨hz, as, bs, hl, has⟩ := find?_eq_some_iff_append.mp hv
      have hlist : l = bs.reverse ++ i :: as.reverse := by
        rw [← reverse_reverse l, hl]
        simp
      refine .recycled hmiss hlist (by simpa using hz) fun j hj => ?_
      simpa using has j (mem_reverse.mp hj)
    | none =>
      refine .full hmiss fun j hj => ?_
      simpa using find?_eq_none.mp hv j (mem_reverse.mpr (h.mem.mpr hj))

theorem Ok.bget (h : c.Ok l) (hb : c.bget dev blockno = .ok i c') : c'.Ok l := by
  have hgets := h.gets dev blockno
  rw [hb] at hgets
  cases hgets with
  | hit => exact h.set
  | recycled => exact h.set

/-- Every buffer behind the one that `bget` recycles is in use. -/
theorem Ok.recycles (h : c.Ok l) (hno : ∀ j < NBUF, ¬ c.Holds dev blockno j)
    (hb : c.bget dev blockno = .ok i c') : (c.buf i).refcnt = 0 ∧ ∃ l₁ l₂, l = l₁ ++ i :: l₂ ∧
      ∀ j ∈ l₂, (c.buf j).refcnt ≠ 0 := by
  have hgets := h.gets dev blockno
  rw [hb] at hgets
  cases hgets with
  | hit hl hk => exact absurd hk (hno i (h.mem.mp (hl ▸ mem_append_right _ mem_cons_self)))
  | recycled _ hl hz hused => exact ⟨hz, _, _, hl, hused⟩

/-! ## `brelse` -/

theorem unref_buf (c : LinkedCache T) (i : Nat) :
    (c.unref i).buf = (c.set i { c.buf i with refcnt := uintPred (c.buf i).refcnt }).buf := by
  unfold unref
  dsimp only
  split
  · rfl
  · rfl

theorem unref_refcnt : ((c.unref i).buf i).refcnt = uintPred (c.buf i).refcnt := by
  rw [unref_buf, set_self]

/-- A buffer that is no longer in use goes to the front. -/
theorem Ok.unref_front (h : c.Ok l) (hi : i < NBUF) (hz : ((c.unref i).buf i).refcnt = 0) :
    (c.unref i).Ok (i :: l.erase i) := by
  obtain ⟨l₁, l₂, hl⟩ := append_of_mem (h.mem.mpr hi)
  have hnd := (nodup_cons.mp h.ring.nodup).2
  have herase : l.erase i = l₁ ++ l₂ := by
    rw [hl, nodup_append] at hnd
    rw [hl, erase_append_right _ fun hm => hnd.2.2 i hm i mem_cons_self rfl]
    simp
  have hring := h.ring
  rw [hl] at hring
  rw [unref_refcnt] at hz
  unfold LinkedCache.unref
  dsimp only
  rw [set_self, if_pos hz, herase]
  refine ⟨hring.unlink.linkFront ?_, ?_⟩
  · rw [hl] at hnd
    have hnot := (nodup_cons.mp (nodup_middle.mp hnd)).1
    rw [mem_cons, not_or]
    exact ⟨hi.ne, hnot⟩
  · rw [← herase]
    exact (perm_cons_erase (h.mem.mpr hi)).symm.trans h.all

theorem Ok.unref_same (h : c.Ok l) (hz : ((c.unref i).buf i).refcnt ≠ 0) : (c.unref i).Ok l := by
  rw [unref_refcnt] at hz
  unfold LinkedCache.unref
  dsimp only
  rw [set_self, if_neg hz]
  exact h.set

theorem Ok.unref_order (h : c.Ok l) (hi : i < NBUF) : (c.unref i).order =
    if ((c.unref i).buf i).refcnt = 0 then i :: l.erase i else l := by
  split
  · next hz => exact (h.unref_front hi hz).iterate.1
  · next hz => exact (h.unref_same hz).iterate.1

theorem Ok.brelse [DecidableEq T] {t : T} (h : c.Ok l) (hi : i < NBUF)
    (hr : c.brelse t i = .ok () c') :
    c'.buf = (c.set i { c.buf i with lock := none, refcnt := uintPred (c.buf i).refcnt }).buf ∧
      c'.order = if (c'.buf i).refcnt = 0 then i :: l.erase i else l := by
  unfold LinkedCache.brelse at hr
  split at hr
  · cases hr
    refine ⟨?_, h.set.unref_order hi⟩
    rw [unref_buf, set_self]
    exact update_idem ..
  · cases hr

/-! ## Runs -/

theorem Ok.step (h : c.Ok l) (hs : Step c c') : ∃ l', c'.Ok l' := by
  cases hs with
  | bget hb => exact ⟨l, h.bget hb⟩
  | @unref i hi =>
    by_cases hz : ((c.unref i).buf i).refcnt = 0
    · exact ⟨_, h.unref_front hi hz⟩
    · exact ⟨l, h.unref_same hz⟩
  | use => exact ⟨l, h.set⟩

theorem Reach.ok (h : Reach c) : c.Ok c.order := by
  have hex : ∃ l, c.Ok l := by
    induction h with
    | binit => exact ⟨_, binit_ok zero⟩
    | step _ hs ih =>
      obtain ⟨l, hl⟩ := ih
      exact hl.step hs
  obtain ⟨l, hl⟩ := hex
  rw [hl.iterate.1]
  exact hl

/-- The buffer list is always a ring of all buffers. A `brelse` that drops the last reference moves
    the buffer to the front and no other. `bget` leaves the list alone: it takes a reference to the
    first buffer that holds the block, and only if there is none recycles the unused buffer that is
    farthest from the front, and only if there is none of these panics. -/
theorem list_is_ring [DecidableEq T] (h : Reach c) :
    (c.order.Perm (range NBUF) ∧ c.links.next^[NBUF + 1] head = head) ∧
    (∀ x ≤ NBUF, c.links.prev (c.links.next x) = x ∧ c.links.next (c.links.prev x) = x) ∧
    (∀ t, ∀ i < NBUF, ∀ c', c.brelse t i = .ok () c' →
      c'.buf = (c.set i { c.buf i with lock := none, refcnt := uintPred (c.buf i).refcnt }).buf ∧
      c'.order = if (c'.buf i).refcnt = 0 then i :: c.order.erase i else c.order) ∧
    (∀ dev blockno i c', c.bget dev blockno = .ok i c' → c'.order = c.order) ∧
    ∀ dev blockno, c.Gets c.order dev blockno (c.bget dev blockno) := by
  have hok := h.ok
  exact ⟨⟨hok.all, hok.iterate.2⟩, fun x hx => hok.inverse hx, fun t i hi c' hr => hok.brelse hi hr,
    fun dev blockno i c' hb => (hok.bget hb).iterate.1, hok.gets⟩

/-! A run: process 0 takes the first buffer for block 7 of device 1, locks it and releases it, so
that the second buffer is the next to be recycled. -/

/-- After `bget`. -/
def got : LinkedCache Nat :=
  zero.binit.set 0 { zero.buf 0 with dev := 1, blockno := 7, refcnt := 1 }

/-- After `acquiresleep`. -/
def locked : LinkedCache Nat := got.set 0 { got.buf 0 with lock := some 0 }

/-- After `brelse`. -/
def released : LinkedCache Nat := (locked.set 0 { locked.buf 0 with lock := none }).unref 0

theorem binit_bget : (zero.binit : LinkedCache Nat).bget 1 7 = .ok 0 got := by
  have hf : ((range NBUF).reverse.find? fun i => ((zero : LinkedCache Nat).buf i).dev == 1 &&
      ((zero : LinkedCache Nat).buf i).blockno == 7) = none := by decide
  have hv : ((range NBUF).reverse.reverse.find? fun i =>
      ((zero : LinkedCache Nat).buf i).refcnt == 0) = some 0 := by decide
  have hbuf : (zero.binit : LinkedCache Nat).buf = zero.buf := rfl
  rw [(binit_ok zero).bget_eq, hbuf, hf, hv]
  rfl

theorem locked_reach : Reach locked := .step (.step .binit (.bget binit_bget)) (.use rfl rfl)

theorem locked_ok : locked.Ok (range NBUF).reverse := ((binit_ok zero).bget binit_bget).set

theorem locked_refcnt : (locked.buf 0).refcnt = 1 := by
  simp only [locked, got, set_self]

theorem locked_brelse : locked.brelse 0 0 = .ok () released := by
  refine if_pos ?_
  simp only [locked, set_self]

theorem released_reach : Reach released := by
  refine .step (.step locked_reach ?_) (.unref (by decide))
  exact .use rfl rfl

theorem released_buf : released.buf =
    (zero.set 0 { zero.buf 0 with dev := 1, blockno := 7, refcnt := 0 }).buf := by
  have hpred : uintPred 1 = 0 := by
    unfold uintPred
    rfl
  unfold released
  rw [unref_buf, set_self]
  simp only [locked_refcnt, hpred]
  simp only [LinkedCache.set, locked, got, update_idem, update_self]
  rfl

theorem released_refcnt : (released.buf 0).refcnt = 0 := by
  rw [released_buf]
  rfl

theorem released_ok : released.Ok (0 :: (range NBUF).reverse.erase 0) :=
  locked_ok.set.unref_front (by decide) released_refcnt

theorem released_bget : released.bget 1 8 =
    .ok 1 (released.set 1 { released.buf 1 with dev := 1, blockno := 8, valid := false, refcnt := 1 }) := by
  have hf : ((0 :: (range NBUF).reverse.erase 0).find? fun i => (released.buf i).dev == 1 &&
      (released.buf i).blockno == 8) = none := by
    rw [released_buf]
    decide
  have hv : ((0 :: (range NBUF).reverse.erase 0).reverse.find? fun i =>
      (released.buf i).refcnt == 0) = some 1 := by
    rw [released_buf]
    decide
  rw [released_ok.bget_eq, hf, hv]

theorem list_is_ring_run : (zero.binit : LinkedCache Nat).bget 1 7 = .ok 0 got ∧
    locked.brelse 0 0 = .ok () released ∧ (released.buf 0).refcnt = 0 ∧
    released.order = 0 :: (range NBUF).reverse.erase 0 ∧
    ∃ c, released.bget 1 8 = .ok 1 c ∧ c.Holds 1 8 1 ∧ c.order = released.order := by
  have horder := ((list_is_ring locked_reach).2.2.1 0 0 (by decide) _ locked_brelse).2
  rw [if_pos released_refcnt, locked_ok.iterate.1] at horder
  refine ⟨binit_bget, locked_brelse, released_refcnt, horder, _, released_bget, ?_, ?_⟩
  · unfold Holds
    rw [set_self]
    exact ⟨rfl, rfl⟩
  · exact (list_is_ring released_reach).2.2.2.1 1 8 1 _ released_bget

/-! ## The list without pointers -/

/-- The cache as `Bcache` has it. -/
def abs (c : LinkedCache T) : Bcache T := ⟨c.buf, c.order⟩

theorem abs_binit : (zero.binit : LinkedCache T).abs = Bcache.binit := by
  unfold abs Bcache.binit
  rw [(binit_ok zero).iterate.1]
  rfl

/-- Where no count overflows, `bget` does what it does in `Bcache`. -/
theorem bget_refines (h : Reach c) (hcount : ∀ j < NBUF, (c.buf j).refcnt + 1 < 2 ^ 32) :
    c.abs.bget dev blockno =
      match c.bget dev blockno with
      | .ok i c' => some (i, c'.abs)
      | _ => none := by
  have hok := h.ok
  rw [hok.bget_eq]
  unfold Bcache.bget Bcache.lookup Bcache.victim
  simp only [abs]
  cases hf : c.order.find? fun i => (c.buf i).dev == dev && (c.buf i).blockno == blockno with
  | some i =>
    have hi := hok.mem.mp (mem_of_find?_eq_some hf)
    dsimp only
    rw [Nat.mod_eq_of_lt (hcount i hi)]
    rfl
  | none =>
    dsimp only
    cases c.order.reverse.find? fun i => (c.buf i).refcnt == 0 with
    | some i => rfl
    | none => rfl

/-- A buffer that is in use is released as in `Bcache`. -/
theorem unref_refines (h : Reach c) (hi : i < NBUF)
    (hcount : 0 < (c.buf i).refcnt ∧ (c.buf i).refcnt < 2 ^ 32) :
    (c.unref i).abs = c.abs.unref i := by
  have hpred : uintPred (c.buf i).refcnt = (c.buf i).refcnt - 1 := by
    unfold uintPred
    omega
  have horder := h.ok.unref_order hi
  have hbuf : (c.unref i).buf = (c.abs.unref i).buf := by
    rw [Bcache.unref_buf, unref_buf, hpred]
    rfl
  rw [unref_refcnt, hpred] at horder
  have hlru : (c.abs.unref i).lru =
      if (c.buf i).refcnt - 1 = 0 then i :: c.order.erase i else c.order := by
    unfold Bcache.unref
    dsimp only
    rw [Bcache.set_buf_self]
    by_cases hz : (c.buf i).refcnt - 1 = 0
    · rw [if_pos hz]
      exact congrArg Bcache.lru (if_pos hz)
    · rw [if_neg hz]
      exact congrArg Bcache.lru (if_neg hz)
  exact congrArg₂ Bcache.mk hbuf (horder.trans hlru.symm)

/-- A run in which no count overflows, and what `Bcache` does meanwhile. -/
inductive Follows : LinkedCache T → Bcache T → Prop
  | binit : Follows zero.binit Bcache.binit
  | bget {c c' : LinkedCache T} {d d' : Bcache T} {dev blockno i k : Nat} (h : Follows c d)
      (hcount : ∀ j < NBUF, (c.buf j).refcnt + 1 < 2 ^ 32) (hc : c.bget dev blockno = .ok i c')
      (hd : d.bget dev blockno = some (k, d')) : Follows c' d'
  | unref {c : LinkedCache T} {d : Bcache T} {i : Nat} (h : Follows c d) (hi : i < NBUF)
      (hcount : 0 < (c.buf i).refcnt ∧ (c.buf i).refcnt < 2 ^ 32) : Follows (c.unref i) (d.unref i)
  | use {c : LinkedCache T} {d : Bcache T} {i : Nat} {b : Buf T} (h : Follows c d)
      (hdev : b.dev = (c.buf i).dev) (hblockno : b.blockno = (c.buf i).blockno) :
      Follows (c.set i b) (d.set i b)

theorem Follows.abs {d : Bcache T} (h : Follows c d) : Reach c ∧ d = c.abs := by
  induction h with
  | binit => exact ⟨.binit, abs_binit.symm⟩
  | bget _ hcount hc hd ih =>
    obtain ⟨hr, rfl⟩ := ih
    rw [bget_refines hr hcount, hc] at hd
    cases hd
    exact ⟨.step hr (.bget hc), rfl⟩
  | unref _ hi hcount ih =>
    obtain ⟨hr, rfl⟩ := ih
    exact ⟨.step hr (.unref hi), (unref_refines hr hi hcount).symm⟩
  | use _ hdev hblockno ih =>
    obtain ⟨hr, rfl⟩ := ih
    exact ⟨.step hr (.use hdev hblockno), rfl⟩

/-- The pointers implement the cache that the rest of the block layer is proved with: after any run
    the two have the same buffers in the same order, and `bget` finds or recycles the same one. -/
theorem pointers_refine {d : Bcache T} (h : Follows c d)
    (hcount : ∀ j < NBUF, (c.buf j).refcnt + 1 < 2 ^ 32) (dev blockno : Nat) :
    d.buf = c.buf ∧ d.lru = c.order ∧ (∀ i c', c.bget dev blockno = .ok i c' →
      ∃ d', d.bget dev blockno = some (i, d') ∧ Follows c' d') ∧
    (d.bget dev blockno = none ↔ c.bget dev blockno = .panic "bget: no buffers") := by
  obtain ⟨hr, rfl⟩ := h.abs
  have hbget : c.abs.bget dev blockno = _ := bget_refines hr hcount
  refine ⟨rfl, rfl, fun i c' hc => ?_, ?_⟩
  · rw [hc] at hbget
    exact ⟨c'.abs, hbget, h.bget hcount hc hbget⟩
  · rw [hbget]
    have hgets := hr.ok.gets dev blockno
    generalize c.bget dev blockno = r at hgets ⊢
    cases hgets <;> simp

theorem pointers_refine_run : ∃ d c' d', Follows released d ∧
    d.lru = 0 :: (range NBUF).reverse.erase 0 ∧ released.bget 1 8 = .ok 1 c' ∧
    d.bget 1 8 = some (1, d') ∧ (d'.buf 1).blockno = 8 := by
  obtain ⟨-, -, hgot, -⟩ := pointers_refine (T := Nat) .binit
    (fun _ _ => by show 0 + 1 < 2 ^ 32; decide) 1 7
  obtain ⟨d, -, hd⟩ := hgot 0 got binit_bget
  have hlocked : Follows locked _ := hd.use rfl rfl
  have hcount : 0 < (locked.buf 0).refcnt ∧ (locked.buf 0).refcnt < 2 ^ 32 := by
    rw [locked_refcnt]
    decide
  have hreleased : Follows released _ :=
    (hlocked.use (i := 0) (b := { locked.buf 0 with lock := none }) rfl rfl).unref (by decide) hcount
  have hcounts : ∀ j < NBUF, (released.buf j).refcnt + 1 < 2 ^ 32 := by
    rw [released_buf]
    decide
  obtain ⟨-, hlru, hnext, -⟩ := pointers_refine hreleased hcounts 1 8
  obtain ⟨d', hd', hf⟩ := hnext 1 _ released_bget
  refine ⟨_, _, d', hreleased, hlru.trans released_ok.iterate.1, released_bget, hd', ?_⟩
  rw [hf.abs.2]
  exact congrArg Buf.blockno set_self

/-! ## Least recently used -/

/-- A run with a clock: `last i` is the time of the last `brelse` that dropped the last reference to
    buffer `i`. A `bunpin` may drop it as well, but is a `use`: it neither moves the buffer nor takes
    time. -/
inductive Timed : LinkedCache T → (Nat → Nat) → Nat → Prop
  | binit : Timed zero.binit (fun _ => 0) 0
  | drop {c : LinkedCache T} {last : Nat → Nat} {now i : Nat} (h : Timed c last now) (hi : i < NBUF)
      (hz : ((c.unref i).buf i).refcnt = 0) :
      Timed (c.unref i) (update last i (now + 1)) (now + 1)
  | keep {c : LinkedCache T} {last : Nat → Nat} {now i : Nat} (h : Timed c last now)
      (hz : ((c.unref i).buf i).refcnt ≠ 0) : Timed (c.unref i) last now
  | bget {c c' : LinkedCache T} {last : Nat → Nat} {now dev blockno i : Nat} (h : Timed c last now)
      (hb : c.bget dev blockno = .ok i c') : Timed c' last now
  | use {c : LinkedCache T} {last : Nat → Nat} {now i : Nat} {b : Buf T} (h : Timed c last now) :
      Timed (c.set i b) last now

/-- The list is in the order of the clock. -/
theorem Timed.sorted {last : Nat → Nat} {now : Nat} (h : Timed c last now) :
    ∃ l, c.Ok l ∧ (∀ i, last i ≤ now) ∧ l.Pairwise fun i j => last j ≤ last i := by
  induction h with
  | binit =>
    exact ⟨_, binit_ok zero, fun _ => le_rfl, pairwise_of_forall fun _ _ => le_rfl⟩
  | @drop c last now i _ hi hz ih =>
    obtain ⟨l, hok, hnow, hl⟩ := ih
    have hother : ∀ j ∈ l.erase i, update last i (now + 1) j = last j := by
      intro j hj
      refine update_of_ne ?_ ..
      exact ((hok.all.nodup_iff.mpr nodup_range).mem_erase_iff.mp hj).1
    refine ⟨_, hok.unref_front hi hz, fun j => ?_, pairwise_cons.mpr ⟨fun j hj => ?_, ?_⟩⟩
    · by_cases hj : j = i
      · rw [hj, update_self]
      · rw [update_of_ne hj]
        exact Nat.le_succ_of_le (hnow j)
    · rw [hother j hj, update_self]
      exact Nat.le_succ_of_le (hnow j)
    · refine (hl.sublist erase_sublist).imp_of_mem fun hj hk hle => ?_
      rwa [hother _ hj, hother _ hk]
  | keep _ hz ih =>
    obtain ⟨l, hok, hrest⟩ := ih
    exact ⟨l, hok.unref_same hz, hrest⟩
  | bget _ hb ih =>
    obtain ⟨l, hok, hrest⟩ := ih
    exact ⟨l, hok.bget hb, hrest⟩
  | use _ ih =>
    obtain ⟨l, hok, hrest⟩ := ih
    exact ⟨l, hok.set, hrest⟩

/-- In every run `bget` recycles, of the buffers that nobody uses, the one that was released for good
    the longest time ago. -/
theorem recycles_oldest {last : Nat → Nat} {now : Nat} (h : Timed c last now)
    (hno : ∀ j < NBUF, ¬ ((c.buf j).dev = dev ∧ (c.buf j).blockno = blockno))
    (hb : c.bget dev blockno = .ok i c') :
    (c.buf i).refcnt = 0 ∧ ∀ j < NBUF, (c.buf j).refcnt = 0 → last i ≤ last j := by
  obtain ⟨l, hok, -, hl⟩ := h.sorted
  obtain ⟨hz, l₁, l₂, rfl, hused⟩ := hok.recycles hno hb
  refine ⟨hz, fun j hj hjz => ?_⟩
  rcases mem_append.mp (hok.mem.mpr hj) with hj | hj
  · exact (pairwise_append.mp hl).2.2 j hj i mem_cons_self
  · rcases mem_cons.mp hj with rfl | hj
    · exact le_rfl
    · exact absurd hjz (hused j hj)

theorem recycles_oldest_run : ∃ last, Timed released last 1 ∧ (released.buf 0).refcnt = 0 ∧
    (released.buf 1).refcnt = 0 ∧ last 1 ≤ last 0 ∧ last 0 = 1 := by
  have ht : Timed released (update (fun _ => 0) 0 1) 1 :=
    .drop (.use (.use (.bget .binit binit_bget))) (by decide) released_refcnt
  have hno : ∀ j < NBUF, ¬ ((released.buf j).dev = 1 ∧ (released.buf j).blockno = 8) := by
    rw [released_buf]
    decide
  obtain ⟨hone, holdest⟩ := recycles_oldest ht hno released_bget
  exact ⟨_, ht, released_refcnt, hone, holdest 0 (by decide) released_refcnt, update_self ..⟩

end LinkedCache
end Xv6
