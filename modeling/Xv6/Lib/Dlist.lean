import Mathlib.Tactic

/-!
# Circular doubly linked lists

Nodes are linked by two functions, `next` and `prev`. `Chain L a l b` says that following `next` from
`a` leads through the nodes of `l`, in this order, to `b`, and that `prev` leads back. A list with a
head is a chain from the head to itself.

The two operations are those of every such list: a node is unlinked by connecting its neighbours, and
is linked in behind the head. Both are sequences of single assignments, in the usual order, and the
proofs account for neighbours that are the same node. A walk along the list visits `l` and stops at
the head.
-/

namespace Xv6.Lib

open Function List

/-- The pointers of a set of nodes. -/
structure Links (ν : Type) where
  next : ν → ν
  prev : ν → ν

variable {ν : Type}

/-- The same nodes the other way round. -/
def Links.flip (L : Links ν) : Links ν := ⟨L.prev, L.next⟩

/-- From `a` through `l` to `b`, and back. -/
def Chain (L : Links ν) (a : ν) : List ν → ν → Prop
  | [], b => L.next a = b ∧ L.prev b = a
  | x :: l, b => L.next a = x ∧ L.prev x = a ∧ Chain L x l b

/-- `l` is the list behind `head`. -/
structure Dlist (L : Links ν) (head : ν) (l : List ν) : Prop where
  nodup : (head :: l).Nodup
  chain : Chain L head l head

section

variable [DecidableEq ν]

/-- `x->next = y` -/
def Links.setNext (L : Links ν) (x y : ν) : Links ν := { L with next := update L.next x y }

/-- `x->prev = y` -/
def Links.setPrev (L : Links ν) (x y : ν) : Links ν := { L with prev := update L.prev x y }

/-- `x->next->prev = x->prev; x->prev->next = x->next;` -/
def Links.unlink (L : Links ν) (x : ν) : Links ν :=
  let L := L.setPrev (L.next x) (L.prev x)
  L.setNext (L.prev x) (L.next x)

/-- `x->next = head.next; x->prev = &head; head.next->prev = x; head.next = x;` -/
def Links.linkFront (L : Links ν) (head x : ν) : Links ν :=
  let L := L.setNext x (L.next head)
  let L := L.setPrev x head
  let L := L.setPrev (L.next head) x
  L.setNext head x

/-- `for(b = ...; b != stop; b = b->next) if(p(b)) return b;` from `b` on, for `n` rounds. -/
def Links.find (L : Links ν) (stop : ν) (p : ν → Bool) : (n : Nat) → ν → Option (Option ν)
  | 0, _ => none
  | n + 1, b =>
    if b = stop then some none
    else if p b then some (some b)
    else L.find stop p n (L.next b)

end

/-! ## Chains -/

section

variable {L L' : Links ν} {a b x head : ν} {l l₁ l₂ : List ν}

theorem chain_append : Chain L a (l₁ ++ x :: l₂) b ↔ Chain L a l₁ x ∧ Chain L x l₂ b := by
  induction l₁ generalizing a with
  | nil => simp only [nil_append, Chain, and_assoc]
  | cons y l₁ ih => simp only [cons_append, Chain, ih, and_assoc]

/-- A chain depends on `next` of its nodes but the last and on `prev` of its nodes but the first. -/
theorem Chain.congr (h : Chain L a l b) (hn : ∀ x ∈ a :: l, L'.next x = L.next x)
    (hp : ∀ x ∈ l ++ [b], L'.prev x = L.prev x) : Chain L' a l b := by
  induction l generalizing a with
  | nil =>
    refine ⟨?_, ?_⟩
    · rw [hn a mem_cons_self]
      exact h.1
    · rw [hp b mem_cons_self]
      exact h.2
  | cons x l ih =>
    refine ⟨?_, ?_, ih h.2.2 (fun y hy => ?_) fun y hy => ?_⟩
    · rw [hn a mem_cons_self]
      exact h.1
    · rw [hp x mem_cons_self]
      exact h.2.1
    · exact hn y (mem_cons_of_mem _ hy)
    · exact hp y (mem_cons_of_mem _ hy)

theorem Chain.flip (h : Chain L a l b) : Chain L.flip b l.reverse a := by
  induction l generalizing a with
  | nil => exact ⟨h.2, h.1⟩
  | cons x l ih =>
    rw [reverse_cons, chain_append]
    exact ⟨ih h.2.2, h.2.1, h.1⟩

theorem Dlist.flip (h : Dlist L head l) : Dlist L.flip head l.reverse := by
  refine ⟨?_, h.chain.flip⟩
  have := h.nodup
  simp only [nodup_cons, mem_reverse, nodup_reverse] at this ⊢
  exact this

/-- The node after a node of the chain is a later one, or the end. -/
theorem Chain.next_mem (h : Chain L a l b) : L.next a ∈ l ++ [b] := by
  cases l with
  | nil => simp [h.1]
  | cons x l => simp [h.1]

theorem Chain.prev_mem (h : Chain L a l b) : L.prev b ∈ a :: l := by
  have := h.flip.next_mem
  simpa [Links.flip, or_comm] using this

/-- `prev` undoes `next` at the nodes but the last. -/
theorem Chain.prev_next (h : Chain L a l b) (hx : x ∈ a :: l) : L.prev (L.next x) = x := by
  induction l generalizing a with
  | nil =>
    rw [mem_singleton.mp hx, h.1]
    exact h.2
  | cons y l ih =>
    rcases mem_cons.mp hx with rfl | hx
    · rw [h.1]
      exact h.2.1
    · exact ih h.2.2 hx

/-- The nodes that are reached from `a`. -/
theorem Chain.iterate (h : Chain L a l b) :
    (range (l.length + 1)).map (fun k => L.next^[k + 1] a) = l ++ [b] := by
  induction l generalizing a with
  | nil => simp [h.1]
  | cons x l ih =>
    rw [length_cons, range_succ_eq_map, map_cons, map_map, cons_append]
    refine congrArg₂ cons h.1 (Eq.trans (map_congr_left fun k _ => ?_) (ih h.2.2))
    rw [comp_apply, iterate_succ_apply, h.1]

variable [DecidableEq ν]

@[simp] theorem setNext_next (y : ν) : (L.setNext x y).next = update L.next x y := rfl

@[simp] theorem setNext_prev (y : ν) : (L.setNext x y).prev = L.prev := rfl

@[simp] theorem setPrev_prev (y : ν) : (L.setPrev x y).prev = update L.prev x y := rfl

@[simp] theorem setPrev_next (y : ν) : (L.setPrev x y).next = L.next := rfl

/-! ## Unlinking -/

/-- A node whose neighbours are not itself. -/
theorem unlink_eq (h : L.next x ≠ x) :
    (L.unlink x).next = update L.next (L.prev x) (L.next x) ∧
      (L.unlink x).prev = update L.prev (L.next x) (L.prev x) := by
  simp [Links.unlink, update_of_ne h.symm]

theorem Chain.unlink (h₁ : Chain L a l₁ x) (h₂ : Chain L x l₂ b)
    (hnd : (a :: (l₁ ++ x :: l₂)).Nodup) (hb : b ∉ l₁ ++ x :: l₂) :
    Chain (L.unlink x) a (l₁ ++ l₂) b := by
  have hne : L.next x ≠ x := by
    intro heq
    have hmem := h₂.next_mem
    rw [heq, mem_append, mem_singleton] at hmem
    rcases hmem with hmem | rfl
    · simp only [nodup_cons, nodup_append] at hnd
      exact hnd.2.2.1.1 hmem
    · exact hb (by simp)
  obtain ⟨hnext, hprev⟩ := unlink_eq hne
  -- the nodes before `x` keep their links until its neighbour comes
  induction l₁ generalizing a with
  | nil =>
    rw [h₁.2] at hnext hprev
    simp only [nil_append, nodup_cons, mem_cons, not_or] at hnd hb ⊢
    cases l₂ with
    | nil =>
      refine ⟨?_, ?_⟩
      · rw [hnext, update_self]
        exact h₂.1
      · rw [hprev, h₂.1, update_self]
    | cons y l₂ =>
      refine ⟨?_, ?_, h₂.2.2.congr (fun z hz => ?_) fun z hz => ?_⟩
      · rw [hnext, update_self]
        exact h₂.1
      · rw [hprev, h₂.1, update_self]
      · rw [hnext, update_of_ne]
        rintro rfl
        exact hnd.1.2 hz
      · rw [hprev, h₂.1, update_of_ne]
        rintro rfl
        rcases mem_append.mp hz with hz | hz
        · exact (nodup_cons.mp hnd.2.2).1 hz
        · rw [mem_singleton.mp hz] at hb
          exact hb.2 mem_cons_self
  | cons y l₁ ih =>
    obtain ⟨hay, hya, h₁⟩ := h₁
    obtain ⟨hanot, hnd'⟩ := nodup_cons.mp hnd
    have hb' : b ∉ l₁ ++ x :: l₂ := fun hm => hb (mem_cons_of_mem _ hm)
    refine ⟨?_, ?_, ih h₁ hnd' hb'⟩
    · rw [hnext, update_of_ne]
      · exact hay
      · intro heq
        have hmem := h₁.prev_mem
        rw [← heq] at hmem
        exact hanot (mem_append.mpr (.inl hmem))
    · rw [hprev, update_of_ne]
      · exact hya
      · intro heq
        have hmem := h₂.next_mem
        rw [← heq, mem_append, mem_singleton] at hmem
        rcases hmem with hmem | hmem
        · refine (nodup_cons.mp hnd').1 (mem_append.mpr (.inr ?_))
          exact mem_cons_of_mem _ hmem
        · exact hb (hmem ▸ mem_cons_self)

theorem Dlist.unlink (h : Dlist L head (l₁ ++ x :: l₂)) : Dlist (L.unlink x) head (l₁ ++ l₂) := by
  obtain ⟨h₁, h₂⟩ := chain_append.mp h.chain
  obtain ⟨hhead, hnd⟩ := nodup_cons.mp h.nodup
  refine ⟨nodup_cons.mpr ⟨fun hm => hhead ?_, ?_⟩, h₁.unlink h₂ h.nodup hhead⟩
  · rcases mem_append.mp hm with hm | hm
    · exact mem_append.mpr (.inl hm)
    · exact mem_append.mpr (.inr (mem_cons_of_mem _ hm))
  · exact hnd.sublist (List.Sublist.append_left (sublist_cons_self x l₂) l₁)

/-! ## Linking in -/

theorem linkFront_eq (hx : x ≠ head) :
    (L.linkFront head x).next =
        update (update L.next x (L.next head)) head x ∧
      (L.linkFront head x).prev =
        update (update L.prev x head) (L.next head) x := by
  simp [Links.linkFront, update_of_ne hx.symm]

theorem Dlist.linkFront (h : Dlist L head l) (hx : x ∉ head :: l) :
    Dlist (L.linkFront head x) head (x :: l) := by
  obtain ⟨hxh, hxl⟩ := not_or.mp (fun hm => hx (mem_cons.mpr hm))
  obtain ⟨hhead, hnd⟩ := nodup_cons.mp h.nodup
  obtain ⟨hnext, hprev⟩ := linkFront_eq (L := L) hxh
  have hne : x ≠ L.next head := by
    intro heq
    have hmem := h.chain.next_mem
    rw [← heq] at hmem
    rcases mem_append.mp hmem with hmem | hmem
    · exact hxl hmem
    · exact hxh (mem_singleton.mp hmem)
  refine ⟨?_, ?_, ?_, ?_⟩
  · rw [nodup_cons, mem_cons, not_or]
    exact ⟨⟨Ne.symm hxh, hhead⟩, nodup_cons.mpr ⟨hxl, hnd⟩⟩
  · rw [hnext, update_self]
  · rw [hprev, update_of_ne hne, update_self]
  · have hch := h.chain
    cases l with
    | nil =>
      refine ⟨?_, ?_⟩
      · rw [hnext, update_of_ne hxh, update_self]
        exact hch.1
      · rw [hprev, hch.1, update_self]
    | cons y l =>
      refine ⟨?_, ?_, hch.2.2.congr (fun z hz => ?_) fun z hz => ?_⟩
      · rw [hnext, update_of_ne hxh, update_self]
        exact hch.1
      · rw [hprev, hch.1, update_self]
      · rw [hnext, update_of_ne, update_of_ne]
        · exact fun heq => hxl (heq ▸ hz)
        · exact fun heq => hhead (heq ▸ hz)
      · rw [hprev, hch.1, update_of_ne, update_of_ne]
        · rintro rfl
          rcases mem_append.mp hz with hz | hz
          · exact hxl (mem_cons_of_mem _ hz)
          · exact hxh (mem_singleton.mp hz)
        · rintro rfl
          rcases mem_append.mp hz with hz | hz
          · exact (nodup_cons.mp hnd).1 hz
          · exact hhead (mem_singleton.mp hz ▸ mem_cons_self)

/-! ## Walks -/

theorem Chain.find {n : Nat} {p : ν → Bool} (h : Chain L a l b) (hb : b ∉ l) (hn : l.length < n) :
    L.find b p n (L.next a) = some (l.find? p) := by
  induction l generalizing a n with
  | nil =>
    obtain _ | m := n
    · omega
    rw [Links.find, if_pos h.1]
    rfl
  | cons x l ih =>
    obtain _ | m := n
    · omega
    have hxb : x ≠ b := fun heq => hb (heq ▸ mem_cons_self)
    rw [h.1, Links.find, if_neg hxb]
    cases hp : p x with
    | true => rw [if_pos rfl, find?_cons_of_pos hp]
    | false =>
      rw [if_neg Bool.false_ne_true, find?_cons_of_neg (by simp [hp])]
      exact ih h.2.2 (fun hm => hb (mem_cons_of_mem _ hm)) (Nat.lt_of_succ_lt_succ hn)

/-- The walk from `head.next` on. -/
theorem Dlist.find {n : Nat} {p : ν → Bool} (h : Dlist L head l) (hn : l.length < n) :
    L.find head p n (L.next head) = some (l.find? p) :=
  h.chain.find (nodup_cons.mp h.nodup).1 hn

end

end Xv6.Lib
