import Xv6.Fs.Read
import Xv6.Fs.Store

/-!
# Allocating blocks

What `balloc` and `bmap` do when they are executed alone. Each `log_write` needs a place in the log;
`Room sb E s m` says that there are `m` of them, or that running out of places is among the ways `E`
in which a program may stop short.
-/

namespace Xv6.Fs

open Lib Function

variable {sb : Superblock} {s s' s'' : State} {E : Option String → Prop} {D D' D'' : Nat → Dinode}
  {ip i j k m n b c x bn : Nat} {v : Block}

/-! ## The log -/

/-- The state after `log_write` of block `b` with the contents `v`. -/
def State.wrote (s : State) (b : Nat) (v : Block) : State :=
  { s.setBlock b v with logged := absorb s.logged b }

/-- There is room for `m` more blocks in the log, unless `E` allows that there is not. -/
def Room (sb : Superblock) (E : Option String → Prop) (s : State) (m : Nat) : Prop :=
  E (some "too big a transaction") ∨
    s.logged.length + m ≤ LOGSIZE ∧ s.logged.length + m < sb.nlog

/-- The log has at most `m` more blocks, and it has every block that was changed. -/
structure Logs (s s' : State) (m : Nat) : Prop where
  length : s'.logged.length ≤ s.logged.length + m
  subset : s.logged ⊆ s'.logged
  changed : ∀ b, s'.disk b = s.disk b ∨ b ∈ s'.logged
  outstanding : s'.outstanding = s.outstanding
  safe : s'.safe = s.safe

theorem Logs.refl (s : State) : Logs s s 0 :=
  ⟨le_rfl, List.Subset.refl _, fun _ => .inl rfl, rfl, rfl⟩

theorem Logs.trans (h : Logs s s' m) (h' : Logs s' s'' n) : Logs s s'' (m + n) := by
  refine ⟨?_, List.Subset.trans h.subset h'.subset, fun b => ?_, h'.outstanding.trans h.outstanding,
    h'.safe.trans h.safe⟩
  · have := h.length
    have := h'.length
    omega
  · rcases h'.changed b with hb | hb
    · rcases h.changed b with hb' | hb'
      · exact .inl (hb.trans hb')
      · exact .inr (h'.subset hb')
    · exact .inr hb

theorem Logs.mono (h : Logs s s' m) (hn : m ≤ n) : Logs s s' n :=
  ⟨h.length.trans (by omega), h.subset, h.changed, h.outstanding, h.safe⟩

theorem Logs.setInode (h : Logs s s' m) (x : Inode) : Logs s (s'.setInode ip x) m :=
  ⟨h.length, h.subset, h.changed, h.outstanding, h.safe⟩

theorem Room.after (h : Room sb E s n) (hl : Logs s s' m) (hn : m + k ≤ n) : Room sb E s' k := by
  refine h.imp_right fun hr => ?_
  have := hl.length
  omega

theorem absorb_length (l : List Nat) (b : Nat) : (absorb l b).length ≤ l.length + 1 := by
  rw [absorb]
  split
  · omega
  · rw [List.length_append, List.length_singleton]

theorem mem_absorb (l : List Nat) (b : Nat) : b ∈ absorb l b := by
  rw [absorb]
  split
  · assumption
  · exact List.mem_append_right _ List.mem_cons_self

theorem of_mem_absorb {l : List Nat} (h : x ∈ absorb l b) (hne : x ≠ b) : x ∈ l := by
  rw [absorb] at h
  split at h
  · exact h
  · rcases List.mem_append.mp h with h | h
    · exact h
    · exact absurd (List.mem_singleton.mp h) hne

theorem subset_absorb (l : List Nat) (b : Nat) : l ⊆ absorb l b := by
  rw [absorb]
  split
  · exact List.Subset.refl l
  · exact List.subset_append_left l [b]

theorem Logs.wrote (s : State) (b : Nat) (v : Block) : Logs s (s.wrote b v) 1 := by
  refine ⟨absorb_length .., subset_absorb .., fun c => ?_, rfl, rfl⟩
  by_cases hc : c = b
  · rw [hc]
    exact .inr (mem_absorb ..)
  · exact .inl (update_of_ne hc ..)

theorem logWrite_runs {ρ : Type} {f : State → Outcome State ρ} {r : ρ} {Q : ρ → State → Prop}
    (hroom : Room sb E s 1) (hout : 1 ≤ s.outstanding) (hf : f s = s.logWrite sb b v r)
    (h : Q r (s.wrote b v)) : (Prog.atomic f).Runs s E Q := by
  unfold Prog.Runs Prog.atomic
  rw [Prog.run_step, hf, State.logWrite]
  by_cases hfull : LOGSIZE ≤ s.logged.length ∨ sb.nlog ≤ s.logged.length + 1
  · rw [if_pos hfull]
    exact hroom.resolve_right fun hr => by omega
  · rw [if_neg hfull, if_neg (by omega)]
    exact h

/-! ## `balloc` -/

/-- The state after block `c` was allocated. -/
def State.alloc (sb : Superblock) (s : State) (c : Nat) : State :=
  (s.wrote (bblock sb c) (setBit (s.disk (bblock sb c)) (c % BPB))).wrote c zeroes

theorem Logs.alloc (sb : Superblock) (s : State) (c : Nat) : Logs s (s.alloc sb c) 2 :=
  (Logs.wrote ..).trans (Logs.wrote ..)

/-- The block with bit `k` of bitmap block `m`. -/
theorem bit_block (hk : k < BPB) : bblock sb (BPB * m + k) = bblock sb (BPB * m) := by
  rw [bblock, bblock, Nat.mul_add_div (by decide), Nat.div_eq_of_lt hk, add_zero,
    Nat.mul_div_cancel_left _ (by decide)]

theorem bit_mod (hk : k < BPB) : (BPB * m + k) % BPB = k := by
  rw [Nat.mul_add_mod, Nat.mod_eq_of_lt hk]

theorem ballocMark_runs {Q : Option Nat → State → Prop} (hroom : Room sb E s 1)
    (hout : 1 ≤ s.outstanding)
    (full : (∀ k < BPB, BPB * m + k < sb.size → InUse sb s.disk (BPB * m + k)) → Q none s)
    (got : ∀ c < sb.size, ¬ InUse sb s.disk c →
      Q (some c) (s.wrote (bblock sb c) (setBit (s.disk (bblock sb c)) (c % BPB)))) :
    (ballocMark sb (BPB * m)).Runs s E Q := by
  have huse : ∀ k < BPB, InUse sb s.disk (BPB * m + k) ↔
      bitOf (s.disk (bblock sb (BPB * m))) k = true := by
    intro k hk
    rw [InUse, bit_block hk, bit_mod hk]
  cases hf : (List.range BPB).find? fun bi =>
      decide (BPB * m + bi < sb.size ∧ bitOf (s.disk (bblock sb (BPB * m))) bi = false) with
  | none =>
    unfold Prog.Runs ballocMark Prog.atomic
    rw [Prog.run_step]
    simp only [hf]
    refine full fun k hk hlt => ?_
    have hno := find_range_none hf k hk
    rw [decide_eq_false_iff_not] at hno
    rw [huse k hk, ← Bool.not_eq_false]
    exact fun hc => hno ⟨hlt, hc⟩
  | some k =>
    obtain ⟨hk, hp⟩ := find_range hf
    rw [decide_eq_true_eq] at hp
    refine logWrite_runs hroom hout (by simp only [hf]; rfl) ?_
    have := got (BPB * m + k) hp.1 (by rw [huse k hk, hp.2]; exact Bool.false_ne_true)
    rwa [bit_block hk, bit_mod hk] at this

theorem ballocLoop_runs {Q : Nat → State → Prop} (hroom : Room sb E s 2) (hout : 1 ≤ s.outstanding)
    (full : (∀ c < sb.size, InUse sb s.disk c) → Q 0 s)
    (got : ∀ c < sb.size, ¬ InUse sb s.disk c → Q c (s.alloc sb c))
    (hbefore : ∀ c < BPB * m, c < sb.size → InUse sb s.disk c) (hn : sb.size ≤ BPB * (m + n)) :
    (ballocLoop sb n (BPB * m)).Runs s E Q := by
  induction n generalizing m with
  | zero =>
    rw [add_zero] at hn
    exact .ret (full fun c hc => hbefore c (by omega) hc)
  | succ n ih =>
    refine .seq (ballocMark_runs (hroom.after (Logs.refl s) (by omega)) hout (fun hall => ?_)
      fun c hc hfree => ?_)
    · refine ih (m := m + 1) (fun c hc hlt => ?_) (by rw [add_assoc, add_comm 1]; exact hn)
      by_cases hcm : c < BPB * m
      · exact hbefore c hcm hlt
      · have := hall (c - BPB * m) (by rw [Nat.mul_succ] at hc; omega) (by omega)
        rwa [show BPB * m + (c - BPB * m) = c by omega] at this
    · exact .seq (logWrite_runs (hroom.after (Logs.wrote ..) le_rfl) hout rfl
        (.ret (got c hc hfree)))

theorem balloc_runs {Q : Nat → State → Prop} (hroom : Room sb E s 2) (hout : 1 ≤ s.outstanding)
    (full : (∀ c < sb.size, InUse sb s.disk c) → Q 0 s)
    (got : ∀ c < sb.size, ¬ InUse sb s.disk c → Q c (s.alloc sb c)) : (balloc sb).Runs s E Q := by
  refine ballocLoop_runs hroom hout full got (m := 0) (fun c hc => ?_) ?_
  · simp only [mul_zero] at hc
    omega
  · have := Nat.div_add_mod (sb.size + BPB - 1) BPB
    have := Nat.mod_lt (sb.size + BPB - 1) (show 0 < BPB by decide)
    rw [zero_add]
    omega

/-! ## `bmap` -/

/-- No block of an inode is moved, and the new blocks of inode `i` are in the log. -/
structure Moves (i : Nat) (s s' : State) (D D' : Nat → Dinode) : Prop where
  kept : ∀ j x, slotOf s.disk (D j) x ≠ 0 → slotOf s'.disk (D' j) x = slotOf s.disk (D j) x
  fresh : ∀ x, slotOf s.disk (D i) x = 0 → slotOf s'.disk (D' i) x ≠ 0 →
    slotOf s'.disk (D' i) x ∈ s'.logged
  logged : s.logged ⊆ s'.logged

theorem Moves.refl : Moves i s s D D :=
  ⟨fun _ _ _ => rfl, fun _ h0 h => absurd h0 h, List.Subset.refl _⟩

theorem Moves.trans (h : Moves i s s' D D') (h' : Moves i s' s'' D' D'') :
    Moves i s s'' D D'' := by
  refine ⟨fun j x hx => ?_, fun x h0 hx => ?_, List.Subset.trans h.logged h'.logged⟩
  · have hk := h.kept j x hx
    exact (h'.kept j x (hk ▸ hx)).trans hk
  · by_cases h1 : slotOf s'.disk (D' i) x = 0
    · exact h'.fresh x h1 hx
    · rw [h'.kept i x h1]
      exact h'.logged (h.fresh x h0 h1)

/-- Block `c` is put in a place of inode `i` where there was none. -/
theorem Moves.give {y : Slot} (hi : slotOf s'.disk (D' i) = update (slotOf s.disk (D i)) y c)
    (hother : ∀ j ≠ i, slotOf s'.disk (D' j) = slotOf s.disk (D j)) (h0 : slotOf s.disk (D i) y = 0)
    (hc : c ∈ s'.logged) (hl : s.logged ⊆ s'.logged) : Moves i s s' D D' := by
  refine ⟨fun j x hx => ?_, fun x hx hx' => ?_, hl⟩
  · by_cases hj : j = i
    · subst hj
      rw [hi, update_of_ne]
      rintro rfl
      exact hx h0
    · rw [hother j hj]
  · by_cases hxy : x = y
    · rw [hi, hxy, update_self]
      exact hc
    · rw [hi, update_of_ne hxy] at hx'
      exact absurd hx hx'

/-- What becomes of the state and of the inodes `D` when inode `i`, which is `ip` in memory, gets
    blocks. -/
structure Grows (sb : Superblock) (ip i : Nat) (s s' : State) (D D' : Nat → Dinode) : Prop where
  blocks : Blocks sb s'.disk D'
  inodes : D' = update D i { D i with addrs := (D' i).addrs }
  memory : s'.inode = update s.inode ip { s.inode ip with din := D' i }
  dinodes : ∀ j < sb.ninodes, dinodeOf sb s'.disk j = dinodeOf sb s.disk j
  has : ∀ j k v, Has s.disk (D j) k v → Has s'.disk (D' j) k v
  moves : Moves i s s' D D'
  quiet : ∀ j bn, blockOf s.disk (D j) bn ≠ 0 → blockOf s.disk (D j) bn ∈ s'.logged →
    blockOf s.disk (D j) bn ∈ s.logged

theorem Grows.refl (h : Blocks sb s.disk D) (hip : (s.inode ip).din = D i) :
    Grows sb ip i s s D D := by
  refine ⟨h, (update_eq_self ..).symm, ?_, fun _ _ => rfl, fun _ _ _ hk => hk, .refl,
    fun _ _ _ hl => hl⟩
  rw [← hip]
  exact (update_eq_self ..).symm

theorem Grows.trans (h : Grows sb ip i s s' D D') (h' : Grows sb ip i s' s'' D' D'') :
    Grows sb ip i s s'' D D'' := by
  refine ⟨h'.blocks, ?_, ?_, fun j hj => (h'.dinodes j hj).trans (h.dinodes j hj),
    fun j k v hk => h'.has j k v (h.has j k v hk), h.moves.trans h'.moves,
    fun j bn h0 hl => h.quiet j bn h0 ?_⟩
  · rw [h'.inodes, h.inodes]
    simp only [update_self, update_idem]
  · rw [h'.memory, h.memory]
    simp only [update_self, update_idem]
  · have hk : blockOf s'.disk (D' j) bn = blockOf s.disk (D j) bn := h.moves.kept j _ h0
    rw [← hk] at h0 hl ⊢
    exact h'.quiet j bn h0 hl

theorem Grows.din (h : Grows sb ip i s s' D D') : (s'.inode ip).din = D' i := by
  rw [h.memory, update_self]

theorem bmapAddr_runs {Q : Nat → State → Prop} (hroom : Room sb E s 2) (hout : 1 ≤ s.outstanding)
    (there : (s.inode ip).din.addrs k ≠ 0 → Q ((s.inode ip).din.addrs k) s)
    (full : (s.inode ip).din.addrs k = 0 → (∀ c < sb.size, InUse sb s.disk c) → Q 0 s)
    (got : (s.inode ip).din.addrs k = 0 → ∀ c < sb.size, ¬ InUse sb s.disk c →
      Q c (if c = 0 then s.alloc sb c else (s.alloc sb c).setInode ip
        { s.inode ip with din := (s.inode ip).din.setAddr k c })) :
    (bmapAddr sb ip k).Runs s E Q := by
  refine .seq (inodeAt_runs ?_)
  by_cases h0 : (s.inode ip).din.addrs k = 0
  · rw [if_pos h0]
    refine .seq (balloc_runs hroom hout (fun hall => ?_) fun r hr hfree => ?_)
    · rw [if_pos rfl]
      exact .ret (full h0 hall)
    · have hq := got h0 r hr hfree
      by_cases hr0 : r = 0
      · rw [if_pos hr0] at hq ⊢
        exact .ret (hr0 ▸ hq)
      · rw [if_neg hr0] at hq ⊢
        exact .seq (onDin_runs (.ret hq))
  · rw [if_neg h0]
    exact .ret (there h0)

theorem bmapEntry_runs {Q : Nat → State → Prop} (hroom : Room sb E s 3) (hout : 1 ≤ s.outstanding)
    (there : (s.disk x).u32 (4 * bn) ≠ 0 → Q ((s.disk x).u32 (4 * bn)) s)
    (full : (s.disk x).u32 (4 * bn) = 0 → (∀ c < sb.size, InUse sb s.disk c) → Q 0 s)
    (got : (s.disk x).u32 (4 * bn) = 0 → ∀ c < sb.size, ¬ InUse sb s.disk c →
      Q c (if c = 0 then s.alloc sb c else (s.alloc sb c).wrote x
        (((s.alloc sb c).disk x).setU32 (4 * bn) c))) :
    (bmapEntry sb x bn).Runs s E Q := by
  refine .seq (bread_runs ?_)
  split
  · next h0 =>
    refine .seq (balloc_runs (hroom.after (Logs.refl s) (by omega)) hout (fun hall => ?_)
      fun r hr hfree => ?_)
    · rw [if_pos rfl]
      exact .ret (full h0 hall)
    · have hq := got h0 r hr hfree
      by_cases hr0 : r = 0
      · rw [if_pos hr0] at hq ⊢
        exact .ret (hr0 ▸ hq)
      · rw [if_neg hr0] at hq ⊢
        exact .seq (logWrite_runs (hroom.after (Logs.alloc sb s r) le_rfl) hout rfl (.ret hq))
  · next h0 =>
    exact .ret (there h0)

section

variable (hsb : sb.Ok) (h : Blocks sb s.disk D) (hip : (s.inode ip).din = D i) (hhi : c < sb.size)
  (hfree : ¬ InUse sb s.disk c)
include h

theorem Blocks.free_data (hfree : ¬ InUse sb s.disk c) : sb.data ≤ c := by
  by_contra hlt
  exact hfree (h.metadata c (by omega))

include hsb hhi hfree

theorem Blocks.alloc_dinode (hj : j < sb.ninodes) :
    dinodeOf sb (allocDisk sb s.disk c) j = dinodeOf sb s.disk j := by
  have hne := iblock_ne hsb hj hhi (h.free_data hfree)
  rw [allocDisk, dinodeOf_update _ hne.1, dinodeOf_update _ hne.2]

/-- The blocks that an allocation logs hold no bytes of files. -/
theorem Blocks.alloc_quiet (j bn : Nat) (h0 : blockOf s.disk (D j) bn ≠ 0)
    (hl : blockOf s.disk (D j) bn ∈ (s.alloc sb c).logged) :
    blockOf s.disk (D j) bn ∈ s.logged := by
  have hx := data_le h (i := j) (s := dataSlot bn) rfl h0
  exact of_mem_absorb (of_mem_absorb hl (blockOf_ne_of_free h.owns (h.free_data hfree) hhi hfree j bn))
    (Ne.symm (bblock_ne hsb hx.1 hhi))

include hip

/-- An inode gets a block in its `addrs`. -/
theorem Grows.addr (hk : k ≤ NDIRECT) (h0 : (D i).addrs k = 0) :
    Grows sb ip i s
      ((s.alloc sb c).setInode ip { s.inode ip with din := (s.inode ip).din.setAddr k c })
      D (update D i ((D i).setAddr k c)) := by
  have hlo := h.free_data hfree
  have hslot : ∀ j, slotOf (allocDisk sb s.disk c) (D j) = slotOf s.disk (D j) :=
    fun j => funext (h.alloc_slot hsb hlo hhi hfree j)
  have hset : slotOf (allocDisk sb s.disk c) ((D i).setAddr k c) =
      update (slotOf s.disk (D i)) (.direct k) c := by
    by_cases hkn : k = NDIRECT
    · subst hkn
      rw [slotOf_setAddr_indirect h0 fun j => ?_, hslot]
      rw [allocDisk, update_self, zeroes_u32]
    · rw [slotOf_setAddr hkn, hslot]
  refine ⟨h.give_addr hsb hlo hhi hfree hk h0, ?_, ?_, fun j hj => h.alloc_dinode hsb hhi hfree hj,
    fun j l v hl => ?_, Moves.give (y := .direct k) ?_ (fun j hj => ?_) h0 (mem_absorb ..)
      (Logs.alloc sb s c).subset, h.alloc_quiet hsb hhi hfree⟩
  · rw [update_self]
    rfl
  · rw [update_self, ← hip]
    rfl
  · have hl' := h.alloc_has hsb hlo hhi hfree hl
    by_cases hj : j = i
    · subst hj
      rw [update_self]
      refine hl'.congr ?_ rfl
      have hne : dataSlot (l / BSIZE) ≠ .direct k := by
        intro he
        refine hl.1 ?_
        rw [blockOf, he]
        exact h0
      show slotOf (allocDisk sb s.disk c) _ _ = slotOf (allocDisk sb s.disk c) _ _
      rw [hset, update_of_ne hne, hslot]
    · rw [update_of_ne hj]
      exact hl'
  · rw [update_self]
    exact hset
  · rw [update_of_ne hj]
    exact hslot j

/-- An inode gets a block in an entry of its indirect block. -/
theorem Grows.entry (hj : j < NINDIRECT) (h0 : (D i).addrs NDIRECT = x) (hx : x ≠ 0)
    (he : (s.disk x).u32 (4 * j) = 0) :
    Grows sb ip i s
      ((s.alloc sb c).wrote x (((s.alloc sb c).disk x).setU32 (4 * j) c)) D D := by
  have hlo := h.free_data hfree
  have hrange := data_le h (i := i) (s := .direct NDIRECT) h0 hx
  have hslot : ∀ j, slotOf (allocDisk sb s.disk c) (D j) = slotOf s.disk (D j) :=
    fun j => funext (h.alloc_slot hsb hlo hhi hfree j)
  have hself : slotOf (update (allocDisk sb s.disk c) x
      ((allocDisk sb s.disk c x).setU32 (4 * j) c)) (D i) =
      update (slotOf s.disk (D i)) (.indirect j) c := by
    subst h0
    rw [slotOf_setEntry hx hj (by have := hsb.size; omega), hslot]
  have hother : ∀ i' ≠ i, slotOf (update (allocDisk sb s.disk c) x
      ((allocDisk sb s.disk c x).setU32 (4 * j) c)) (D i') = slotOf s.disk (D i') := by
    intro i' hi
    funext y
    rw [slotOf_update fun hne hc => hi ?_, hslot]
    exact congrArg Prod.fst (h.owns.inj (i', .direct NDIRECT) (i, .direct NDIRECT)
      (hc.trans h0.symm) hne)
  have hzero : slotOf s.disk (D i) (.indirect j) = 0 := by
    rw [slotOf, h0, if_neg hx, he]
  have hmoves : Moves i s
      ((s.alloc sb c).wrote x (((s.alloc sb c).disk x).setU32 (4 * j) c)) D D :=
    .give hself hother hzero (subset_absorb _ _ (mem_absorb ..))
      (List.Subset.trans (Logs.alloc sb s c).subset (subset_absorb ..))
  refine ⟨h.give_entry hsb hlo hhi hfree hj h0 hx he, (update_eq_self ..).symm, ?_,
    fun j hj => ?_, fun j' l v hl => ?_, hmoves, fun j' bn h1 hl => ?_⟩
  · rw [← hip]
    exact (update_eq_self ..).symm
  · show dinodeOf sb (update (allocDisk sb s.disk c) x _) j = _
    rw [dinodeOf_update _ (iblock_ne hsb hj hhi hrange.1).1, h.alloc_dinode hsb hhi hfree hj]
  · have hl' := h.alloc_has hsb hlo hhi hfree hl
    refine hl'.congr ?_ (update_of_ne (fun hc => ?_) ..)
    · exact (hmoves.kept j' _ hl.1).trans (congrFun (hslot j') _).symm
    · rw [blockOf, hslot] at hc
      exact not_indirect h.owns hc hx i h0
  · exact h.alloc_quiet hsb hhi hfree j' bn h1
      (of_mem_absorb hl fun hc => not_indirect h.owns hc hx i h0)

end

/-- What `bmap` leaves: the block of the file, or zero if there is none to be had. -/
structure Bmapped (sb : Superblock) (ip i bn : Nat) (s s' : State) (D D' : Nat → Dinode) (addr : Nat) :
    Prop where
  grows : Grows sb ip i s s' D D'
  logs : Logs s s' 5
  full : addr = 0 → ∀ c < sb.size, InUse sb s'.disk c
  block : blockOf s'.disk (D' i) bn = addr

theorem bmap_runs (hsb : sb.Ok) (h : Blocks sb s.disk D) (hip : (s.inode ip).din = D i)
    (hbn : bn < MAXFILE) (hroom : Room sb E s 5) (hout : 1 ≤ s.outstanding) :
    (bmap sb ip bn).Runs s E fun addr s' => ∃ D', Bmapped sb ip i bn s s' D D' addr := by
  unfold bmap
  by_cases hd : bn < NDIRECT
  · have hslot : ∀ disk d, blockOf disk d bn = d.addrs bn := by
      intro disk d
      rw [blockOf, dataSlot, if_pos hd]
      rfl
    rw [if_pos hd]
    refine bmapAddr_runs (hroom.after (Logs.refl s) (by omega)) hout (fun h0 => ?_) (fun h0 hall => ?_)
      fun h0 c hc hfree => ?_
    · exact ⟨D, .refl h hip, (Logs.refl s).mono (by omega), fun hc => absurd hc h0,
        by rw [hslot, hip]⟩
    · exact ⟨D, .refl h hip, (Logs.refl s).mono (by omega), fun _ => hall,
        by rw [hslot, ← hip, h0]⟩
    · have hlo := h.free_data hfree
      have hc0 : c ≠ 0 := by have := hsb.data; omega
      rw [if_neg hc0]
      rw [hip] at h0
      refine ⟨_, .addr hsb h hip hc hfree hd.le h0,
        ((Logs.alloc sb s c).setInode _).mono (by omega), fun hc => absurd hc hc0, ?_⟩
      rw [hslot, update_self, setAddr_self]
  · have hslot : ∀ disk d, d.addrs NDIRECT ≠ 0 → blockOf disk d bn =
        (disk (d.addrs NDIRECT)).u32 (4 * (bn - NDIRECT)) := by
      intro disk d hne
      rw [blockOf, dataSlot, if_neg hd, slotOf, if_neg hne]
    have hj : bn - NDIRECT < NINDIRECT := by
      simp only [MAXFILE] at hbn
      omega
    rw [if_neg hd, if_pos hj]
    refine .bind (R := fun addr s' => ∃ D', Grows sb ip i s s' D D' ∧ Logs s s' 2 ∧
      (addr = 0 → ∀ c < sb.size, InUse sb s'.disk c) ∧ (D' i).addrs NDIRECT = addr) ?_ ?_
    · refine bmapAddr_runs (hroom.after (Logs.refl s) (by omega)) hout (fun h0 => ?_)
        (fun h0 hall => ?_) fun h0 c hc hfree => ?_
      · exact ⟨D, .refl h hip, (Logs.refl s).mono (by omega), fun hc => absurd hc h0,
          by rw [hip]⟩
      · exact ⟨D, .refl h hip, (Logs.refl s).mono (by omega), fun _ => hall, by rw [← hip, h0]⟩
      · have hlo := h.free_data hfree
        have hc0 : c ≠ 0 := by have := hsb.data; omega
        rw [if_neg hc0]
        rw [hip] at h0
        refine ⟨_, .addr hsb h hip hc hfree le_rfl h0, (Logs.alloc sb s c).setInode _,
          fun hc => absurd hc hc0, ?_⟩
        rw [update_self, setAddr_self]
    · rintro addr s₁ ⟨D₁, hg, hl, hfull, hind⟩
      by_cases ha : addr = 0
      · rw [if_pos ha]
        refine .ret ⟨D₁, hg, hl.mono (by omega), fun _ => hfull ha, ?_⟩
        rw [blockOf, dataSlot, if_neg hd, slotOf, if_pos (hind.trans ha)]
      rw [if_neg ha]
      have hout₁ : 1 ≤ s₁.outstanding := by rw [hl.outstanding]; exact hout
      refine bmapEntry_runs (hroom.after hl (by omega)) hout₁ (fun h0 => ?_) (fun h0 hall => ?_)
        fun h0 c hc hfree => ?_
      · refine ⟨D₁, hg, hl.mono (by omega), fun hc => absurd hc h0, ?_⟩
        rw [hslot _ _ (hind ▸ ha), hind]
      · refine ⟨D₁, hg, hl.mono (by omega), fun _ => hall, ?_⟩
        rw [hslot _ _ (hind ▸ ha), hind, h0]
      · have hlo := hg.blocks.free_data hfree
        have hc0 : c ≠ 0 := by have := hsb.data; omega
        rw [if_neg hc0]
        refine ⟨D₁, hg.trans (.entry hsb hg.blocks hg.din hc hfree hj hind ha h0),
          (hl.trans ((Logs.alloc sb s₁ c).trans (Logs.wrote ..))).mono (by omega),
          fun hc => absurd hc hc0, ?_⟩
        rw [hslot _ _ (hind ▸ ha), hind]
        show (update (s₁.alloc sb c).disk addr _ addr).u32 _ = c
        rw [update_self, Block.u32_setU32_self]
        · simp only [NINDIRECT, BSIZE] at hj ⊢
          omega
        · have := hsb.size
          omega

end Xv6.Fs
