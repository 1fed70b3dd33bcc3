import Xv6.Block.Held

/-!
# What the disk says

`recovered` is what recovery would make of a disk: a home block that the header names is the
block's copy in the log, any other is as it is. A transaction is committed by the one disk write
that changes the header, so the property of interest is an equation between `recovered` and the
groups committed so far (`applyAll`), at every moment. `Logged` says this, and what else is true of
the log, its area on the disk and the operations that share a commit.
-/

namespace Xv6

namespace LogHeader

/-- The headers name the same blocks in the same order. -/
def Same (h h' : LogHeader) : Prop := h.n = h'.n ∧ ∀ i < h.n, h.block i = h'.block i

theorem Same.blocks {h h' : LogHeader} (hs : h.Same h') : h.blocks = h'.blocks := by
  unfold LogHeader.blocks
  rw [← hs.1]
  exact List.map_congr_left fun i hi => hs.2 i (List.mem_range.mp hi)

theorem block_inj {h : LogHeader} (hnd : h.blocks.Nodup) {i j : Nat} (hi : i < h.n) (hj : j < h.n)
    (heq : h.block i = h.block j) : i = j :=
  List.inj_on_of_nodup_map hnd (List.mem_range.mpr hi) (List.mem_range.mpr hj) heq

theorem find_block {h : LogHeader} (hnd : h.blocks.Nodup) {i : Nat} (hi : i < h.n) :
    h.find (h.block i) = i := by
  rcases h.find_lt_or_eq (h.block i) with ⟨hlt, hb⟩ | ⟨-, hb⟩
  · exact block_inj hnd hlt hi hb
  · exact absurd (mem_blocks.mpr ⟨i, hi, rfl⟩) hb

end LogHeader

namespace BlockLayer

open Lib

/-! ## Committed groups -/

/-- A logged update takes effect. -/
def apply (m : Nat → Block) (u : Update) : Nat → Block := Function.update m u.blockno u.data

/-- Groups of updates take effect in order. -/
def applyAll (gs : List (List Update)) (m : Nat → Block) : Nat → Block := gs.flatten.foldl apply m

theorem foldl_apply_of_not_mem {us : List Update} {m : Nat → Block} {b : Nat}
    (h : ∀ u ∈ us, u.blockno ≠ b) : us.foldl apply m b = m b := by
  induction us generalizing m with
  | nil => rfl
  | cons u us ih =>
    rw [List.foldl_cons, ih fun v hv => h v (List.mem_cons_of_mem _ hv)]
    exact Function.update_of_ne (Ne.symm (h u List.mem_cons_self)) ..

theorem applyAll_concat (gs : List (List Update)) (g : List Update) (m : Nat → Block) :
    applyAll (gs ++ [g]) m = g.foldl apply (applyAll gs m) := by
  simp [applyAll]

theorem applyAll_concat_nil (gs : List (List Update)) (m : Nat → Block) :
    applyAll (gs ++ [[]]) m = applyAll gs m := applyAll_concat gs [] m

theorem applyAll_push (gs : List (List Update)) (g : List Update) (u : Update) (m : Nat → Block) :
    applyAll (gs ++ [g ++ [u]]) m = apply (applyAll (gs ++ [g]) m) u := by
  simp only [applyAll_concat, List.foldl_append, List.foldl_cons, List.foldl_nil]

/-! ## The disk -/

/-- The log area has room for its header, and its block numbers are block numbers. -/
structure Layout.Ok (sb : Layout) : Prop where
  pos : 0 < sb.nlog
  lt : sb.logstart + sb.nlog ≤ 2 ^ 32

/-- A header that recovery can follow: it names different home blocks, as many as there is room
    for. -/
structure HeaderOk (sb : Layout) (h : LogHeader) : Prop where
  size : h.n ≤ LOGSIZE
  room : h.n ≤ sb.nlog - 1
  nodup : h.blocks.Nodup
  home : ∀ b ∈ h.blocks, sb.Home b ∧ b < 2 ^ 32

/-- The header on a disk. -/
def header (sb : Layout) (disk : Nat → Nat → Block) : LogHeader :=
  LogHeader.ofBlock (disk sb.dev sb.logstart)

/-- The bytes of home block `b` once recovery has installed what the header announces. -/
def recovered (sb : Layout) (disk : Nat → Nat → Block) (b : Nat) : Block :=
  let h := header sb disk
  if h.find b < h.n then disk sb.dev (sb.logstart + h.find b + 1) else disk sb.dev b

section

variable {sb : Layout} {disk disk' : Nat → Nat → Block} {b : Nat} {h : LogHeader}

theorem HeaderOk.congr {h' : LogHeader} (hok : HeaderOk sb h) (hs : h.Same h') :
    HeaderOk sb h' where
  size := hs.1 ▸ hok.size
  room := hs.1 ▸ hok.room
  nodup := hs.blocks ▸ hok.nodup
  home := hs.blocks ▸ hok.home

theorem HeaderOk.home_block (hok : HeaderOk sb h) {i : Nat} (hi : i < h.n) :
    sb.Home (h.block i) ∧ h.block i < 2 ^ 32 :=
  hok.home _ (LogHeader.mem_blocks.mpr ⟨i, hi, rfl⟩)

theorem headerOk_of_zero (hn : h.n = 0) : HeaderOk sb h where
  size := hn ▸ Nat.zero_le _
  room := hn ▸ Nat.zero_le _
  nodup := by simp [LogHeader.blocks, hn]
  home := by simp [LogHeader.blocks, hn]

/-- The header is not a home block, and neither is a block of the log. -/
theorem Layout.Ok.not_home (hsb : sb.Ok) {i : Nat} (hi : i ≤ sb.nlog - 1) :
    ¬ sb.Home (sb.logstart + i) := by
  have := hsb.pos
  unfold Layout.Home
  omega

theorem recovered_of_not_mem (hb : b ∉ (header sb disk).blocks) :
    recovered sb disk b = disk sb.dev b := by
  rcases (header sb disk).find_lt_or_eq b with ⟨hlt, hfb⟩ | ⟨heq, -⟩
  · exact absurd (LogHeader.mem_blocks.mpr ⟨_, hlt, hfb⟩) hb
  · exact if_neg (by omega)

theorem recovered_of_zero (hn : (header sb disk).n = 0) : recovered sb disk b = disk sb.dev b :=
  if_neg (by omega)

theorem recovered_block (hok : HeaderOk sb (header sb disk)) {i : Nat}
    (hi : i < (header sb disk).n) :
    recovered sb disk ((header sb disk).block i) = disk sb.dev (sb.logstart + i + 1) := by
  unfold recovered
  dsimp only
  rw [LogHeader.find_block hok.nodup hi, if_pos hi]

/-- Writes that leave the header, the log and the home blocks outside the log alone. -/
theorem recovered_congr (hok : HeaderOk sb (header sb disk))
    (hh : disk' sb.dev sb.logstart = disk sb.dev sb.logstart)
    (hlog : ∀ i < (header sb disk).n,
      disk' sb.dev (sb.logstart + i + 1) = disk sb.dev (sb.logstart + i + 1))
    (hb : b ∉ (header sb disk).blocks → disk' sb.dev b = disk sb.dev b) :
    recovered sb disk' b = recovered sb disk b := by
  have he : header sb disk' = header sb disk := by rw [header, hh, header]
  by_cases hm : b ∈ (header sb disk).blocks
  · obtain ⟨i, hi, rfl⟩ := LogHeader.mem_blocks.mp hm
    rw [recovered_block hok hi, ← hlog i hi]
    have hok' : HeaderOk sb (header sb disk') := he ▸ hok
    have hr := recovered_block hok' (he ▸ hi)
    rwa [he] at hr
  · rw [recovered_of_not_mem hm, recovered_of_not_mem (he ▸ hm), hb hm]

end

/-! ## The log's invariant -/

/-- What the disk has, by phase. -/
def PhaseOk {T : Type} (sb : Layout) (s : Sys T) : Phase → Prop
  | .boot | .head => True
  | .writing k => (header sb s.disk).n = 0 ∧ k ≤ s.log.lh.n ∧
      ∀ i < k, s.disk sb.dev (sb.logstart + i + 1) = s.store sb.dev (s.log.lh.block i)
  | .installing _ k => s.log.lh.Same (header sb s.disk) ∧ k ≤ s.log.lh.n ∧
      ∀ i < k, s.disk sb.dev (s.log.lh.block i) = s.disk sb.dev (sb.logstart + i + 1)
  | .clearing _ => s.log.lh.n = 0 ∧ ∀ i < (header sb s.disk).n,
      s.disk sb.dev ((header sb s.disk).block i) = s.disk sb.dev (sb.logstart + i + 1)
  | .recovered => (header sb s.disk).n = 0

/-- The cache has the home blocks as the groups have left them (not so before recovery has
    installed the log). -/
def Phase.Current : Phase → Prop
  | .boot | .head => False
  | .writing _ => True
  | .installing recovering _ => recovering = false
  | .clearing _ | .recovered => True

/-- A buffer of block `b` has been modified and not written or logged since. -/
def DirtyAt {T : Type} (sb : Layout) (s : Sys T) (b : Nat) : Prop :=
  ∃ i < NBUF, (s.buf i).dev = sb.dev ∧ (s.buf i).blockno = b ∧ s.dirty i = true

/-- The invariant of a file system that logs what it modifies; `init` is the home blocks at the
    first boot. -/
structure Logged {T : Type} (sb : Layout) (init : Nat → Block) (s : Sys T) (loc : T → Loc)
    (ph : Phase) : Prop where
  header : HeaderOk sb (header sb s.disk)
  recovered : ∀ b, sb.Home b → recovered sb s.disk b = applyAll s.committed init b
  phase : PhaseOk sb s ph
  lh : HeaderOk sb s.log.lh
  logged : ∀ u ∈ s.group, (∃ k, ph = .writing k) ∧ u.blockno ∈ s.log.lh.blocks
  -- operations are numbered as they begin, and those of a later commit began later
  order : (s.committed ++ [s.group]).Pairwise fun g g' => ∀ u ∈ g, ∀ v ∈ g', u.op < v.op
  fresh : ∀ g ∈ s.committed ++ [s.group], ∀ u ∈ g, u.op < s.nextOp
  running : ∀ t id, s.op t = some id → id < s.nextOp ∧ ∀ g ∈ s.committed, ∀ u ∈ g, u.op < id
  dirty : ∀ i < NBUF, s.dirty i = true → (s.buf i).dev = sb.dev ∧
    ∃ t, (s.buf i).lock = some t ∧ ((s.op t ≠ none ∧ sb.Home (s.buf i).blockno) ∨
      ((loc t).worker ≠ none ∧ i ∈ (loc t).mods))
  store : ph.Current → ∀ b, sb.Home b → ¬ DirtyAt sb s b →
    s.store sb.dev b = applyAll (s.committed ++ [s.group]) init b
  refs : ∀ t, ∀ r ∈ (loc t).refs, r.dev = sb.dev ∧ r.blockno < 2 ^ 32

end BlockLayer
end Xv6
