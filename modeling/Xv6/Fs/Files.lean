import Xv6.Fs.Inodes
import Xv6.Mkfs.Start

/-!
# Reading and writing files

`writei` and `readi` on a consistent file system, for every range of bytes: with a source that can
be read in full, and with one that cannot. In the second case the bytes that were moved before the
fault are in the cache although they are not reported.
-/

namespace Xv6.Fs

open Lib Function

variable {sb : Superblock} {s s' : State} {E : Option String → Prop}
  {ip i j k m n off tot reach bn : Nat} {src : Src} {img : Disk}

/-- `readi`, for all ranges, reads from the list `l` and changes nothing. -/
def Reads (sb : Superblock) (s : State) (ip : Nat) (l : List UInt8) : Prop :=
  ∀ off n reach, off < 2 ^ 32 → n < 2 ^ 32 → n ≤ reach →
    (readi sb ip reach off n).Runs s (fun _ => False) fun r s' =>
      r = (some (part l off n).length, part l off n) ∧ s' = s

/-- The panic of `log_write`, which is possible where the log has no room for `m` blocks. -/
def TooBig (sb : Superblock) (s : State) (m : Nat) (e : Option String) : Prop :=
  e = some "too big a transaction" ∧
    ¬ (s.logged.length + m ≤ LOGSIZE ∧ s.logged.length + m < sb.nlog)

theorem TooBig.room : Room sb (TooBig sb s m) s m := by
  by_cases h : s.logged.length + m ≤ LOGSIZE ∧ s.logged.length + m < sb.nlog
  · exact .inr h
  · exact .inl ⟨rfl, h⟩

theorem part_length_le {l : List UInt8} (hn : n < 2 ^ 32) : (part l off n).length ≤ n := by
  rw [part, List.length_drop, List.length_take]
  have := Nat.mod_le (off + n) (2 ^ 32)
  omega

theorem Holds.reads (hc : Consistent sb s.disk) (hh : Holds sb s ip i) :
    Reads sb s ip (files sb s.disk i).data :=
  fun _ _ _ _ hn hr => readi_content hc hh hn ((part_length_le hn).trans hr) ⟨rfl, rfl⟩

/-! ## A source that can be read -/

/-- A file is an array of bytes: `writei` replaces a part of it and `readi` reads it. -/
theorem writei_refines_splice (src : Src) (off n : Nat) (hsb : sb.Ok) (hc : Consistent sb s.disk)
    (hh : Holds sb s ip i) (hout : 1 ≤ s.outstanding) (hoff : off < 2 ^ 32) (hn : n < 2 ^ 32)
    (hreach : n ≤ src.reach) :
    Reads sb s ip (files sb s.disk i).data ∧
    (writei sb ip src off n).Runs s (TooBig sb s (6 * rounds off n + 1)) fun r s' =>
      (BadRange (live sb s.disk i) off n → r = none ∧ s' = s) ∧
      (¬ BadRange (live sb s.disk i) off n → ∃ k ≤ n, r = some k ∧
        (k < n → ∀ c < sb.size, InUse sb s'.disk c) ∧
        Consistent sb s'.disk ∧ Holds sb s' ip i ∧
        Reads sb s' ip (splice (files sb s.disk i).data off (src.first k)) ∧
        (live sb s'.disk i).size = max (live sb s.disk i).size (off + k) ∧
        files sb s'.disk = update (files sb s.disk) i { files sb s.disk i with
          data := splice (files sb s.disk i).data off (src.first k) }) := by
  refine ⟨hh.reads hc, ?_⟩
  refine writei_sets hsb hc hh TooBig.room hout hoff hn hreach
    (fun hbad => ⟨fun _ => ⟨rfl, rfl⟩, fun hc => absurd hbad hc⟩) fun hgood k s' hk hwhy _ hset => ?_
  have hh' := hset.holds hh hh.type_ne
  have hfile := congrArg Node.data hset.file
  refine ⟨fun hc => absurd hc hgood, fun _ => ⟨k, hk, rfl, hwhy, hset.consistent, hh', ?_, ?_,
    hset.nodes⟩⟩
  · have hreads := hh'.reads hset.consistent
    rwa [hfile] at hreads
  · have hlen : ∀ disk, (files sb disk i).data.length = (live sb disk i).size := fun _ =>
      content_length
    have hle : off ≤ (files sb s.disk i).data.length := by
      unfold BadRange at hgood
      rw [hlen]
      omega
    rw [← hlen, hfile, splice_length hle, first_length, hlen]

theorem cat_size (h : files Mkfs.sb img 2 = ⟨T_FILE, 0, 0, 1, [1, 2, 3]⟩) :
    (live Mkfs.sb img 2).size = 3 := by
  have hlen : (content img (live Mkfs.sb img 2)).length = 3 := congrArg (fun x => x.data.length) h
  rwa [content_length] at hlen

theorem writei_refines_splice_cat : ∃ img : Disk,
    (files Mkfs.sb img 2).data = [1, 2, 3] ∧
    (writei Mkfs.sb 1 ⟨array [7, 8], 2⟩ 2 2).Runs (Mkfs.inUse img []) (fun _ => False) fun r s' =>
      ∃ k ≤ 2, r = some k ∧
        (files Mkfs.sb s'.disk 2).data = splice [1, 2, 3] 2 ([7, 8].take k) := by
  obtain ⟨img, fb, D, h⟩ := Mkfs.exists_cat
  have hfile : files Mkfs.sb img 2 = ⟨T_FILE, 0, 0, 1, [1, 2, 3]⟩ :=
    h.file (by decide) (show 0 < [Mkfs.catFile].length by decide)
  have hlen := cat_size hfile
  have hholds : Holds Mkfs.sb (Mkfs.inUse img []) 1 2 := Mkfs.holds_cat h
  have hspec := (writei_refines_splice ⟨array [7, 8], 2⟩ 2 2 Mkfs.sb_ok
    (h.no_holes (by decide) (by decide)) hholds
    le_rfl (by decide) (by decide) le_rfl).2
  have hroom : 0 + (6 * rounds 2 2 + 1) ≤ LOGSIZE ∧ 0 + (6 * rounds 2 2 + 1) < Mkfs.sb.nlog := by
    decide
  refine ⟨img, by rw [hfile], (hspec.weaken fun e he => he.2 hroom).mono ?_⟩
  rintro r s' ⟨-, hgood⟩
  have hrange : ¬ BadRange (live Mkfs.sb (Mkfs.inUse img []).disk 2) 2 2 := by
    show ¬ BadRange (live Mkfs.sb img 2) 2 2
    rw [BadRange, hlen]
    decide
  obtain ⟨k, hk, rfl, -, -, -, -, -, hfiles⟩ := hgood hrange
  refine ⟨k, hk, rfl, ?_⟩
  rw [hfiles, update_self]
  show splice (files Mkfs.sb img 2).data 2 _ = _
  rw [hfile]
  congr 1
  interval_cases k <;> rfl

theorem writei_log_full : ∃ img : Disk,
    Consistent Mkfs.sb img ∧ Holds Mkfs.sb (Mkfs.inUse img Mkfs.taken) 1 2 ∧
    ¬ BadRange (live Mkfs.sb img 2) 0 1 ∧
    (writei Mkfs.sb 1 ⟨array [7], 1⟩ 0 1).run (Mkfs.inUse img Mkfs.taken) =
      .panic "too big a transaction" := by
  obtain ⟨img, fb, D, h⟩ := Mkfs.exists_cat
  have hfile : files Mkfs.sb img 2 = ⟨T_FILE, 0, 0, 1, [1, 2, 3]⟩ :=
    h.file (by decide) (show 0 < [Mkfs.catFile].length by decide)
  have hcons := h.no_holes (by decide) (by decide)
  have hholds : Holds Mkfs.sb (Mkfs.inUse img Mkfs.taken) 1 2 := Mkfs.holds_cat h
  have hlen := cat_size hfile
  have hrange : ¬ BadRange (live Mkfs.sb img 2) 0 1 := by
    rw [BadRange, hlen]
    decide
  refine ⟨img, hcons, hholds, hrange, Prog.Runs.panics
    (writei_full (Nat.zero_le _) one_pos (by decide) ?_ le_rfl ?_)⟩
  · rw [← hholds.live, Nat.zero_div]
    refine hcons.mapped 2 0 ?_
    show 0 * BSIZE < (live Mkfs.sb img 2).size
    omega
  · show Mkfs.sb.nlog ≤ Mkfs.taken.length + 1
    decide

/-! ## A source that cannot be read in full -/

/-- Nothing but the bytes `off` to `off + r` of file `i` is different, and what is different in the
    cache is in the log. -/
def Reported (sb : Superblock) (s s' : State) (i off r : Nat) : Prop :=
  (∀ j k, (j = i → k < off ∨ off + r ≤ k) →
    (files sb s'.disk j).data[k]? = (files sb s.disk j).data[k]?) ∧
  ∀ b, s'.disk b ≠ s.disk b → b ∈ s'.logged

/-- The source cannot be read in full, the block for the first byte that cannot be read is there
    already, and a byte before it in this block is not the one it replaces; this is noticed where
    the byte is in the file, or the block is not in the log. -/
def Harmful (sb : Superblock) (s : State) (i : Nat) (src : Src) (off n : Nat) : Prop :=
  ¬ BadRange (live sb s.disk i) off n ∧ src.reach < n ∧
  blockOf s.disk (live sb s.disk i) ((off + src.reach) / BSIZE) ≠ 0 ∧
  ∃ p, off ≤ p ∧ (off + src.reach) / BSIZE * BSIZE ≤ p ∧ p < off + src.reach ∧
    (p < (live sb s.disk i).size ∨
      blockOf s.disk (live sb s.disk i) ((off + src.reach) / BSIZE) ∉ s.logged) ∧
    contentByte s.disk (live sb s.disk i) p ≠ src.byte (p - off)

/-- The blocks of a file come one after the other. -/
def Gapless (disk : Disk) (d : Dinode) : Prop :=
  ∀ bn bn', bn' ≤ bn → blockOf disk d bn ≠ 0 → blockOf disk d bn' ≠ 0

/-- Blocks that are changed by the loop and by the copy of the inode are in the log. -/
theorem updated_changed {s₁ : State} (hl : Logs s s₁ m) {b : Nat}
    (hb : b ≠ iblock sb i → s'.disk b = s₁.disk b)
    (hlog : s'.logged = absorb s₁.logged (iblock sb i)) (hne : s'.disk b ≠ s.disk b) :
    b ∈ s'.logged := by
  rw [hlog]
  by_cases hi : b = iblock sb i
  · rw [hi]
    exact mem_absorb ..
  · rcases hl.changed b with he | hin
    · exact absurd ((hb hi).trans he) hne
    · exact subset_absorb _ _ hin

theorem Written.reported_content (h : Written sb ip i s s' off tot m src.byte)
    (hc : Consistent sb s.disk) (hoff : off ≤ (live sb s.disk i).size) (htot : tot ≤ m) :
    (∀ j k, (j = i → k < off ∨ off + tot ≤ k) →
      (files sb s'.disk j).data[k]? = (files sb s.disk j).data[k]?) ↔
    ∀ k, tot ≤ k → k < m → off + k < (live sb s.disk i).size →
      contentByte s.disk (live sb s.disk i) (off + k) = src.byte k := by
  have hold : ∀ k < (live sb s.disk i).size,
      (files sb s.disk i).data[k]? = some (contentByte s.disk (live sb s.disk i) k) :=
    fun k hk => content_get.trans (if_pos hk)
  constructor
  · intro hall k hlo hhi hsize
    have := hall i (off + k) fun _ => .inr (by omega)
    rw [h.get hc hoff htot, if_pos ⟨by omega, by omega, by omega⟩, hold _ hsize,
      Nat.add_sub_cancel_left] at this
    exact (Option.some.inj this).symm
  · intro hall j k hout
    by_cases hj : j = i
    · subst hj
      rw [h.get hc hoff htot]
      by_cases hin : off ≤ k ∧ k < off + m ∧ k < max (live sb s.disk j).size (off + tot)
      · have hk := hall (k - off) (by have := hout rfl; omega) (by omega) (by have := hout rfl; omega)
        rw [show off + (k - off) = k by omega] at hk
        rw [if_pos hin, hold k (by have := hout rfl; omega), hk]
      · rw [if_neg hin]
    · rw [h.others hc hj]

section

variable {s₁ s₂ : State} {D' : Nat → Dinode} {cost : Nat}
  (hl : Looped sb ip i s s₁ s₂ (live sb s.disk) D' src off n cost tot)
include hl

/-- A copy failed: the block it failed in is the one of the first byte that cannot be read. -/
theorem Looped.fault_block (hf : Faulted i s₁ s₂ D' src off n tot) :
    (off + src.reach) / BSIZE = (off + tot) / BSIZE ∧
      ∀ p, (off ≤ p ∧ (off + src.reach) / BSIZE * BSIZE ≤ p) ↔ off + tot ≤ p := by
  obtain ⟨hle, hlt, -⟩ := hf
  have hwhole := hl.whole
  simp only [BSIZE] at *
  refine ⟨by omega, fun p => ?_⟩
  omega

/-- No copy failed, so none did harm. -/
theorem Looped.not_harmful (hgap : Gapless s.disk (live sb s.disk i))
    (hwhy : tot = n ∨ (∀ c < sb.size, InUse sb s₁.disk c) ∧
      blockOf s₁.disk (D' i) ((off + tot) / BSIZE) = 0) : ¬ Harmful sb s i src off n := by
  rintro ⟨-, hlt, hmapped, -⟩
  have hreach := hl.reach
  rcases hwhy with rfl | ⟨-, h0⟩
  · omega
  · have hthere := hgap _ ((off + tot) / BSIZE) (Nat.div_le_div_right (by omega)) hmapped
    exact hthere ((hl.wrote.moves.kept i _ hthere).symm.trans h0)

/-- A block of the file that was there before the call is in the log only if it was so before. -/
theorem Looped.fault_quiet {addr : Nat} (hn : tot < n)
    (hx : blockOf s₁.disk (D' i) ((off + tot) / BSIZE) = addr)
    (hmapped : blockOf s.disk (live sb s.disk i) ((off + tot) / BSIZE) ≠ 0) :
    blockOf s.disk (live sb s.disk i) ((off + tot) / BSIZE) = addr ∧
      (addr ∈ s₁.logged ↔ addr ∈ s.logged) := by
  have hkept : addr = blockOf s.disk (live sb s.disk i) ((off + tot) / BSIZE) :=
    hx.symm.trans (hl.wrote.moves.kept i _ hmapped)
  refine ⟨hkept.symm, ⟨fun hin => ?_, fun hin => hl.wrote.moves.logged hin⟩⟩
  rw [hkept] at hin ⊢
  refine hl.wrote.quiet i _ hmapped (fun _ hpos => ?_) hin
  have hwhole := hl.whole
  simp only [BSIZE] at *
  omega

variable (hsb : sb.Ok) (hh : Holds sb s ip i)
  (hlogged : s'.logged = absorb s₁.logged (iblock sb i)) {addr : Nat}
  (hx : blockOf s₁.disk (D' i) ((off + tot) / BSIZE) = addr) (h0 : addr ≠ 0)
include hsb hh hlogged hx h0

/-- After a copy that failed, what is changed is in the log if the bytes that were moved are the
    same as before or the block was in the log. -/
theorem Looped.fault_logged
    (hlt : src.reach < tot + min (n - tot) (BSIZE - (off + tot) % BSIZE))
    (hother : ∀ b, b ≠ iblock sb i → s'.disk b = update s₁.disk addr
      (patch (s₁.disk addr) ((off + tot) % BSIZE) (fun j => src.byte (tot + j)) (src.reach - tot)) b) :
    (∀ b, s'.disk b ≠ s.disk b → b ∈ s'.logged) ↔
      (addr ∈ s₁.logged ∨ ∀ j < src.reach - tot,
        (s.disk addr).bytes ((off + tot) % BSIZE + j) = src.byte (tot + j)) := by
  have hrange := data_le hl.wrote.blocks (i := i) (s := dataSlot ((off + tot) / BSIZE)) hx h0
  have hi : addr ≠ iblock sb i := Ne.symm (iblock_ne hsb hh.lt hrange.2 hrange.1).1
  have haddr := (hother addr hi).trans (update_self ..)
  have hmod := Nat.mod_lt (off + tot) (show 0 < BSIZE by decide)
  constructor
  · intro hall
    by_cases hin : addr ∈ s₁.logged
    · exact .inl hin
    · refine .inr fun j hj => ?_
      have hsame : s'.disk addr = s.disk addr := by
        by_contra hne
        have := hall addr hne
        rw [hlogged] at this
        exact hin (of_mem_absorb this hi)
      rw [← hsame, haddr, patch_inside (by omega) hj]
  · intro hharm b hne
    by_cases hba : b = addr
    · subst hba
      rw [hlogged]
      refine subset_absorb _ _ ?_
      by_contra hno
      have hold := (hl.logs.changed b).resolve_right hno
      refine hne (haddr.trans (block_ext fun k hk => ?_))
      by_cases hin : (off + tot) % BSIZE ≤ k ∧ k < (off + tot) % BSIZE + (src.reach - tot)
      · obtain ⟨j, rfl⟩ := Nat.exists_eq_add_of_le hin.1
        rw [patch_inside (by omega) (by omega), hharm.resolve_left hno j (by omega)]
      · rw [patch_outside (by omega), hold]
    · exact updated_changed hl.logs
        (fun hbi => (hother b hbi).trans (update_of_ne hba ..)) hlogged hne

end

/-- What `writei` reports is all that it has changed, if no copy that fails did harm. -/
theorem writei_reports_iff (src : Src) (off n : Nat) (hsb : sb.Ok) (hc : Consistent sb s.disk)
    (hh : Holds sb s ip i) (hgap : Gapless s.disk (live sb s.disk i)) (hout : 1 ≤ s.outstanding)
    (hoff : off < 2 ^ 32) (hn : n < 2 ^ 32) {r : Option Nat}
    (hrun : (writei sb ip src off n).run s = .ok r s') :
    Reported sb s s' i off (r.getD 0) ↔ ¬ Harmful sb s i src off n := by
  have hroom : Room sb (fun _ => True) s (6 * rounds off n + 1) := .inl trivial
  refine (writei_runs (Q := fun r s' => Reported sb s s' i off (r.getD 0) ↔
    ¬ Harmful sb s i src off n) hsb hc.blocks hh.live.symm hoff hn hroom hout
    (fun hbad => ?_) ?_).ok hrun
  · exact iff_of_true ⟨fun _ _ _ => rfl, fun b hne => absurd rfl hne⟩ fun hharm => hharm.1 hbad
  intro hgood tot s₁ s₂ D' hl
  rw [Option.getD_some]
  have hrange : off ≤ (live sb s.disk i).size ∧ off + n ≤ MAXFILE * BSIZE := by
    unfold BadRange at hgood
    omega
  have hmax : off + tot ≤ MAXFILE * BSIZE := by
    have := hl.le
    omega
  obtain ⟨m, hw, hwhy⟩ := hl.stored hsb
  have hfin := hw.finish hsb hc hh hmax
  have hcontent := hfin.reported_content hc hrange.1 (Nat.le_add_right tot m)
  have hlogged := hw.finish_logged (d := (D' i).extend (off + tot)) hh
  have hdisk := hw.finish_disk (d := (D' i).extend (off + tot)) hh
  generalize (s₂.setDin ip ((D' i).extend (off + tot))).updated sb ip = s' at *
  have hother : ∀ b, b ≠ iblock sb i → s'.disk b = s₂.disk b := by
    intro b hb
    rw [hdisk]
    exact setDinode_apply hb
  rw [Reported, hcontent]
  rcases hwhy with ⟨rfl, rfl, hwhy⟩ | ⟨rfl, hf⟩
  · refine iff_of_true ⟨fun k hlo hhi => by omega, fun b hne => ?_⟩ (hl.not_harmful hgap hwhy)
    exact updated_changed hl.logs (hother b) hlogged hne
  obtain ⟨hblock, hstart⟩ := hl.fault_block hf
  obtain ⟨hle, hlt, addr, hx, h0, rfl⟩ := hf
  rw [hl.fault_logged hsb hh hlogged hx h0 hlt hother]
  by_cases hmapped : blockOf s.disk (live sb s.disk i) ((off + tot) / BSIZE) = 0
  · -- the block is a new one
    refine iff_of_true ⟨fun k hlo hhi hsize => ?_, .inl ?_⟩ fun hharm => ?_
    · refine absurd hmapped (hc.mapped i _ ?_)
      have := Nat.div_mul_le_self (off + tot) BSIZE
      omega
    · have := hl.wrote.moves.fresh _ hmapped (show blockOf s₁.disk (D' i) _ ≠ 0 by rw [hx]; exact h0)
      exact hx ▸ this
    · exact hharm.2.2.1 (hblock ▸ hmapped)
  · obtain ⟨haddr, hquiet⟩ := hl.fault_quiet (by omega) hx hmapped
    have hbyte : ∀ j < src.reach - tot, contentByte s.disk (live sb s.disk i) (off + tot + j) =
        (s.disk addr).bytes ((off + tot) % BSIZE + j) := by
      intro j hj
      rw [contentByte, show (off + tot + j) / BSIZE = (off + tot) / BSIZE by
        simp only [BSIZE] at *; omega, haddr,
        show (off + tot + j) % BSIZE = (off + tot) % BSIZE + j by simp only [BSIZE] at *; omega]
    constructor
    · rintro ⟨hold, hcache⟩ ⟨-, -, -, p, hp, hp', hend, hseen, hne⟩
      have hlo := (hstart p).mp ⟨hp, hp'⟩
      rcases hseen with hsize | hno
      · have := hold (p - off) (by omega) (by omega) (by omega)
        rw [show off + (p - off) = p by omega] at this
        exact hne this
      · rw [hblock, haddr, ← hquiet] at hno
        have := hcache.resolve_left hno (p - off - tot) (by omega)
        rw [← hbyte _ (by omega), show off + tot + (p - off - tot) = p by omega,
          show tot + (p - off - tot) = p - off by omega] at this
        exact hne this
    · intro hno
      have hharm : ∀ j < src.reach - tot, (off + tot + j < (live sb s.disk i).size ∨
          addr ∉ s₁.logged) →
          contentByte s.disk (live sb s.disk i) (off + tot + j) = src.byte (tot + j) := by
        intro j hj hseen
        by_contra hne
        obtain ⟨h1, h2⟩ := (hstart (off + tot + j)).mpr (by omega)
        refine hno ⟨hgood, by omega, hblock ▸ hmapped, off + tot + j, h1, h2, by omega, ?_, ?_⟩
        · rwa [hblock, haddr, ← hquiet]
        · rwa [show off + tot + j - off = tot + j by omega]
      refine ⟨fun k hlo hhi hsize => ?_, ?_⟩
      · have := hharm (k - tot) (by omega) (.inl (by omega))
        rwa [show off + tot + (k - tot) = off + k by omega,
          show tot + (k - tot) = k by omega] at this
      · by_cases hin : addr ∈ s₁.logged
        · exact .inl hin
        · exact .inr fun j hj => (hbyte j hj).symm.trans (hharm j hj (.inr hin))

theorem cat_room : Room Mkfs.sb E (Mkfs.inUse img []) (6 * rounds 0 2 + 1) :=
  .inr (show 0 + (6 * rounds 0 2 + 1) ≤ LOGSIZE ∧ 0 + (6 * rounds 0 2 + 1) < Mkfs.sb.nlog by decide)

/-- A file of `mkfs` has the blocks up to its size and no others. -/
theorem cat_gapless {fb : Nat} {D : Nat → Dinode} (h : Mkfs.Image [Mkfs.catFile] img fb D) :
    Gapless img (live Mkfs.sb img 2) := by
  rw [h.live_eq (by decide)]
  intro bn bn' hle hbn
  rw [h.content.mapped] at hbn ⊢
  exact (Nat.mul_le_mul_right _ hle).trans_lt hbn

theorem writei_reports_iff_cat : ∃ img r s',
    (writei Mkfs.sb 1 ⟨array [7, 8], 2⟩ 0 2).run (Mkfs.inUse img []) = .ok r s' ∧
    Reported Mkfs.sb (Mkfs.inUse img []) s' 2 0 (r.getD 0) := by
  obtain ⟨img, fb, D, h⟩ := Mkfs.exists_cat
  have hcons := h.no_holes (by decide) (by decide)
  have hholds : Holds Mkfs.sb (Mkfs.inUse img []) 1 2 := Mkfs.holds_cat h
  obtain ⟨r, s', hrun, -⟩ := (writei_runs (E := fun _ => False) (Q := fun _ _ => True) Mkfs.sb_ok
    hcons.blocks hholds.live.symm (Nat.two_pow_pos 32) (by decide) cat_room le_rfl
    (fun _ => trivial) fun _ _ _ _ _ _ => trivial).ends fun _ => id
  refine ⟨img, r, s', hrun, (writei_reports_iff ⟨array [7, 8], 2⟩ 0 2 Mkfs.sb_ok hcons hholds
    (cat_gapless h) le_rfl (by decide) (by decide) hrun).mpr ?_⟩
  exact fun hharm => lt_irrefl 2 hharm.2.1

/-- Two bytes are written over the start of a file, of which the second cannot be read: `writei`
    returns 0, but the first byte of the file is changed. -/
theorem writei_fault_visible : ∃ img s',
    (files Mkfs.sb img 2).data = [1, 2, 3] ∧
    (writei Mkfs.sb 1 ⟨array [7], 1⟩ 0 2).run (Mkfs.inUse img []) = .ok (some 0) s' ∧
    (files Mkfs.sb s'.disk 2).data[0]? = some 7 ∧
    ¬ Reported Mkfs.sb (Mkfs.inUse img []) s' 2 0 0 := by
  obtain ⟨img, fb, D, h⟩ := Mkfs.exists_cat
  have hfile : files Mkfs.sb img 2 = ⟨T_FILE, 0, 0, 1, [1, 2, 3]⟩ :=
    h.file (by decide) (show 0 < [Mkfs.catFile].length by decide)
  have hlen := cat_size hfile
  have hcons := h.no_holes (by decide) (by decide)
  have hholds : Holds Mkfs.sb (Mkfs.inUse img []) 1 2 := Mkfs.holds_cat h
  have hrange : ¬ BadRange (live Mkfs.sb img 2) 0 2 := by
    rw [BadRange, hlen]
    decide
  have hruns : (writei Mkfs.sb 1 ⟨array [7], 1⟩ 0 2).Runs (Mkfs.inUse img []) (fun _ => False)
      fun r s' => r = some 0 ∧ (files Mkfs.sb s'.disk 2).data[0]? = some 7 := by
    refine writei_runs Mkfs.sb_ok hcons.blocks hholds.live.symm (Nat.two_pow_pos 32) (by decide)
      cat_room le_rfl (fun hc => absurd hc hrange) ?_
    intro _ tot s₁ s₂ D' hl
    obtain ⟨m, hw, hwhy⟩ := hl.stored Mkfs.sb_ok
    have hreach : tot ≤ 1 := hl.reach
    -- the block of the file is there, so that the loop can only have stopped at the fault
    have hold : Has img (live Mkfs.sb img 2) 2 (contentByte img (live Mkfs.sb img 2) 2) :=
      ⟨hcons.mapped 2 0 (by omega), rfl⟩
    have hthere : blockOf s₁.disk (D' 2) (2 / BSIZE) ≠ 0 :=
      (hl.wrote.has 2 2 _ hold fun _ => .inr (by omega)).1
    obtain ⟨rfl, rfl⟩ : tot = 0 ∧ m = 1 := by
      rcases hwhy with ⟨-, -, hn | ⟨-, h0⟩⟩ | ⟨hm, -⟩
      · omega
      · rw [show (0 + tot) / BSIZE = 2 / BSIZE by simp only [BSIZE]; omega] at h0
        exact absurd h0 hthere
      · have hwhole := hl.whole
        have hm : m = 1 - tot := hm
        simp only [BSIZE] at hwhole
        omega
    refine ⟨rfl, ?_⟩
    have hfin := hw.finish Mkfs.sb_ok hcons hholds (show 0 + 0 ≤ MAXFILE * BSIZE by decide)
    rw [hfin.get hcons (Nat.zero_le _) (Nat.zero_le _), if_pos]
    · rfl
    · exact ⟨Nat.le_refl 0, Nat.one_pos, Nat.lt_of_lt_of_le (hlen ▸ by decide) (Nat.le_max_left ..)⟩
  obtain ⟨r, s', hrun, rfl, hbyte⟩ := hruns.ends fun _ => id
  refine ⟨img, s', by rw [hfile], hrun, hbyte, fun hrep => ?_⟩
  have := hrep.1 2 0 fun _ => .inr le_rfl
  rw [hbyte, show (files Mkfs.sb (Mkfs.inUse img []).disk 2).data = [1, 2, 3] by
    exact congrArg Node.data hfile] at this
  exact absurd this (by decide)

end Xv6.Fs
