import Xv6.Fs.Alloc

/-!
# Writing inodes

`writei` copies its source block by block, allocating the blocks that are not there. It may stop
before the end, because the disk is full or because a byte of the source cannot be read; in the
second case the bytes before it in the same block have been copied, and the block has not been
logged.
-/

namespace Xv6.Fs

open Lib Function

variable {sb : Superblock} {s s' s₁ : State} {E : Option String → Prop} {D D' D₁ : Nat → Dinode}
  {ip i j k m n off tot bn addr : Nat} {src : Src} {f : Bytes}

/-- The first `tot` bytes of `f` have been written at `off` of inode `i`, which is `ip` in memory;
    the inode on disk and the size are as before. -/
structure Wrote (sb : Superblock) (ip i : Nat) (s s' : State) (D D' : Nat → Dinode) (off tot : Nat)
    (f : Bytes) : Prop where
  blocks : Blocks sb s'.disk D'
  inodes : D' = update D i { D i with addrs := (D' i).addrs }
  memory : s'.inode = update s.inode ip { s.inode ip with din := D' i }
  dinodes : ∀ j < sb.ninodes, dinodeOf sb s'.disk j = dinodeOf sb s.disk j
  has : ∀ j k v, Has s.disk (D j) k v → (j = i → k < off ∨ off + tot ≤ k) → Has s'.disk (D' j) k v
  new : ∀ k < tot, Has s'.disk (D' i) (off + k) (f k)
  moves : Moves i s s' D D'
  quiet : ∀ j bn, blockOf s.disk (D j) bn ≠ 0 → (j = i → 0 < tot → off + tot ≤ bn * BSIZE) →
    blockOf s.disk (D j) bn ∈ s'.logged → blockOf s.disk (D j) bn ∈ s.logged

theorem Wrote.refl (h : Blocks sb s.disk D) (hip : (s.inode ip).din = D i) :
    Wrote sb ip i s s D D off 0 f := by
  have hg := Grows.refl h hip
  exact ⟨h, hg.inodes, hg.memory, hg.dinodes, fun _ _ _ hk _ => hk,
    fun k hk => absurd hk (Nat.not_lt_zero k), .refl,
    fun _ _ _ _ hl => hl⟩

theorem Wrote.din (h : Wrote sb ip i s s' D D' off tot f) : (s'.inode ip).din = D' i := by
  rw [h.memory, update_self]

theorem Wrote.grow (h : Wrote sb ip i s s₁ D D₁ off tot f) (hg : Grows sb ip i s₁ s' D₁ D') :
    Wrote sb ip i s s' D D' off tot f := by
  refine ⟨hg.blocks, ?_, ?_, fun j hj => (hg.dinodes j hj).trans (h.dinodes j hj),
    fun j k v hk hne => hg.has j k v (h.has j k v hk hne), fun k hk => hg.has i _ _ (h.new k hk),
    h.moves.trans hg.moves, fun j bn h0 hne hl => h.quiet j bn h0 hne ?_⟩
  · rw [hg.inodes, h.inodes]
    simp only [update_self, update_idem]
  · rw [hg.memory, h.memory]
    simp only [update_self, update_idem]
  · have hk : blockOf s₁.disk (D₁ j) bn = blockOf s.disk (D j) bn := h.moves.kept j _ h0
    rw [← hk] at h0 hl ⊢
    exact hg.quiet j bn h0 hl

section

variable (h : Wrote sb ip i s s₁ D D₁ off tot f) (hsb : sb.Ok)
  (hx : blockOf s₁.disk (D₁ i) ((off + tot) / BSIZE) = addr) (h0 : addr ≠ 0)
include h hsb hx h0

/-- The next `k` bytes, which are in one block, are moved to the cache. -/
theorem Wrote.patch (hk : (off + tot) % BSIZE + k ≤ BSIZE) :
    Wrote sb ip i s (s₁.setBlock addr (patch (s₁.disk addr) ((off + tot) % BSIZE)
      (fun j => f (tot + j)) k)) D D₁ off (tot + k) f := by
  have hdiv : (off + tot) / BSIZE * BSIZE + (off + tot) % BSIZE = off + tot :=
    Nat.div_add_mod' ..
  have hrange := data_le h.blocks (i := i) (s := dataSlot ((off + tot) / BSIZE)) hx h0
  refine ⟨h.blocks.write hx h0 hsb, h.inodes, h.memory, fun j hj => ?_, fun j l v hl hne => ?_,
    fun l hl => ?_, h.moves.trans ⟨fun j x _ => h.blocks.write_slot hx h0 j x, fun x h1 h2 => ?_,
      List.Subset.refl _⟩, fun j bn h1 hne hl => h.quiet j bn h1 (fun hj ht => ?_) hl⟩
  · rw [← h.dinodes j hj]
    exact dinodeOf_update _ (iblock_ne hsb hj hrange.2 hrange.1).1
  · refine h.blocks.patch_has hx h0 (h.has j l v hl fun hj => ?_) fun hj => ?_
    · have := hne hj
      omega
    · have := hne hj
      rw [hdiv]
      omega
  · by_cases hlt : l < tot
    · refine h.blocks.patch_has hx h0 (h.new l hlt) fun _ => ?_
      rw [hdiv]
      omega
    · have hself := h.blocks.patch_has_self hx h0 (f := fun j => f (tot + j)) hk
        (k := l - tot) (by omega)
      rw [hdiv] at hself
      rwa [show off + tot + (l - tot) = off + l by omega,
        show tot + (l - tot) = l by omega] at hself
  · exact absurd ((h.blocks.write_slot hx h0 i x).trans h1) h2
  · have := hne hj (by omega)
    omega

/-- They are moved, and the block is logged. -/
theorem Wrote.chunk (hpos : 0 < k) (hk : (off + tot) % BSIZE + k ≤ BSIZE) :
    Wrote sb ip i s (s₁.wrote addr (Fs.patch (s₁.disk addr) ((off + tot) % BSIZE)
      (fun j => f (tot + j)) k)) D D₁ off (tot + k) f := by
  have hp := h.patch hsb hx h0 hk
  refine ⟨hp.blocks, hp.inodes, hp.memory, hp.dinodes, hp.has, hp.new,
    ⟨hp.moves.kept, fun x h1 h2 => subset_absorb _ _ (hp.moves.fresh x h1 h2),
      List.Subset.trans hp.moves.logged (subset_absorb ..)⟩, fun j bn h1 hne hl => ?_⟩
  refine hp.quiet j bn h1 hne (of_mem_absorb hl fun he => ?_)
  -- a block of the file after the bytes that are written is not this one
  have hkept : blockOf s₁.disk (D₁ j) bn = blockOf s.disk (D j) bn := h.moves.kept j _ h1
  have hsame := h.blocks.owns.inj (j, dataSlot bn) (i, dataSlot ((off + tot) / BSIZE))
    (hkept.trans (he.trans hx.symm)) (show blockOf s₁.disk (D₁ j) bn ≠ 0 by rw [hkept]; exact h1)
  have hle := hne (congrArg Prod.fst hsame) (by omega)
  rw [dataSlot_inj (congrArg Prod.snd hsame)] at hle
  have := Nat.div_mul_le_self (off + tot) BSIZE
  omega

end

/-- The number of blocks that hold the `n` bytes from `off` on. -/
def rounds (off n : Nat) : Nat := if n = 0 then 0 else (off % BSIZE + n + (BSIZE - 1)) / BSIZE

theorem rounds_step (hn : 0 < n) (hk : min n (BSIZE - off % BSIZE) = k) :
    rounds (off + k) (n - k) + 1 ≤ rounds off n := by
  simp only [rounds, BSIZE] at *
  rw [if_neg (show ¬ n = 0 by omega)]
  split
  · omega
  · have : (off + k) % 1024 = 0 := by omega
    omega

/-- `writei` stopped at byte `tot` of its source because it could not read all of the next chunk,
    after copying some of it. -/
def Faulted (i : Nat) (s s' : State) (D : Nat → Dinode) (src : Src) (off n tot : Nat) : Prop :=
  tot ≤ src.reach ∧ src.reach < tot + min (n - tot) (BSIZE - (off + tot) % BSIZE) ∧
  ∃ addr, blockOf s.disk (D i) ((off + tot) / BSIZE) = addr ∧ addr ≠ 0 ∧
    s' = s.setBlock addr (patch (s.disk addr) ((off + tot) % BSIZE) (fun j => src.byte (tot + j))
      (src.reach - tot))

/-- What the loop of `writei` leaves. -/
structure Looped (sb : Superblock) (ip i : Nat) (s s₁ s' : State) (D D' : Nat → Dinode) (src : Src)
    (off n cost tot : Nat) : Prop where
  wrote : Wrote sb ip i s s₁ D D' off tot src.byte
  logs : Logs s s₁ cost
  le : tot ≤ n
  reach : tot ≤ src.reach
  whole : tot = 0 ∨ tot = n ∨ (off + tot) % BSIZE = 0
  why : s' = s₁ ∧ (tot = n ∨
    (∀ c < sb.size, InUse sb s₁.disk c) ∧ blockOf s₁.disk (D' i) ((off + tot) / BSIZE) = 0) ∨
    Faulted i s₁ s' D' src off n tot

theorem copyBlock_runs {Q : Bool → State → Prop} (hroom : Room sb E s 1) (hout : 1 ≤ s.outstanding)
    (all : tot + k ≤ src.reach → Q true (s.wrote addr (patch (s.disk addr) off
      (fun j => src.byte (tot + j)) k)))
    (part : src.reach < tot + k → Q false (s.setBlock addr (patch (s.disk addr) off
      (fun j => src.byte (tot + j)) (src.reach - tot)))) :
    (copyBlock sb addr off src tot k).Runs s E Q := by
  by_cases hr : tot + k ≤ src.reach
  · exact logWrite_runs hroom hout (if_pos hr) (all hr)
  · exact Prog.Runs.atomic (if_neg hr) (part (by omega))

theorem writeiLoop_runs (hsb : sb.Ok) (hmax : off + n ≤ MAXFILE * BSIZE) {cost : Nat}
    (hw : Wrote sb ip i s s₁ D D₁ off tot src.byte) (hl : Logs s s₁ cost) (hm : n - tot ≤ m)
    (hle : tot ≤ n) (hreach : tot ≤ src.reach) (hwhole : tot = 0 ∨ tot = n ∨ (off + tot) % BSIZE = 0)
    (hroom : Room sb E s₁ (6 * rounds (off + tot) (n - tot))) (hout : 1 ≤ s.outstanding) :
    (writeiLoop sb ip src n m tot (off + tot)).Runs s₁ E fun r s' => r.2 = off + r.1 ∧
      ∃ s₂ D', Looped sb ip i s s₂ s' D D' src off n (cost + 6 * rounds (off + tot) (n - tot)) r.1 := by
  induction m generalizing s₁ D₁ tot cost with
  | zero =>
    obtain rfl : tot = n := by omega
    exact .ret ⟨rfl, s₁, D₁, hw, hl.mono (by omega), hle, hreach, hwhole, .inl ⟨rfl, .inl rfl⟩⟩
  | succ m ih =>
    unfold writeiLoop
    by_cases hlt : tot < n
    · rw [if_pos hlt]
      generalize hk : min (n - tot) (BSIZE - (off + tot) % BSIZE) = k
      have hmod := Nat.mod_lt (off + tot) (show 0 < BSIZE by decide)
      have hstep : rounds (off + tot + k) (n - tot - k) + 1 ≤ rounds (off + tot) (n - tot) :=
        rounds_step (by omega) hk
      rw [show n - tot - k = n - (tot + k) by omega, add_assoc] at hstep
      have hout₁ : 1 ≤ s₁.outstanding := by rw [hl.outstanding]; exact hout
      have hbn : (off + tot) / BSIZE < MAXFILE :=
        Nat.div_lt_of_lt_mul (by rw [mul_comm]; omega)
      refine .bind (bmap_runs hsb hw.blocks hw.din hbn
        (hroom.after (Logs.refl s₁) (by omega)) hout₁) ?_
      rintro addr s₂ ⟨D₂, hb⟩
      have hw₂ := hw.grow hb.grows
      have hl₂ := hl.trans hb.logs
      split
      · next ha =>
        exact .ret ⟨rfl, s₂, D₂, hw₂, hl₂.mono (by omega), hle, hreach, hwhole,
          .inl ⟨rfl, .inr ⟨hb.full ha, hb.block.trans ha⟩⟩⟩
      rename_i ha
      have hout₂ : 1 ≤ s₂.outstanding := by rw [hl₂.outstanding]; exact hout
      have hblock := hb.block
      refine .seq (copyBlock_runs (hroom.after hb.logs (by omega)) hout₂ (fun hr => ?_)
        fun hr => ?_)
      · have hw₃ := hw₂.chunk hsb hblock ha (k := k) (by omega) (by omega)
        have hl₃ := hl₂.trans (Logs.wrote s₂ addr (patch (s₂.disk addr)
          ((off + tot) % BSIZE) (fun j => src.byte (tot + j)) k))
        rw [if_pos rfl, add_assoc off tot k]
        have hwhole₃ : tot + k = 0 ∨ tot + k = n ∨ (off + (tot + k)) % BSIZE = 0 := by
          simp only [BSIZE] at *
          omega
        refine (ih hw₃ hl₃ (by omega) (by omega) hr hwhole₃
          (hroom.after (hb.logs.trans (Logs.wrote ..)) (by omega))).mono ?_
        rintro r s' ⟨hr2, s₄, D', hlp⟩
        exact ⟨hr2, s₄, D', hlp.wrote, hlp.logs.mono (by omega), hlp.le, hlp.reach,
          hlp.whole, hlp.why⟩
      · exact .ret ⟨rfl, s₂, D₂, hw₂, hl₂.mono (by omega), hle, hreach, hwhole,
          .inr ⟨hreach, by rw [hk]; exact hr, addr, hblock, ha, rfl⟩⟩
    · obtain rfl : tot = n := by omega
      rw [if_neg hlt]
      exact .ret ⟨rfl, s₁, D₁, hw, hl.mono (by omega), hle, hreach, hwhole, .inl ⟨rfl, .inl rfl⟩⟩

/-! ## `writei` -/

/-- The state after the inode `ip` was copied to disk. -/
def State.updated (sb : Superblock) (s : State) (ip : Nat) : State :=
  s.wrote (iblock sb (s.inode ip).inum)
    (setDinode sb s.disk (s.inode ip).inum (s.inode ip).din (iblock sb (s.inode ip).inum))

theorem updated_disk :
    (s.updated sb ip).disk = setDinode sb s.disk (s.inode ip).inum (s.inode ip).din := by
  simp only [State.updated, State.wrote, State.setBlock, setDinode, update_self]

/-- The bitmap is not touched by the copy of an inode. -/
theorem updated_inUse (hsb : sb.Ok) (hi : (s.inode ip).inum < sb.ninodes) {c : Nat}
    (hc : c < sb.size) : InUse sb (s.updated sb ip).disk c ↔ InUse sb s.disk c := by
  rw [updated_disk]
  exact inUse_congr ((setDinode_same hsb hi).2 c hc)

theorem iupdate_runs {Q : Unit → State → Prop} (hroom : Room sb E s 1) (hout : 1 ≤ s.outstanding)
    (h : Q () (s.updated sb ip)) : (iupdate sb ip).Runs s E Q := logWrite_runs hroom hout rfl h

/-- The state with the on-disk fields of the inode `ip` set. -/
def State.setDin (s : State) (ip : Nat) (d : Dinode) : State :=
  s.setInode ip { s.inode ip with din := d }

/-- An inode that ends at `off` or later. -/
def Dinode.extend (d : Dinode) (off : Nat) : Dinode := { d with size := max d.size off }

/-- `writei` returns -1 for these arguments. -/
def BadRange (d : Dinode) (off n : Nat) : Prop :=
  d.size < off ∨ 2 ^ 32 ≤ off + n ∨ MAXFILE * BSIZE < off + n

theorem writei_runs {Q : Option Nat → State → Prop} (hsb : sb.Ok) (h : Blocks sb s.disk D)
    (hip : (s.inode ip).din = D i) (hoff : off < 2 ^ 32) (hn : n < 2 ^ 32)
    (hroom : Room sb E s (6 * rounds off n + 1)) (hout : 1 ≤ s.outstanding)
    (bad : BadRange (D i) off n → Q none s)
    (done : ¬ BadRange (D i) off n → ∀ tot s₁ s₂ D',
      Looped sb ip i s s₁ s₂ D D' src off n (6 * rounds off n) tot →
      Q (some tot) ((s₂.setDin ip ((D' i).extend (off + tot))).updated sb ip)) :
    (writei sb ip src off n).Runs s E Q := by
  refine .seq (inodeAt_runs ?_)
  rw [hip]
  by_cases hwrap : (D i).size < off ∨ (off + n) % 2 ^ 32 < off
  · rw [if_pos hwrap]
    exact .ret (bad (hwrap.imp_right fun hw => .inl (by omega)))
  rw [if_neg hwrap]
  split
  · next hmax =>
    exact .ret (bad (.inr (.inr hmax)))
  rename_i hmax
  have hgood : ¬ BadRange (D i) off n := by
    rintro (hb | hb | hb)
    · exact hwrap (.inl hb)
    · exact hwrap (.inr (by omega))
    · exact hmax hb
  refine .bind (writeiLoop_runs hsb (by omega) (Wrote.refl h hip) (Logs.refl s)
    (by omega) (Nat.zero_le n) (Nat.zero_le _) (.inl rfl)
    (hroom.after (Logs.refl s) (by simp only [Nat.add_zero, Nat.sub_zero]; omega)) hout) ?_
  rintro ⟨tot, last⟩ s₂ ⟨he, s₁, D', hl⟩
  obtain rfl : last = off + tot := he
  have hdin : s₂.inode = s₁.inode ∧ s₂.logged = s₁.logged ∧ s₂.outstanding = s₁.outstanding := by
    rcases hl.why with ⟨rfl, -⟩ | ⟨-, -, addr, -, -, rfl⟩
    · exact ⟨rfl, rfl, rfl⟩
    · exact ⟨rfl, rfl, rfl⟩
  refine .seq (onDin_runs ?_)
  rw [hdin.1, hl.wrote.din, ← hdin.1]
  refine .seq (iupdate_runs ?_ ?_ ?_)
  · have hr := hroom.after hl.logs (k := 1) (by simp)
    unfold Room at hr ⊢
    rwa [← hdin.2.1] at hr
  · show 1 ≤ s₂.outstanding
    rw [hdin.2.2, hl.logs.outstanding]
    exact hout
  refine .ret (done hgood tot s₁ s₂ D' ?_)
  simpa using hl

/-- `log_write` with a full log. -/
theorem copyBlock_full {Q : Bool → State → Prop} (hfull : sb.nlog ≤ s.logged.length + 1)
    (hreach : tot + k ≤ src.reach) (hE : E (some "too big a transaction")) :
    (copyBlock sb addr off src tot k).Runs s E Q := by
  unfold Prog.Runs copyBlock Prog.atomic
  rw [Prog.run_step]
  simp only [if_pos hreach]
  rw [State.logWrite, if_pos (.inr hfull)]
  exact hE

/-- A write that starts in a block that is there does not get past it. -/
theorem writei_full (hsize : off ≤ (s.inode ip).din.size) (hn : 0 < n)
    (hmax : off + n ≤ MAXFILE * BSIZE) (hthere : blockOf s.disk (s.inode ip).din (off / BSIZE) ≠ 0)
    (hreach : n ≤ src.reach) (hfull : sb.nlog ≤ s.logged.length + 1) :
    (writei sb ip src off n).Runs s (fun e => e = some "too big a transaction")
      fun _ _ => False := by
  have hlt : off + n < 2 ^ 32 := hmax.trans_lt (by decide)
  refine .seq (inodeAt_runs ?_)
  rw [if_neg (by omega), if_neg (by omega)]
  refine .stop ?_
  obtain ⟨m, rfl⟩ := Nat.exists_eq_succ_of_ne_zero hn.ne'
  unfold writeiLoop
  rw [if_pos hn]
  refine .seq (bmap_there hthere ?_)
  rw [if_neg hthere]
  exact .stop (copyBlock_full hfull (by omega) rfl)

end Xv6.Fs
