import Xv6.Fs.Content

/-!
# Truncating inodes

`itrunc` gives back the blocks of an inode: the direct ones, those in the indirect block, and the
indirect block itself. No block is freed that is not in use, and no other file loses a byte. There
is a `log_write` for each block, so that the log may run out of places.
-/

namespace Xv6.Fs

open Lib Function

variable {sb : Superblock} {s s' s'' : State} {E : Option String → Prop} {D D' D'' : Nat → Dinode}
  {ip i j k m b : Nat}

/-- The state after block `b` was freed. -/
def State.freed (sb : Superblock) (s : State) (b : Nat) : State :=
  s.wrote (bblock sb b) (clearBit (s.disk (bblock sb b)) (b % BPB))

theorem bfree_runs {Q : Unit → State → Prop} (hE : E (some "too big a transaction"))
    (hout : 1 ≤ s.outstanding) (hin : InUse sb s.disk b) (h : Q () (s.freed sb b)) :
    (bfree sb b).Runs s E Q := by
  refine logWrite_runs (.inl hE) hout (if_neg ?_) h
  rw [hin]
  exact Bool.noConfusion

/-- Inode `i`, which is `ip` in memory, has lost blocks. -/
structure Shrinks (sb : Superblock) (ip i : Nat) (s s' : State) (D D' : Nat → Dinode) : Prop where
  blocks : Blocks sb s'.disk D'
  inodes : D' = update D i { D i with addrs := (D' i).addrs }
  memory : s'.inode = update s.inode ip { s.inode ip with din := D' i }
  dinodes : ∀ j < sb.ninodes, dinodeOf sb s'.disk j = dinodeOf sb s.disk j
  has : ∀ j k v, j ≠ i → Has s.disk (D j) k v → Has s'.disk (D' j) k v
  rest : s'.outstanding = s.outstanding ∧ s'.safe = s.safe

theorem Shrinks.refl (h : Blocks sb s.disk D) (hip : (s.inode ip).din = D i) :
    Shrinks sb ip i s s D D := by
  have hg := Grows.refl h hip
  exact ⟨h, hg.inodes, hg.memory, hg.dinodes, fun _ _ _ _ hk => hk, rfl, rfl⟩

theorem Shrinks.trans (h : Shrinks sb ip i s s' D D') (h' : Shrinks sb ip i s' s'' D' D'') :
    Shrinks sb ip i s s'' D D'' := by
  refine ⟨h'.blocks, ?_, ?_, fun j hj => (h'.dinodes j hj).trans (h.dinodes j hj),
    fun j k v hj hk => h'.has j k v hj (h.has j k v hj hk), h'.rest.1.trans h.rest.1,
    h'.rest.2.trans h.rest.2⟩
  · rw [h'.inodes, h.inodes]
    simp only [update_self, update_idem]
  · rw [h'.memory, h.memory]
    simp only [update_self, update_idem]

theorem Shrinks.din (h : Shrinks sb ip i s s' D D') : (s'.inode ip).din = D' i := by
  rw [h.memory, update_self]

/-- Place `k` of the inode is cleared, after the disk was changed in the bitmap only. -/
theorem Shrinks.clear (hsb : sb.Ok) (h : Blocks sb s.disk D)
    (hblocks : Blocks sb s'.disk (update D i ((D i).setAddr k 0)))
    (hmem : s'.inode = update s.inode ip { s.inode ip with din := (D i).setAddr k 0 })
    (hkept : ∀ x, (∀ c < sb.size, x ≠ bblock sb c) → s'.disk x = s.disk x)
    (hrest : s'.outstanding = s.outstanding ∧ s'.safe = s.safe) :
    Shrinks sb ip i s s' D (update D i ((D i).setAddr k 0)) := by
  refine ⟨hblocks, ?_, ?_, fun j hj => ?_, fun j l v hj hl => ?_, hrest⟩
  · rw [update_self]
    rfl
  · rw [update_self]
    exact hmem
  · have hsame : s'.disk (iblock sb j) = s.disk (iblock sb j) :=
      hkept _ fun c hc => (iblock_ne hsb hj hc le_rfl).2
    rw [dinodeOf, dinodeOf, hsame]
  · rw [update_of_ne hj]
    exact h.same_has (fun x hx => hkept x fun c hc => Ne.symm (bblock_ne hsb hx hc)) hl

section

variable (hsb : sb.Ok) (hE : E (some "too big a transaction"))
include hsb hE

/-- The direct block `k` is freed. -/
theorem truncDirect_runs (h : Blocks sb s.disk D) (hip : (s.inode ip).din = D i)
    (hout : 1 ≤ s.outstanding) (hk : k < NDIRECT) :
    (truncDirect sb ip k).Runs s E fun _ s' => ∃ D', Shrinks sb ip i s s' D D' ∧
      (D' i).addrs k = 0 ∧ ∀ l ≠ k, (D' i).addrs l = (D i).addrs l := by
  refine .seq (inodeAt_runs ?_)
  refine Prog.Runs.when (fun h0 => ?_) fun h0 => ?_
  · rw [hip] at h0 ⊢
    obtain ⟨hin, hblocks⟩ := h.take_addr hsb hk rfl h0
    refine .seq (bfree_runs hE hout hin ?_)
    refine onDin_runs ⟨update D i ((D i).setAddr k 0), ?_, ?_, fun l hl => ?_⟩
    · refine .clear hsb h hblocks ?_ (fun x hx => ?_) ⟨rfl, rfl⟩
      · rw [← hip]
        rfl
      · have hb := data_le h (i := i) (s := .direct k) rfl h0
        exact update_of_ne (hx _ hb.2) ..
    · rw [update_self, setAddr_self]
    · rw [update_self, setAddr_ne hl]
  · rw [not_not, hip] at h0
    exact ⟨D, .refl h hip, h0, fun _ _ => rfl⟩

/-- The indirect block is freed, after the blocks it refers to. -/
theorem truncIndirect_runs (h : Blocks sb s.disk D) (hip : (s.inode ip).din = D i)
    (hout : 1 ≤ s.outstanding) (hb : (D i).addrs NDIRECT = b) (h0 : b ≠ 0) :
    (truncIndirect sb ip b).Runs s E fun _ s' => ∃ D', Shrinks sb ip i s s' D D' ∧
      (D' i).addrs NDIRECT = 0 ∧ ∀ l ≠ NDIRECT, (D' i).addrs l = (D i).addrs l := by
  refine .seq (bread_runs ?_)
  have hentry : ∀ m, refs D s.disk (i, .indirect m) = (s.disk b).u32 (4 * m) := by
    intro m
    show (if (D i).addrs NDIRECT = 0 then 0 else _) = _
    rw [hb, if_neg h0]
  -- the entries before `m` have been freed
  refine .bind (R := fun _ σ => Taking sb D i NINDIRECT s.disk σ.disk ∧
    σ.inode = s.inode ∧ σ.outstanding = s.outstanding ∧ σ.safe = s.safe) ?_ ?_
  · have hloop := Prog.Runs.loop (E := E) (n := NINDIRECT) (a := 0) (s := s) (J := fun m σ =>
      Taking sb D i m s.disk σ.disk ∧ σ.inode = s.inode ∧ σ.outstanding = s.outstanding ∧
        σ.safe = s.safe)
      ⟨.start h, rfl, rfl, rfl⟩ fun m σ _ _ hJ => (?_ : (Prog.when
        ((s.disk b).u32 (4 * m) ≠ 0) (bfree sb ((s.disk b).u32 (4 * m)))).Runs σ E _)
    · rwa [zero_add] at hloop
    · obtain ⟨ht, hmem, ho, hs⟩ := hJ
      refine Prog.Runs.when (fun hne => ?_) fun hne => ?_
      · obtain ⟨hin, ht'⟩ := ht.entry (hentry m) hne
        exact bfree_runs hE (ho ▸ hout) hin ⟨ht', hmem, ho, hs⟩
      · rw [not_not] at hne
        exact ⟨ht.skip ((hentry m).trans hne), hmem, ho, hs⟩
  · rintro _ σ ⟨ht, hmem, ho, hs⟩
    obtain ⟨hin, hblocks⟩ := ht.done h hsb hb h0
    refine .seq (bfree_runs hE (ho ▸ hout) hin ?_)
    refine onDin_runs ⟨update D i ((D i).setAddr NDIRECT 0), ?_, ?_, fun l hl => ?_⟩
    · refine .clear hsb h hblocks ?_ (fun x hx => ?_) ⟨ho, hs⟩
      · show update σ.inode ip { σ.inode ip with din := (σ.inode ip).din.setAddr NDIRECT 0 } = _
        rw [hmem, hip]
      · have hb' := data_le h (i := i) (s := .direct NDIRECT) hb h0
        show update σ.disk (bblock sb b) _ x = _
        rw [update_of_ne (hx _ hb'.2), ht.kept x hx]
    · rw [update_self, setAddr_self]
    · rw [update_self, setAddr_ne hl]

/-- The direct blocks are freed. -/
theorem truncDirects_runs (h : Blocks sb s.disk D) (hip : (s.inode ip).din = D i)
    (hout : 1 ≤ s.outstanding) :
    (Prog.loop (truncDirect sb ip) 0 NDIRECT).Runs s E fun _ s' => ∃ D', Shrinks sb ip i s s' D D' ∧
      ∀ l < NDIRECT, (D' i).addrs l = 0 := by
  have hloop := Prog.Runs.loop (E := E) (n := NDIRECT) (a := 0) (s := s) (J := fun m σ =>
    ∃ D', Shrinks sb ip i s σ D D' ∧ ∀ l < m, (D' i).addrs l = 0)
    ⟨D, .refl h hip, fun l hl => absurd hl (Nat.not_lt_zero l)⟩
    (fun m σ _ hm hJ => (?_ : (truncDirect sb ip m).Runs σ E _))
  · rwa [zero_add] at hloop
  · obtain ⟨D', hs, hzero⟩ := hJ
    refine (truncDirect_runs hsb hE hs.blocks hs.din (hs.rest.1 ▸ hout) (by omega)).mono ?_
    rintro _ σ' ⟨D'', hs', hz, hkept⟩
    refine ⟨D'', hs.trans hs', fun l hl => ?_⟩
    by_cases hlm : l = m
    · rw [hlm, hz]
    · rw [hkept l hlm, hzero l (by omega)]

/-- All blocks of the inode are freed. -/
theorem truncBlocks_runs (h : Blocks sb s.disk D) (hip : (s.inode ip).din = D i)
    (hout : 1 ≤ s.outstanding) {Q : Unit → State → Prop} {p : Prog State Unit}
    (next : ∀ s' D', Shrinks sb ip i s s' D D' → (∀ l, (D' i).addrs l = 0) → p.Runs s' E Q) :
    (Prog.loop (truncDirect sb ip) 0 NDIRECT >>= fun _ => inodeAt ip >>= fun x =>
      Prog.when (x.din.addrs NDIRECT ≠ 0) (truncIndirect sb ip (x.din.addrs NDIRECT)) >>=
        fun _ => p).Runs s E Q := by
  refine .bind (truncDirects_runs hsb hE h hip hout) ?_
  rintro _ s₁ ⟨D₁, hs₁, hdirect⟩
  refine .seq (inodeAt_runs ?_)
  rw [hs₁.din]
  refine .bind (R := fun _ s' => ∃ D', Shrinks sb ip i s s' D D' ∧
    ∀ l, (D' i).addrs l = 0) (Prog.Runs.when (fun h0 => ?_) fun h0 => ?_) ?_
  · refine (truncIndirect_runs hsb hE hs₁.blocks hs₁.din (hs₁.rest.1 ▸ hout) rfl h0).mono ?_
    rintro _ s' ⟨D', hs', hz, hkept⟩
    refine ⟨D', hs₁.trans hs', fun l => ?_⟩
    by_cases hl : l = NDIRECT
    · rw [hl, hz]
    · by_cases hlt : l < NDIRECT
      · rw [hkept l hl, hdirect l hlt]
      · exact hs'.blocks.rest i l (by omega)
  · rw [not_not] at h0
    refine ⟨D₁, hs₁, fun l => ?_⟩
    by_cases hlt : l < NDIRECT
    · exact hdirect l hlt
    · by_cases hl : l = NDIRECT
      · rw [hl, h0]
      · exact hs₁.blocks.rest i l (by omega)
  · rintro _ s' ⟨D', hs', hz⟩
    exact next s' D' hs' hz

end

end Xv6.Fs
