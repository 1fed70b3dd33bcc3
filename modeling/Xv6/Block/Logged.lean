import Xv6.Block.Home

/-!
# Each step keeps the log's invariant

One lemma for each kind of step that `Block.Home`'s `Logged` can notice. The disk writes are four:
`write_log` copies a block into the log (nothing that recovery looks at), `write_head` with `n > 0`
(the commit), `install_trans` writes a home block (which recovery would overwrite with the same
bytes), and `write_head` with `n = 0` (when the home blocks already are what recovery would make).
-/

namespace Xv6.BlockLayer

open Lib Function List

section

variable {T : Type} {sb : Layout} {init : Nat → Block}
  {s s' : Sys T} {loc loc' : T → Loc} {ph ph' : Phase} {t : T} {i : Nat}

theorem PhaseOk.congr (h : PhaseOk sb s ph) (hdisk : s'.disk = s.disk) (hstore : s'.store = s.store)
    (hlh : s'.log.lh = s.log.lh) : PhaseOk sb s' ph := by
  cases ph <;> simp only [PhaseOk, hdisk, hstore, hlh] at h ⊢ <;> exact h

/-- A step that changes neither blocks, nor what has been logged, nor a buffer that is modified.
    Operations that begin have new numbers, and whoever has modified a buffer still may have. -/
theorem Logged.quiet (h : Logged sb init s loc ph) (hdisk : s'.disk = s.disk)
    (hstore : s'.store = s.store) (hdirty : s'.dirty = s.dirty) (hgroup : s'.group = s.group)
    (hcom : s'.committed = s.committed) (hphase : PhaseOk sb s' ph') (hlh : HeaderOk sb s'.log.lh)
    (hlogged : ∀ u ∈ s.group, (∃ k, ph' = .writing k) ∧ u.blockno ∈ s'.log.lh.blocks)
    (hnext : s.nextOp ≤ s'.nextOp)
    (hop : ∀ t id, s'.op t = some id → id < s'.nextOp ∧ (s.op t = some id ∨ s.nextOp ≤ id))
    (hbuf : ∀ i < NBUF, s.dirty i = true → (s'.buf i).dev = (s.buf i).dev ∧
      (s'.buf i).blockno = (s.buf i).blockno ∧ (s'.buf i).lock = (s.buf i).lock)
    (hwho : ∀ t, ∀ i < NBUF, s.dirty i = true → (s.buf i).lock = some t →
      (s.op t ≠ none → s'.op t ≠ none) ∧ ((loc t).worker ≠ none → i ∈ (loc t).mods →
        (loc' t).worker ≠ none ∧ i ∈ (loc' t).mods))
    (hcur : ph'.Current → ∀ b, sb.Home b → ¬ DirtyAt sb s b →
      s.store sb.dev b = applyAll (s.committed ++ [s.group]) init b)
    (hrefs : ∀ t, ∀ r ∈ (loc' t).refs, r ∈ (loc t).refs ∨ r.dev = sb.dev ∧ r.blockno < 2 ^ 32) :
    Logged sb init s' loc' ph' := by
  refine ⟨hdisk ▸ h.header, ?_, hphase, hlh, hgroup ▸ hlogged, ?_, ?_, ?_, ?_, ?_, ?_⟩
  · rw [hdisk, hcom]
    exact h.recovered
  · rw [hcom, hgroup]
    exact h.order
  · rw [hcom, hgroup]
    exact fun g hg u hu => (h.fresh g hg u hu).trans_le hnext
  · intro t id ht
    obtain ⟨hlt, hold⟩ := hop t id ht
    refine ⟨hlt, fun g hg u hu => ?_⟩
    rw [hcom] at hg
    rcases hold with hold | hnew
    · exact (h.running t id hold).2 g hg u hu
    · exact Nat.lt_of_lt_of_le (h.fresh g (mem_append_left _ hg) u hu) hnew
  · rw [hdirty]
    intro i hi hd
    obtain ⟨e1, e2, e3⟩ := hbuf i hi hd
    rw [e1, e2, e3]
    obtain ⟨hdev, t, hl, hc⟩ := h.dirty i hi hd
    obtain ⟨hopen, hwork⟩ := hwho t i hi hd hl
    exact ⟨hdev, t, hl, hc.imp (fun hc => ⟨hopen hc.1, hc.2⟩) fun hc => hwork hc.1 hc.2⟩
  · rw [hstore, hcom, hgroup]
    refine fun hc b hb hn => hcur hc b hb fun hat => hn ?_
    obtain ⟨i, hi, hd, hbn, hdi⟩ := hat
    obtain ⟨e1, e2, -⟩ := hbuf i hi hdi
    exact ⟨i, hi, e1.trans hd, e2.trans hbn, by rw [hdirty, hdi]⟩
  · exact fun t r hr => (hrefs t r hr).elim (h.refs t r) id

/-! ## Disk writes -/

/-- Buffer `i` has been written, and whoever works on another buffer still does. -/
structure AfterWrite (loc loc' : T → Loc) (i : Nat) : Prop where
  refs : ∀ u, (loc' u).refs = (loc u).refs
  work : ∀ u j, j ≠ i → (loc u).worker ≠ none → j ∈ (loc u).mods →
    (loc' u).worker ≠ none ∧ j ∈ (loc' u).mods

/-- What any `bwrite` by the holder does, given what becomes of the disk's own facts. -/
theorem Logged.bwrite (h : Logged sb init s loc ph) (hwr : Wrote s s' i)
    (hgs : s'.committed ++ [s'.group] = s.committed ++ [s.group] ∨
      s'.committed = s.committed ++ [s.group] ∧ s'.group = [] ∧ ∀ t, s.op t = none)
    (hloc : AfterWrite loc loc' i)
    (hheader : HeaderOk sb (BlockLayer.header sb s'.disk))
    (hrec : ∀ b, sb.Home b → BlockLayer.recovered sb s'.disk b = applyAll s'.committed init b)
    (hphase : PhaseOk sb s' ph') (hlh : HeaderOk sb s.log.lh)
    (hlogged : ∀ u ∈ s'.group, (∃ k, ph' = .writing k) ∧ u.blockno ∈ s.log.lh.blocks)
    (hcur : ph'.Current → ph.Current)
    (hself : ph'.Current → sb.Home (s.buf i).blockno → (s.buf i).dev = sb.dev → i < NBUF →
      s.store sb.dev (s.buf i).blockno
        = applyAll (s.committed ++ [s.group]) init (s.buf i).blockno) :
    Logged sb init s' loc' ph' := by
  have hbuf : ∀ i, s'.buf i = s.buf i := fun i => by rw [Sys.buf, hwr.bcache, Sys.buf]
  have happ : applyAll (s'.committed ++ [s'.group]) init
      = applyAll (s.committed ++ [s.group]) init := by
    rcases hgs with hgs | ⟨hc, hg, -⟩
    · rw [hgs]
    · rw [hg, applyAll_concat_nil, hc]
  have hsub : ∀ g ∈ s'.committed ++ [s'.group], ∀ u ∈ g, g ∈ s.committed ++ [s.group] := by
    intro g hg u hu
    rcases hgs with hgs | ⟨hc, he, -⟩
    · rwa [hgs] at hg
    · rw [he, hc] at hg
      rcases mem_append.mp hg with hg | hg
      · exact hg
      · rw [mem_singleton.mp hg] at hu
        simp at hu
  refine ⟨hheader, hrec, hphase, hwr.log ▸ hlh, hwr.log ▸ hlogged, ?_, ?_, ?_, ?_, ?_, ?_⟩
  · rcases hgs with hgs | ⟨hc, hg, -⟩
    · rw [hgs]
      exact h.order
    · rw [hg, hc, pairwise_append]
      refine ⟨h.order, pairwise_singleton .., fun g _ g' hg' u _ v hv => ?_⟩
      rw [mem_singleton.mp hg'] at hv
      simp at hv
  · intro g hg u hu
    rw [hwr.nextOp]
    exact h.fresh g (hsub g hg u hu) u hu
  · intro u id hu
    rw [hwr.op] at hu
    rw [hwr.nextOp]
    refine ⟨(h.running u id hu).1, fun g hg v hv => ?_⟩
    rcases hgs with hgs | ⟨-, -, hnone⟩
    · rcases append_inj' hgs rfl with ⟨hc, -⟩
      exact (h.running u id hu).2 g (hc ▸ hg) v hv
    · rw [hnone u] at hu
      simp at hu
  · intro j hj hd
    rw [hwr.dirty] at hd
    have hji : j ≠ i := by
      rintro rfl
      simp at hd
    rw [update_of_ne hji] at hd
    rw [hbuf, hwr.op]
    obtain ⟨hdev, u, hl, hc⟩ := h.dirty j hj hd
    exact ⟨hdev, u, hl, hc.imp_right fun hc => hloc.work u j hji hc.1 hc.2⟩
  · intro hc b hbh hn
    rw [hwr.store, happ]
    by_cases hbi : ∃ i' < NBUF, i' = i ∧ (s.buf i).dev = sb.dev ∧ (s.buf i).blockno = b
    · obtain ⟨_, hi, rfl, hdev, rfl⟩ := hbi
      exact hself hc hbh hdev hi
    · refine h.store (hcur hc) b hbh fun hat => ?_
      obtain ⟨j, hj, hdj, hbj, hd⟩ := hat
      refine hn ⟨j, hj, ?_, ?_, ?_⟩
      · rw [hbuf, hdj]
      · rw [hbuf, hbj]
      · have hji : j ≠ i := by
          rintro rfl
          exact hbi ⟨j, hj, rfl, hdj, hbj⟩
        rw [hwr.dirty, update_of_ne hji, hd]
  · intro u
    rw [hloc.refs u]
    exact h.refs u

/-- Outside the log and with no operation running, no home block is modified. -/
theorem Logged.not_dirtyAt (h : Logged sb init s loc ph) (hq : ∀ u, s.op u = none)
    (hm : ∀ u, (loc u).worker ≠ none → ∀ j ∈ (loc u).mods, ¬ sb.Home (s.buf j).blockno) {b : Nat}
    (hb : sb.Home b) : ¬ DirtyAt sb s b := by
  rintro ⟨j, hj, -, rfl, hd⟩
  obtain ⟨-, u, -, hc | hc⟩ := h.dirty j hj hd
  · exact hc.1 (hq u)
  · exact hm u hc.1 j hc.2 hb

theorem Wrote.disk_of_ne (hwr : Wrote s s' i) {b : Nat} (hb : b ≠ (s.buf i).blockno) :
    s'.disk sb.dev b = s.disk sb.dev b := by
  rw [hwr.disk, set₂_of_ne fun hid => hb hid.2]

theorem Wrote.disk_self (hwr : Wrote s s' i) (hd : (s.buf i).dev = sb.dev) :
    s'.disk sb.dev (s.buf i).blockno = (s.buf i).data := by
  rw [hwr.disk, ← hd, set₂_self]

/-- `write_log` writes the next block of the log. -/
theorem Logged.write_log {k : Nat} (h : Logged sb init s loc (.writing k)) (hsb : sb.Ok)
    (hwr : Wrote s s' i) (hcom : s'.committed = s.committed) (hgroup : s'.group = s.group)
    (hloc : AfterWrite loc loc' i)
    (hk : k < s.log.lh.n) (hdev : (s.buf i).dev = sb.dev)
    (hbno : (s.buf i).blockno = sb.logstart + k + 1)
    (hdata : (s.buf i).data = s.store sb.dev (s.log.lh.block k)) :
    Logged sb init s' loc' (.writing (k + 1)) := by
  have hlh := h.lh
  obtain ⟨hn, -, hlog⟩ := h.phase
  have hnh : ¬ sb.Home (s.buf i).blockno := by
    rw [hbno, add_assoc]
    exact hsb.not_home (by have := hlh.room; omega)
  have hhead : BlockLayer.header sb s'.disk = BlockLayer.header sb s.disk := by
    rw [BlockLayer.header, hwr.disk_of_ne (by omega), BlockLayer.header]
  refine h.bwrite hwr (.inl (by rw [hcom, hgroup])) hloc (hhead ▸ h.header) ?_ ?_ hlh ?_ id
    fun _ hh => absurd hh hnh
  · intro b hb
    rw [recovered_of_zero (hhead ▸ hn), hwr.disk_of_ne, ← recovered_of_zero hn, hcom]
    · exact h.recovered b hb
    · rintro rfl
      exact hnh hb
  · refine ⟨hhead ▸ hn, hwr.log ▸ hk, fun j hj => ?_⟩
    rw [hwr.log, hwr.store]
    rcases Nat.lt_succ_iff_lt_or_eq.mp hj with hj | rfl
    · rw [hwr.disk_of_ne (by omega), hlog j hj]
    · rw [← hbno, hwr.disk_self hdev, hdata]
  · rw [hgroup]
    exact fun u hu => ⟨⟨_, rfl⟩, (h.logged u hu).2⟩

/-- The commit: one write makes the header announce the whole group. -/
theorem Logged.commit {old : Block} (h : Logged sb init s loc (.writing s.log.lh.n))
    (hsb : sb.Ok) (hwr : Wrote s s' i) (hcom : s'.committed = s.committed ++ [s.group])
    (hgroup : s'.group = []) (hloc : AfterWrite loc loc' i)
    (hdev : (s.buf i).dev = sb.dev) (hbno : (s.buf i).blockno = sb.logstart)
    (hdata : (s.buf i).data = s.log.lh.toBlock old) (hq : ∀ u, s.op u = none)
    (hclean : ∀ b, sb.Home b → ¬ DirtyAt sb s b) :
    Logged sb init s' loc' (.installing false 0) := by
  have hlh := h.lh
  obtain ⟨hn, -, hlog⟩ := h.phase
  have hnh : ¬ sb.Home (s.buf i).blockno := by
    rw [hbno]
    exact hsb.not_home (Nat.zero_le _)
  have hsame : s.log.lh.Same (BlockLayer.header sb s'.disk) := by
    rw [BlockLayer.header, ← hbno, hwr.disk_self hdev, hdata]
    obtain ⟨h0, hi⟩ := LogHeader.ofBlock_toBlock old hlh.size fun j hj => (hlh.home_block hj).2
    exact ⟨h0.symm, fun j hj => (hi j hj).symm⟩
  refine h.bwrite hwr (.inr ⟨hcom, hgroup, hq⟩) hloc (hlh.congr hsame) ?_ ?_ hlh ?_
    (fun _ => trivial) fun _ hh => absurd hh hnh
  · intro b hb
    rw [hcom]
    by_cases hm : b ∈ s.log.lh.blocks
    · obtain ⟨j, hj, rfl⟩ := LogHeader.mem_blocks.mp hm
      rw [← h.store trivial _ hb (hclean _ hb), ← hlog j hj, hsame.2 j hj,
        recovered_block (hlh.congr hsame) (hsame.1 ▸ hj), hwr.disk_of_ne (by omega)]
    · rw [recovered_of_not_mem (hsame.blocks ▸ hm), hwr.disk_of_ne, applyAll_concat,
        foldl_apply_of_not_mem, ← h.recovered b hb, recovered_of_zero hn]
      · rintro u hu rfl
        exact hm (h.logged u hu).2
      · rintro rfl
        exact hnh hb
  · exact ⟨hwr.log ▸ hsame, Nat.zero_le _, fun _ hj => absurd hj (Nat.not_lt_zero _)⟩
  · rw [hgroup]
    simp

theorem Logged.group_nil (h : Logged sb init s loc ph) (hph : ∀ k, ph ≠ .writing k) :
    s.group = [] := by
  cases hg : s.group with
  | nil => rfl
  | cons u us =>
    obtain ⟨⟨k, hk⟩, -⟩ := h.logged u (by rw [hg]; simp)
    exact absurd hk (hph k)

/-- `install_trans` writes the next home block; after it the block may count as installed. -/
theorem Logged.install {r : Bool} {k k' : Nat} (h : Logged sb init s loc (.installing r k))
    (hsb : sb.Ok) (hwr : Wrote s s' i) (hcom : s'.committed = s.committed)
    (hgroup : s'.group = s.group) (hloc : AfterWrite loc loc' i)
    (hk : k < s.log.lh.n) (hk' : k' ≤ k + 1) (hdev : (s.buf i).dev = sb.dev)
    (hbno : (s.buf i).blockno = s.log.lh.block k)
    (hdata : (s.buf i).data = s.disk sb.dev (sb.logstart + k + 1))
    (hstore : (s.buf i).data = s.store sb.dev (s.buf i).blockno) :
    Logged sb init s' loc' (.installing r k') := by
  have hlh := h.lh
  obtain ⟨hsame, -, hinst⟩ := h.phase
  have hhome := (hlh.home_block hk).1
  have hlogne : ∀ j < s.log.lh.n, sb.logstart + j + 1 ≠ (s.buf i).blockno := by
    intro j hj hc
    rw [hbno] at hc
    rw [← hc, add_assoc] at hhome
    exact hsb.not_home (by have := hlh.room; omega) hhome
  have hhead : BlockLayer.header sb s'.disk = BlockLayer.header sb s.disk := by
    rw [BlockLayer.header, hwr.disk_of_ne, BlockLayer.header]
    intro hc
    rw [hbno] at hc
    rw [← hc] at hhome
    exact hsb.not_home (Nat.zero_le _) hhome
  have hnil := h.group_nil (by simp)
  refine h.bwrite hwr (.inl (by rw [hcom, hgroup])) hloc (hhead ▸ h.header) ?_ ?_ hlh ?_ id
    fun _ hh _ _ => ?_
  · intro b hb
    rw [hcom, ← h.recovered b hb]
    refine recovered_congr h.header ?_ ?_ ?_
    · refine hwr.disk_of_ne fun hc => ?_
      rw [hbno] at hc
      rw [← hc] at hhome
      exact hsb.not_home (Nat.zero_le _) hhome
    · exact fun j hj => hwr.disk_of_ne (hlogne j (hsame.1 ▸ hj))
    · intro hm
      refine hwr.disk_of_ne ?_
      rintro rfl
      refine hm (hsame.blocks ▸ LogHeader.mem_blocks.mpr ⟨k, hk, hbno.symm⟩)
  · refine ⟨by rw [hwr.log, hhead]; exact hsame, by rw [hwr.log]; omega, fun j hj => ?_⟩
    rw [hwr.log, hwr.disk_of_ne (hlogne j (by omega))]
    by_cases hjk : j = k
    · rw [hjk, ← hbno, hwr.disk_self hdev, hdata]
    · rw [hwr.disk_of_ne, hinst j (by omega)]
      rw [hbno]
      exact fun hc => hjk (LogHeader.block_inj hlh.nodup (by omega) hk hc)
  · rw [hgroup, hnil]
    simp
  · rw [hnil, applyAll_concat_nil, ← h.recovered _ hh, ← hstore, hdata, hbno, hsame.2 k hk,
      recovered_block h.header (hsame.1 ▸ hk)]

/-- The header is cleared: by now the home blocks are what recovery would make of the disk. -/
theorem Logged.clear {old : Block} {r : Bool} (h : Logged sb init s loc (.clearing r))
    (hsb : sb.Ok) (hph : ph' = .writing 0 ∨ ph' = .recovered)
    (hwr : Wrote s s' i) (hcom : s'.committed = s.committed) (hgroup : s'.group = s.group)
    (hloc : AfterWrite loc loc' i)
    (hdev : (s.buf i).dev = sb.dev) (hbno : (s.buf i).blockno = sb.logstart)
    (hdata : (s.buf i).data = s.log.lh.toBlock old) : Logged sb init s' loc' ph' := by
  have hlh := h.lh
  obtain ⟨hn, hinst⟩ := h.phase
  have hnh : ¬ sb.Home (s.buf i).blockno := by
    rw [hbno]
    exact hsb.not_home (Nat.zero_le _)
  have hn' : (BlockLayer.header sb s'.disk).n = 0 := by
    rw [BlockLayer.header, ← hbno, hwr.disk_self hdev, hdata]
    exact (LogHeader.ofBlock_toBlock old hlh.size fun j hj => (hlh.home_block hj).2).1.trans hn
  refine h.bwrite hwr (.inl (by rw [hcom, hgroup])) hloc (headerOk_of_zero hn') ?_ ?_ hlh ?_
    (fun _ => trivial) fun _ hh => absurd hh hnh
  · intro b hb
    rw [recovered_of_zero hn', hwr.disk_of_ne, hcom, ← h.recovered b hb]
    · by_cases hm : b ∈ (BlockLayer.header sb s.disk).blocks
      · obtain ⟨j, hj, rfl⟩ := LogHeader.mem_blocks.mp hm
        rw [hinst j hj, recovered_block h.header hj]
      · rw [recovered_of_not_mem hm]
    · rintro rfl
      exact hnh hb
  · rcases hph with rfl | rfl
    · exact ⟨hn', Nat.zero_le _, fun _ hj => absurd hj (Nat.not_lt_zero _)⟩
    · exact hn'
  · rw [hgroup, h.group_nil (by simp)]
    simp

/-! ## Steps of the log in memory -/

/-- `log_write` of a home block by an operation. -/
theorem Logged.log_write {id : Nat} {c : Bcache T} {lg : Log}
    (h : Logged sb init s loc (.writing 0)) (hb : SameBufs s { s with bcache := c })
    (hid : s.op t = some id) (hdev : (s.buf i).dev = sb.dev)
    (hdata : (s.buf i).data = s.store sb.dev (s.buf i).blockno)
    (hlh : HeaderOk sb lg.lh) (hsub : ∀ b ∈ s.log.lh.blocks, b ∈ lg.lh.blocks)
    (hmem : (s.buf i).blockno ∈ lg.lh.blocks) :
    Logged sb init { s with
      bcache := c, log := lg, dirty := update s.dirty i false
      group := s.group ++ [⟨id, (s.buf i).blockno, (s.buf i).data⟩] } loc (.writing 0) := by
  have hrun := h.running t id hid
  refine ⟨h.header, h.recovered, ?_, hlh, fun u hu => ⟨⟨0, rfl⟩, ?_⟩, ?_, ?_, h.running, ?_, ?_,
    h.refs⟩
  · exact ⟨h.phase.1, Nat.zero_le _, fun _ hj => absurd hj (Nat.not_lt_zero _)⟩
  · rcases mem_append.mp hu with hu | hu
    · exact hsub _ (h.logged u hu).2
    · rw [mem_singleton.mp hu]
      exact hmem
  · have ho := h.order
    rw [pairwise_append] at ho ⊢
    refine ⟨ho.1, pairwise_singleton .., fun g hg g' hg' u hu v hv => ?_⟩
    rw [mem_singleton.mp hg'] at hv
    rcases mem_append.mp hv with hv | hv
    · exact ho.2.2 g hg s.group mem_cons_self u hu v hv
    · rw [mem_singleton.mp hv]
      exact hrun.2 g hg u hu
  · intro g hg u hu
    rcases mem_append.mp hg with hg | hg
    · exact h.fresh g (mem_append_left _ hg) u hu
    · rw [mem_singleton.mp hg] at hu
      rcases mem_append.mp hu with hu | hu
      · exact h.fresh s.group (mem_append_right _ mem_cons_self) u hu
      · rw [mem_singleton.mp hu]
        exact hrun.1
  · intro j hj hd
    have hji : j ≠ i := by
      rintro rfl
      simp at hd
    simp only [update_of_ne hji] at hd
    obtain ⟨e1, e2, -, e4, -⟩ := hb j
    have hbuf := h.dirty j hj hd
    rw [← e1, ← e2, ← e4] at hbuf
    exact hbuf
  · intro _ b hbh hn
    show s.store sb.dev b = _
    rw [applyAll_push, apply]
    by_cases hbi : b = (s.buf i).blockno
    · rw [hbi, update_self, hdata]
    · rw [update_of_ne hbi]
      refine h.store trivial b hbh fun hat => ?_
      obtain ⟨j, hj, hdj, hbj, hd⟩ := hat
      have hji : j ≠ i := by
        rintro rfl
        exact hbi hbj.symm
      exact hn ⟨j, hj, (hb j).1.trans hdj, (hb j).2.1.trans hbj, (update_of_ne hji ..).trans hd⟩

/-- The in-memory header or the phase changes, the disk does not: between installing a block and
    the next, when `read_head` loads the header, and when the header is cleared in memory. -/
theorem Logged.rephase {c : Bcache T} {lg : Log} (h : Logged sb init s loc ph)
    (hb : SameBufs s { s with bcache := c })
    (hwork : ∀ u, (loc u).worker ≠ none → (loc' u).worker ≠ none)
    (hmods : ∀ u, (loc' u).mods = (loc u).mods) (hrefs : ∀ u, (loc' u).refs = (loc u).refs)
    (hph : ∀ k, ph ≠ .writing k) (hphase : PhaseOk sb { s with bcache := c, log := lg } ph')
    (hlh : HeaderOk sb lg.lh)
    (hcur : ph'.Current → ∀ b, sb.Home b → ¬ DirtyAt sb s b →
      s.store sb.dev b = applyAll s.committed init b) :
    Logged sb init { s with bcache := c, log := lg } loc' ph' := by
  have hnil := h.group_nil hph
  refine h.quiet rfl rfl rfl rfl rfl hphase hlh (by simp [hnil]) le_rfl
    (fun u id hu => ⟨(h.running u id hu).1, .inl hu⟩)
    (fun i _ _ => ⟨(hb i).1, (hb i).2.1, (hb i).2.2.2.1⟩)
    (fun u i _ _ _ => ⟨id, fun hw hm => ⟨hwork u hw, hmods u ▸ hm⟩⟩) ?_
    fun u r hr => .inl (hrefs u ▸ hr)
  rw [hnil, applyAll_concat_nil]
  exact hcur

variable [DecidableEq T]

/-- A holder stores new bytes: an operation in a home block, a committing process in the log or,
    while it installs, in a home block. -/
theorem Logged.modify {d : Block} (h : Logged sb init s loc ph) (hl : (s.buf i).lock = some t)
    (hi : i < NBUF) (hdev : (s.buf i).dev = sb.dev)
    (hb : s'.bcache = s.bcache.set i { s.buf i with data := d })
    (hstore : s'.store = set₂ s.store (s.buf i).dev (s.buf i).blockno d)
    (hdirty : s'.dirty = update s.dirty i true) (hdisk : s'.disk = s.disk)
    (hlog : s'.log = s.log) (hgroup : s'.group = s.group) (hcom : s'.committed = s.committed)
    (hnext : s'.nextOp = s.nextOp) (hop : s'.op = s.op)
    (hsame : ∀ u, u ≠ t → loc' u = loc u) (hw : (loc' t).worker = (loc t).worker)
    (hmods : ∀ j ∈ (loc t).mods, j ∈ (loc' t).mods) (hrefs : (loc' t).refs = (loc t).refs)
    (hphase : ∀ k, ph = .writing k → k = 0 ∨ ¬ sb.Home (s.buf i).blockno)
    (hwho : (s.op t ≠ none ∧ sb.Home (s.buf i).blockno) ∨
      ((loc' t).worker ≠ none ∧ i ∈ (loc' t).mods)) :
    Logged sb init s' loc' ph := by
  have hbuf : ∀ j, (s'.buf j).dev = (s.buf j).dev ∧ (s'.buf j).blockno = (s.buf j).blockno ∧
      (s'.buf j).lock = (s.buf j).lock := by
    intro j
    simp only [Sys.buf, hb]
    by_cases hji : j = i
    · subst hji
      rw [Bcache.set_buf_self]
      exact ⟨rfl, rfl, rfl⟩
    · rw [Bcache.set_buf_of_ne _ _ hji]
      exact ⟨rfl, rfl, rfl⟩
  have hd' : ∀ j, j ≠ i → s'.dirty j = s.dirty j := fun j hji => by
    rw [hdirty, update_of_ne hji]
  refine ⟨hdisk ▸ h.header, ?_, ?_, hlog ▸ h.lh, ?_, ?_, ?_, ?_, ?_, ?_, ?_⟩
  · rw [hdisk, hcom]
    exact h.recovered
  · cases ph with
    | boot => trivial
    | head => trivial
    | writing k =>
      obtain ⟨hn, hk, hwritten⟩ := h.phase
      simp only [PhaseOk, hdisk, hlog]
      refine ⟨hn, hk, fun j hj => ?_⟩
      rw [hwritten j hj, hstore]
      refine (set₂_of_ne fun hid => ?_).symm
      -- what is in the log already came from home blocks
      rcases hphase k rfl with rfl | hnh
      · omega
      · exact hnh (hid.2 ▸ (h.lh.home_block (hj.trans_le hk)).1)
    | installing r k =>
      simp only [PhaseOk, hdisk, hlog]
      exact h.phase
    | clearing r =>
      simp only [PhaseOk, hdisk, hlog]
      exact h.phase
    | recovered =>
      simp only [PhaseOk, hdisk]
      exact h.phase
  · rw [hgroup, hlog]
    exact h.logged
  · rw [hgroup, hcom]
    exact h.order
  · rw [hgroup, hcom, hnext]
    exact h.fresh
  · rw [hcom, hnext, hop]
    exact h.running
  · intro j hj hd
    rw [(hbuf j).1, (hbuf j).2.1, (hbuf j).2.2, hop]
    by_cases hji : j = i
    · subst hji
      exact ⟨hdev, t, hl, hwho⟩
    · rw [hd' j hji] at hd
      obtain ⟨hdj, u, hlu, hc⟩ := h.dirty j hj hd
      refine ⟨hdj, u, hlu, hc.imp_right fun hc => ?_⟩
      by_cases hut : u = t
      · subst hut
        rw [hw]
        exact ⟨hc.1, hmods j hc.2⟩
      · rwa [hsame u hut]
  · intro hcur b hb hn
    -- the block just stored to is modified, so nothing is claimed about it
    have hbi : b ≠ (s.buf i).blockno := by
      rintro rfl
      exact hn ⟨i, hi, (hbuf i).1.trans hdev, (hbuf i).2.1, by rw [hdirty, update_self]⟩
    rw [hstore, set₂_of_ne fun hid => hbi hid.2, hcom, hgroup]
    refine h.store hcur b hb fun hat => ?_
    obtain ⟨j, hj, hdj, hbj, hd⟩ := hat
    refine hn ⟨j, hj, ?_, ?_, ?_⟩
    · exact (hbuf j).1.trans hdj
    · exact (hbuf j).2.1.trans hbj
    · by_cases hji : j = i
      · rw [hji, hdirty, update_self]
      · rw [hd' j hji, hd]
  · intro u
    by_cases hut : u = t
    · subst hut
      rw [hrefs]
      exact h.refs u
    · rw [hsame u hut]
      exact h.refs u

/-- `begin_op` admits an operation under a fresh number, and `end_op` ends one that has logged all
    it modified. -/
theorem Logged.setOp {o : Option Nat} {l : Log} {nextOp : Nat} (h : Logged sb init s loc ph)
    (hlh : l.lh = s.log.lh) (hnext : s.nextOp ≤ nextOp)
    (hnew : ∀ id, o = some id → id < nextOp ∧ s.nextOp ≤ id)
    (hself : ∀ i < NBUF, s.dirty i = true → (s.buf i).lock = some t →
      s.op t = none ∧ loc' t = loc t)
    (hrefs : ∀ u, (loc' u).refs = (loc u).refs) (hother : ∀ u, u ≠ t → loc' u = loc u) :
    Logged sb init { s with log := l, op := update s.op t o, nextOp := nextOp } loc' ph := by
  refine h.quiet rfl rfl rfl rfl rfl (h.phase.congr rfl rfl hlh) (hlh ▸ h.lh) (hlh ▸ h.logged) hnext
    (fun u id hu => ?_) (fun _ _ _ => ⟨rfl, rfl, rfl⟩) (fun u i hi hd hl => ?_) h.store
    fun u r hr => .inl (hrefs u ▸ hr)
  · change update s.op t o u = some id at hu
    by_cases hut : u = t
    · rw [hut, update_self] at hu
      exact ⟨(hnew id hu).1, .inr (hnew id hu).2⟩
    · rw [update_of_ne hut] at hu
      exact ⟨(h.running u id hu).1.trans_le hnext, .inl hu⟩
  · show (_ → update s.op t o u ≠ none) ∧ _
    by_cases hut : u = t
    · subst hut
      obtain ⟨hidle, hloc⟩ := hself i hi hd hl
      exact ⟨fun hu => absurd hidle hu, hloc ▸ .intro⟩
    · rw [update_of_ne hut, hother u hut]
      exact ⟨id, .intro⟩

end

end Xv6.BlockLayer
