import Xv6.Fs.Calls
import Xv6.Fs.Write

/-!
# What one chunk of `filewrite` logs

`filewrite` writes at most `maxChunk` bytes in one transaction, so that no more than `MAXOPBLOCKS`
blocks are logged. A block of the file that has to be allocated costs two blocks, itself and a
bitmap block. The indirect block costs two more, but only once: `charge` adds them to the blocks in
the log as long as they have not been paid for. With a chunk that does not start with a block there
is one block more, but this one is there already.

Nothing is assumed of the disk; its blocks may even be used for several things at once.
-/

namespace Xv6.Fs

open Lib

variable {sb : Superblock} {s s' : State} {E : Option String → Prop}
  {ip b c k m n off tot bn cost most : Nat} {src : Src}

/-- The indirect block of `ip` is there and is in the log. -/
def Paid (s : State) (ip : Nat) : Prop :=
  (s.inode ip).din.addrs NDIRECT ≠ 0 ∧ (s.inode ip).din.addrs NDIRECT ∈ s.logged

instance : Decidable (Paid s ip) := instDecidableAnd

/-- The number of blocks in the log, with two for the indirect block. -/
def charge (s : State) (ip : Nat) : Nat := s.logged.length + if Paid s ip then 0 else 2

/-- A log that is too small for one operation. -/
def SmallLog (sb : Superblock) (e : Option String) : Prop :=
  e = some "too big a transaction" ∧ sb.nlog ≤ MAXOPBLOCKS + 1

theorem SmallLog.room (h : s.logged.length + m ≤ MAXOPBLOCKS + 1) : Room sb (SmallLog sb) s m := by
  by_cases hn : sb.nlog ≤ MAXOPBLOCKS + 1
  · exact .inl ⟨rfl, hn⟩
  · refine .inr ?_
    simp only [MAXOPBLOCKS, LOGSIZE] at *
    omega

theorem length_le_charge : s.logged.length ≤ charge s ip := Nat.le_add_right ..

theorem charge_paid (h : Paid s ip) : charge s ip = s.logged.length := by
  rw [charge, if_pos h, add_zero]

theorem charge_unpaid (h : ¬ Paid s ip) : charge s ip = s.logged.length + 2 := by
  rw [charge, if_neg h]

/-- What was paid for stays so. -/
theorem charge_le (hl : s'.logged.length ≤ s.logged.length + m) (hsub : s.logged ⊆ s'.logged)
    (hind : (s'.inode ip).din.addrs NDIRECT = (s.inode ip).din.addrs NDIRECT) :
    charge s' ip ≤ charge s ip + m := by
  by_cases hp : Paid s ip
  · have hp' : Paid s' ip := ⟨hind ▸ hp.1, hind ▸ hsub hp.2⟩
    rw [charge_paid hp, charge_paid hp']
    exact hl
  · rw [charge_unpaid hp, charge]
    split <;> omega

theorem charge_alloc : charge (s.alloc sb c) ip ≤ charge s ip + 2 :=
  charge_le (Logs.alloc sb s c).length (Logs.alloc sb s c).subset rfl

/-- What a block of the file costs: one if it is not in the log after `bmap`. -/
def due (s : State) (addr : Nat) : Nat := if addr ∈ s.logged then 0 else 1

theorem due_le (addr : Nat) : due s addr ≤ 1 := by
  rw [due]
  split <;> omega

theorem alloc_mem : c ∈ (s.alloc sb c).logged := mem_absorb ..

theorem due_mem {addr : Nat} (h : addr ∈ s.logged) : due s addr = 0 := if_pos h

/-- A block that is in the log already costs nothing. -/
theorem charge_wrote {v : Block} : charge (s.wrote b v) ip ≤ charge s ip + due s b := by
  refine charge_le ?_ (subset_absorb s.logged b) rfl
  show (absorb s.logged b).length ≤ _
  rw [due, absorb]
  split
  · exact le_rfl
  · rw [List.length_append]
    exact le_rfl

/-- A block of a file costs at most two blocks. -/
theorem bmapAddr_charge (hk : k < NDIRECT) (hlen : s.logged.length + 2 ≤ MAXOPBLOCKS + 1)
    (hout : 1 ≤ s.outstanding) :
    (bmapAddr sb ip k).Runs s (SmallLog sb) fun addr s' =>
      charge s' ip + due s' addr ≤ charge s ip + 2 ∧ s'.outstanding = s.outstanding := by
  refine bmapAddr_runs (SmallLog.room hlen) hout (fun _ => ?_) (fun _ _ => ?_) fun _ c _ _ => ?_
  · have := due_le (s := s) ((s.inode ip).din.addrs k)
    exact ⟨by omega, rfl⟩
  · have := due_le (s := s) 0
    exact ⟨by omega, rfl⟩
  · by_cases hc : c = 0
    · rw [if_pos hc, due_mem alloc_mem]
      exact ⟨charge_alloc, rfl⟩
    · rw [if_neg hc]
      refine ⟨?_, rfl⟩
      rw [due_mem]
      · refine charge_le (Logs.alloc sb s c).length (Logs.alloc sb s c).subset ?_
        rw [setInode_self]
        exact setAddr_ne hk.ne'
      · exact alloc_mem

/-- The indirect block has been paid for before. -/
theorem bmapIndirect_charge (hlen : s.logged.length + 2 ≤ MAXOPBLOCKS + 1)
    (hout : 1 ≤ s.outstanding) :
    (bmapAddr sb ip NDIRECT).Runs s (SmallLog sb) fun addr s' =>
      s'.outstanding = s.outstanding ∧
      (addr = 0 → charge s' ip ≤ charge s ip + 2) ∧
      (addr ≠ 0 → charge s' ip ≤ charge s ip ∧ (s'.inode ip).din.addrs NDIRECT = addr) := by
  refine bmapAddr_runs (SmallLog.room hlen) hout (fun h0 => ?_) (fun _ _ => ?_) fun h0 c _ _ => ?_
  · exact ⟨rfl, fun hc => absurd hc h0, fun _ => ⟨Nat.le_refl _, rfl⟩⟩
  · exact ⟨rfl, fun _ => Nat.le_add_right .., fun hc => absurd rfl hc⟩
  · split
    · next hc =>
      exact ⟨rfl, fun _ => charge_alloc, fun hne => absurd hc hne⟩
    · next hc =>
      refine ⟨rfl, fun h => absurd h hc, fun _ => ⟨?_, ?_⟩⟩
      · have hunpaid : ¬ Paid s ip := fun hp => hp.1 h0
        rw [charge_unpaid hunpaid, charge_paid]
        · exact (Logs.alloc sb s c).length
        · rw [Paid, setInode_self]
          simp only [setAddr_self]
          exact ⟨hc, alloc_mem⟩
      · rw [setInode_self]
        exact setAddr_self

/-- An entry of the indirect block, which is paid for with the first of them. -/
theorem bmapEntry_charge {x : Nat} (hx : (s.inode ip).din.addrs NDIRECT = x) (h0 : x ≠ 0)
    (hlen : s.logged.length + 3 ≤ MAXOPBLOCKS + 1) (hout : 1 ≤ s.outstanding) :
    (bmapEntry sb x bn).Runs s (SmallLog sb) fun addr s' =>
      charge s' ip + due s' addr ≤ charge s ip + 2 ∧ s'.outstanding = s.outstanding := by
  refine bmapEntry_runs (SmallLog.room hlen) hout (fun _ => ?_) (fun _ _ => ?_) fun _ c _ _ => ?_
  · have := due_le (s := s) ((s.disk x).u32 (4 * bn))
    exact ⟨by omega, rfl⟩
  · have := due_le (s := s) 0
    exact ⟨by omega, rfl⟩
  · by_cases hc : c = 0
    · rw [if_pos hc, due_mem alloc_mem]
      exact ⟨charge_alloc, rfl⟩
    · rw [if_neg hc]
      refine ⟨?_, rfl⟩
      generalize hs' : (s.alloc sb c).wrote x (((s.alloc sb c).disk x).setU32 (4 * bn) c) = s'
      have hlog : s'.logged = absorb (s.alloc sb c).logged x := by rw [← hs']; rfl
      have hind : (s'.inode ip).din.addrs NDIRECT = x := by rw [← hs']; exact hx
      have hpaid : Paid s' ip := by
        rw [Paid, hind, hlog]
        exact ⟨h0, mem_absorb ..⟩
      rw [charge_paid hpaid, due_mem (by rw [hlog]; exact subset_absorb _ _ alloc_mem), hlog]
      have hlen := (Logs.alloc sb s c).length
      by_cases hp : Paid s ip
      · rw [charge_paid hp, absorb, if_pos ((Logs.alloc sb s c).subset (hx ▸ hp.2))]
        exact hlen
      · have := absorb_length (s.alloc sb c).logged x
        rw [charge_unpaid hp]
        omega

/-- What `bmap` leaves: the block it returns costs two blocks at most. -/
structure Charged (s s' : State) (ip addr cost : Nat) : Prop where
  stopped : charge s' ip ≤ charge s ip + cost
  block : addr ≠ 0 → charge s' ip + due s' addr ≤ charge s ip + cost
  outstanding : s'.outstanding = s.outstanding

theorem bmap_charge (hbn : bn < MAXFILE) (hlen : charge s ip + 3 ≤ MAXOPBLOCKS + 1)
    (hout : 1 ≤ s.outstanding) :
    (bmap sb ip bn).Runs s (SmallLog sb) fun addr s' => Charged s s' ip addr 2 := by
  have hle : s.logged.length ≤ charge s ip := length_le_charge
  unfold bmap
  by_cases hd : bn < NDIRECT
  · rw [if_pos hd]
    refine (bmapAddr_charge hd (by omega) hout).mono ?_
    rintro addr s' ⟨hc, ho⟩
    exact ⟨Nat.le_of_add_right_le hc, fun _ => hc, ho⟩
  · rw [if_neg hd, if_pos (by simp only [MAXFILE] at hbn; omega)]
    refine .bind (bmapIndirect_charge (by omega) hout) ?_
    rintro x s₁ ⟨ho, hzero, hind⟩
    split
    · next hx =>
      exact .ret ⟨hzero hx, fun hc => absurd rfl hc, ho⟩
    · next hx =>
      obtain ⟨hc₁, hind⟩ := hind hx
      have hle₁ : s₁.logged.length ≤ charge s₁ ip := length_le_charge
      refine (bmapEntry_charge hind hx (by omega) (ho ▸ hout)).mono ?_
      rintro addr s' ⟨hc, ho'⟩
      exact ⟨by omega, fun _ => by omega, ho'.trans ho⟩

/-! ## The loop -/

/-- One round of the loop, when `bmap` costs `cost` blocks. -/
theorem writeiLoop_round (htot : tot < n) (hout : 1 ≤ s.outstanding)
    (hbmap : (bmap sb ip (off / BSIZE)).Runs s (SmallLog sb) fun addr s' => Charged s s' ip addr cost)
    (hcost : charge s ip + cost ≤ MAXOPBLOCKS - 1) (hmost : charge s ip + cost ≤ most)
    (next : ∀ s', charge s' ip ≤ charge s ip + cost → 1 ≤ s'.outstanding →
      (writeiLoop sb ip src n m (tot + min (n - tot) (BSIZE - off % BSIZE))
        (off + min (n - tot) (BSIZE - off % BSIZE))).Runs s' (SmallLog sb)
        fun _ s' => charge s' ip ≤ most ∧ 1 ≤ s'.outstanding) :
    (writeiLoop sb ip src n (m + 1) tot off).Runs s (SmallLog sb)
      fun _ s' => charge s' ip ≤ most ∧ 1 ≤ s'.outstanding := by
  unfold writeiLoop
  rw [if_pos htot]
  refine .bind hbmap ?_
  rintro addr s₁ hc
  have hout₁ : 1 ≤ s₁.outstanding := hc.outstanding ▸ hout
  by_cases ha : addr = 0
  · rw [if_pos ha]
    exact .ret ⟨hc.stopped.trans hmost, hout₁⟩
  rw [if_neg ha]
  generalize min (n - tot) (BSIZE - off % BSIZE) = k at next ⊢
  have hle : s₁.logged.length ≤ charge s₁ ip := length_le_charge
  have hstop := hc.stopped
  refine .seq (copyBlock_runs (SmallLog.room ?_) hout₁ (fun _ => ?_) fun _ => ?_)
  · simp only [MAXOPBLOCKS] at *
    omega
  · exact next _ (charge_wrote.trans (hc.block ha)) hout₁
  · exact .ret ⟨hstop.trans hmost, hout₁⟩

theorem writeiLoop_charge (hmax : off + (n - tot) ≤ MAXFILE * BSIZE)
    (hcost : charge s ip + 2 * rounds off (n - tot) ≤ MAXOPBLOCKS - 1) (hout : 1 ≤ s.outstanding) :
    (writeiLoop sb ip src n m tot off).Runs s (SmallLog sb) fun _ s' =>
      charge s' ip ≤ charge s ip + 2 * rounds off (n - tot) ∧ 1 ≤ s'.outstanding := by
  induction m generalizing s tot off with
  | zero => exact .ret ⟨Nat.le_add_right .., hout⟩
  | succ m ih =>
    by_cases htot : tot < n
    · have hstep : rounds (off + min (n - tot) (BSIZE - off % BSIZE))
          (n - tot - min (n - tot) (BSIZE - off % BSIZE)) + 1 ≤ rounds off (n - tot) :=
        rounds_step (by omega) rfl
      rw [← Nat.sub_add_eq] at hstep
      have hbn : off / BSIZE < MAXFILE :=
        Nat.div_lt_of_lt_mul (by rw [mul_comm]; omega)
      refine writeiLoop_round htot hout (bmap_charge hbn ?_ hout) (by omega) (by omega) ?_
      · simp only [MAXOPBLOCKS] at *
        omega
      · intro s' hc hout'
        refine (ih (by omega) (by omega) hout').mono ?_
        rintro r s'' ⟨hc', hout''⟩
        exact ⟨by omega, hout''⟩
    · unfold writeiLoop
      rw [if_neg htot]
      exact .ret ⟨Nat.le_add_right .., hout⟩

/-! ## The whole call -/

/-- A file has no holes. -/
def NoHoles (disk : Disk) (d : Dinode) : Prop := ∀ bn, bn * BSIZE < d.size → blockOf disk d bn ≠ 0

/-- A chunk starts with no more than three blocks to come, or in a block that is there. -/
theorem rounds_chunk (off : Nat) (hn : n ≤ 3 * BSIZE) :
    rounds off n ≤ 3 ∨ off % BSIZE ≠ 0 ∧ rounds (off + min n (BSIZE - off % BSIZE))
      (n - min n (BSIZE - off % BSIZE)) ≤ 3 := by
  by_cases hoff : off % BSIZE = 0
  · refine .inl ?_
    rw [rounds, hoff]
    simp only [BSIZE] at *
    split <;> omega
  · refine .inr ⟨hoff, ?_⟩
    rw [rounds]
    simp only [BSIZE] at *
    split
    · omega
    · have : (off + min n (1024 - off % 1024)) % 1024 = 0 := by omega
      omega

theorem writeiLoop_chunk (hholes : NoHoles s.disk (s.inode ip).din)
    (hoff : off ≤ (s.inode ip).din.size) (hmax : off + n ≤ MAXFILE * BSIZE) (hn : n ≤ 3 * BSIZE)
    (hlog : s.logged = []) (hout : 1 ≤ s.outstanding) :
    (writeiLoop sb ip src n n 0 off).Runs s (SmallLog sb) fun _ s' =>
      charge s' ip ≤ MAXOPBLOCKS - 1 ∧ 1 ≤ s'.outstanding := by
  have hstart : charge s ip = 2 := by
    rw [charge_unpaid, hlog]
    · rfl
    · rw [Paid, hlog]
      exact fun hp => absurd hp.2 List.not_mem_nil
  rcases rounds_chunk off hn with hr | ⟨hodd, hr⟩
  · refine (writeiLoop_charge (by omega) ?_ hout).mono ?_
    · rw [Nat.sub_zero]
      simp only [MAXOPBLOCKS]
      omega
    · rintro r s' ⟨hc, hout'⟩
      rw [Nat.sub_zero] at hc
      simp only [MAXOPBLOCKS]
      exact ⟨by omega, hout'⟩
  · -- the first block is there, so that it costs one block and not two
    cases n with
    | zero => exact .ret ⟨by rw [hstart]; decide, hout⟩
    | succ n =>
      have hthere : blockOf s.disk (s.inode ip).din (off / BSIZE) ≠ 0 := by
        refine hholes _ ?_
        have := Nat.div_add_mod' off BSIZE
        omega
      have hbmap : (bmap sb ip (off / BSIZE)).Runs s (SmallLog sb)
          fun addr s' => Charged s s' ip addr 1 :=
        bmap_there hthere ⟨Nat.le_add_right .., fun _ => Nat.add_le_add_left (due_le _) _, rfl⟩
      have hlow : charge s ip + 1 ≤ MAXOPBLOCKS - 1 := by rw [hstart]; decide
      refine writeiLoop_round (Nat.succ_pos n) hout hbmap hlow hlow ?_
      intro s' hc hout'
      rw [Nat.sub_zero, Nat.zero_add]
      refine (writeiLoop_charge ?_ ?_ hout').mono ?_
      · omega
      · simp only [MAXOPBLOCKS]
        omega
      · rintro r s'' ⟨hc', hout''⟩
        simp only [MAXOPBLOCKS]
        exact ⟨by omega, hout''⟩

/-- One chunk of a file without holes, alone in a transaction, logs no more blocks than are reserved
    for it, on every disk. -/
theorem writei_chunk_fits (sb : Superblock) (s : State) (ip off n : Nat) (src : Src)
    (hn : n ≤ maxChunk) (hholes : NoHoles s.disk (s.inode ip).din) (hlog : s.logged = [])
    (hout : s.outstanding = 0) :
    (beginOp >>= fun _ => writei sb ip src off n).Runs s (SmallLog sb) fun _ s' =>
      s'.logged.toFinset.card ≤ MAXOPBLOCKS := by
  have hempty : ∀ σ : State, σ.logged = [] → σ.logged.toFinset.card ≤ MAXOPBLOCKS := by
    intro σ hσ
    rw [hσ]
    decide
  refine .seq (.atomic (if_neg ?_) ?_)
  · rw [hlog, hout]
    decide
  generalize hs₁ : { s with outstanding := s.outstanding + 1 } = s₁
  have hlog₁ : s₁.logged = [] := by rw [← hs₁]; exact hlog
  have hout₁ : 1 ≤ s₁.outstanding := by rw [← hs₁]; exact Nat.le_add_left ..
  have hholes₁ : NoHoles s₁.disk (s₁.inode ip).din := by rw [← hs₁]; exact hholes
  refine .seq (inodeAt_runs ?_)
  by_cases hwrap : (s₁.inode ip).din.size < off ∨ (off + n) % 2 ^ 32 < off
  · rw [if_pos hwrap]
    exact .ret (hempty _ hlog₁)
  rw [if_neg hwrap]
  split
  · exact .ret (hempty _ hlog₁)
  refine .bind (writeiLoop_chunk hholes₁ (by omega) (by omega) hn hlog₁ hout₁) ?_
  rintro ⟨tot, last⟩ s₂ ⟨hc, hout₂⟩
  have hle : s₂.logged.length ≤ charge s₂ ip := length_le_charge
  refine .seq (onDin_runs (.seq (iupdate_runs (SmallLog.room ?_) hout₂
    (.ret ((List.toFinset_card_le _).trans ((absorb_length ..).trans ?_))))))
  · show s₂.logged.length + 1 ≤ MAXOPBLOCKS + 1
    simp only [MAXOPBLOCKS] at *
    omega
  · show s₂.logged.length + 1 ≤ MAXOPBLOCKS
    simp only [MAXOPBLOCKS] at *
    omega

/-- A file of ten bytes in block 47, on a disk of the usual size that has the blocks up to there in
    use. -/
def shortFile : State where
  disk b i := if b = 45 ∧ i < 6 then 255 else 0
  safe := fun _ => zeroes
  outstanding := 0
  logged := []
  inode _ := { Inode.zero with
    inum := 1, ref := 1, valid := true
    din := ⟨T_FILE, 0, 0, 1, 10, fun k => if k = 0 then 47 else 0⟩ }
  chan _ := none

/-- A chunk that starts inside a block, on its own in a transaction. -/
def appendChunk : Prog State (Option Nat) :=
  beginOp >>= fun _ => writei ⟨FSMAGIC, FSSIZE, 1954, 200, LOGSIZE, 2, 32, 45⟩ 0
    ⟨fun _ => 7, maxChunk⟩ 10 maxChunk

/-- It fills the block and takes three more; the log has these four, the bitmap and the inode. -/
theorem writei_chunk_fits_appended : ∃ s', appendChunk.run shortFile = .ok (some maxChunk) s' ∧
    s'.logged = [47, 45, 48, 49, 50, 32] ∧ s'.logged.toFinset.card ≤ MAXOPBLOCKS := by
  have hholes : NoHoles shortFile.disk (shortFile.inode 0).din := by
    intro bn hbn
    obtain rfl : bn = 0 := by
      change bn * 1024 < 10 at hbn
      omega
    decide
  have hruns : appendChunk.Runs shortFile _ _ :=
    writei_chunk_fits _ shortFile 0 10 maxChunk _ le_rfl hholes rfl rfl
  obtain ⟨r, s', hrun, hcard⟩ := hruns.ends fun e he => absurd he.2 (by decide)
  have hres : (appendChunk.run shortFile).seen (fun r s' => (r, s'.logged)) =
      some (some maxChunk, [47, 45, 48, 49, 50, 32]) := by
    decide +kernel
  rw [hrun] at hres
  simp only [Outcome.seen, Option.some.injEq, Prod.mk.injEq] at hres
  obtain ⟨rfl, hlogged⟩ := hres
  exact ⟨s', hrun, hlogged, hcard⟩

end Xv6.Fs
