import Xv6.Mem.Access
import Xv6.Process.Pipe

/-!
# What a read from a pipe delivers

`piperead` of `kernel/pipe.c` with the memory of the process that reads: each byte is taken out of
the pipe and then copied to the user, one `copyout` for each. The process holds `pi->lock`, so
nobody changes the pipe in the meantime.
-/

namespace Xv6.Process

open Lib Mem Pipes

/-- A pipe and the memory of the machine. -/
structure Reader where
  pipe : Pipe
  phys : Phys

def Reader.setPhys (s : Reader) (x : Phys) : Reader := { s with phys := x }

/-- `ch = pi->data[pi->nread++ % PIPESIZE]` -/
def takeByte : Prog Reader UInt8 := Prog.atomic fun s => .ok s.pipe.front { s with pipe := s.pipe.drop }

/-- `copyout(pr->pagetable, va, &ch, 1)` -/
def copyoutByte (pagetable va : Nat) (ch : UInt8) : Prog Reader Bool :=
  (copyout pagetable va (fun _ => ch) 1).zoom Reader.phys Reader.setPhys

/-- The copying loop of `piperead`, with `i` bytes copied and `m` more to come. -/
def pipereadLoop (pagetable addr : Nat) : (m i : Nat) → Prog Reader Nat
  | 0, i => return i
  | m + 1, i => do
    let pi := (← Prog.get).pipe
    if pi.nread = pi.nwrite then return i
    else do
      let ch ← takeByte
      if ← copyoutByte pagetable ((addr + i) % 2 ^ 64) ch then pipereadLoop pagetable addr m (i + 1)
      else return i

/-- `piperead` when it starts or has been woken up. -/
def piperead (pagetable addr : Nat) (n : Int) (killed : Bool) : Prog Reader Int := do
  let pi := (← Prog.get).pipe
  if pi.nread = pi.nwrite ∧ pi.writeopen = true then
    if killed then return -1 else Prog.atomic fun _ => .wait
  else return (← pipereadLoop pagetable addr n.toNat 0)

/-! ## The loop -/

/-- The number of bytes in a pipe. -/
def avail (pi : Pipe) : Nat := (pi.nwrite + 2 ^ 32 - pi.nread) % 2 ^ 32

/-- The byte that comes after `i` others. -/
def byteAt (pi : Pipe) (i : Nat) : UInt8 := pi.data ((pi.nread + i) % 2 ^ 32 % PIPESIZE)

/-- The pipe when `r` bytes have been taken out. -/
def advance (pi : Pipe) (r : Nat) : Pipe := { pi with nread := (pi.nread + r) % 2 ^ 32 }

/-- The counters are of type `uint`. -/
structure Counts (pi : Pipe) : Prop where
  nread : pi.nread < 2 ^ 32
  nwrite : pi.nwrite < 2 ^ 32

section

variable {pi : Pipe} {s s' : Reader} {pagetable addr va i j m : Nat} {n : Int} {killed : Bool}
  {ch : UInt8} {E : Option String → Prop}

theorem advance_zero (h : Counts pi) : advance pi 0 = pi := by
  rw [advance, add_zero, Nat.mod_eq_of_lt h.nread]

theorem advance_drop : advance pi.drop j = advance pi (j + 1) := by
  simp only [advance, Pipe.drop, Nat.mod_add_mod, add_assoc, add_comm 1]

theorem byteAt_drop : byteAt pi.drop i = byteAt pi (i + 1) := by
  simp only [byteAt, Pipe.drop, Nat.mod_add_mod, add_assoc, add_comm 1]

theorem byteAt_zero (h : Counts pi) : byteAt pi 0 = pi.front := by
  rw [byteAt, add_zero, Nat.mod_eq_of_lt h.nread, Pipe.front]

theorem Counts.drop (h : Counts pi) : Counts pi.drop := ⟨Nat.mod_lt _ (by decide), h.nwrite⟩

theorem avail_eq_zero (h : Counts pi) : avail pi = 0 ↔ pi.nread = pi.nwrite := by
  have := h.nread
  have := h.nwrite
  unfold avail
  omega

theorem avail_drop (h : Counts pi) (hne : pi.nread ≠ pi.nwrite) :
    avail pi.drop + 1 = avail pi := by
  have := h.nread
  have := h.nwrite
  unfold avail Pipe.drop
  dsimp only
  omega

/-- One byte is copied, or its address is not mapped. -/
theorem copyoutByte_runs {Q : Bool → Reader → Prop} (hnull : NoNull s.phys.mem pagetable)
    (hd : Distinct s.phys.mem pagetable)
    (done : ∀ x, Stored s.phys.mem x.mem pagetable va (fun _ => ch) 1 → Q true (s.setPhys x))
    (fail : trans s.phys.mem pagetable va = none → Q false s) :
    (copyoutByte pagetable va ch).Runs s E Q := by
  have hzoom : (copyoutByte pagetable va ch).Runs s E fun r s' => ∃ x, s' = s.setPhys x ∧ _ :=
    Prog.Runs.zoom (fun _ _ => rfl) (fun _ _ _ => rfl) (fun _ => rfl) (copyout_stored hnull hd)
  refine hzoom.mono ?_
  rintro r s' ⟨x, rfl, hfree, -, k, hst, ⟨rfl, rfl⟩ | ⟨rfl, hk, hnone⟩⟩
  · exact done x hst
  · obtain rfl : k = 0 := by omega
    -- nothing was stored
    have hmem : x.mem = s.phys.mem :=
      funext fun a => hst.frame a fun i hi => absurd hi (Nat.not_lt_zero i)
    have hx : x = s.phys := by
      cases x
      cases hs : s.phys
      rw [hs] at hmem hfree
      simp_all
    rw [hx]
    exact fail hnone

/-- How the loop ends: after `m` bytes, or with an empty pipe, or with a byte that it cannot copy,
    which it has taken out of the pipe. -/
theorem pipereadLoop_runs (hc : Counts s.pipe) (hnull : NoNull s.phys.mem pagetable)
    (hd : Distinct s.phys.mem pagetable) (ha : addr + i < 2 ^ 64) :
    (pipereadLoop pagetable addr m i).Runs s E fun r s' => ∃ j ≤ m, r = i + j ∧
      Stored s.phys.mem s'.phys.mem pagetable (addr + i) (byteAt s.pipe) j ∧
      ((j = m ∨ j = avail s.pipe) ∧ s'.pipe = advance s.pipe j ∨
        j < m ∧ j < avail s.pipe ∧ trans s.phys.mem pagetable (addr + i + j) = none ∧
        s'.pipe = advance s.pipe (j + 1)) := by
  induction m generalizing s i with
  | zero =>
    exact .ret ⟨0, le_rfl, rfl, .nil, .inl ⟨.inl rfl, (advance_zero hc).symm⟩⟩
  | succ m ih =>
    rw [pipereadLoop]
    refine .seq (.get ?_)
    dsimp only
    split
    · next hemp =>
      refine .ret ⟨0, Nat.zero_le _, rfl, .nil, .inl ⟨.inr ?_, (advance_zero hc).symm⟩⟩
      exact ((avail_eq_zero hc).mpr hemp).symm
    rename_i hemp
    have hav := avail_drop hc hemp
    refine .seq (.atomic rfl ?_)
    rw [Nat.mod_eq_of_lt ha]
    refine .seq (copyoutByte_runs (s := { s with pipe := s.pipe.drop }) hnull hd
      (fun x hst => ?_) fun hnone => ?_)
    · -- the byte is stored, so its address is below `MAXVA`
      have hmax : addr + i < MAXVA := (hst.mapped one_pos).1
      have halike := hst.alike hd
      rw [if_pos rfl]
      refine (ih (s := ⟨s.pipe.drop, x⟩) (i := i + 1) hc.drop ?_ (hd.congr halike) ?_).mono ?_
      · rw [NoNull, halike.look]
        exact hnull
      · simp only [MAXVA] at hmax
        omega
      rintro r s' ⟨j, hj, rfl, hst', hend⟩
      dsimp only at hend
      have hst₁ : Stored s.phys.mem x.mem pagetable (addr + i) (byteAt s.pipe) 1 := by
        refine ⟨fun t ht => ?_, hst.frame⟩
        obtain rfl : t = 0 := by omega
        rw [byteAt_zero hc]
        exact hst.bytes 0 one_pos
      have hst₂ : Stored x.mem s'.phys.mem pagetable (addr + i + 1)
          (fun t => byteAt s.pipe (1 + t)) j := by
        have hbytes : (fun t => byteAt s.pipe (1 + t)) = byteAt s.pipe.drop := by
          funext t
          rw [byteAt_drop, add_comm]
        rw [hbytes]
        exact hst'
      have hwhole := hst₁.append hd hst₂
      rw [add_comm 1 j] at hwhole
      refine ⟨j + 1, by omega, by omega, hwhole, ?_⟩
      rcases hend with ⟨hwhy, hpipe⟩ | ⟨hjm, hja, hnone, hpipe⟩
      · exact .inl ⟨by omega, hpipe.trans advance_drop⟩
      · rw [trans_congr halike.look] at hnone
        refine .inr ⟨by omega, by omega, ?_, hpipe.trans advance_drop⟩
        rwa [show addr + i + (j + 1) = addr + (i + 1) + j by omega]
    · rw [if_neg (by simp)]
      refine .ret ⟨0, Nat.zero_le _, rfl, .nil, .inr ⟨Nat.succ_pos m, by omega, hnone, ?_⟩⟩
      have hone : advance s.pipe.drop 0 = advance s.pipe 1 := advance_drop
      rw [advance_zero hc.drop] at hone
      exact hone

/-! ## What the caller can rely on -/

/-- Exactly the first `r` bytes have left the pipe, and they are in memory from `addr` on; nothing
    else has changed. -/
structure Delivers (pagetable addr r : Nat) (s s' : Reader) : Prop where
  pipe : s'.pipe = advance s.pipe r
  stored : Stored s.phys.mem s'.phys.mem pagetable addr (byteAt s.pipe) r

/-- A `piperead` that returns `r >= 0` has delivered `r` bytes, and none only if it had nothing to
    deliver. -/
def ReadsExactly (pagetable addr : Nat) (n : Int) (killed : Bool) (s : Reader) : Prop :=
  ∀ r s', (piperead pagetable addr n killed).run s = .ok r s' → 0 ≤ r →
    Delivers pagetable addr r.toNat s s' ∧ (r = 0 → 0 < n → s.pipe.nread = s.pipe.nwrite)

/-- `piperead` delivers what it takes out of the pipe exactly if every byte that it can take has an
    address in user memory. -/
theorem piperead_exact_iff (hc : Counts s.pipe) (hnull : NoNull s.phys.mem pagetable)
    (hd : Distinct s.phys.mem pagetable) (ha : addr < 2 ^ 64) :
    ReadsExactly pagetable addr n killed s ↔
      ∀ i : Nat, i < n → i < avail s.pipe → UserMapped s.phys.mem pagetable (addr + i) := by
  by_cases hwait : s.pipe.nread = s.pipe.nwrite ∧ s.pipe.writeopen = true
  · -- it sleeps or fails
    have h0 := (avail_eq_zero hc).mpr hwait.1
    refine iff_of_true (fun r s' hrun hr => ?_) fun i _ hi => absurd hi (by omega)
    have hruns : (piperead pagetable addr n killed).Runs s (fun _ => True) fun r _ => r = -1 := by
      refine .seq (.get ?_)
      dsimp only
      rw [if_pos hwait]
      cases killed with
      | true => exact .ret rfl
      | false =>
        unfold Prog.Runs
        exact trivial
    have := hruns.ok hrun
    omega
  have hruns : (piperead pagetable addr n killed).Runs s (fun _ => False) fun r s' =>
      ∃ j ≤ n.toNat, r = (j : Int) ∧
      Stored s.phys.mem s'.phys.mem pagetable addr (byteAt s.pipe) j ∧
      ((j = n.toNat ∨ j = avail s.pipe) ∧ s'.pipe = advance s.pipe j ∨
        j < n.toNat ∧ j < avail s.pipe ∧ trans s.phys.mem pagetable (addr + j) = none ∧
        s'.pipe = advance s.pipe (j + 1)) := by
    refine .seq (.get ?_)
    dsimp only
    rw [if_neg hwait]
    refine .bind (pipereadLoop_runs hc hnull hd (i := 0) ha) ?_
    rintro r s' ⟨j, hj, rfl, hst, hend⟩
    exact .ret ⟨j, hj, by rw [zero_add], hst, hend⟩
  obtain ⟨r, s', hrun, j, hj, rfl, hst, hend⟩ := hruns.ends fun _ => id
  constructor
  · intro h i hin hia
    obtain ⟨⟨hpipe, -⟩, -⟩ := h _ s' hrun (by omega)
    rcases hend with ⟨hwhy, -⟩ | ⟨-, -, -, hpipe'⟩
    · exact hst.mapped (by omega)
    · -- a byte more was taken out than delivered
      have hnread := congrArg Pipe.nread (hpipe.symm.trans hpipe')
      simp only [advance, Int.toNat_natCast] at hnread
      omega
  · intro h r s'' hrun' hr
    rw [hrun] at hrun'
    cases hrun'
    rcases hend with ⟨hwhy, hpipe⟩ | ⟨hjn, hja, hnone, -⟩
    · refine ⟨⟨by rw [Int.toNat_natCast]; exact hpipe, by rw [Int.toNat_natCast]; exact hst⟩,
        fun h0 hn => ?_⟩
      exact (avail_eq_zero hc).mp (by omega)
    · exact absurd hnone (trans_ne_none.mpr (h j (by omega) hja))

end

/-- A pipe with one byte in it. -/
def oneByte : Pipe := ⟨fun _ => 7, 0, 1, true, true⟩

theorem counts_oneByte : Counts oneByte := ⟨by decide, by decide⟩

/-- A process reads the byte into its first page. -/
theorem piperead_exact_page : ∃ s pagetable, s.pipe = oneByte ∧
    NoNull s.phys.mem pagetable ∧ Distinct s.phys.mem pagetable ∧
    ReadsExactly pagetable 0 1 false s := by
  obtain ⟨s, fs, pt, tf, h, -, hpages⟩ := exists_owned (n := 1) Image.built (by decide)
  refine ⟨⟨oneByte, s⟩, pt, rfl, h.noNull, h.distinct,
    (piperead_exact_iff counts_oneByte h.noNull h.distinct (by decide)).mpr fun i hi _ => ?_⟩
  obtain ⟨p, hl, -⟩ := hpages 0 (by decide)
  obtain rfl : i = 0 := by omega
  exact ⟨by decide, p, _, hl, by decide⟩

/-- A process reads the byte to an address that it does not have: the call returns 0 although there
    was a byte in the pipe, and the byte is gone. -/
theorem piperead_loses_byte : ∃ s pagetable s', s.pipe = oneByte ∧
    NoNull s.phys.mem pagetable ∧ Distinct s.phys.mem pagetable ∧
    (piperead pagetable MAXVA 1 false).run s = .ok 0 s' ∧ s'.pipe.nread = 1 ∧ s'.pipe.nwrite = 1 := by
  obtain ⟨s, fs, pt, tf, h, -⟩ := exists_owned (n := 1) Image.built (by decide)
  have hruns : (piperead pt MAXVA 1 false).Runs ⟨oneByte, s⟩ (fun _ => False) fun r s' => r = 0 ∧
      s'.pipe.nread = 1 ∧ s'.pipe.nwrite = 1 := by
    refine .seq (.get ?_)
    rw [if_neg fun hc => absurd hc.1 (show ¬ oneByte.nread = oneByte.nwrite by decide)]
    refine .bind (pipereadLoop_runs counts_oneByte h.noNull h.distinct (i := 0) (by decide)) ?_
    rintro r s' ⟨j, hj, rfl, hst, hend⟩
    have hj0 : j = 0 := by
      by_contra hne
      have := (hst.mapped (pos_of_ne_zero hne)).1
      simp only [MAXVA] at this
      omega
    subst hj0
    rcases hend with ⟨hwhy | hwhy, -⟩ | ⟨-, -, -, hpipe⟩
    · exact absurd hwhy (by decide)
    · exact absurd hwhy (show ¬ 0 = avail oneByte by decide)
    · refine .ret ⟨rfl, ?_⟩
      rw [hpipe]
      exact ⟨rfl, rfl⟩
  obtain ⟨r, s', hrun, rfl, hpipe⟩ := hruns.ends fun _ => id
  exact ⟨_, pt, s', rfl, h.noNull, h.distinct, hrun, hpipe⟩

end Xv6.Process
