import Xv6.Block.Sys

/-!
# The invariant of the buffer cache

Every process has a ghost value (`Loc`): the references it owns, the sleep-locks it holds, and,
while it commits or recovers, how far it has come (`Phase`). `Cache` says how the buffers agree
with the ghost values and with the history:

* a reference count is the number of references owned by processes, the callers' pins and the
  log's pin, so a buffer with `refcnt = 0` is owned by nobody;
* no two buffers hold one block;
* a valid buffer holds the bytes last stored in its block; and
* a block whose bytes on the disk are out of date is in a valid buffer that cannot be recycled,
  because the log has it pinned or its holder has it locked.
-/

namespace Xv6.BlockLayer

open Lib Function List

/-- How far the process that commits or recovers has come; between commits it is `writing 0`. -/
inductive Phase where
  /-- recovery, before `initlog` has set where the log is -/
  | boot
  /-- recovery, before the header is read -/
  | head
  /-- the header on the disk is empty; the first `k` logged blocks are in the log -/
  | writing (k : Nat)
  /-- the header is on the disk; the first `k` logged blocks are installed -/
  | installing (recovering : Bool) (k : Nat)
  /-- the header is on the disk, cleared in memory; all is installed -/
  | clearing (recovering : Bool)
  /-- recovery is over but for the return of `initlog` -/
  | recovered
  deriving DecidableEq

/-- A reference to a buffer and the block it was taken for. -/
structure Ref where
  i : Nat
  dev : Nat
  blockno : Nat
  deriving DecidableEq

/-- What the holder of buffer `i` remembers of it: its bytes, and whether they are on the disk. -/
structure Known where
  i : Nat
  data : Block
  synced : Bool

/-- What a process owns. -/
structure Loc where
  refs : List Ref
  locked : List Nat
  /-- locked, but `bread` has not fetched the block yet -/
  filling : Option Nat
  /-- the buffers it may have modified since it last wrote or logged them -/
  mods : List Nat
  known : List Known
  /-- the phase of the process that commits or recovers, with the header it works on -/
  worker : Option (Phase × LogHeader)

/-- The number of references to buffer `i`. -/
def Loc.count (l : Loc) (i : Nat) : Nat := (l.refs.map Ref.i).count i

namespace Loc

/-- One more reference. -/
def addRef (l : Loc) (r : Ref) : Loc := { l with refs := r :: l.refs }

/-- One reference to buffer `i` less. -/
def dropRef (l : Loc) (i : Nat) : Loc := { l with refs := l.refs.eraseP (·.i == i) }

/-- The sleep-lock of buffer `i` taken, inside `bread`. -/
def lock (l : Loc) (i : Nat) : Loc := { l with locked := i :: l.locked, filling := some i }

/-- `bread` returns. -/
def fill (l : Loc) : Loc := { l with filling := none }

/-- The sleep-lock of buffer `i` released. -/
def unlock (l : Loc) (i : Nat) : Loc := { l with locked := l.locked.erase i }

theorem count_addRef (l : Loc) (r : Ref) (i : Nat) :
    (l.addRef r).count i = l.count i + if r.i = i then 1 else 0 := by
  simp [count, addRef, count_cons]

theorem refs_dropRef (l : Loc) (i : Nat) :
    (l.dropRef i).refs.map Ref.i = (l.refs.map Ref.i).erase i := by
  simp only [dropRef, erase_eq_eraseP, eraseP_map]
  congr 2
  funext r
  simp [comp, Bool.beq_comm]

theorem count_dropRef_self (l : Loc) (i : Nat) : (l.dropRef i).count i = l.count i - 1 := by
  simp [count, refs_dropRef]

theorem count_dropRef_of_ne (l : Loc) {i j : Nat} (h : j ≠ i) :
    (l.dropRef i).count j = l.count j := by
  rw [count, refs_dropRef, count_erase_of_ne h, count]

end Loc

/-- The blocks the log has pinned. -/
def pinned (lh : LogHeader) : Phase → List Nat
  | .boot | .head => []
  | .writing _ => lh.blocks
  | .installing false k => lh.blocks.drop k
  | .installing true _ => []
  | .clearing _ | .recovered => []

section

variable {T : Type}

/-- The log's pin on buffer `i`. -/
def logPin (s : Sys T) (ph : Phase) (i : Nat) : Nat :=
  if (s.buf i).valid = true ∧ (s.buf i).dev = s.log.dev ∧
    (s.buf i).blockno ∈ pinned s.log.lh ph then 1 else 0

variable [DecidableEq T] [Fintype T]

structure Cache (s : Sys T) (loc : T → Loc) (ph : Phase) : Prop where
  ok : s.bcache.Ok
  refcnt : ∀ i < NBUF, (s.buf i).refcnt = ∑ t, (loc t).count i + s.pins i + logPin s ph i
  refs : ∀ t, ∀ r ∈ (loc t).refs, r.i < NBUF ∧ (s.buf r.i).dev = r.dev ∧
    (s.buf r.i).blockno = r.blockno
  lock : ∀ i < NBUF, ∀ t, (s.buf i).lock = some t ↔ i ∈ (loc t).locked
  locked : ∀ t, (loc t).locked.Nodup ∧ ∀ i ∈ (loc t).locked, i ∈ (loc t).refs.map Ref.i
  filled : ∀ t, ∀ i ∈ (loc t).locked, (loc t).filling = some i ∨ (s.buf i).valid = true
  data : ∀ i < NBUF, (s.buf i).valid = true →
    (s.buf i).data = s.store (s.buf i).dev (s.buf i).blockno
  clean : ∀ dev blockno, s.disk dev blockno ≠ s.store dev blockno →
    ∃ i < NBUF, (s.buf i).dev = dev ∧ (s.buf i).blockno = blockno ∧ (s.buf i).valid = true ∧
      (((s.buf i).lock ≠ none ∧ s.dirty i = true) ∨
        (dev = s.log.dev ∧ blockno ∈ pinned s.log.lh ph))
  pinnedIn : ∀ b ∈ pinned s.log.lh ph, ∃ i < NBUF, (s.buf i).dev = s.log.dev ∧
    (s.buf i).blockno = b ∧ (s.buf i).valid = true
  pinNodup : (pinned s.log.lh ph).Nodup

end

section

variable {T : Type} {s : Sys T} {loc : T → Loc} {ph : Phase}

theorem Loc.count_pos {l : Loc} {i : Nat} : 0 < l.count i ↔ i ∈ l.refs.map Ref.i :=
  count_pos_iff

theorem not_blank_of_valid {b : Buf T} (h : b.valid = true) : ¬ b.Blank := fun hb => by
  rw [hb.2.2.1] at h
  simp at h

theorem not_blank_of_refcnt {b : Buf T} (h : 0 < b.refcnt) : ¬ b.Blank := fun hb =>
  absurd hb.2.2.2 (by omega)

/-- The buffers agree in everything but their reference counts. -/
def SameBufs (s s' : Sys T) : Prop :=
  ∀ j, (s'.buf j).dev = (s.buf j).dev ∧ (s'.buf j).blockno = (s.buf j).blockno ∧
    (s'.buf j).valid = (s.buf j).valid ∧ (s'.buf j).lock = (s.buf j).lock ∧
    (s'.buf j).data = (s.buf j).data

/-- `c.set i` with a buffer that differs in its count only. -/
theorem sameBufs_set {c : Bcache T} {n i : Nat} {s' : Sys T}
    (h : s'.bcache.buf = (c.set i { c.buf i with refcnt := n }).buf) (hc : s.bcache = c) :
    SameBufs s s' := by
  intro j
  subst hc
  unfold Sys.buf
  rw [h]
  by_cases hj : j = i
  · subst hj
    rw [Bcache.set_buf_self]
    exact ⟨rfl, rfl, rfl, rfl, rfl⟩
  · rw [Bcache.set_buf_of_ne _ _ hj]
    exact ⟨rfl, rfl, rfl, rfl, rfl⟩

/-- The ghost values of two maps of processes agree on what the cache is about. -/
def SameLocs (loc loc' : T → Loc) : Prop :=
  ∀ t, (loc' t).refs = (loc t).refs ∧ (loc' t).locked = (loc t).locked ∧
    (loc' t).filling = (loc t).filling

theorem SameLocs.refl (loc : T → Loc) : SameLocs loc loc := fun _ => ⟨rfl, rfl, rfl⟩

theorem SameLocs.update [DecidableEq T] {loc : T → Loc} {t : T} {l : Loc}
    (hr : l.refs = (loc t).refs) (hl : l.locked = (loc t).locked) (hf : l.filling = (loc t).filling) :
    SameLocs loc (update loc t l) := by
  intro u
  by_cases hu : u = t
  · subst hu
    rw [update_self]
    exact ⟨hr, hl, hf⟩
  · rw [update_of_ne hu]
    exact ⟨rfl, rfl, rfl⟩

theorem set₂_self (m : Nat → Nat → Block) (dev n : Nat) (d : Block) : set₂ m dev n d dev n = d :=
  if_pos ⟨rfl, rfl⟩

theorem set₂_of_ne {m : Nat → Nat → Block} {dev n dev' n' : Nat} {d : Block}
    (h : ¬ (dev' = dev ∧ n' = n)) : set₂ m dev n d dev' n' = m dev' n' := if_neg h

theorem pinned_drop {lh : LogHeader} {k : Nat} (hk : k < lh.n) :
    pinned lh (.installing false k) = lh.block k :: pinned lh (.installing false (k + 1)) := by
  have hlt : k < lh.blocks.length := by rw [LogHeader.blocks_length]; exact hk
  have := drop_eq_getElem_cons hlt
  simpa [pinned, LogHeader.blocks] using this

/-- `bwrite` of buffer `i`, but for what it may commit. -/
structure Wrote (s s' : Sys T) (i : Nat) : Prop where
  bcache : s'.bcache = s.bcache
  disk : s'.disk = set₂ s.disk (s.buf i).dev (s.buf i).blockno (s.buf i).data
  log : s'.log = s.log
  op : s'.op = s.op
  up : s'.up = s.up
  store : s'.store = s.store
  dirty : s'.dirty = update s.dirty i false
  pins : s'.pins = s.pins
  nextOp : s'.nextOp = s.nextOp

variable [Fintype T]

/-- A buffer somebody refers to has a positive reference count. -/
theorem Cache.refcnt_of_ref (h : Cache s loc ph) {t : T} {i : Nat} (hi : i < NBUF)
    (hr : i ∈ (loc t).refs.map Ref.i) : 0 < (s.buf i).refcnt := by
  have hle : (loc t).count i ≤ ∑ u, (loc u).count i :=
    Finset.single_le_sum (f := fun u => (loc u).count i) (fun _ _ => Nat.zero_le _)
      (Finset.mem_univ t)
  have := h.refcnt i hi
  have := Loc.count_pos.mpr hr
  omega

theorem Cache.refcnt_of_lock (h : Cache s loc ph) {i : Nat} (hi : i < NBUF)
    (hl : (s.buf i).lock ≠ none) : 0 < (s.buf i).refcnt := by
  obtain ⟨t, ht⟩ := Option.ne_none_iff_exists'.mp hl
  exact h.refcnt_of_ref hi ((h.locked t).2 i ((h.lock i hi t).mp ht))

theorem Cache.refcnt_of_pinned (h : Cache s loc ph) {i : Nat} (hi : i < NBUF)
    (hv : (s.buf i).valid = true) (hd : (s.buf i).dev = s.log.dev)
    (hb : (s.buf i).blockno ∈ pinned s.log.lh ph) : 0 < (s.buf i).refcnt := by
  have hp : logPin s ph i = 1 := if_pos ⟨hv, hd, hb⟩
  have := h.refcnt i hi
  omega

/-- A block that is not up to date on the disk is in no unused buffer. -/
theorem Cache.clean_ne (h : Cache s loc ph) {i j : Nat} (hi : i < NBUF)
    (h0 : (s.buf i).refcnt = 0) (hv : (s.buf j).valid = true)
    (hc : ((s.buf j).lock ≠ none ∧ s.dirty j = true) ∨
      ((s.buf j).dev = s.log.dev ∧ (s.buf j).blockno ∈ pinned s.log.lh ph)) : j ≠ i := by
  rintro rfl
  rcases hc with ⟨hl, -⟩ | ⟨hd, hb⟩
  · exact absurd (h.refcnt_of_lock hi hl) (by omega)
  · exact absurd (h.refcnt_of_pinned hi hv hd hb) (by omega)

/-- A buffer somebody refers to is in use. -/
theorem Cache.used (h : Cache s loc ph) {t : T} {i : Nat} (hr : i ∈ (loc t).refs.map Ref.i) :
    i < NBUF ∧ ¬ (s.buf i).Blank := by
  obtain ⟨r, hr', rfl⟩ := mem_map.mp hr
  have hi := (h.refs t r hr').1
  exact ⟨hi, not_blank_of_refcnt (h.refcnt_of_ref hi hr)⟩

/-- A valid buffer for the block of a buffer in use is that buffer. -/
theorem Cache.uniq (h : Cache s loc ph) {i j : Nat} (hi : i < NBUF) (hu : ¬ (s.buf i).Blank)
    (hj : j < NBUF) (hv : (s.buf j).valid = true) (hd : (s.buf j).dev = (s.buf i).dev)
    (hb : (s.buf j).blockno = (s.buf i).blockno) : j = i :=
  h.ok.uniq i hi j hj hu (not_blank_of_valid hv) hd hb

/-- Two processes do not hold one buffer. -/
theorem Cache.excl (hc : Cache s loc ph) {t u : T} {i : Nat} (hi : i ∈ (loc t).locked)
    (hu : i ∈ (loc u).locked) : u = t := by
  have hlt := (hc.used ((hc.locked t).2 i hi)).1
  have h1 := (hc.lock i hlt t).mpr hi
  rw [(hc.lock i hlt u).mpr hu] at h1
  exact Option.some.inj h1

theorem Cache.locked_lt (hc : Cache s loc ph) : ∀ u, ∀ j ∈ (loc u).locked, j < NBUF :=
  fun u j hj => (hc.used ((hc.locked u).2 j hj)).1

/-! ## What each step does to the cache -/

/-- Steps that only move references: the rest of the invariant does not look at counts. -/
theorem Cache.of_sameBufs {c : Bcache T} {pins : Nat → Nat} {loc' : T → Loc} (h : Cache s loc ph)
    (hb : SameBufs s { s with bcache := c, pins := pins }) (hok : c.Ok)
    (hlk : ∀ t, (loc' t).locked = (loc t).locked ∧ (loc' t).filling = (loc t).filling ∧
      (∀ i ∈ (loc t).locked, i ∈ (loc' t).refs.map Ref.i) ∧
      ∀ r ∈ (loc' t).refs, r ∈ (loc t).refs ∨ (r.i < NBUF ∧ (s.buf r.i).dev = r.dev ∧
        (s.buf r.i).blockno = r.blockno))
    (hcnt : ∀ i < NBUF, (c.buf i).refcnt = ∑ t, (loc' t).count i + pins i + logPin s ph i) :
    Cache { s with bcache := c, pins := pins } loc' ph := by
  have hdev := fun j => (hb j).1
  have hbno := fun j => (hb j).2.1
  have hval := fun j => (hb j).2.2.1
  have hlck := fun j => (hb j).2.2.2.1
  have hdat := fun j => (hb j).2.2.2.2
  refine ⟨hok, fun i hi => ?_, fun t r hr => ?_, fun i hi t => ?_, fun t => ?_, fun t => ?_, ?_,
    ?_, ?_, h.pinNodup⟩
  · have hp : logPin { s with bcache := c, pins := pins } ph i = logPin s ph i := by
      simp only [logPin, hval, hdev, hbno]
    rw [hp]
    exact hcnt i hi
  · rw [hdev, hbno]
    exact ((hlk t).2.2.2 r hr).elim (h.refs t r) id
  · rw [hlck, (hlk t).1]
    exact h.lock i hi t
  · rw [(hlk t).1]
    exact ⟨(h.locked t).1, (hlk t).2.2.1⟩
  · rw [(hlk t).1, (hlk t).2.1]
    simpa only [hval] using h.filled t
  · simpa only [hval, hdat, hdev, hbno] using h.data
  · simpa only [hdev, hbno, hval, hlck] using h.clean
  · simpa only [hdev, hbno, hval] using h.pinnedIn

/-- Steps of the log that leave buffers and disk alone. -/
theorem Cache.congr {s' : Sys T} {loc' : T → Loc} {ph' : Phase} (h : Cache s loc ph)
    (hb : s'.bcache = s.bcache) (hdisk : s'.disk = s.disk) (hstore : s'.store = s.store)
    (hdirty : s'.dirty = s.dirty) (hpins : s'.pins = s.pins)
    (hpin : pinned s'.log.lh ph' = pinned s.log.lh ph)
    (hdev : s'.log.dev = s.log.dev ∨ pinned s.log.lh ph = []) (hl : SameLocs loc loc') :
    Cache s' loc' ph' := by
  have hbuf : ∀ i, s'.buf i = s.buf i := fun i => by rw [Sys.buf, hb, Sys.buf]
  have hcount : ∀ t i, (loc' t).count i = (loc t).count i := fun t i => by
    rw [Loc.count, (hl t).1, Loc.count]
  have hlp : ∀ i, logPin s' ph' i = logPin s ph i := by
    intro i
    rcases hdev with hdev | hnil
    · simp only [logPin, hbuf, hpin, hdev]
    · simp only [logPin, hpin, hnil, not_mem_nil, and_false, if_false]
  refine ⟨hb ▸ h.ok, ?_, ?_, ?_, ?_, ?_, ?_, ?_, ?_, hpin ▸ h.pinNodup⟩
  · simpa only [hbuf, hcount, hpins, hlp] using h.refcnt
  · intro t
    rw [(hl t).1]
    simpa only [hbuf] using h.refs t
  · intro i hi t
    rw [(hl t).2.1, hbuf]
    exact h.lock i hi t
  · intro t
    rw [(hl t).2.1, (hl t).1]
    exact h.locked t
  · intro t
    rw [(hl t).2.1, (hl t).2.2]
    simpa only [hbuf] using h.filled t
  · simpa only [hbuf, hstore] using h.data
  · rcases hdev with hdev | hnil
    · simpa only [hbuf, hstore, hdisk, hdirty, hpin, hdev] using h.clean
    · have hc := h.clean
      simp only [hnil, not_mem_nil, and_false, or_false] at hc
      simpa only [hbuf, hstore, hdisk, hdirty, hpin, hnil, not_mem_nil, and_false, or_false]
        using hc
  · rcases hdev with hdev | hnil
    · simpa only [hbuf, hpin, hdev] using h.pinnedIn
    · simp [hpin, hnil]

theorem sameLocs_hyp (h : Cache s loc ph) : ∀ t, (loc t).locked = (loc t).locked ∧
    (loc t).filling = (loc t).filling ∧ (∀ i ∈ (loc t).locked, i ∈ (loc t).refs.map Ref.i) ∧
    ∀ r ∈ (loc t).refs, r ∈ (loc t).refs ∨ (r.i < NBUF ∧ (s.buf r.i).dev = r.dev ∧
      (s.buf r.i).blockno = r.blockno) :=
  fun t => ⟨rfl, rfl, (h.locked t).2, fun _ hr => .inl hr⟩

/-- What a holder that has read its block knows about the buffer. -/
theorem Cache.holding (h : Cache s loc ph) {t : T} {i : Nat} (hl : i ∈ (loc t).locked)
    (hf : (loc t).filling = none) :
    i < NBUF ∧ ¬ (s.buf i).Blank ∧ (s.buf i).lock = some t ∧ (s.buf i).valid = true ∧
      (s.buf i).data = s.store (s.buf i).dev (s.buf i).blockno := by
  obtain ⟨hi, hu⟩ := h.used ((h.locked t).2 i hl)
  have hv : (s.buf i).valid = true := by
    rcases h.filled t i hl with hc | hv
    · rw [hf] at hc
      simp at hc
    · exact hv
  exact ⟨hi, hu, (h.lock i hi t).mpr hl, hv, h.data i hi hv⟩

/-- The disk gets the bytes of a buffer its holder has read. -/
theorem Cache.bwrite {s' : Sys T} (h : Cache s loc ph) {t : T} {i : Nat} (hl : i ∈ (loc t).locked)
    (hf : (loc t).filling = none) (hwr : Wrote s s' i) : Cache s' loc ph := by
  obtain ⟨hb, hdisk, hlog, -, -, hstore, hdirty, hpins, -⟩ := hwr
  obtain ⟨hi, hu, hlk, hv, hdat⟩ := h.holding hl hf
  have hbuf : ∀ i, s'.buf i = s.buf i := fun i => by rw [Sys.buf, hb, Sys.buf]
  have hpin : ∀ j, logPin s' ph j = logPin s ph j := fun j => by simp only [logPin, hbuf, hlog]
  refine ⟨hb ▸ h.ok, ?_, ?_, ?_, h.locked, ?_, ?_, ?_, ?_, hlog ▸ h.pinNodup⟩
  · simpa only [hbuf, hpin, hpins] using h.refcnt
  · simpa only [hbuf] using h.refs
  · simpa only [hbuf] using h.lock
  · simpa only [hbuf] using h.filled
  · simpa only [hbuf, hstore] using h.data
  · intro dev n hne
    by_cases hid : dev = (s.buf i).dev ∧ n = (s.buf i).blockno
    · obtain ⟨rfl, rfl⟩ := hid
      rw [hdisk, set₂_self, hstore] at hne
      exact absurd hdat hne
    · rw [hdisk, set₂_of_ne hid, hstore] at hne
      obtain ⟨j, hj, hdj, hbj, hvj, hc⟩ := h.clean dev n hne
      have hji : j ≠ i := by
        rintro rfl
        exact hid ⟨hdj.symm, hbj.symm⟩
      refine ⟨j, hj, ?_⟩
      rw [hbuf, hdirty, update_of_ne hji, hlog]
      exact ⟨hdj, hbj, hvj, hc⟩
  · simpa only [hbuf, hlog] using h.pinnedIn

theorem Cache.bpin (h : Cache s loc ph) {i : Nat} (hi : i < NBUF) (hu : ¬ (s.buf i).Blank) :
    Cache { s with bcache := s.bcache.bpin i
                   pins := update s.pins i (s.pins i + 1) } loc ph := by
  refine h.of_sameBufs (sameBufs_set rfl rfl) (h.ok.set hi rfl rfl fun hb => absurd hb hu)
    (sameLocs_hyp h) fun j hj => ?_
  have hcnt := h.refcnt j hj
  by_cases hji : j = i
  · subst hji
    simp only [Sys.buf, Bcache.bpin, Bcache.set_buf_self, update_self] at hcnt ⊢
    omega
  · simp only [Sys.buf, Bcache.bpin, Bcache.set_buf_of_ne _ _ hji, update_of_ne hji]
      at hcnt ⊢
    omega

theorem Cache.bunpin (h : Cache s loc ph) {i : Nat} (hi : i < NBUF) (hp : 0 < s.pins i) :
    Cache { s with bcache := s.bcache.bunpin i
                   pins := update s.pins i (s.pins i - 1) } loc ph := by
  have hu : ¬ (s.buf i).Blank := not_blank_of_refcnt (by have := h.refcnt i hi; omega)
  refine h.of_sameBufs (sameBufs_set rfl rfl) (h.ok.set hi rfl rfl fun hb => absurd hb hu)
    (sameLocs_hyp h) fun j hj => ?_
  have hcnt := h.refcnt j hj
  by_cases hji : j = i
  · subst hji
    simp only [Sys.buf, Bcache.bunpin, Bcache.set_buf_self, update_self] at hcnt ⊢
    omega
  · simp only [Sys.buf, Bcache.bunpin, Bcache.set_buf_of_ne _ _ hji, update_of_ne hji]
      at hcnt ⊢
    omega

/-- `log_write` of a block that is not in the log yet: the log takes a pin on the buffer. -/
theorem Cache.logWrite_new {s' : Sys T} {k : Nat} (h : Cache s loc (.writing k)) {t : T} {i : Nat}
    (hl : i ∈ (loc t).locked) (hf : (loc t).filling = none) (hd : (s.buf i).dev = s.log.dev)
    (hn : (s.buf i).blockno ∉ s.log.lh.blocks) (hb : s'.bcache = s.bcache.bpin i)
    (hdisk : s'.disk = s.disk) (hstore : s'.store = s.store) (hpins : s'.pins = s.pins)
    (hdev : s'.log.dev = s.log.dev) (hlh : s'.log.lh = s.log.lh.push (s.buf i).blockno)
    (hdirty : s'.dirty = update s.dirty i false) : Cache s' loc (.writing k) := by
  obtain ⟨hi, hu, hlk, hv, hdat⟩ := h.holding hl hf
  have hp : pinned s'.log.lh (.writing k) = s.log.lh.blocks ++ [(s.buf i).blockno] := by
    rw [hlh]
    exact LogHeader.blocks_push ..
  have hmem : ∀ j < NBUF, j ≠ i → (s.buf j).valid = true → (s.buf j).dev = s.log.dev →
      ((s.buf j).blockno ∈ pinned s'.log.lh (.writing k) ↔
        (s.buf j).blockno ∈ pinned s.log.lh (.writing k)) := by
    intro j hj hji hvj hdj
    rw [hp, mem_append, mem_singleton, or_iff_left]
    · rfl
    · exact fun hbj => hji (h.uniq hi hu hj hvj (hdj.trans hd.symm) hbj)
  have hsame : SameBufs s s' := sameBufs_set (congrArg Bcache.buf hb) rfl
  have hdev' : ∀ j, (s'.buf j).dev = (s.buf j).dev := fun j => (hsame j).1
  have hbno : ∀ j, (s'.buf j).blockno = (s.buf j).blockno := fun j => (hsame j).2.1
  have hval : ∀ j, (s'.buf j).valid = (s.buf j).valid := fun j => (hsame j).2.2.1
  have hlck : ∀ j, (s'.buf j).lock = (s.buf j).lock := fun j => (hsame j).2.2.2.1
  have hdata : ∀ j, (s'.buf j).data = (s.buf j).data := fun j => (hsame j).2.2.2.2
  refine ⟨?_, ?_, ?_, ?_, h.locked, ?_, ?_, ?_, ?_, ?_⟩
  · rw [hb]
    exact h.ok.set hi rfl rfl fun hb => absurd hb hu
  · intro j hj
    have hcnt := h.refcnt j hj
    rw [hpins]
    by_cases hji : j = i
    · subst hji
      have h0 : logPin s (.writing k) j = 0 := if_neg fun hc => hn hc.2.2
      have h1 : logPin s' (.writing k) j = 1 := by
        refine if_pos ⟨by rw [hval, hv], by rw [hdev', hdev, hd], ?_⟩
        rw [hp, hbno]
        simp
      rw [h0] at hcnt
      rw [h1, Sys.buf, hb]
      simp only [Bcache.bpin, Bcache.set_buf_self]
      simp only [Sys.buf] at hcnt
      omega
    · have hpj : logPin s' (.writing k) j = logPin s (.writing k) j := by
        refine if_congr ?_ rfl rfl
        rw [hval, hdev', hbno, hdev]
        exact and_congr_right fun hvj => and_congr_right fun hdj => hmem j hj hji hvj hdj
      rw [hpj, Sys.buf, hb]
      simp only [Bcache.bpin, Bcache.set_buf_of_ne _ _ hji]
      exact hcnt
  · simpa only [hdev', hbno] using h.refs
  · simpa only [hlck] using h.lock
  · simpa only [hval] using h.filled
  · simpa only [hval, hdata, hstore, hdev', hbno] using h.data
  · intro dev n hne
    rw [hdisk, hstore] at hne
    obtain ⟨j, hj, hdj, hbj, hvj, hc⟩ := h.clean dev n hne
    refine ⟨j, hj, by rw [hdev', hdj], by rw [hbno, hbj], by rw [hval, hvj], ?_⟩
    rw [hlck, hdirty, hp, hdev]
    by_cases hji : j = i
    · subst hji
      exact .inr ⟨hdj ▸ hd, by simp [← hbj]⟩
    · rw [update_of_ne hji]
      exact hc.imp_right fun hc => ⟨hc.1, mem_append_left _ hc.2⟩
  · intro b hb'
    rw [hp, mem_append, mem_singleton] at hb'
    rcases hb' with hb' | rfl
    · obtain ⟨j, hj, hdj, hbj, hvj⟩ := h.pinnedIn b hb'
      exact ⟨j, hj, by rw [hdev', hdev, hdj], by rw [hbno, hbj], by rw [hval, hvj]⟩
    · exact ⟨i, hi, by rw [hdev', hdev, hd], by rw [hbno], by rw [hval, hv]⟩
  · rw [hp]
    refine nodup_append.mpr ⟨h.pinNodup, by simp, ?_⟩
    rintro a ha c hc rfl
    rw [mem_singleton] at hc
    exact hn (hc ▸ ha)

/-- `log_write` of a block the log already has pinned. -/
theorem Cache.logWrite_absorbed {i : Nat} {g : List Update} (h : Cache s loc ph)
    (hd : (s.buf i).dev = s.log.dev) (hn : (s.buf i).blockno ∈ pinned s.log.lh ph) :
    Cache { s with dirty := update s.dirty i false, group := g } loc ph := by
  refine ⟨h.ok, h.refcnt, h.refs, h.lock, h.locked, h.filled, h.data, fun dev n hne => ?_,
    h.pinnedIn, h.pinNodup⟩
  obtain ⟨j, hj, hdj, hbj, hvj, hc⟩ := h.clean dev n hne
  refine ⟨j, hj, hdj, hbj, hvj, ?_⟩
  show _ ∧ update s.dirty i false j = true ∨ _
  by_cases hji : j = i
  · subst hji
    exact .inr ⟨hdj ▸ hd, hbj ▸ hn⟩
  · rw [update_of_ne hji]
    exact hc

/-- `install_trans` drops the log's pin on the next block, which the disk has by now. -/
theorem Cache.logUnpin {k : Nat} (h : Cache s loc (.installing false k)) {i : Nat} (hi : i < NBUF)
    (hk : k < s.log.lh.n) (hv : (s.buf i).valid = true) (hd : (s.buf i).dev = s.log.dev)
    (hb : (s.buf i).blockno = s.log.lh.block k)
    (hup : s.disk s.log.dev (s.log.lh.block k) = s.store s.log.dev (s.log.lh.block k)) :
    Cache { s with bcache := s.bcache.bunpin i } loc (.installing false (k + 1)) := by
  have hdrop : pinned s.log.lh (.installing false k)
      = s.log.lh.block k :: pinned s.log.lh (.installing false (k + 1)) := pinned_drop hk
  have hnd := h.pinNodup
  rw [hdrop, nodup_cons] at hnd
  have hu := not_blank_of_valid hv
  have hsame : SameBufs s { s with bcache := s.bcache.bunpin i } := sameBufs_set rfl rfl
  have hdev' := fun j => (hsame j).1
  have hbno := fun j => (hsame j).2.1
  have hval := fun j => (hsame j).2.2.1
  have hlck := fun j => (hsame j).2.2.2.1
  have hdata := fun j => (hsame j).2.2.2.2
  refine ⟨h.ok.set hi rfl rfl fun hb => absurd hb hu, ?_, ?_, ?_, h.locked, ?_, ?_, ?_, ?_, hnd.2⟩
  · intro j hj
    have hcnt := h.refcnt j hj
    by_cases hji : j = i
    · subst hji
      have h1 : logPin s (.installing false k) j = 1 := if_pos ⟨hv, hd, by rw [hdrop, hb]; simp⟩
      have h0 :
          logPin { s with bcache := s.bcache.bunpin j } (.installing false (k + 1)) j = 0 := by
        refine if_neg fun hc => ?_
        rw [hbno, hb] at hc
        exact hnd.1 hc.2.2
      rw [h1] at hcnt
      rw [h0]
      simp only [Sys.buf, Bcache.bunpin, Bcache.set_buf_self] at hcnt ⊢
      omega
    · have hpj : logPin { s with bcache := s.bcache.bunpin i } (.installing false (k + 1)) j
          = logPin s (.installing false k) j := by
        refine if_congr ?_ rfl rfl
        rw [hval, hdev', hbno, hdrop]
        refine and_congr_right fun hvj => and_congr_right fun hdj => ?_
        have hbj : (s.buf j).blockno ≠ s.log.lh.block k := fun hbj =>
          hji (h.uniq hi hu hj hvj (hdj.trans hd.symm) (hbj.trans hb.symm))
        simp only [mem_cons, hbj, false_or]
      rw [hpj]
      simp only [Sys.buf, Bcache.bunpin, Bcache.set_buf_of_ne _ _ hji] at hcnt ⊢
      exact hcnt
  · simpa only [hdev', hbno] using h.refs
  · simpa only [hlck] using h.lock
  · simpa only [hval] using h.filled
  · simpa only [hval, hdata, hdev', hbno] using h.data
  · intro dev n hne
    obtain ⟨j, hj, hdj, hbj, hvj, hc⟩ := h.clean dev n hne
    refine ⟨j, hj, by rw [hdev', hdj], by rw [hbno, hbj], by rw [hval, hvj], ?_⟩
    rw [hlck]
    refine hc.imp_right fun hc => ⟨hc.1, ?_⟩
    rw [hdrop, mem_cons] at hc
    rcases hc.2 with rfl | hm
    · rw [hc.1] at hne
      exact absurd hup hne
    · exact hm
  · intro b hm
    obtain ⟨j, hj, hdj, hbj, hvj⟩ := h.pinnedIn b (by rw [hdrop]; exact mem_cons_of_mem _ hm)
    exact ⟨j, hj, by rw [hdev', hdj], by rw [hbno, hbj], by rw [hval, hvj]⟩

/-! ### Steps that change references or locks -/

variable [DecidableEq T]

/-- The sum of references when one process changes its own. -/
theorem sum_count_update (loc : T → Loc) (t : T) (l : Loc) (i : Nat) :
    ∑ u, (update loc t l u).count i + (loc t).count i
      = ∑ u, (loc u).count i + l.count i :=
  sum_update_add (fun l => l.count i) loc t l

/-- A buffer nobody owns takes the identity of a block that is not cached. -/
theorem Cache.recycle (h : Cache s loc ph) {t : T} {dev blockno i : Nat} {b : Buf T}
    (hi : i < NBUF) (h0 : (s.buf i).refcnt = 0) (hok : (s.bcache.set i b).Ok)
    (hd : b.dev = dev) (hb : b.blockno = blockno) (hv : b.valid = false)
    (hl : b.lock = (s.buf i).lock) (hr : b.refcnt = 1) :
    Cache (s.setBuf i b) (update loc t ((loc t).addRef ⟨i, dev, blockno⟩)) ph := by
  have hsum := fun j => sum_count_update loc t ((loc t).addRef ⟨i, dev, blockno⟩) j
  simp only [Loc.count_addRef] at hsum
  have hfree : ∀ u, i ∉ (loc u).refs.map Ref.i := fun u hu =>
    absurd (h.refcnt_of_ref hi hu) (by omega)
  have hself : (s.setBuf i b).buf i = b := Bcache.set_buf_self ..
  have hother : ∀ j, j ≠ i → (s.setBuf i b).buf j = s.buf j :=
    fun j hj => Bcache.set_buf_of_ne _ _ hj
  have hloc : ∀ u, (update loc t ((loc t).addRef ⟨i, dev, blockno⟩) u).locked
      = (loc u).locked ∧ (update loc t ((loc t).addRef ⟨i, dev, blockno⟩) u).filling
      = (loc u).filling ∧ ∀ r ∈ (update loc t ((loc t).addRef ⟨i, dev, blockno⟩) u).refs,
        r = ⟨i, dev, blockno⟩ ∨ r ∈ (loc u).refs := by
    intro u
    by_cases hu : u = t
    · subst hu
      rw [update_self]
      exact ⟨rfl, rfl, fun r hr => mem_cons.mp hr⟩
    · rw [update_of_ne hu]
      exact ⟨rfl, rfl, fun r hr => .inr hr⟩
  refine ⟨hok, ?_, ?_, ?_, ?_, ?_, ?_, ?_, ?_, h.pinNodup⟩
  · intro j hj
    have hcnt := h.refcnt j hj
    have hs := hsum j
    have hpins : (s.setBuf i b).pins j = s.pins j := rfl
    by_cases hji : j = i
    · subst hji
      have hp : logPin (s.setBuf j b) ph j = 0 := by
        refine if_neg fun hc => ?_
        rw [hself, hv] at hc
        simp at hc
      rw [if_pos rfl] at hs
      rw [hp, hself, hr]
      omega
    · have hp : logPin (s.setBuf i b) ph j = logPin s ph j := by
        simp only [logPin, hother j hji]
        rfl
      rw [if_neg (Ne.symm hji)] at hs
      rw [hp, hother j hji]
      omega
  · intro u r hru
    rcases (hloc u).2.2 r hru with rfl | hru
    · rw [hself]
      exact ⟨hi, hd, hb⟩
    · rw [hother r.i fun hri => hfree u (hri ▸ mem_map_of_mem hru)]
      exact h.refs u r hru
  · intro j hj u
    rw [(hloc u).1]
    by_cases hji : j = i
    · subst hji
      rw [hself, hl]
      exact h.lock j hj u
    · rw [hother j hji]
      exact h.lock j hj u
  · intro u
    rw [(hloc u).1]
    refine ⟨(h.locked u).1, fun j hj => ?_⟩
    by_cases hu : u = t
    · subst hu
      rw [update_self]
      exact mem_cons_of_mem _ ((h.locked u).2 j hj)
    · rw [update_of_ne hu]
      exact (h.locked u).2 j hj
  · intro u j hj
    rw [(hloc u).1] at hj
    rw [(hloc u).2.1, hother j fun hji => hfree u (hji ▸ (h.locked u).2 j hj)]
    exact h.filled u j hj
  · intro j hj hvj
    by_cases hji : j = i
    · subst hji
      rw [hself, hv] at hvj
      simp at hvj
    · rw [hother j hji] at hvj ⊢
      exact h.data j hj hvj
  · intro d n hne
    obtain ⟨j, hj, hdj, hbj, hvj, hc⟩ := h.clean d n hne
    subst hdj hbj
    have hji : j ≠ i := h.clean_ne hi h0 hvj hc
    refine ⟨j, hj, ?_⟩
    rw [hother j hji]
    exact ⟨rfl, rfl, hvj, hc⟩
  · intro n hn
    obtain ⟨j, hj, hdj, hbj, hvj⟩ := h.pinnedIn n hn
    have hji : j ≠ i := h.clean_ne hi h0 hvj (.inr ⟨hdj, hbj ▸ hn⟩)
    refine ⟨j, hj, ?_⟩
    rw [hother j hji]
    exact ⟨hdj, hbj, hvj⟩

theorem Cache.bget (h : Cache s loc ph) {t : T} {dev blockno i : Nat} {c : Bcache T}
    (hb : s.bcache.bget dev blockno = some (i, c)) :
    Cache { s with bcache := c }
      (update loc t ((loc t).addRef ⟨i, dev, blockno⟩)) ph := by
  have hsum := fun j => sum_count_update loc t ((loc t).addRef ⟨i, dev, blockno⟩) j
  simp only [Loc.count_addRef] at hsum
  have hok := h.ok.bget hb
  rcases Bcache.bget_cases hb with ⟨hm, hd, hbn, rfl⟩ | ⟨hm, h0, -, rfl⟩
  · -- the block is cached: one more reference to its buffer
    have hi : i < NBUF := h.ok.mem_lru.mp hm
    refine h.of_sameBufs (sameBufs_set rfl rfl) hok ?_ ?_
    · intro u
      by_cases hu : u = t
      · subst hu
        rw [update_self]
        refine ⟨rfl, rfl, fun j hj => ?_, fun r hr => ?_⟩
        · exact mem_cons_of_mem _ ((h.locked u).2 j hj)
        · rcases mem_cons.mp hr with rfl | hr
          · exact .inr ⟨hi, hd, hbn⟩
          · exact .inl hr
      · rw [update_of_ne hu]
        exact ⟨rfl, rfl, (h.locked u).2, fun r hr => .inl hr⟩
    · intro j hj
      have hcnt := h.refcnt j hj
      have hs := hsum j
      by_cases hji : j = i
      · subst hji
        simp only [Sys.buf, Bcache.set_buf_self] at hcnt ⊢
        rw [if_pos rfl] at hs
        omega
      · simp only [Sys.buf, Bcache.set_buf_of_ne _ _ hji] at hcnt ⊢
        rw [if_neg (Ne.symm hji)] at hs
        omega
  · exact h.recycle (h.ok.mem_lru.mp hm) h0 hok rfl rfl rfl rfl rfl

/-- A change to buffer `i` that keeps its block, its count and its validity, by a process that
    may take or drop the lock and may change what is stored. -/
theorem Cache.setBuf {s' : Sys T} {i : Nat} {b : Buf T} {t : T} {l : Loc} (h : Cache s loc ph)
    (hi : i < NBUF) (hu : ¬ (s.buf i).Blank) (hs : s'.bcache = s.bcache.set i b)
    (hpins : s'.pins = s.pins) (hlog : s'.log = s.log) (hdev : b.dev = (s.buf i).dev)
    (hbno : b.blockno = (s.buf i).blockno)
    (hcnt : b.refcnt = (s.buf i).refcnt) (hval : (s.buf i).valid = true → b.valid = true)
    (hrefs : l.refs = (loc t).refs)
    (hnodup : l.locked.Nodup) (hsub : ∀ j ∈ l.locked, j ∈ l.refs.map Ref.i)
    (hlock : ∀ u, b.lock = some u ↔ i ∈ (update loc t l u).locked)
    (hother : ∀ j, j ≠ i → (j ∈ l.locked ↔ j ∈ (loc t).locked) ∧
      (l.filling = some j ∨ (s.buf j).valid = true ∨ j ∉ l.locked))
    (hfill : i ∈ l.locked → l.filling = some i ∨ b.valid = true)
    (hdata : b.valid = true → b.data = s'.store b.dev b.blockno)
    (hstore : ∀ dev n, s'.store dev n = s.store dev n ∨ (dev = b.dev ∧ n = b.blockno))
    (hclean : ∀ dev n, s'.disk dev n ≠ s'.store dev n →
      ∃ j < NBUF, (s'.buf j).dev = dev ∧ (s'.buf j).blockno = n ∧ (s'.buf j).valid = true ∧
        (((s'.buf j).lock ≠ none ∧ s'.dirty j = true) ∨
          (dev = s.log.dev ∧ n ∈ pinned s.log.lh ph))) :
    Cache s' (update loc t l) ph := by
  have hself : s'.buf i = b := by rw [Sys.buf, hs, Bcache.set_buf_self]
  have hne : ∀ j, j ≠ i → s'.buf j = s.buf j := fun j hj => by
    rw [Sys.buf, hs, Bcache.set_buf_of_ne _ _ hj, Sys.buf]
  have hid : ∀ j, (s'.buf j).dev = (s.buf j).dev ∧ (s'.buf j).blockno = (s.buf j).blockno ∧
      (s'.buf j).refcnt = (s.buf j).refcnt ∧
      ((s.buf j).valid = true → (s'.buf j).valid = true) := by
    intro j
    by_cases hji : j = i
    · subst hji
      rw [hself]
      exact ⟨hdev, hbno, hcnt, hval⟩
    · rw [hne j hji]
      exact ⟨rfl, rfl, rfl, id⟩
  have hcount : ∀ u j, (update loc t l u).count j = (loc u).count j := by
    intro u j
    by_cases hu : u = t
    · subst hu
      rw [update_self, Loc.count, hrefs, Loc.count]
    · rw [update_of_ne hu]
  have hpin : ∀ j, logPin s' ph j = logPin s ph j := by
    intro j
    refine if_congr ?_ rfl rfl
    rw [(hid j).1, (hid j).2.1, hlog]
    refine and_congr_left fun hp => ⟨fun hv => ?_, (hid j).2.2.2⟩
    -- a pinned block is valid in some buffer, and that is the one in use for it
    by_cases hji : j = i
    · subst hji
      obtain ⟨a, ha, hda, hba, hva⟩ := h.pinnedIn _ hp.2
      exact h.uniq hi hu ha hva (hda.trans hp.1.symm) hba ▸ hva
    · rwa [hne j hji] at hv
  refine ⟨?_, ?_, ?_, ?_, ?_, ?_, ?_, ?_, ?_, ?_⟩
  · rw [hs]
    exact h.ok.set hi hdev hbno fun hb => absurd hb hu
  · intro j hj
    rw [(hid j).2.2.1, hpin, hpins]
    simp only [hcount]
    exact h.refcnt j hj
  · intro u r hr
    rw [(hid r.i).1, (hid r.i).2.1]
    by_cases hu : u = t
    · subst hu
      rw [update_self, hrefs] at hr
      exact h.refs u r hr
    · rw [update_of_ne hu] at hr
      exact h.refs u r hr
  · intro j hj u
    by_cases hji : j = i
    · subst hji
      rw [hself]
      exact hlock u
    · rw [hne j hji, h.lock j hj u]
      by_cases hu : u = t
      · subst hu
        rw [update_self]
        exact (hother j hji).1.symm
      · rw [update_of_ne hu]
  · intro u
    by_cases hu : u = t
    · subst hu
      rw [update_self]
      exact ⟨hnodup, hsub⟩
    · rw [update_of_ne hu]
      exact h.locked u
  · intro u j hj
    by_cases hu : u = t
    · subst hu
      rw [update_self] at hj ⊢
      by_cases hji : j = i
      · subst hji
        rw [hself]
        exact hfill hj
      · rw [hne j hji]
        rcases (hother j hji).2 with hf | hv | hn
        · exact .inl hf
        · exact .inr hv
        · exact absurd hj hn
    · rw [update_of_ne hu] at hj ⊢
      exact (h.filled u j hj).imp_right (hid j).2.2.2
  · intro j hj hv
    by_cases hji : j = i
    · subst hji
      rw [hself] at hv ⊢
      exact hdata hv
    · rw [hne j hji] at hv ⊢
      rw [h.data j hj hv]
      rcases hstore (s.buf j).dev (s.buf j).blockno with he | ⟨hd, hb⟩
      · exact he.symm
      · exact absurd (h.uniq hi hu hj hv (hd.trans hdev) (hb.trans hbno)) hji
  · rw [hlog]
    exact hclean
  · rw [hlog]
    intro n hn
    obtain ⟨j, hj, hd, hb, hv⟩ := h.pinnedIn n hn
    exact ⟨j, hj, (hid j).1.trans hd, (hid j).2.1.trans hb, (hid j).2.2.2 hv⟩
  · rw [hlog]
    exact h.pinNodup

theorem Cache.acquiresleep (h : Cache s loc ph) {t : T} {i : Nat}
    (hr : i ∈ (loc t).refs.map Ref.i) (hf : (loc t).filling = none)
    (hl : (s.buf i).lock = none) :
    Cache (s.setBuf i { s.buf i with lock := some t }) (update loc t ((loc t).lock i))
      ph := by
  obtain ⟨hi, hu⟩ := h.used hr
  have hfree : ∀ u, i ∉ (loc u).locked := fun u hu => by
    have := (h.lock i hi u).mpr hu
    rw [hl] at this
    simp at this
  refine h.setBuf hi hu rfl rfl rfl rfl rfl
    rfl id rfl ?_ ?_ ?_ ?_ ?_ (h.data i hi) (fun _ _ => .inl rfl) ?_
  · exact nodup_cons.mpr ⟨hfree t, (h.locked t).1⟩
  · intro j hj
    rcases mem_cons.mp hj with rfl | hj
    · exact hr
    · exact (h.locked t).2 j hj
  · intro u
    by_cases hu : u = t
    · subst hu
      rw [update_self]
      simp [Loc.lock]
    · rw [update_of_ne hu]
      simp [hfree u, Ne.symm hu]
  · intro j hji
    refine ⟨by simp [Loc.lock, hji], .inr ?_⟩
    by_cases hj : j ∈ (loc t).locked
    · rcases h.filled t j hj with hc | hv
      · rw [hf] at hc
        simp at hc
      · exact .inl hv
    · exact .inr (by simp [Loc.lock, hji, hj])
  · intro _
    exact .inl rfl
  · intro dev n hne
    obtain ⟨j, hj, hdj, hbj, hvj, hc⟩ := h.clean dev n hne
    refine ⟨j, hj, ?_⟩
    by_cases hji : j = i
    · subst hji
      rw [hl] at hc
      simp only [ne_eq, not_true_eq_false, false_and, false_or] at hc
      simp only [Sys.buf, Sys.setBuf, Bcache.set_buf_self]
      exact ⟨hdj, hbj, hvj, .inr hc⟩
    · simp only [Sys.buf, Sys.setBuf, Bcache.set_buf_of_ne _ _ hji]
      exact ⟨hdj, hbj, hvj, hc⟩

/-- `bread` fetches a block that is not valid in its buffer: by `clean` the disk is up to date. -/
theorem Cache.fill (h : Cache s loc ph) {t : T} {i : Nat} (hl : i ∈ (loc t).locked)
    (hf : (loc t).filling = some i) (hv : (s.buf i).valid = false) :
    Cache (s.setBuf i
        { s.buf i with data := s.disk (s.buf i).dev (s.buf i).blockno, valid := true })
      (update loc t (loc t).fill) ph := by
  obtain ⟨hi, hu⟩ := h.used ((h.locked t).2 i hl)
  have hup : s.disk (s.buf i).dev (s.buf i).blockno = s.store (s.buf i).dev (s.buf i).blockno := by
    by_contra hne
    obtain ⟨j, hj, hdj, hbj, hvj, -⟩ := h.clean _ _ hne
    rw [h.uniq hi hu hj hvj hdj hbj, hv] at hvj
    simp at hvj
  refine h.setBuf hi hu rfl rfl rfl rfl rfl rfl (fun _ => rfl) rfl
    (h.locked t).1 (h.locked t).2 ?_ ?_ (fun _ => .inr rfl) (fun _ => hup) (fun _ _ => .inl rfl) ?_
  · intro u
    have hsame : (update loc t (loc t).fill u).locked = (loc u).locked := by
      by_cases hu : u = t
      · subst hu
        rw [update_self]
        rfl
      · rw [update_of_ne hu]
    rw [hsame]
    exact h.lock i hi u
  · intro j hji
    refine ⟨Iff.rfl, .inr ?_⟩
    by_cases hj : j ∈ (loc t).locked
    · rcases h.filled t j hj with hc | hv'
      · rw [hf] at hc
        exact absurd (Option.some.inj hc).symm hji
      · exact .inl hv'
    · exact .inr hj
  · intro dev n hne
    obtain ⟨j, hj, hdj, hbj, hvj, hc⟩ := h.clean dev n hne
    have hji : j ≠ i := by
      rintro rfl
      rw [hv] at hvj
      simp at hvj
    refine ⟨j, hj, ?_⟩
    simp only [Sys.buf, Sys.setBuf, Bcache.set_buf_of_ne _ _ hji]
    exact ⟨hdj, hbj, hvj, hc⟩

theorem Cache.releasesleep (h : Cache s loc ph) {t : T} {i : Nat} (hl : i ∈ (loc t).locked)
    (hf : (loc t).filling = none)
    (hd : s.dirty i = false ∨ (s.buf i).dev = s.log.dev ∧ (s.buf i).blockno ∈ pinned s.log.lh ph) :
    Cache (s.setBuf i { s.buf i with lock := none }) (update loc t ((loc t).unlock i))
      ph := by
  obtain ⟨hi, hu⟩ := h.used ((h.locked t).2 i hl)
  have hnd := (h.locked t).1
  refine h.setBuf hi hu rfl rfl rfl rfl rfl rfl id rfl (hnd.erase i)
    (fun j hj => (h.locked t).2 j (mem_of_mem_erase hj)) ?_ ?_ ?_ (h.data i hi)
    (fun _ _ => .inl rfl) ?_
  · intro u
    refine ⟨fun hc => by simp at hc, fun hc => ?_⟩
    by_cases hu : u = t
    · subst hu
      rw [update_self] at hc
      exact absurd hc hnd.not_mem_erase
    · rw [update_of_ne hu] at hc
      have h1 := (h.lock i hi t).mpr hl
      rw [(h.lock i hi u).mpr hc] at h1
      exact absurd (Option.some.inj h1) hu
  · intro j hji
    refine ⟨mem_erase_of_ne hji, .inr ?_⟩
    by_cases hj : j ∈ (loc t).locked
    · rcases h.filled t j hj with hc | hv
      · rw [hf] at hc
        simp at hc
      · exact .inl hv
    · exact .inr fun hc => hj (mem_of_mem_erase hc)
  · exact fun hc => absurd hc hnd.not_mem_erase
  · intro dev n hne
    obtain ⟨j, hj, hdj, hbj, hvj, hc⟩ := h.clean dev n hne
    refine ⟨j, hj, ?_⟩
    by_cases hji : j = i
    · subst hji
      simp only [Sys.buf, Sys.setBuf, Bcache.set_buf_self]
      refine ⟨hdj, hbj, hvj, .inr ?_⟩
      rcases hc with ⟨-, hdirty⟩ | hc
      · rcases hd with hd | hd
        · rw [hd] at hdirty
          simp at hdirty
        · exact ⟨hdj ▸ hd.1, hbj ▸ hd.2⟩
      · exact hc
    · simp only [Sys.buf, Sys.setBuf, Bcache.set_buf_of_ne _ _ hji]
      exact ⟨hdj, hbj, hvj, hc⟩

theorem Cache.store (h : Cache s loc ph) {t : T} {i : Nat} (hl : i ∈ (loc t).locked)
    (hf : (loc t).filling = none) (d : Block) :
    Cache { s with bcache := s.bcache.set i { s.buf i with data := d }
                   store := set₂ s.store (s.buf i).dev (s.buf i).blockno d
                   dirty := update s.dirty i true } loc ph := by
  obtain ⟨hi, hu, hlk, hv, -⟩ := h.holding hl hf
  have hloc : update loc t (loc t) = loc := update_eq_self ..
  rw [← hloc]
  refine h.setBuf (b := { s.buf i with data := d }) hi hu rfl rfl rfl rfl rfl rfl id rfl
    (h.locked t).1 (h.locked t).2 ?_ ?_ (fun _ => .inr hv) (fun _ => (set₂_self ..).symm) ?_ ?_
  · rw [hloc]
    exact h.lock i hi
  · intro j hji
    refine ⟨Iff.rfl, .inr ?_⟩
    by_cases hj : j ∈ (loc t).locked
    · exact .inl (h.holding hj hf).2.2.2.1
    · exact .inr hj
  · intro dev n
    by_cases hid : dev = (s.buf i).dev ∧ n = (s.buf i).blockno
    · exact .inr hid
    · exact .inl (set₂_of_ne hid)
  · intro dev n hne
    by_cases hid : dev = (s.buf i).dev ∧ n = (s.buf i).blockno
    · obtain ⟨rfl, rfl⟩ := hid
      refine ⟨i, hi, ?_⟩
      rw [Sys.buf] at hlk
      simp only [Sys.buf, Bcache.set_buf_self, update_self, true_and, hlk]
      exact ⟨hv, .inl (by simp)⟩
    · dsimp only at hne
      rw [set₂_of_ne hid] at hne
      obtain ⟨j, hj, hdj, hbj, hvj, hc⟩ := h.clean dev n hne
      have hji : j ≠ i := by
        rintro rfl
        exact hid ⟨hdj.symm, hbj.symm⟩
      refine ⟨j, hj, ?_⟩
      simp only [Sys.buf, Bcache.set_buf_of_ne _ _ hji, update_of_ne hji]
      exact ⟨hdj, hbj, hvj, hc⟩

/-- The second half of `brelse`. -/
theorem Cache.unref (h : Cache s loc ph) {t : T} {i : Nat} (hr : i ∈ (loc t).refs.map Ref.i)
    (hl : i ∉ (loc t).locked) :
    Cache { s with bcache := s.bcache.unref i } (update loc t ((loc t).dropRef i)) ph := by
  obtain ⟨hi, hu⟩ := h.used hr
  have hpos := Loc.count_pos.mpr hr
  refine h.of_sameBufs (sameBufs_set (Bcache.unref_buf ..) rfl) (h.ok.unref hi hu) ?_ ?_
  · intro u
    by_cases hu : u = t
    · subst hu
      rw [update_self, Loc.refs_dropRef]
      refine ⟨rfl, rfl, fun j hj => ?_, fun r hr => .inl (mem_of_mem_eraseP hr)⟩
      have hji : j ≠ i := by
        rintro rfl
        exact hl hj
      exact (mem_erase_of_ne hji).mpr ((h.locked u).2 j hj)
    · rw [update_of_ne hu]
      exact ⟨rfl, rfl, (h.locked u).2, fun r hr => .inl hr⟩
  · intro j hj
    have hcnt := h.refcnt j hj
    have hs := sum_count_update loc t ((loc t).dropRef i) j
    have hle : (loc t).count j ≤ ∑ u, (loc u).count j :=
      Finset.single_le_sum (f := fun u => (loc u).count j) (fun _ _ => Nat.zero_le _)
        (Finset.mem_univ t)
    simp only [Sys.buf, Bcache.unref_buf] at hcnt ⊢
    by_cases hji : j = i
    · subst hji
      rw [Loc.count_dropRef_self] at hs
      rw [Bcache.set_buf_self]
      dsimp only
      omega
    · rw [Loc.count_dropRef_of_ne _ hji] at hs
      rw [Bcache.set_buf_of_ne _ _ hji]
      omega

end

end Xv6.BlockLayer
