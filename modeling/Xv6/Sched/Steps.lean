import Xv6.Sched.Inv

/-!
# The steps keep the invariant

One rule for each kind of step: taking and releasing a lock, finding something out, leaving the CPU
and coming back, a change of one process table entry. Each says with which ghost value the thread
goes on. The parts of the invariant have frame lemmas of their own, so that a rule only argues about
the parts its step touches.
-/

namespace Xv6.Sched

open Lib
open Function (update update_eq_self update_idem update_of_ne update_self)

variable {n : Nat} {α : Type} {s s' : Sys n} {loc : Thread n → Ghost} {st st' : Stages n}
  {t : Thread n} {c d : Fin n} {p q r x y np i k : Nat} {l : Lock} {ch : Chan}
  {H H' : Finset Lock} {σ σ' τ : Stage} {g : Ghost}

/-! ## Frames -/

theorem Cpus.congr (h : Cpus s st) (hcpu : s'.cpu = s.cpu)
    (hstate : ∀ q, (s'.proc q).state = (s.proc q).state)
    (hleave : ∀ q, (st' (.inl q)).leave = (st (.inl q)).leave)
    (hphase : ∀ d, (st' (.inr d)).phase = (st (.inr d)).phase) : Cpus s' st' := by
  refine ⟨?_, ?_, ?_, ?_, ?_, ?_, ?_⟩
  · simpa only [hcpu] using h.proc
  · simpa only [hcpu] using h.inj
  · simpa only [hcpu, hphase] using h.back
  · simpa only [hcpu, hstate, hleave] using h.state
  · simpa only [hcpu, hstate] using h.running
  · simpa only [hstate, hleave] using h.leaving
  · simpa only [hcpu, hleave] using h.away

/-- The state of a process that is not on a CPU changes. -/
theorem Cpus.set {z : Proc} (h : Cpus s st) (hcpu : s'.cpu = s.cpu)
    (hproc : s'.proc = update s.proc q z) (hrun : (s.proc q).state ≠ .running)
    (hrun' : z.state ≠ .running) (hq : (st (.inl q)).leave ≠ .leaving)
    (hleave : ∀ q, (st' (.inl q)).leave = (st (.inl q)).leave)
    (hphase : ∀ d, (st' (.inr d)).phase = (st (.inr d)).phase) : Cpus s' st' := by
  have hne : ∀ y, y ≠ q → s'.proc y = s.proc y := by
    intro y hy
    rw [hproc, update_of_ne hy]
  have hself : s'.proc q = z := by rw [hproc, update_self]
  refine ⟨?_, ?_, ?_, fun c y hc => ?_, fun y hy => ?_, fun y hy => ?_, ?_⟩
  · simpa only [hcpu] using h.proc
  · simpa only [hcpu] using h.inj
  · simpa only [hcpu, hphase] using h.back
  · rw [hcpu] at hc
    have hs := h.state c y hc
    have hyq : y ≠ q := by
      rintro rfl
      exact hs.elim hrun hq
    rw [hne y hyq, hleave]
    exact hs
  · have hyq : y ≠ q := by
      rintro rfl
      exact hrun' (hself ▸ hy)
    rw [hne y hyq] at hy
    rw [hcpu]
    exact h.running y hy
  · rw [hleave] at hy
    have hyq : y ≠ q := by
      rintro rfl
      exact hq hy
    rw [hne y hyq]
    exact h.leaving y hy
  · simpa only [hcpu, hleave] using h.away

/-- Nobody has started to wait, and every reason and every `wakeup` is still there. -/
theorem Waits.congr (h : Waits s st) (hin : ∀ q ch, InWait s' st' q ch → InWait s st q ch)
    (hreason : ∀ q ch, InWait s' st' q ch → Reason s ch → Reason s' ch)
    (hwake : ∀ q, (st' (.inl q)).wake = (st (.inl q)).wake) : Waits s' st' := by
  refine ⟨fun p ch hw => ?_, fun q ch k hk hg p hp hpq hw => ?_,
    fun p r hw => h.own p r (hin _ _ hw)⟩
  · refine (h.reason p ch (hin p ch hw)).imp (hreason p ch hw) ?_
    rintro ⟨q, k, hk, hle⟩
    exact ⟨q, k, (hwake q).trans hk, hle⟩
  · rw [hwake] at hk
    exact h.scanned q ch k hk hg p hp hpq (hin p ch hw)

/-- Two states between which a process can go without being born or dying. -/
def Procstate.Same (a b : Procstate) : Prop :=
  (b = .unused ↔ a = .unused) ∧ (b = .used ↔ a = .used) ∧ (b = .zombie ↔ a = .zombie)

theorem Procstate.Same.refl (a : Procstate) : a.Same a := ⟨Iff.rfl, Iff.rfl, Iff.rfl⟩

theorem Procstate.Live.same {a b : Procstate} (ha : a.Live) (hb : b.Live) : a.Same b := by
  cases a <;> cases b <;> simp_all [Procstate.Live, Procstate.Same]

theorem Procstate.Same.live {a b : Procstate} (h : a.Same b) (ha : a.Live) : b.Live := by
  cases a <;> cases b <;> simp_all [Procstate.Live, Procstate.Same]

theorem Family.congr (h : Family s) (hinit : s'.initproc = s.initproc)
    (hstate : ∀ q, (s.proc q).state.Same (s'.proc q).state)
    (hkin : ∀ q, (s'.proc q).parent = (s.proc q).parent ∧
      (s'.proc q).forker = (s.proc q).forker ∧ (s'.proc q).born = (s.proc q).born) :
    Family s' := by
  have hparent := fun q => (hkin q).1
  refine ⟨fun p hp => h.range p fun hu => hp ((hstate p).1.mpr hu), ?_, fun p hp => ?_,
    fun q r hq => ?_, fun q hu hd hi => ?_, fun q r hq => ?_⟩
  · rw [hinit, hparent]
    exact ⟨(hstate _).live h.init.1, h.init.2⟩
  · rw [hparent]
    exact h.free p ((hstate p).1.mp hp)
  · rw [hparent] at hq
    exact (hstate r).live (h.live q r hq)
  · rw [hparent]
    rw [hinit] at hi
    exact h.has q (fun hc => hu ((hstate q).1.mpr hc)) (fun hc => hd ((hstate q).2.1.mpr hc)) hi
  · rw [hparent] at hq
    rw [(hkin q).2.1, (hkin r).2.2, hinit]
    exact h.origin q r hq

theorem Phase.Fact.congr {φ : Phase} (h : φ.Fact s st x) (hinit : s'.initproc = s.initproc)
    (hstate : ∀ q, (s.proc q).state.Same (s'.proc q).state)
    (hparent : ∀ q, (s'.proc q).parent = (s.proc q).parent)
    (hlocked : ∀ i, (s'.sleeplock i).locked = (s.sleeplock i).locked)
    (hinside : s'.inside = s.inside)
    (hin : φ = .woken → ∀ q ch, InWait s' st' q ch → InWait s st q ch) : φ.Fact s' st' x := by
  cases φ with
  | none | switched => exact trivial
  | woken =>
    simp only [Phase.Fact, hinit, hparent] at h ⊢
    exact ⟨h.1, h.2.1, fun r y hr hw => h.2.2 r y hr (hin rfl _ _ hw)⟩
  | _ => simpa only [Phase.Fact, ne_eq, hinit, hparent, hlocked, hinside, (hstate _).1,
      (hstate _).2.1, (hstate _).2.2] using h

/-- The facts after a step of thread `t`. -/
theorem Facts.update (h : Facts s st)
    (hother : ∀ y, t ≠ .inl y → (st (.inl y)).phase.Fact s' (update st t σ) y)
    (hown : ∀ p, t = .inl p → σ.phase.Fact s' (update st t σ) p)
    (hmaker : ∀ np, σ.phase.makes = some np → (st t).phase.makes = some np ∨
      ∀ y, (st (.inl y)).phase.makes ≠ some np) : Facts s' (update st t σ) := by
  refine ⟨fun y => ?_, fun y z np hy hz => ?_⟩
  · by_cases hy : t = .inl y
    · subst hy
      rw [update_self]
      exact hown y rfl
    · rw [update_of_ne (Ne.symm hy)]
      exact hother y hy
  · by_cases hty : t = .inl y
    · by_cases htz : t = .inl z
      · exact Sum.inl.inj (hty.symm.trans htz)
      · subst hty
        rw [update_self] at hy
        rw [update_of_ne (Ne.symm htz)] at hz
        rcases hmaker np hy with hm | hm
        · exact h.maker y z np hm hz
        · exact absurd hz (hm z)
    · rw [update_of_ne (Ne.symm hty)] at hy
      by_cases htz : t = .inl z
      · subst htz
        rw [update_self] at hz
        rcases hmaker np hz with hm | hm
        · exact h.maker y z np hy hm
        · exact absurd hy (hm y)
      · rw [update_of_ne (Ne.symm htz)] at hz
        exact h.maker y z np hy hz

theorem Past.congr (h : Past s)
    (hproc : ∀ q, ((s'.proc q).state ≠ .unused → (s.proc q).state ≠ .unused) ∧
      ((s'.proc q).state = .zombie ↔ (s.proc q).state = .zombie) ∧
      (s'.proc q).born = (s.proc q).born ∧ ((s.proc q).state = .zombie →
        (s'.proc q).pid = (s.proc q).pid ∧ (s'.proc q).xstate = (s.proc q).xstate))
    (hinit : s'.initproc = s.initproc) (hb : s'.births = s.births) (he : s'.exits = s.exits)
    (hr : s'.reaps = s.reaps) (hf : ∀ f ∈ s'.frees, ∀ c, f.2 c ≠ some f.1) : Past s' := by
  refine ⟨?_, ?_, he ▸ h.exited, ?_, hr ▸ h.once, ?_, ?_, ?_, hf⟩
  · rw [he, hr]
    intro e hm
    refine (h.exits e hm).imp_right ?_
    rintro ⟨hz, hbo, hp, hx⟩
    obtain ⟨-, hs, hbo', hpx⟩ := hproc e.slot
    obtain ⟨hp', hx'⟩ := hpx hz
    exact ⟨hs.mpr hz, hbo'.trans hbo, hp'.trans hp, hx'.trans hx⟩
  · intro q hz
    obtain ⟨-, hs, hbo', hpx⟩ := hproc q
    have hz' := hs.mp hz
    obtain ⟨hp', hx'⟩ := hpx hz'
    rw [he, hbo', hp', hx']
    exact h.zombie q hz'
  · rw [he, hr, hinit]
    exact h.reaps
  · intro q hq
    rw [hb, hr, (hproc q).2.2.1]
    exact h.alive q ((hproc q).1 hq)
  · rw [he, hb]
    exact h.before
  · intro q q' hq hq' hbo
    rw [(hproc q).2.2.1, (hproc q').2.2.1] at hbo
    exact h.born q q' ((hproc q).1 hq) ((hproc q').1 hq') hbo

/-- A part of a stage that the change of one thread's stage leaves as it is. -/
theorem part_update {β : Type} {f : Stage → β} (h : f τ = f (st t)) (u : Thread n) :
    f (update st t τ u) = f (st u) := by
  by_cases hu : u = t
  · subst hu
    rw [update_self, h]
  · rw [update_of_ne hu]

theorem leave_update (h : τ.leave = (st t).leave) (u : Thread n) :
    (update st t τ u).leave = (st u).leave :=
  part_update h u

theorem wake_update (h : τ.wake = (st t).wake) (u : Thread n) :
    (update st t τ u).wake = (st u).wake :=
  part_update h u

theorem phase_update (h : τ.phase = (st t).phase) (u : Thread n) :
    (update st t τ u).phase = (st u).phase :=
  part_update h u

/-- Who waits does not depend on anything else. -/
theorem InWait.congr (h : InWait s' st' p ch)
    (hleave : (st' (.inl p)).leave = (st (.inl p)).leave) (hproc : s'.proc p = s.proc p) :
    InWait s st p ch := by
  rw [InWait, hleave, hproc] at h
  exact h

/-! ## Steps and locks -/

theorem keeps_step {f : Fin n → Sys n → Outcome (Sys n) α} {Q : α → Ghost → Prop}
    (h : ∀ s loc c, Inv s loc → loc t = g → s.on t = some c → ∀ r s', f c s = .ok r s' →
      ∃ g', Inv s' (update loc t g') ∧ Q r g') : (step t f).Keeps (spec n) t g Q := by
  refine .atomic fun s loc hI hl => ⟨fun hf => hf.elim, fun r s' hf => ⟨trivial, ?_⟩⟩
  cases hon : s.on t with
  | none =>
    rw [hon] at hf
    cases hf
  | some c =>
    rw [hon] at hf
    exact h s loc c hI hl hon r s' hf

/-- The ghost value of a thread may change before its next step. -/
theorem keeps_ghost {f : Fin n → Sys n → Outcome (Sys n) α} {Q : α → Ghost → Prop} (g' : Ghost)
    (h : ∀ s loc c, Inv s loc → loc t = g → s.on t = some c → Inv s (update loc t g'))
    (hp : (step t f).Keeps (spec n) t g' Q) : (step t f).Keeps (spec n) t g Q := by
  refine keeps_step fun s loc c hI hl hon r s' hf => ?_
  have hp' := (hp s (update loc t g') (h s loc c hI hl hon) (update_self ..)).2
  simp only [hon] at hp'
  obtain ⟨-, g'', hI', hQ⟩ := hp' r s' hf
  rw [update_idem] at hI'
  exact ⟨g'', hI', hQ⟩

/-- The rule for a step whose outcome is known. -/
theorem keeps_does {f : Fin n → Sys n → Sys n} {a : α} {Q : α → Ghost → Prop} (g' : Ghost)
    (h : ∀ s loc c, Inv s loc → loc t = g → s.on t = some c → Inv (f c s) (update loc t g'))
    (hQ : Q a g') : (step t fun c s => .ok a (f c s)).Keeps (spec n) t g Q := by
  refine keeps_step fun s loc c hI hl hc r s' hf => ⟨g', ?_, ?_⟩
  · cases hf
    exact h s loc c hI hl hc
  · cases hf
    exact hQ

/-- The ghost value of a thread may also change after its step. -/
theorem keeps_after {f : Fin n → Sys n → Outcome (Sys n) α} {Q Q' : α → Ghost → Prop}
    (hp : (step t f).Keeps (spec n) t g Q)
    (h : ∀ s loc r, Inv s loc → Q r (loc t) →
      ∃ g', Inv s (update loc t g') ∧ Q' r g') : (step t f).Keeps (spec n) t g Q' := by
  refine keeps_step fun s loc c hI hl hon r s' hf => ?_
  have hp' := (hp s loc hI hl).2
  simp only [hon] at hp'
  obtain ⟨-, g', hI', hQ⟩ := hp' r s' hf
  obtain ⟨g'', hI'', hQ'⟩ := h s' _ r hI' (by rw [update_self]; exact hQ)
  rw [update_idem] at hI''
  exact ⟨g'', hI'', hQ'⟩

/-- Only a lock has changed. -/
theorem Inv.of_lock {o : Option (Fin n)} (h : Inv s loc) (hc : s.on t = some c)
    (hl : loc t = ⟨H, σ⟩) (hwf : Ghost.Wf t ⟨H', σ⟩)
    (hmine : ∀ l', (s.setLock l o).lock l' = some c ↔ l' ∈ H')
    (hother : ∀ l' d, d ≠ c → ((s.setLock l o).lock l' = some d ↔ s.lock l' = some d)) :
    Inv (s.setLock l o) (update loc t ⟨H', σ⟩) := by
  have hst : stages (update loc t ⟨H', σ⟩) = stages loc := by
    rw [stages_update, update_stage (stages_self hl)]
  refine ⟨h.locks_update hc rfl hmine hother, h.wf_update hwf, ?_, ?_, ?_, ?_, ?_, ?_,
    hst ▸ h.dozing⟩
  · rw [hst]
    exact h.cpus.congr rfl (fun _ => rfl) (fun _ => rfl) fun _ => rfl
  · rw [hst]
    exact h.waits.congr (fun _ _ hw => hw) (fun _ ch _ hr => by cases ch <;> exact hr) fun _ => rfl
  · exact h.family.congr rfl (fun _ => .refl _) fun _ => ⟨rfl, rfl, rfl⟩
  · rw [hst]
    exact ⟨fun y => (h.facts.fact y).congr rfl (fun _ => .refl _) (fun _ => rfl) (fun _ => rfl) rfl
      fun _ _ _ hw => hw, h.facts.maker⟩
  · exact ⟨h.sleeplocks.locked, h.sleeplocks.one⟩
  · exact h.past.congr (fun _ => ⟨id, Iff.rfl, rfl, fun _ => ⟨rfl, rfl⟩⟩) rfl rfl rfl rfl
      h.past.frees

theorem Ghost.Wf.mono (h : Ghost.Wf t ⟨H, σ⟩) (hH : H ⊆ H') : Ghost.Wf t ⟨H', σ⟩ :=
  ⟨fun p ht hl => hH (h.leave p ht hl), fun ch k l hw hg => hH (h.wake ch k l hw hg),
    h.phase.trans hH⟩

theorem acquire_keeps {Q : Unit → Ghost → Prop} (hQ : l ∉ H → Q () ⟨insert l H, σ⟩) :
    (acquire t l).Keeps (spec n) t ⟨H, σ⟩ Q := by
  refine keeps_step fun s loc c h hl hc r s' hf => ?_
  split at hf
  · next hfree =>
    cases hf
    have hwf := h.wf t
    rw [hl] at hwf
    have hnot : l ∉ H := by
      intro hm
      have := (h.lock_iff hc).mpr (show l ∈ (loc t).held by rw [hl]; exact hm)
      rw [hfree] at this
      cases this
    refine ⟨_, h.of_lock hc hl (hwf.mono (Finset.subset_insert l H)) (fun l' => ?_)
      fun l' d hd => ?_, hQ hnot⟩
    · rw [Finset.mem_insert, Sys.setLock]
      by_cases hll : l' = l
      · subst hll
        simp only [update_self, true_or]
      · simp only [update_of_ne hll, hll, false_or]
        rw [h.lock_iff hc, hl]
    · rw [Sys.setLock]
      by_cases hll : l' = l
      · subst hll
        simp only [update_self, hfree, Option.some.injEq, reduceCtorEq, iff_false]
        exact fun he => hd he.symm
      · simp only [update_of_ne hll]
  · split at hf
    · cases hf
    · cases hf

theorem releaseNoting_keeps {note : Sys n → Sys n} (hwf : Ghost.Wf t ⟨H.erase l, σ⟩)
    (hnote : ∀ s loc, Inv s loc → loc t = ⟨H.erase l, σ⟩ → Inv (note s) loc) :
    (releaseNoting t l note).Keeps (spec n) t ⟨H, σ⟩ fun _ g => g = ⟨H.erase l, σ⟩ := by
  refine keeps_step fun s loc c h hl hc r s' hf => ⟨_, ?_, rfl⟩
  split at hf
  · next hheld =>
    cases hf
    refine hnote _ _ (h.of_lock hc hl hwf (fun l' => ?_) fun l' d hd => ?_)
      (update_self ..)
    · rw [Finset.mem_erase, Sys.setLock]
      by_cases hll : l' = l
      · subst hll
        simp only [update_self, reduceCtorEq, ne_eq, not_true_eq_false, false_and]
      · simp only [update_of_ne hll, ne_eq, hll, not_false_eq_true, true_and]
        rw [h.lock_iff hc, hl]
    · rw [Sys.setLock]
      by_cases hll : l' = l
      · subst hll
        simp only [update_self, hheld, reduceCtorEq, Option.some.injEq, false_iff]
        exact fun he => hd he.symm
      · simp only [update_of_ne hll]
  · cases hf

theorem release_keeps (hwf : Ghost.Wf t ⟨H.erase l, σ⟩) :
    (release t l).Keeps (spec n) t ⟨H, σ⟩ fun _ g => g = ⟨H.erase l, σ⟩ :=
  releaseNoting_keeps hwf fun _ _ h _ => h

/-- A lock is released that was taken on top of others. -/
theorem release_insert {Q : Unit → Ghost → Prop} (hnot : l ∉ H) (hwf : Ghost.Wf t ⟨H, σ⟩)
    (hQ : Q () ⟨H, σ⟩) : (release t l).Keeps (spec n) t ⟨insert l H, σ⟩ Q := by
  have herase := Finset.erase_insert hnot
  refine (release_keeps (by rwa [herase])).mono ?_
  rintro _ _ rfl
  rwa [herase]

theorem release_last {Q : Unit → Ghost → Prop} (hwf : Ghost.Wf t ⟨∅, σ⟩) (hQ : Q () ⟨∅, σ⟩) :
    (release t l).Keeps (spec n) t ⟨{l}, σ⟩ Q :=
  release_insert (Finset.notMem_empty l) hwf hQ

/-- Only the counter of process ids and the notes about dozing change. -/
theorem Inv.of_notes {pid : Int} {f : Nat → Option Chan} (h : Inv s loc)
    (hf : ∀ p ch, f p = some ch → (loc (.inl p)).stage.leave = .dozing ch) :
    Inv { s with nextpid := pid, dozing := f } loc := by
  refine ⟨⟨h.locks.procs, h.locks.scheds, h.locks.away, h.locks.behind⟩, h.wf,
    h.cpus.congr rfl (fun _ => rfl) (fun _ => rfl) fun _ => rfl,
    h.waits.congr (fun _ _ hw => hw) (fun _ ch _ hr => by cases ch <;> exact hr) fun _ => rfl,
    h.family.congr rfl (fun _ => .refl _) fun _ => ⟨rfl, rfl, rfl⟩,
    ⟨fun y => (h.facts.fact y).congr rfl (fun _ => .refl _) (fun _ => rfl) (fun _ => rfl) rfl
      fun _ _ _ hw => hw, h.facts.maker⟩, ⟨h.sleeplocks.locked, h.sleeplocks.one⟩,
    h.past.congr (fun _ => ⟨id, Iff.rfl, rfl, fun _ => ⟨rfl, rfl⟩⟩) rfl rfl rfl rfl h.past.frees,
    hf⟩

theorem Inv.not_dozing (h : Inv s loc) (hl : loc (.inl p) = ⟨H, σ⟩)
    (hσ : ∀ ch, σ.leave ≠ .dozing ch) : s.dozing p = none := by
  rw [Option.eq_none_iff_forall_ne_some]
  intro ch hd
  have := h.dozing p ch hd
  rw [stages_self hl] at this
  exact hσ ch this

/-! ## Finding something out -/

/-- Only the stage of a process changes, and it is not on its way out. -/
theorem Inv.restage (h : Inv s loc) (hl : loc (.inl p) = ⟨H, σ⟩)
    (hwf : Ghost.Wf (.inl p : Thread n) ⟨H, σ'⟩)
    (hleave : σ'.leave = σ.leave) (hwaits : Waits s (update (stages loc) (.inl p) σ'))
    (hfact : σ'.phase.Fact s (stages loc) p)
    (hmaker : ∀ np, σ'.phase.makes = some np → σ.phase.makes = some np) :
    Inv s (update loc (.inl p) ⟨H, σ'⟩) := by
  have hst := stages_self hl
  have hlv : ∀ u, (update (stages loc) (.inl p) σ' u).leave = (stages loc u).leave :=
    leave_update (hleave.trans (by rw [hst]))
  have hin : ∀ q ch, InWait s (update (stages loc) (.inl p) σ') q ch →
      InWait s (stages loc) q ch := fun q ch hw => hw.congr (hlv _) rfl
  refine h.of_parts hl rfl rfl hwf (h.cpus.congr rfl (fun _ => rfl) (fun q => hlv _) fun d => ?_)
    hwaits h.family (h.facts.update (fun y _ => ?_) (fun y hy => ?_) fun np hm => .inl ?_)
    h.sleeplocks h.past fun y ch hd => (hlv _).trans (h.dozing y ch hd)
  · rw [update_of_ne (by simp)]
  · exact (h.facts.fact y).congr rfl (fun _ => .refl _) (fun _ => rfl) (fun _ => rfl) rfl
      fun _ => hin
  · cases hy
    exact hfact.congr rfl (fun _ => .refl _) (fun _ => rfl) (fun _ => rfl) rfl fun _ => hin
  · rw [hst]
    exact hmaker np hm

/-- Only the phase of a process changes. -/
theorem Inv.rephase {φ : Phase} (h : Inv s loc) (hl : loc (.inl p) = ⟨H, σ⟩) (hφ : φ.locks ⊆ H)
    (hfact : φ.Fact s (stages loc) p) (hmaker : ∀ np, φ.makes = some np → σ.phase.makes = some np) :
    Inv s (update loc (.inl p) ⟨H, { σ with phase := φ }⟩) := by
  have hst := stages_self hl
  have hwf := h.wf (.inl p)
  rw [hl] at hwf
  refine h.restage hl ⟨hwf.leave, hwf.wake, hφ⟩ rfl ?_ hfact hmaker
  refine h.waits.congr (fun q ch hw => hw.congr ?_ rfl) (fun _ _ _ hr => hr) fun q => ?_
  · exact leave_update (by rw [hst]) _
  · exact wake_update (by rw [hst]) _

/-- No other process is in a phase that needs a lock this one holds. -/
theorem Inv.excl (h : Inv s loc) (hp : l ∈ (loc (.inl p)).held) (hlp : l ≠ .proc p)
    (hly : l ≠ .proc y) (hy : y ≠ p) : l ∉ (stages loc (.inl y)).phase.locks :=
  fun hm => hy (h.unique ((h.wf (.inl y)).phase hm) hp hly hlp)

/-! ## Leaving the CPU -/

/-- A process on a CPU changes its state, on its way out. -/
theorem Cpus.leave {z : Proc} (h : Cpus s st) (hc : (s.cpu c).running = some p)
    (hcpu : s'.cpu = s.cpu) (hproc : s'.proc = update s.proc p z)
    (hrun : z.state ≠ .running) (hused : z.state ≠ .unused) (hσ : σ.leave = .leaving) :
    Cpus s' (update st (.inl p) σ) := by
  have hne : ∀ y, y ≠ p → s'.proc y = s.proc y ∧
      update st (.inl p) σ (.inl y) = st (.inl y) := by
    intro y hy
    rw [hproc, update_of_ne hy, update_of_ne (fun he => hy (Sum.inl.inj he))]
    exact ⟨rfl, rfl⟩
  have hself : s'.proc p = z := by rw [hproc, update_self]
  refine ⟨?_, ?_, fun d y hd => ?_, fun d y hd => ?_, fun y hy => ?_, fun y hy => ?_,
    fun y hy => ?_⟩
  · simpa only [hcpu] using h.proc
  · simpa only [hcpu] using h.inj
  · rw [update_of_ne (by simp)]
    exact h.back d y (hcpu ▸ hd)
  · by_cases hyp : y = p
    · subst hyp
      rw [update_self]
      exact .inr hσ
    · rw [(hne y hyp).1, (hne y hyp).2]
      exact h.state d y (hcpu ▸ hd)
  · have hyp : y ≠ p := by
      rintro rfl
      exact hrun (hself ▸ hy)
    rw [(hne y hyp).1] at hy
    rw [hcpu]
    exact h.running y hy
  · by_cases hyp : y = p
    · subst hyp
      rw [hself]
      exact ⟨hrun, hused⟩
    · rw [(hne y hyp).2] at hy
      rw [(hne y hyp).1]
      exact h.leaving y hy
  · have hyp : y ≠ p := by
      rintro rfl
      exact hy c (hcpu ▸ hc)
    rw [(hne y hyp).2]
    exact h.away y (hcpu ▸ hy)

/-- A change of one process table entry that neither makes nor ends a process. -/
theorem Inv.of_entry {z : Proc} (h : Inv s loc) (hl : loc t = ⟨H, σ⟩)
    (hsame : (s.proc q).state.Same z.state)
    (hkin : z.parent = (s.proc q).parent ∧ z.forker = (s.proc q).forker ∧
      z.born = (s.proc q).born)
    (hz : (s.proc q).state = .zombie → z.pid = (s.proc q).pid ∧ z.xstate = (s.proc q).xstate)
    (hwf : Ghost.Wf t ⟨H, σ'⟩) (hphase : σ'.phase = σ.phase)
    (hin : ∀ y ch, InWait (s.setProc q z) (update (stages loc) t σ') y ch →
      InWait s (stages loc) y ch)
    (hcpus : Cpus (s.setProc q z) (update (stages loc) t σ'))
    (hwaits : Waits (s.setProc q z) (update (stages loc) t σ'))
    (hdoze : Dozing (s.setProc q z) (update (stages loc) t σ')) :
    Inv (s.setProc q z) (update loc t ⟨H, σ'⟩) := by
  have hst := stages_self hl
  have hproc : ∀ y, ((s.proc y).state.Same ((s.setProc q z).proc y).state) ∧
      (((s.setProc q z).proc y).parent = (s.proc y).parent ∧
      ((s.setProc q z).proc y).forker = (s.proc y).forker ∧
      ((s.setProc q z).proc y).born = (s.proc y).born) ∧ ((s.proc y).state = .zombie →
        ((s.setProc q z).proc y).pid = (s.proc y).pid ∧
        ((s.setProc q z).proc y).xstate = (s.proc y).xstate) := by
    intro y
    by_cases hy : y = q
    · subst hy
      simp only [Sys.setProc, update_self]
      exact ⟨hsame, hkin, hz⟩
    · rw [show (s.setProc q z).proc y = s.proc y from update_of_ne hy ..]
      exact ⟨.refl _, ⟨rfl, rfl, rfl⟩, fun _ => ⟨rfl, rfl⟩⟩
  have hfact : ∀ y φ, Phase.Fact s (stages loc) y φ →
      Phase.Fact (s.setProc q z) (update (stages loc) t σ') y φ :=
    fun y φ hf => hf.congr rfl (fun y => (hproc y).1) (fun y => (hproc y).2.1.1) (fun _ => rfl) rfl
      fun _ => hin
  refine h.of_parts hl rfl rfl hwf hcpus hwaits
    (h.family.congr rfl (fun y => (hproc y).1) fun y => (hproc y).2.1)
    (h.facts.update (fun y _ => hfact y _ (h.facts.fact y)) (fun y hy => ?_) fun np hm => .inl ?_)
    ⟨h.sleeplocks.locked, h.sleeplocks.one⟩
    (h.past.congr (fun y => ⟨fun hu hc => hu ((hproc y).1.1.mpr hc), (hproc y).1.2.2,
      (hproc y).2.1.2.2, (hproc y).2.2⟩) rfl rfl rfl rfl h.past.frees) hdoze
  · subst hy
    have := h.facts.fact y
    rw [hst, ← hphase] at this
    exact hfact y _ this
  · rw [hst, ← hphase]
    exact hm

/-- A process leaves the CPU with its state changed to `RUNNABLE` or `SLEEPING`. -/
theorem Inv.leave {z : Proc} (h : Inv s loc) (hc : s.on (.inl p) = some c)
    (hl : loc (.inl p) = ⟨H, σ⟩) (hH : .proc p ∈ H) (hσ : σ.leave ≠ .leaving)
    (hz : z.state = .runnable ∨ z.state = .sleeping)
    (hkin : z.parent = (s.proc p).parent ∧ z.forker = (s.proc p).forker ∧
      z.born = (s.proc p).born) (hdoze : s.dozing p = none)
    (hin : z.state = .sleeping → ∀ ch, z.chan = some ch → σ.leave = .dozing ch) :
    Inv (s.setProc p z) (update loc (.inl p) ⟨H, { σ with leave := .leaving }⟩) := by
  have hst := stages_self hl
  have hrun : (s.proc p).state = .running := by
    refine (h.cpus.state c p (on_inl hc)).resolve_right ?_
    rwa [hst]
  have hwf := h.wf (.inl p)
  rw [hl] at hwf
  have hsame : (s.proc p).state.Same z.state := by
    rw [hrun]
    rcases hz with hz | hz <;> rw [hz] <;> exact Procstate.Live.same trivial trivial
  have hin' : ∀ y ch, InWait (s.setProc p z)
      (update (stages loc) (.inl p) { σ with leave := .leaving }) y ch →
      InWait s (stages loc) y ch := by
    intro y ch hw
    by_cases hy : y = p
    · subst hy
      rw [InWait, update_self] at hw
      rcases hw with hw | hw
      · cases hw
      · simp only [Sys.setProc, update_self] at hw
        left
        rw [hst]
        exact hin hw.1 ch hw.2
    · refine hw.congr ?_ (update_of_ne hy ..)
      rw [update_of_ne (fun he => hy (Sum.inl.inj he))]
  refine h.of_entry hl hsame hkin (fun hzo => ?_) ⟨fun y hy _ => ?_, hwf.wake, hwf.phase⟩ rfl
    hin' (h.cpus.leave (on_inl hc) rfl rfl ?_ ?_ rfl) (h.waits.congr hin' (fun y ch _ hr => ?_) ?_)
    fun y ch hd => ?_
  · rw [hrun] at hzo
    cases hzo
  · cases hy
    exact hH
  · rcases hz with hz | hz <;> rw [hz] <;> simp
  · rcases hz with hz | hz <;> rw [hz] <;> simp
  · cases ch with
    | proc r =>
      intro q hq
      by_cases hqp : q = p
      · subst hqp
        simp only [Sys.setProc, update_self]
        rcases hz with hz | hz <;> rw [hz] <;> simp
      · simp only [Sys.setProc, update_of_ne hqp] at hq ⊢
        exact hr q hq
    | sleeplock i => exact hr
    | other => exact trivial
  · exact fun q => wake_update (by rw [hst]) _
  · have hyp : y ≠ p := by
      rintro rfl
      rw [show (s.setProc y z).dozing y = s.dozing y from rfl, hdoze] at hd
      cases hd
    rw [update_of_ne (fun he => hyp (Sum.inl.inj he))]
    exact h.dozing y ch hd

/-! ## `swtch` -/

section

variable {z : Cpu}

theorem setCpu_self : (s.setCpu c z).cpu c = z := update_self ..

theorem setCpu_of_ne (h : d ≠ c) : (s.setCpu c z).cpu d = s.cpu d := update_of_ne h ..

end

/-- Who is still on a CPU after `swtch` to the scheduler. -/
theorem Inv.still (h : Inv s loc) (hc : (s.cpu c).running = some p)
    (hr : ((s.setCpu c ⟨(s.cpu c).proc, none⟩).cpu d).running = some y) :
    y ≠ p ∧ (s.cpu d).running = some y := by
  have hd : d ≠ c := by
    rintro rfl
    rw [setCpu_self] at hr
    cases hr
  rw [setCpu_of_ne hd] at hr
  refine ⟨?_, hr⟩
  rintro rfl
  exact hd (h.cpus.inj d c y (h.cpus.proc d y hr) (h.cpus.proc c y hc))

theorem not_still (hc : (s.cpu c).running = some p) (hy : y ≠ p)
    (hn : ∀ d, ((s.setCpu c ⟨(s.cpu c).proc, none⟩).cpu d).running ≠ some y) :
    ∀ d, (s.cpu d).running ≠ some y := by
  intro d hr
  by_cases hd : d = c
  · subst hd
    rw [hc] at hr
    exact hy (Option.some.inj hr).symm
  · exact hn d (by rw [setCpu_of_ne hd]; exact hr)

/-- The lock that the process has goes over to the scheduler. -/
theorem Inv.locks_sched (h : Inv s loc) (hc : (s.cpu c).running = some p)
    (hl : loc (.inl p) = ⟨{.proc p}, σ⟩) :
    Locks (s.setCpu c ⟨(s.cpu c).proc, none⟩)
      (update loc (.inl p) ⟨{.proc p}, σ'⟩) := by
  refine ⟨fun d y l hr => ?_, fun d l hr => ?_, fun y hy => ?_, fun d y hr => ?_⟩ <;>
    rw [held_update hl]
  · exact h.locks.procs d y l (h.still hc hr).2
  · by_cases hd : d = c
    · subst hd
      have := h.locks.procs d p l hc
      rw [hl] at this
      rw [h.locks.behind d p hc]
      exact this
    · rw [setCpu_of_ne hd] at hr
      exact h.locks.scheds d l hr
  · by_cases hyp : y = p
    · subst hyp
      rw [hl]
    · exact h.locks.away y (not_still hc hyp hy)
  · exact h.locks.behind d y (h.still hc hr).2

theorem Inv.cpus_sched (h : Inv s loc) (hc : (s.cpu c).running = some p)
    (hstate : (s.proc p).state ≠ .running) (hσ : σ.leave = .no) :
    Cpus (s.setCpu c ⟨(s.cpu c).proc, none⟩) (update (stages loc) (.inl p) σ) := by
  have hproc : ∀ d, ((s.setCpu c ⟨(s.cpu c).proc, none⟩).cpu d).proc = (s.cpu d).proc := by
    intro d
    by_cases hd : d = c
    · subst hd
      rw [setCpu_self]
    · rw [setCpu_of_ne hd]
  have hst : ∀ y, y ≠ p → update (stages loc) (.inl p) σ (.inl y) = stages loc (.inl y) :=
    fun y hy => update_of_ne (fun he => hy (Sum.inl.inj he)) ..
  refine ⟨fun d y hr => ?_, fun d e y hd he => ?_, fun d y hd => ?_, fun d y hr => ?_,
    fun y hy => ?_, fun y hy => ?_, fun y hy => ?_⟩
  · rw [hproc]
    exact h.cpus.proc d y (h.still hc hr).2
  · rw [hproc] at hd he
    exact h.cpus.inj d e y hd he
  · rw [hproc] at hd
    rw [update_of_ne (by simp)]
    exact h.cpus.back d y hd
  · obtain ⟨hyp, hr⟩ := h.still hc hr
    rw [hst y hyp]
    exact h.cpus.state d y hr
  · obtain ⟨d, hd⟩ := h.cpus.running y hy
    have hdc : d ≠ c := by
      rintro rfl
      rw [hc] at hd
      cases hd
      exact hstate hy
    exact ⟨d, by rw [setCpu_of_ne hdc]; exact hd⟩
  · have hyp : y ≠ p := by
      rintro rfl
      rw [update_self, hσ] at hy
      cases hy
    rw [hst y hyp] at hy
    exact h.cpus.leaving y hy
  · by_cases hyp : y = p
    · subst hyp
      rw [update_self, hσ]
    · rw [hst y hyp]
      exact h.cpus.away y (not_still hc hyp hy)

/-- The process goes back to the scheduler of its CPU. -/
theorem sched_keeps {Q : Unit → Ghost → Prop} (hQ : Q () ⟨{.proc p}, { σ with leave := .no }⟩) :
    (sched p).Keeps (spec n) (.inl p) ⟨{.proc p}, σ⟩ Q := by
  refine keeps_step fun s loc c h hl hc r s' hf => ⟨_, ?_, hQ⟩
  split at hf
  · cases hf
  split at hf
  · cases hf
  next hrun =>
  cases hf
  have hst := stages_self hl
  have hwf := h.wf (.inl p)
  rw [hl] at hwf
  have hin : ∀ y ch, InWait (s.setCpu c ⟨(s.cpu c).proc, none⟩)
      (update (stages loc) (.inl p) { σ with leave := .no }) y ch →
      InWait s (stages loc) y ch := by
    intro y ch hw
    by_cases hy : y = p
    · subst hy
      rw [InWait, update_self] at hw
      rcases hw with hw | hw
      · cases hw
      · exact .inr hw
    · exact hw.congr (by rw [update_of_ne (fun he => hy (Sum.inl.inj he))]) rfl
  refine ⟨h.locks_sched (on_inl hc) hl,
    h.wf_update ⟨fun y _ hne => absurd rfl hne, hwf.wake, hwf.phase⟩, ?_, ?_, ?_, ?_, ?_, ?_, ?_⟩
  · rw [stages_update]
    exact h.cpus_sched (on_inl hc) hrun rfl
  · rw [stages_update]
    refine h.waits.congr hin (fun _ ch _ hr => by cases ch <;> exact hr) fun y => ?_
    exact wake_update (by rw [hst]) _
  · exact h.family.congr rfl (fun _ => .refl _) fun _ => ⟨rfl, rfl, rfl⟩
  · rw [stages_update]
    refine ⟨fun y => ?_, fun x y np => ?_⟩
    · rw [phase_update (by rw [hst])]
      exact (h.facts.fact y).congr rfl (fun _ => .refl _) (fun _ => rfl) (fun _ => rfl) rfl
        fun _ => hin
    · rw [phase_update (by rw [hst]), phase_update (by rw [hst])]
      exact h.facts.maker x y np
  · exact ⟨h.sleeplocks.locked, h.sleeplocks.one⟩
  · exact h.past.congr (fun _ => ⟨id, Iff.rfl, rfl, fun _ => ⟨rfl, rfl⟩⟩) rfl rfl rfl rfl
      h.past.frees
  · rw [stages_update]
    intro y ch hd
    have hdoze := h.dozing y ch hd
    by_cases hy : y = p
    · subst hy
      rcases h.cpus.state c y (on_inl hc) with hs | hs
      · exact absurd hs hrun
      · rw [hdoze] at hs
        cases hs
    · rw [update_of_ne (fun he => hy (Sum.inl.inj he))]
      exact hdoze

/-- The scheduler has the lock of a process that is `RUNNABLE`: no CPU has it. -/
theorem Inv.off (h : Inv s loc) (hc : s.on (.inr c) = some d)
    (hl : loc (.inr c) = ⟨{.proc p}, .rest⟩)
    (hp : (s.proc p).state = .runnable) :
    (∀ e, (s.cpu e).running ≠ some p) ∧ ∀ e, (s.cpu e).proc ≠ some p := by
  have hlock : s.lock (.proc p) = some c := by
    obtain ⟨rfl, -⟩ := on_inr hc
    rw [h.lock_iff hc, hl]
    exact Finset.mem_singleton_self _
  have hno : ∀ e, (s.cpu e).running ≠ some p := by
    intro e he
    have hleave := (h.locked_out hc (q := p) (by rw [hl]; exact Finset.mem_singleton_self _)
      (by simp)).1
    rcases h.cpus.state e p he with hs | hs
    · rw [hp] at hs
      cases hs
    · rw [stages, hleave] at hs
      cases hs
  refine ⟨hno, fun e he => ?_⟩
  cases hr : (s.cpu e).running with
  | some y =>
    have := h.cpus.proc e y hr
    rw [he] at this
    cases this
    exact hno e hr
  | none =>
    have hback := h.cpus.back e p he
    have hheld := (h.locks.scheds e (.proc p) hr).mpr ((h.wf (.inr e)).phase (by
      rw [stages] at hback
      rw [hback]
      exact Finset.mem_singleton_self _))
    rw [hlock] at hheld
    cases hheld
    rw [stages, hl] at hback
    cases hback

/-- A scheduler's stage does not matter to the processes. -/
theorem Inv.of_scheduler (h : Inv s loc) (hlocks : Locks s' (update loc (.inr c) g))
    (hwf : Ghost.Wf (.inr c : Thread n) g)
    (hcpus : Cpus s' (update (stages loc) (.inr c) g.stage))
    (hstate : ∀ q, (s.proc q).state.Same (s'.proc q).state)
    (hsleep : ∀ q, (s'.proc q).state = .sleeping → (s.proc q).state = .sleeping)
    (hproc : ∀ q, s'.proc q = { s.proc q with state := (s'.proc q).state })
    (hrest : s' = { s with proc := s'.proc, cpu := s'.cpu }) :
    Inv s' (update loc (.inr c) g) := by
  obtain ⟨H, σ⟩ := g
  have hinl : ∀ y, update (stages loc) (.inr c) σ (.inl y) = stages loc (.inl y) :=
    fun y => update_of_ne (by simp) ..
  have hparent : ∀ q, (s'.proc q).parent = (s.proc q).parent := fun q => by rw [hproc q]
  have hin : ∀ y ch, InWait s' (update (stages loc) (.inr c) σ) y ch →
      InWait s (stages loc) y ch := by
    intro y ch hw
    rw [InWait, hinl] at hw
    refine hw.imp_right fun hs => ⟨hsleep y hs.1, ?_⟩
    have := hs.2
    rwa [hproc y] at this
  have hinit : s'.initproc = s.initproc := by rw [hrest]
  have hsl : s'.sleeplock = s.sleeplock := by rw [hrest]
  have hins : s'.inside = s.inside := by rw [hrest]
  refine ⟨hlocks, h.wf_update hwf, stages_update ▸ hcpus, ?_,
    h.family.congr hinit hstate fun q => ?_, ?_, ?_, ?_, fun y ch hd => ?_⟩
  · rw [stages_update]
    refine h.waits.congr hin (fun y ch _ hr => ?_) fun y => by rw [hinl]
    cases ch with
    | proc r =>
      intro q hq hz
      rw [hparent] at hq
      exact hr q hq ((hstate q).2.2.mp hz)
    | sleeplock i =>
      rw [Reason, hsl]
      exact hr
    | other => exact trivial
  · rw [hproc q]
    exact ⟨rfl, rfl, rfl⟩
  · rw [stages_update]
    refine ⟨fun y => ?_, fun x y np => ?_⟩
    · rw [hinl]
      exact (h.facts.fact y).congr hinit hstate hparent (fun i => by rw [hsl]) hins fun _ => hin
    · rw [hinl, hinl]
      exact h.facts.maker x y np
  · refine ⟨fun p i hp => ?_, fun p q i => ?_⟩
    · rw [hins] at hp
      rw [hsl]
      exact h.sleeplocks.locked p i hp
    · rw [hins]
      exact h.sleeplocks.one p q i
  · refine h.past.congr (fun q => ⟨fun hu hc => hu ((hstate q).1.mpr hc), (hstate q).2.2, ?_, ?_⟩)
      hinit (by rw [hrest]) (by rw [hrest]) (by rw [hrest]) (by rw [hrest]; exact h.past.frees)
    · rw [hproc q]
    · intro _
      rw [hproc q]
      exact ⟨rfl, rfl⟩
  · rw [stages_update, hinl]
    exact h.dozing y ch (by rw [hrest] at hd; exact hd)

/-- Who is on a CPU after the scheduler's `swtch` to a process that no CPU has. -/
theorem switch_runs (hno : ∀ e, (s.cpu e).running ≠ some p)
    (hr : ((s.setCpu c ⟨some p, some p⟩).cpu d).running = some y) :
    d = c ∧ y = p ∨ d ≠ c ∧ y ≠ p ∧ (s.cpu d).running = some y := by
  by_cases hd : d = c
  · subst hd
    rw [setCpu_self] at hr
    exact .inl ⟨rfl, (Option.some.inj hr).symm⟩
  · rw [setCpu_of_ne hd] at hr
    refine .inr ⟨hd, ?_, hr⟩
    rintro rfl
    exact hno d hr

theorem switch_proc (hno : ∀ e, (s.cpu e).proc ≠ some p)
    (hr : ((s.setCpu c ⟨some p, some p⟩).cpu d).proc = some y) :
    d = c ∧ y = p ∨ d ≠ c ∧ y ≠ p ∧ (s.cpu d).proc = some y := by
  by_cases hd : d = c
  · subst hd
    rw [setCpu_self] at hr
    exact .inl ⟨rfl, (Option.some.inj hr).symm⟩
  · rw [setCpu_of_ne hd] at hr
    refine .inr ⟨hd, ?_, hr⟩
    rintro rfl
    exact hno d hr

theorem switch_away (hidle : (s.cpu c).running = none)
    (hy : ∀ e, ((s.setCpu c ⟨some p, some p⟩).cpu e).running ≠ some y) :
    ∀ e, (s.cpu e).running ≠ some y := by
  intro e hr
  have he : e ≠ c := by
    rintro rfl
    rw [hidle] at hr
    cases hr
  exact hy e (by rw [setCpu_of_ne he]; exact hr)

theorem Inv.locks_switch (h : Inv s loc) (hidle : (s.cpu c).running = none)
    (hno : ∀ e, (s.cpu e).running ≠ some p) (hl : loc (.inr c) = ⟨{.proc p}, σ⟩) :
    Locks (s.setCpu c ⟨some p, some p⟩)
      (update loc (.inr c) ⟨{.proc p}, τ⟩) := by
  refine ⟨fun e y l hr => ?_, fun e l hr => ?_, fun y hy => ?_, fun e y hr => ?_⟩ <;>
    rw [held_update hl]
  · rcases switch_runs hno hr with ⟨rfl, rfl⟩ | ⟨-, -, hr⟩
    · have := h.locks.scheds e l hidle
      rw [hl] at this
      rw [h.locks.away y hno]
      exact this
    · exact h.locks.procs e y l hr
  · have he : e ≠ c := by
      rintro rfl
      rw [setCpu_self] at hr
      cases hr
    rw [setCpu_of_ne he] at hr
    exact h.locks.scheds e l hr
  · exact h.locks.away y (switch_away hidle hy)
  · rcases switch_runs hno hr with ⟨rfl, rfl⟩ | ⟨-, -, hr⟩
    · rw [hl]
    · exact h.locks.behind e y hr

theorem Inv.cpus_switch {z : Proc} (h : Inv s loc) (hidle : (s.cpu c).running = none)
    (hno : ∀ e, (s.cpu e).running ≠ some p) (hnoproc : ∀ e, (s.cpu e).proc ≠ some p)
    (hz : z.state = .running) :
    Cpus ((s.setProc p z).setCpu c ⟨some p, some p⟩)
      (update (stages loc) (.inr c) ⟨none, .switched p, .no⟩) := by
  have hinl : ∀ y, update (stages loc) (.inr c) ⟨none, .switched p, .no⟩ (.inl y) =
      stages loc (.inl y) := fun y => update_of_ne (by simp) ..
  have hentry : ∀ y, y ≠ p → (s.setProc p z).proc y = s.proc y :=
    fun y hy => update_of_ne hy ..
  have hthis : (s.setProc p z).proc p = z := update_self ..
  refine ⟨fun e y hr => ?_, fun e e' y he he' => ?_, fun e y he => ?_, fun e y hr => ?_,
    fun y hy => ?_, fun y hy => ?_, fun y hy => ?_⟩
  · rcases switch_runs hno hr with ⟨rfl, rfl⟩ | ⟨he, -, hr⟩
    · exact congrArg Cpu.proc setCpu_self
    · exact (congrArg Cpu.proc (setCpu_of_ne he)).trans (h.cpus.proc e y hr)
  · rcases switch_proc hnoproc he with ⟨rfl, rfl⟩ | ⟨-, hyp, he⟩
    · rcases switch_proc hnoproc he' with ⟨rfl, -⟩ | ⟨-, hyp', -⟩
      · rfl
      · exact absurd rfl hyp'
    · rcases switch_proc hnoproc he' with ⟨-, rfl⟩ | ⟨-, -, he'⟩
      · exact absurd rfl hyp
      · exact h.cpus.inj e e' y he he'
  · rcases switch_proc hnoproc he with ⟨rfl, rfl⟩ | ⟨hec, -, he⟩
    · rw [update_self]
    · rw [update_of_ne (fun hc => hec (Sum.inr.inj hc))]
      exact h.cpus.back e y he
  · rw [hinl]
    rcases switch_runs hno hr with ⟨rfl, rfl⟩ | ⟨-, hyp, hr⟩
    · exact .inl ((congrArg Proc.state hthis).trans hz)
    · rw [show ((s.setProc p z).setCpu c ⟨some p, some p⟩).proc y = s.proc y from hentry y hyp]
      exact h.cpus.state e y hr
  · by_cases hyp : y = p
    · subst hyp
      exact ⟨c, congrArg Cpu.running setCpu_self⟩
    · obtain ⟨e, he⟩ := h.cpus.running y ((congrArg Proc.state (hentry y hyp)).symm.trans hy)
      have hec : e ≠ c := by
        rintro rfl
        rw [hidle] at he
        cases he
      exact ⟨e, (congrArg Cpu.running (setCpu_of_ne hec)).trans he⟩
  · rw [hinl] at hy
    have hyp : y ≠ p := by
      rintro rfl
      rw [h.cpus.away y hno] at hy
      cases hy
    rw [show ((s.setProc p z).setCpu c ⟨some p, some p⟩).proc y = s.proc y from hentry y hyp]
    exact h.cpus.leaving y hy
  · rw [hinl]
    exact h.cpus.away y (switch_away hidle hy)

theorem wf_switched (hp : .proc p ∈ H) :
    Ghost.Wf (.inr c : Thread n) ⟨H, ⟨none, .switched p, .no⟩⟩ :=
  ⟨fun _ ht => (by cases ht), fun _ _ _ hw => (by cases hw), Finset.singleton_subset_iff.mpr hp⟩

/-- The step of `scheduler` that switches to a process. -/
theorem Inv.switch (h : Inv s loc) (hc : s.on (.inr c) = some d)
    (hl : loc (.inr c) = ⟨{.proc p}, .rest⟩) (hp : (s.proc p).state = .runnable) :
    Inv ((s.setProc p { s.proc p with state := .running }).setCpu c ⟨some p, some p⟩)
      (update loc (.inr c) ⟨{.proc p}, ⟨none, .switched p, .no⟩⟩) := by
  obtain ⟨hno, hnoproc⟩ := h.off hc hl hp
  have hidle := (on_inr hc).2
  have hlocks := h.locks_switch (τ := ⟨none, .switched p, .no⟩) hidle hno hl
  refine h.of_scheduler ⟨hlocks.procs, hlocks.scheds, hlocks.away, hlocks.behind⟩
    (wf_switched (Finset.mem_singleton_self _)) (h.cpus_switch hidle hno hnoproc rfl)
    (fun q => ?_) (fun q hq => ?_) (fun q => ?_) rfl
  · by_cases hqp : q = p
    · subst hqp
      simp only [Sys.setCpu, Sys.setProc, update_self, hp]
      exact Procstate.Live.same trivial trivial
    · simp only [Sys.setCpu, Sys.setProc, update_of_ne hqp]
      exact .refl _
  · by_cases hqp : q = p
    · subst hqp
      simp only [Sys.setCpu, Sys.setProc, update_self, reduceCtorEq] at hq
    · simpa only [Sys.setCpu, Sys.setProc, update_of_ne hqp] using hq
  · by_cases hqp : q = p
    · subst hqp
      simp only [Sys.setCpu, Sys.setProc, update_self]
    · simp only [Sys.setCpu, Sys.setProc, update_of_ne hqp]

/-- The step of `scheduler` after the process has come back. -/
theorem Inv.unswitch (h : Inv s loc) (hc : s.on (.inr c) = some d)
    (hl : loc (.inr c) = ⟨H, ⟨none, .switched p, .no⟩⟩) :
    Inv (s.setCpu c ⟨none, (s.cpu c).running⟩) (update loc (.inr c) ⟨H, .rest⟩) := by
  obtain ⟨rfl, hidle⟩ := on_inr hc
  have hrun : ∀ e, ((s.setCpu d ⟨none, (s.cpu d).running⟩).cpu e).running = (s.cpu e).running := by
    intro e
    by_cases he : e = d
    · subst he
      rw [setCpu_self]
    · rw [setCpu_of_ne he]
  have hproc : ∀ e y, ((s.setCpu d ⟨none, (s.cpu d).running⟩).cpu e).proc = some y →
      e ≠ d ∧ (s.cpu e).proc = some y := by
    intro e y he
    have hed : e ≠ d := by
      rintro rfl
      rw [setCpu_self] at he
      cases he
    rw [setCpu_of_ne hed] at he
    exact ⟨hed, he⟩
  have hinl : ∀ y, update (stages loc) (.inr d) Stage.rest (.inl y) =
      stages loc (.inl y) := fun y => update_of_ne (by simp) ..
  refine h.of_scheduler ⟨fun e y l hr => ?_, fun e l hr => ?_, fun y hy => ?_, fun e y hr => ?_⟩
    wf_rest ⟨fun e y hr => ?_, fun e e' y he he' => ?_, fun e y he => ?_, fun e y hr => ?_,
      fun y hy => ?_, fun y hy => ?_, fun y hy => ?_⟩ (fun q => .refl _) (fun q hq => hq)
    (fun q => rfl) rfl
  · rw [held_update hl]
    exact h.locks.procs e y l (hrun e ▸ hr)
  · rw [held_update hl]
    exact h.locks.scheds e l (hrun e ▸ hr)
  · rw [held_update hl]
    exact h.locks.away y fun e => hrun e ▸ hy e
  · rw [held_update hl]
    exact h.locks.behind e y (hrun e ▸ hr)
  · rw [hrun] at hr
    have hed : e ≠ d := by
      rintro rfl
      rw [hidle] at hr
      cases hr
    rw [setCpu_of_ne hed]
    exact h.cpus.proc e y hr
  · exact h.cpus.inj e e' y (hproc e y he).2 (hproc e' y he').2
  · obtain ⟨hed, he⟩ := hproc e y he
    rw [update_of_ne (fun hc => hed (Sum.inr.inj hc))]
    exact h.cpus.back e y he
  · rw [hinl]
    exact h.cpus.state e y (hrun e ▸ hr)
  · obtain ⟨e, he⟩ := h.cpus.running y hy
    exact ⟨e, by rw [hrun]; exact he⟩
  · rw [hinl] at hy
    exact h.cpus.leaving y hy
  · rw [hinl]
    exact h.cpus.away y fun e => hrun e ▸ hy e

theorem scheduler_keeps :
    (scheduler c p).Keeps (spec n) (.inr c) ⟨∅, .rest⟩
      fun j g => (∃ q, j = .scan q) ∧ g = ⟨∅, .rest⟩ := by
  refine .seq (acquire_keeps fun _ => ?_)
  refine .bind (Q := fun (go : Bool) g => g = ⟨{.proc p}, if go then
    ⟨none, .switched p, .no⟩ else .rest⟩) (keeps_step fun s loc d h hl hc r s' hf => ?_) ?_
  · split at hf
    · next hp =>
      cases hf
      exact ⟨_, h.switch hc hl hp, rfl⟩
    · cases hf
      refine ⟨_, ?_, rfl⟩
      rw [if_neg (by decide), show (⟨{.proc p}, .rest⟩ : Ghost) = loc (.inr c) from hl.symm,
        update_eq_self]
      exact h
  · rintro go _ rfl
    refine .bind (Q := fun _ g => g = ⟨{.proc p}, .rest⟩) ?_ ?_
    · cases go with
      | false => exact rfl
      | true =>
        exact keeps_does _ (fun _ _ _ h hl hc => h.unswitch hc hl) rfl
    · rintro _ _ rfl
      exact .seq (release_last wf_rest ⟨⟨_, rfl⟩, rfl⟩)

end Xv6.Sched
