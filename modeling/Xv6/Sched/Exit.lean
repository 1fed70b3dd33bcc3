import Xv6.Sched.Fork

/-!
# `exit` and `wait`

`exit` gives its children to `initproc`, wakes up its parent, and only then becomes a zombie: it
holds `wait_lock` throughout, so the parent, which needs it to go to sleep in `wait`, cannot miss
the change. `wait` frees a zombie that is its caller's child, under both locks.
-/

namespace Xv6.Sched

open Lib List
open Function (update update_eq_self update_idem update_of_ne update_self)

variable {n : Nat} {s s' : Sys n} {loc : Thread n → Ghost} {c : Fin n}
  {p q r x y k m : Nat} {status : Int} {ch : Chan} {H : Finset Lock} {σ : Stage} {φ : Phase} {z : Proc}
  {w : Option (Chan × Nat)}

/-! ## `reparent` -/

theorem Inv.reparent (h : Inv s loc)
    (hl : loc (.inl p) = ⟨{.wait}, ⟨none, .reparenting q, .no⟩⟩) (hq : (s.proc q).parent = some p) :
    Inv (s.setProc q { s.proc q with parent := some s.initproc })
      (update loc (.inl p)
        ⟨{.wait}, ⟨some (.proc s.initproc, 0), .reparenting (q + 1), .no⟩⟩) := by
  have hst := stages_self hl
  obtain ⟨hinit, hbelow⟩ := h.fact hst
  have hused : (s.proc q).state ≠ .unused := by
    intro hu
    rw [h.family.free q hu] at hq
    cases hq
  have hqi : q ≠ s.initproc := by
    rintro rfl
    rw [h.family.init.2] at hq
    cases hq
  have e : s.Edit (s.setProc q { s.proc q with parent := some s.initproc }) q
      { s.proc q with parent := some s.initproc } := ⟨rfl, rfl, rfl, rfl, rfl, rfl, rfl⟩
  have hlv := leave_update (n := n) (t := .inl p)
    (τ := ⟨some (.proc s.initproc, 0), .reparenting (q + 1), .no⟩)
    (show Leave.no = (stages loc (.inl p)).leave by rw [hst])
  have hin : ∀ x ch, InWait _ (update (stages loc) (.inl p)
      ⟨some (.proc s.initproc, 0), .reparenting (q + 1), .no⟩) x ch → InWait s (stages loc) x ch :=
    fun x ch => e.inWait (fun y => hlv (.inl y)) fun hs => ⟨hs, rfl⟩
  have hne : ∀ y, y ≠ p → update (stages loc) (.inl p)
      ⟨some (.proc s.initproc, 0), .reparenting (q + 1), .no⟩ (.inl y) = stages loc (.inl y) :=
    fun y hy => update_of_ne (fun he => hy (Sum.inl.inj he)) ..
  refine h.of_edit hl rfl e ⟨fun _ _ hlv => absurd rfl hlv, fun ch k l hw hg => ?_,
      Finset.Subset.refl _⟩
    (h.cpus.congr rfl (fun y => ?_) (fun y => hlv (.inl y)) fun d => ?_)
    ⟨fun y ch hw => ?_, fun y ch k hk hg x hx hxy hw => ?_,
      fun y r hw => h.waits.own y r (hin _ _ hw)⟩
    (h.family.edit e (fun hz => h.family.range q hz) (fun hi => absurd hi hqi)
      (fun hz => absurd hz hused) (fun r hr => ?_) (fun x hx => ⟨h.family.live x q hx, rfl⟩)
      (fun _ _ _ => ?_) fun r hr => .inr (Option.some.inj hr).symm)
    hin (fun y _ => h.not_claiming hused y) (fun y hy hm => ?_)
    (.inl (Finset.mem_singleton_self _)) ⟨hinit, fun x hx => ?_⟩ (fun m hm => ?_)
    (h.past.congr (fun y => ?_) rfl rfl rfl rfl h.past.frees)
  · cases hw
    cases hg
    exact Finset.mem_singleton_self _
  · by_cases hy : y = q
    · subst hy
      rw [e.self]
    · rw [e.ne hy]
  · rw [update_of_ne (by simp)]
  · -- who sleeps on `initproc` is `initproc`, and this process is about to wake it up
    by_cases hch : ch = .proc s.initproc
    · subst hch
      refine .inr ⟨p, 0, by rw [update_self], Nat.zero_le y, ?_⟩
      rw [h.waits.own y _ (hin _ _ hw)]
      exact Ne.symm hinit
    · refine (h.waits.reason y ch (hin _ _ hw)).imp (fun hr => ?_) ?_
      · cases ch with
        | proc r =>
          intro x hx
          by_cases hxq : x = q
          · subst hxq
            rw [e.self] at hx
            exact absurd (congrArg Chan.proc (Option.some.inj hx).symm) hch
          · rw [e.ne hxq] at hx ⊢
            exact hr x hx
        | sleeplock i => exact hr
        | other => exact trivial
      · rintro ⟨v, k, hk, hky⟩
        have hvp : v ≠ p := by
          rintro rfl
          rw [hst] at hk
          cases hk
        exact ⟨v, k, by rw [hne v hvp]; exact hk, hky⟩
  · by_cases hyp : y = p
    · subst hyp
      rw [update_self] at hk
      cases hk
      omega
    · rw [hne y hyp] at hk
      exact h.waits.scanned y ch k hk hg x hx hxy (hin _ _ hw)
  · cases hr
    rw [e.ne (Ne.symm hqi)]
    exact h.family.init.1
  · simp
  · -- a process that is still being made has no parent, or its maker
    have hfy := h.facts.fact y
    cases hφ : (stages loc (.inl y)).phase with
    | making np =>
      rw [hφ] at hm hfy
      cases hm
      rw [hfy.2] at hq
      cases hq
    | adopted np =>
      rw [hφ] at hm hfy
      cases hm
      rw [hfy.2] at hq
      exact hy (Option.some.inj hq)
    | _ =>
      rw [hφ] at hm
      cases hm
  · by_cases hxq : x = q
    · subst hxq
      rw [e.self]
      exact fun hc => hinit (Option.some.inj hc).symm
    · rw [e.ne hxq]
      exact hbelow x (by omega)
  · cases hm
  · by_cases hy : y = q
    · subst hy
      rw [e.self]
      exact ⟨id, Iff.rfl, rfl, fun _ => ⟨rfl, rfl⟩⟩
    · rw [e.ne hy]
      exact ⟨id, Iff.rfl, rfl, fun _ => ⟨rfl, rfl⟩⟩

/-- Where `reparent` is after it has looked at a slot. -/
def moved (q : Nat) : Option Nat → Ghost
  | none => ⟨{.wait}, ⟨none, .reparenting (q + 1), .no⟩⟩
  | some i => ⟨{.wait}, ⟨some (.proc i, 0), .reparenting (q + 1), .no⟩⟩

theorem wf_wake (hφ : φ.locks ⊆ {.wait}) :
    Ghost.Wf (.inl p : Thread n) ⟨{.wait}, ⟨some (.proc r, k), φ, .no⟩⟩ := by
  refine ⟨fun _ _ hlv => absurd rfl hlv, fun ch k l hw hg => ?_, hφ⟩
  cases hw
  cases hg
  exact Finset.mem_singleton_self _

theorem reparentOne_keeps (hw : Over p w) :
    (reparentOne p q).Keeps (spec n) (.inl p) ⟨{.wait}, ⟨w, .reparenting q, .no⟩⟩
      fun _ g => ∃ w', Over p w' ∧ g = ⟨{.wait}, ⟨w', .reparenting (q + 1), .no⟩⟩ := by
  refine .bind (Q := fun o g => g = moved q o)
    (keeps_ghost ⟨{.wait}, ⟨none, .reparenting q, .no⟩⟩ (fun s loc c h hl _ => h.over hl hw)
      (keeps_step fun s loc c h hl hc r s' hf => ⟨_, ?_, rfl⟩)) ?_
  · split at hf
    · next hq =>
      cases hf
      exact h.reparent hl hq
    · next hq =>
      cases hf
      have hfact := h.fact (stages_self hl)
      refine h.rephase hl (Finset.Subset.refl _) ⟨hfact.1, fun x hx => ?_⟩ fun np hm => ?_
      · rcases lt_or_eq_of_le (Nat.lt_succ_iff.mp hx) with hlt | rfl
        · exact hfact.2 x hlt
        · exact hq
      · cases hm
  · rintro o _ rfl
    cases o with
    | none => exact ⟨none, trivial, rfl⟩
    | some i =>
      refine (wakeup_keeps fun k => wf_wake (Finset.Subset.refl _)).mono ?_
      rintro _ _ ⟨k, rfl, hk⟩
      exact ⟨some (.proc i, k), hk, rfl⟩

theorem reparent_keeps :
    (Sched.reparent p).Keeps (spec n) (.inl p) ⟨{.wait}, ⟨none, .reparenting 0, .no⟩⟩
      fun _ g => ∃ w, Over p w ∧ g = ⟨{.wait}, ⟨w, .reparenting NPROC, .no⟩⟩ := by
  refine (Prog.Keeps.loop
    (K := fun q g => ∃ w, Over p w ∧ g = ⟨{.wait}, ⟨w, .reparenting q, .no⟩⟩)
    ⟨none, trivial, rfl⟩ fun q l _ _ hl => ?_).mono fun _ g hg => ?_
  · obtain ⟨w, hw, rfl⟩ := hl
    exact reparentOne_keeps hw
  · rwa [zero_add] at hg

/-! ## `wakeup(p->parent)` -/

/-- The process has passed all its children on and knows its parent. -/
theorem Inv.parent (h : Inv s loc)
    (hl : loc (.inl p) = ⟨{.wait}, ⟨none, .reparenting NPROC, .no⟩⟩) :
    p ≠ s.initproc ∧ ∀ q, (s.proc q).parent ≠ some p := by
  have hfact := h.fact (stages_self hl)
  refine ⟨hfact.1, fun q hq => ?_⟩
  refine hfact.2 q (h.family.range q fun hu => ?_) hq
  rw [h.family.free q hu] at hq
  cases hq

/-- The parent is not waiting: the `wakeup` has passed over the table. -/
theorem Inv.woken (h : Inv s loc)
    (hl : loc (.inl p) = ⟨{.wait}, ⟨some (.proc r, k), .waking r, .no⟩⟩) (hk : Passed p k NPROC) :
    Inv s (update loc (.inl p) ⟨{.wait}, ⟨none, .woken, .no⟩⟩) := by
  have hst := stages_self hl
  obtain ⟨hinit, hnone, hparent⟩ := h.fact hst
  have hwoken := h.rephase (φ := .woken) hl (Finset.Subset.refl _)
    ⟨hinit, hnone, fun r' x hr hw => ?_⟩ fun np hm => ?_
  · have := hwoken.over (p := p) (w := some (.proc r, k)) (update_self ..) hk
    rwa [update_idem] at this
  · cases hr.symm.trans hparent
    have hxp : x ≠ p := by
      rintro rfl
      have hxr := h.waits.own x r hw
      subst hxr
      exact hnone x hparent
    rcases lt_or_ge x k with hlt | hge
    · exact h.waits.scanned p (.proc r) k (by rw [hst]) (by simp [Chan.guard]) x hlt hxp hw
    · exact hxp (hk.2 x hge (h.inWait_lt hw))
  · cases hm

/-- Where `exit` is after it has looked at its parent. -/
def parented : Option Nat → Ghost
  | none => ⟨{.wait}, ⟨none, .woken, .no⟩⟩
  | some r => ⟨{.wait}, ⟨some (.proc r, 0), .waking r, .no⟩⟩

/-- Where `exit` is before it takes its own lock. -/
def Parted (p : Nat) (g : Ghost) : Prop :=
  g = ⟨{.wait}, ⟨none, .woken, .no⟩⟩ ∨
    ∃ r k, Passed p k NPROC ∧ g = ⟨{.wait}, ⟨some (.proc r, k), .waking r, .no⟩⟩

theorem wakeupParent_keeps (hw : Over p w) :
    (wakeupParent p).Keeps (spec n) (.inl p) ⟨{.wait}, ⟨w, .reparenting NPROC, .no⟩⟩
      fun _ g => Parted p g := by
  refine .bind (Q := fun o g => g = parented o)
    (keeps_ghost ⟨{.wait}, ⟨none, .reparenting NPROC, .no⟩⟩ (fun s loc c h hl _ => h.over hl hw)
      (keeps_step fun s loc c h hl hc r s' hf => ⟨_, ?_, rfl⟩)) ?_
  · cases hf
    obtain ⟨hinit, hnone⟩ := h.parent hl
    change Inv s (update loc (.inl p) (parented (s.proc p).parent))
    cases hp : (s.proc p).parent with
    | none =>
      refine h.rephase hl (Finset.Subset.refl _) ⟨hinit, hnone, fun r x hr => ?_⟩ fun np hm => ?_
      · rw [hp] at hr
        cases hr
      · cases hm
    | some r =>
      have hwaking := h.rephase (φ := .waking r) hl (Finset.Subset.refl _) ⟨hinit, hnone, hp⟩
        fun np hm => ?_
      · have := hwaking.begin_wake (p := p) (update_self ..)
          (wf_wake (r := r) (Finset.Subset.refl _))
        rwa [update_idem] at this
      · cases hm
  · rintro o _ rfl
    cases o with
    | none => exact .inl rfl
    | some r =>
      refine (wakeup_keeps fun k => wf_wake (Finset.Subset.refl _)).mono ?_
      rintro _ _ ⟨k, rfl, hk⟩
      exact .inr ⟨r, k, hk, rfl⟩

/-! ## `exit` -/

/-- A process that is running has not exited. -/
theorem Past.not_exited (h : Past s) (hrun : (s.proc q).state = .running) :
    (s.proc q).born ∉ s.exits.map Exit.born := by
  intro hm
  obtain ⟨e, hm, hbo⟩ := mem_map.mp hm
  have hused : (s.proc q).state ≠ .unused := by rw [hrun]; simp
  rcases h.exits e hm with hre | hp
  · obtain ⟨r, hr, rfl⟩ := mem_map.mp hre
    exact (h.alive q hused).2 r hr hbo
  · have := h.born e.slot q (by rw [hp.1]; simp) hused (hp.2.1.trans hbo)
    rw [← this, hp.1] at hrun
    cases hrun

theorem Past.die (h : Past s) (e : s.Edit s' q z) (hrun : (s.proc q).state = .running)
    (hz : z = { s.proc q with xstate := status, state := .zombie }) (hb : s'.births = s.births)
    (he : s'.exits = s.exits ++ [⟨q, (s.proc q).born, (s.proc q).pid, status⟩])
    (hr : s'.reaps = s.reaps) (hf : s'.frees = s.frees) : Past s' := by
  have hused : (s.proc q).state ≠ .unused := by rw [hrun]; simp
  have hborn : ∀ y, (s'.proc y).born = (s.proc y).born := by
    intro y
    by_cases hy : y = q
    · subst hy
      rw [e.self, hz]
    · rw [e.ne hy]
  have hunused : ∀ y, (s'.proc y).state ≠ .unused → (s.proc y).state ≠ .unused := by
    intro y hy
    by_cases hyq : y = q
    · subst hyq
      exact hused
    · rwa [e.ne hyq] at hy
  refine ⟨fun e' hm => ?_, fun y hy => ?_, ?_, fun r hm => ?_, hr ▸ h.once, fun y hy => ?_,
    fun e' hm => ?_, fun x y hx hy hxy => ?_, hf ▸ h.frees⟩
  · rw [he] at hm
    rw [hr]
    rcases mem_append.mp hm with hm | hm
    · refine (h.exits e' hm).imp_right fun hp => ?_
      have hne : e'.slot ≠ q := by
        intro hs
        rw [← hs, hp.1] at hrun
        cases hrun
      rw [Pending, e.ne hne]
      exact hp
    · cases mem_singleton.mp hm
      right
      rw [Pending, e.self, hz]
      exact ⟨rfl, rfl, rfl, rfl⟩
  · rw [he]
    by_cases hyq : y = q
    · subst hyq
      rw [e.self, hz]
      exact mem_append_right _ (mem_singleton_self _)
    · rw [e.ne hyq] at hy ⊢
      exact mem_append_left _ (h.zombie y hy)
  · rw [he, map_append, nodup_append]
    refine ⟨h.exited, nodup_singleton _, fun b hb b' hb' hbb => ?_⟩
    rw [hbb, mem_singleton.mp hb'] at hb
    exact h.not_exited hrun hb
  · rw [hr] at hm
    rw [he, e.initproc]
    exact ⟨mem_append_left _ (h.reaps r hm).1, (h.reaps r hm).2⟩
  · rw [hborn, hb, hr]
    exact h.alive y (hunused y hy)
  · rw [he] at hm
    rw [hb]
    rcases mem_append.mp hm with hm | hm
    · exact h.before e' hm
    · cases mem_singleton.mp hm
      exact (h.alive q hused).1
  · rw [hborn, hborn] at hxy
    exact h.born x y (hunused x hx) (hunused y hy) hxy

/-- The process becomes a zombie. -/
theorem Inv.die (h : Inv s loc) (hc : s.on (.inl p) = some c)
    (hl : loc (.inl p) = ⟨{.proc p, .wait}, ⟨none, .woken, .no⟩⟩) :
    Inv { s.setProc p { s.proc p with xstate := status, state := .zombie } with
        exits := s.exits ++ [⟨p, (s.proc p).born, (s.proc p).pid, status⟩] }
      (update loc (.inl p) ⟨{.proc p, .wait}, ⟨none, .none, .leaving⟩⟩) := by
  have hst := stages_self hl
  obtain ⟨hinit, hnone, hquiet⟩ := h.fact hst
  have hrun := (h.running hc hl rfl).1
  have hused : (s.proc p).state ≠ .unused := by rw [hrun]; simp
  have hrp : ∀ r, (s.proc p).parent = some r → r ≠ p := by
    rintro r hr rfl
    exact hnone r hr
  have e : s.Edit { s.setProc p { s.proc p with xstate := status, state := .zombie } with
        exits := s.exits ++ [⟨p, (s.proc p).born, (s.proc p).pid, status⟩] } p
      { s.proc p with xstate := status, state := .zombie } := ⟨rfl, rfl, rfl, rfl, rfl, rfl, rfl⟩
  have hin : ∀ x ch, InWait { s.setProc p { s.proc p with xstate := status, state := .zombie } with
        exits := s.exits ++ [⟨p, (s.proc p).born, (s.proc p).pid, status⟩] }
      (update (stages loc) (.inl p) ⟨none, .none, .leaving⟩) x ch →
      InWait s (stages loc) x ch := by
    intro x ch hw
    by_cases hx : x = p
    · subst hx
      rw [InWait, update_self, e.self] at hw
      rcases hw with hw | ⟨hw, -⟩ <;> cases hw
    · refine hw.congr ?_ (e.ne hx)
      rw [update_of_ne (fun he => hx (Sum.inl.inj he))]
  refine h.of_edit hl rfl e ⟨fun y hy _ => ?_, fun _ _ _ hw => ?_, Finset.empty_subset _⟩
    (h.cpus.leave (on_inl hc) rfl rfl (by simp) (by simp) rfl)
    (h.waits.congr hin (fun y ch hw hr => ?_) fun y => ?_)
    (h.family.edit e (fun _ => h.family.range p hused) (fun hi => absurd hi hinit)
      (fun hz => by cases hz) (fun r hr => ?_) (fun x hx => absurd hx (hnone x))
      (fun _ _ hi => ?_) fun r hr => ?_)
    hin (fun y _ => h.not_claiming hused y) (fun y _ => h.not_making (by rw [hrun]; simp) y)
    (.inl (Finset.mem_insert_of_mem (Finset.mem_singleton_self _))) trivial (fun m hm => ?_)
    (h.past.die e hrun rfl rfl rfl rfl rfl)
  · cases hy
    exact Finset.mem_insert_self ..
  · cases hw
  · cases ch with
    | proc r =>
      intro x hx
      by_cases hxp : x = p
      · subst hxp
        rw [e.self] at hx
        exact absurd (hin _ _ hw) (hquiet r y hx)
      · rw [e.ne hxp] at hx ⊢
        exact hr x hx
    | sleeplock i => exact hr
    | other => exact trivial
  · exact wake_update (by rw [hst]) _
  · rw [e.ne (hrp r hr)]
    exact h.family.live p r hr
  · exact h.family.has p hused (by rw [hrun]; simp) hi
  · rw [e.ne (hrp r hr)]
    exact h.family.origin p r hr
  · cases hm

theorem exit_keeps :
    (exit p status).Keeps (spec n) (.inl p) ⟨∅, .rest⟩ (Post (n := n) (.inl p)) := by
  have herase : ({.proc p, .wait} : Finset Lock).erase .wait = {.proc p} := by
    rw [Finset.erase_insert_of_ne (by simp), Finset.erase_singleton]
    rfl
  refine .bind (Q := fun i g => i ≠ p → g = ⟨∅, ⟨none, .exiting, .no⟩⟩)
    (keeps_step fun s loc c h hl _ r s' hf => ?_) ?_
  · cases hf
    by_cases hi : s.initproc = p
    · refine ⟨loc (.inl p), ?_, fun hne => absurd hi hne⟩
      rw [update_eq_self]
      exact h
    · refine ⟨_, h.rephase (φ := .exiting) hl (Finset.Subset.refl _) (Ne.symm hi) fun np hm => ?_,
        fun _ => rfl⟩
      cases hm
  intro i g hg
  by_cases hi : i = p
  · rw [if_pos hi]
    exact .panic fun _ _ hf => hf
  rw [if_neg hi, hg hi]
  refine .bind (Q := fun _ g => g = ⟨{.wait}, ⟨none, .reparenting 0, .no⟩⟩)
    (keeps_after (Q := fun _ g => g = ⟨{.wait}, ⟨none, .exiting, .no⟩⟩) (acquire_keeps fun _ => rfl)
      fun s loc _ h hl => ⟨_, ?_, rfl⟩) ?_
  · have hfact := h.fact (stages_self hl)
    refine h.rephase hl (Finset.Subset.refl _) ⟨hfact, fun q hq => ?_⟩ fun np hm => ?_
    · omega
    · cases hm
  rintro _ _ rfl
  refine reparent_keeps.bind ?_
  rintro _ _ ⟨w, hw, rfl⟩
  refine (wakeupParent_keeps hw).bind fun _ g hparted => ?_
  refine .bind (Q := fun _ g => g = ⟨{.proc p, .wait}, ⟨none, .woken, .no⟩⟩) ?_ ?_
  · rcases hparted with rfl | ⟨r, k, hk, rfl⟩
    · exact acquire_keeps fun _ => rfl
    · exact keeps_ghost _ (fun s loc c h hl _ => h.woken hl hk) (acquire_keeps fun _ => rfl)
  rintro _ _ rfl
  refine .seq (keeps_does _ (fun _ _ _ h hl hc => h.die hc hl) ?_)
  refine (release_keeps ?_).bind ?_
  · rw [herase]
    refine ⟨fun y hy _ => ?_, fun _ _ _ hw => ?_, Finset.empty_subset _⟩
    · cases hy
      exact Finset.mem_singleton_self _
    · cases hw
  rintro _ _ rfl
  rw [herase]
  exact .seq (sched_keeps rfl)

/-! ## `wait` -/

theorem Past.reap (h : Past s) (e : s.Edit s' q z) (hz : (s.proc q).state = .zombie)
    (hfree : z.state = .unused) (hp : (s.proc q).parent = some p)
    (horphan : (s.proc q).forker ∈ s.exits.map Exit.born → p = s.initproc)
    (hb : s'.births = s.births) (he : s'.exits = s.exits)
    (hr : s'.reaps = s.reaps ++ [⟨p, (s.proc q).parent, (s.proc q).forker ∈ s.exits.map Exit.born,
      ⟨q, (s.proc q).born, (s.proc q).pid, (s.proc q).xstate⟩⟩])
    (hf : ∀ f ∈ s'.frees, ∀ c, f.2 c ≠ some f.1) : Past s' := by
  have hused : (s.proc q).state ≠ .unused := by rw [hz]; simp
  have hlive : ∀ y, (s'.proc y).state ≠ .unused → y ≠ q := by
    rintro y hy rfl
    rw [e.self] at hy
    exact hy hfree
  refine ⟨fun e' hm => ?_, fun y hy => ?_, he ▸ h.exited, fun r hm => ?_, ?_, fun y hy => ?_, ?_,
    fun x y hx hy hxy => ?_, hf⟩
  · rw [he] at hm
    rw [hr, map_append]
    rcases h.exits e' hm with hre | hpend
    · exact .inl (mem_append_left _ hre)
    · by_cases hs : e'.slot = q
      · -- this is the exit that is being reported
        left
        refine mem_append_right _ (mem_singleton.mpr ?_)
        obtain ⟨slot, born, pid, status⟩ := e'
        obtain ⟨-, hb', hp', hx'⟩ := hpend
        simp only at hs hb' hp' hx'
        subst hs hb' hp' hx'
        rfl
      · right
        rw [Pending, e.ne hs]
        exact hpend
  · have hyq : y ≠ q := hlive y (by rw [hy]; simp)
    rw [e.ne hyq] at hy ⊢
    rw [he]
    exact h.zombie y hy
  · rw [he, e.initproc]
    rw [hr] at hm
    rcases mem_append.mp hm with hm | hm
    · exact h.reaps r hm
    · cases mem_singleton.mp hm
      exact ⟨h.zombie q hz, hp, fun ho => horphan (of_decide_eq_true ho)⟩
  · rw [hr, map_append, nodup_append]
    refine ⟨h.once, nodup_singleton _, fun b hb b' hb' => ?_⟩
    obtain ⟨r, hm, rfl⟩ := mem_map.mp hb
    cases mem_singleton.mp hb'
    exact (h.alive q hused).2 r hm
  · have hyq := hlive y hy
    rw [e.ne hyq] at hy ⊢
    rw [hb, hr]
    refine ⟨(h.alive y hy).1, fun r hm => ?_⟩
    rcases mem_append.mp hm with hm | hm
    · exact (h.alive y hy).2 r hm
    · cases mem_singleton.mp hm
      exact fun hbo => hyq (h.born q y hused hy hbo).symm
  · rw [he, hb]
    exact h.before
  · have hxq := hlive x hx
    have hyq := hlive y hy
    rw [e.ne hxq] at hx hxy
    rw [e.ne hyq] at hy hxy
    exact h.born x y hx hy hxy

/-- `wait` frees a zombie child. -/
theorem Inv.reap (h : Inv s loc) (hc : s.on (.inl p) = some c)
    (hl : loc (.inl p) = ⟨{.proc q, .wait}, ⟨none, .reaping q, .no⟩⟩) :
    Inv (Sched.reap p q s) (update loc (.inl p) ⟨{.proc q, .wait}, .rest⟩) := by
  obtain ⟨hparent, hzombie⟩ := h.fact (stages_self hl)
  have hne : q ≠ p := by
    rintro rfl
    rw [(h.running hc hl rfl).1] at hzombie
    cases hzombie
  have e : s.Edit (Sched.reap p q s) q { s.proc q with
      pid := 0, parent := none, chan := none, killed := false, xstate := 0, state := .unused } :=
    ⟨rfl, rfl, rfl, rfl, rfl, rfl, rfl⟩
  refine h.freed hc hl (Finset.mem_insert_self ..) hne (.inr hzombie)
    (fun y _ => h.not_making (by rw [hzombie]; simp) y)
    (.inl (Finset.mem_insert_of_mem (Finset.mem_singleton_self _))) e
    (h.past.reap e hzombie rfl hparent (fun ho => ?_) rfl rfl rfl fun f hf d => ?_)
  · rcases h.family.origin q p hparent with hf | hi
    · rw [hf] at ho
      exact absurd ho (h.past.not_exited (h.running hc hl rfl).1)
    · exact hi
  · rcases mem_append.mp hf with hf | hf
    · exact h.past.frees f hf d
    · cases mem_singleton.mp hf
      exact (h.not_on_cpu hc hl (Finset.mem_insert_self ..) hne (by rw [hzombie]; simp)).2 d

/-- Where the scan of `wait` ends. -/
def scanned (e : Nat) : Option Bool → Ghost
  | none => ⟨∅, .rest⟩
  | some _ => ⟨{.wait}, ⟨none, .scanning e, .no⟩⟩

theorem wf_scanning : Ghost.Wf (.inl p : Thread n) ⟨{.wait}, ⟨none, .scanning q, .no⟩⟩ := by
  refine ⟨fun _ _ hlv => absurd rfl hlv, fun _ _ _ hw => ?_, Finset.Subset.refl _⟩
  cases hw

/-- What a process has found out may be forgotten. -/
theorem Inv.forget (h : Inv s loc) (hl : loc (.inl p) = ⟨H, ⟨none, φ, .no⟩⟩) :
    Inv s (update loc (.inl p) ⟨H, .rest⟩) :=
  h.rephase (φ := .none) hl (Finset.empty_subset _) trivial fun _ hm => by cases hm

/-- The scan of `wait` may go on past a slot that is not a child or not a zombie. -/
theorem Inv.scan (h : Inv s loc) (hl : loc (.inl p) = ⟨H, ⟨none, φ, .no⟩⟩) (hH : .wait ∈ H)
    (hbelow : ∀ x < q, (s.proc x).parent = some p → (s.proc x).state ≠ .zombie)
    (hq : (s.proc q).parent = some p → (s.proc q).state ≠ .zombie) :
    Inv s (update loc (.inl p) ⟨H, ⟨none, .scanning (q + 1), .no⟩⟩) := by
  refine h.rephase (φ := .scanning (q + 1)) hl (Finset.singleton_subset_iff.mpr hH)
    (fun x hx hp => ?_) fun np hm => ?_
  · rcases lt_or_eq_of_le (Nat.lt_succ_iff.mp hx) with hlt | rfl
    · exact hbelow x hlt hp
    · exact hq hp
  · cases hm

theorem waitFrom_keeps {copied : Bool} (m : Nat) : ∀ q havekids,
    (waitFrom p copied q m havekids).Keeps (spec n) (.inl p) ⟨{.wait}, ⟨none, .scanning q, .no⟩⟩
      fun o g => g = scanned (q + m) o := by
  induction m with
  | zero => exact fun _ _ => rfl
  | succ m ih =>
    intro q havekids
    have hsucc : q + (m + 1) = q + 1 + m := by omega
    refine .bind (Q := fun o g => g = ⟨{.wait}, ⟨none, if o = some p then .visiting q
      else .scanning (q + 1), .no⟩⟩) (keeps_step fun s loc c h hl _ r s' hf => ⟨_, ?_, rfl⟩) ?_
    · cases hf
      have hfact := h.fact (stages_self hl)
      split
      · next hp =>
        exact h.rephase hl (Finset.Subset.refl _) ⟨hfact, hp⟩ fun np hm => by cases hm
      · next hp => exact h.scan hl (Finset.mem_singleton_self _) hfact fun hc => absurd hc hp
    rintro o _ rfl
    by_cases ho : o = some p
    · rw [if_pos ho, if_pos ho]
      refine .seq (acquire_keeps fun hnot => ?_)
      refine .bind (Q := fun b g => g = ⟨{.proc q, .wait}, ⟨none, if b = .zombie then
        .reaping q else .scanning (q + 1), .no⟩⟩)
        (keeps_step fun s loc c h hl _ r s' hf => ⟨_, ?_, rfl⟩) ?_
      · cases hf
        have hfact := h.fact (stages_self hl)
        split
        · next hz =>
          refine h.rephase hl ?_ ⟨hfact.2, hz⟩ fun np hm => by cases hm
          exact (Finset.pair_comm _ _).subset
        · next hz =>
          exact h.scan hl (Finset.mem_insert_of_mem (Finset.mem_singleton_self _)) hfact.1
            fun _ => hz
      rintro b _ rfl
      by_cases hb : b = .zombie
      · rw [if_pos hb, if_pos hb]
        refine .bind
          (Q := fun _ g => ∃ φ, g = ⟨insert (.proc q) {.wait}, ⟨none, φ, .no⟩⟩) ?_ ?_
        · cases copied with
          | false => exact ⟨_, rfl⟩
          | true =>
            exact keeps_does _ (fun _ _ _ h hl hc => h.reap hc hl) ⟨_, rfl⟩
        rintro _ _ ⟨φ, rfl⟩
        exact .seq (keeps_ghost _ (fun s loc c h hl _ => h.forget hl)
          (release_insert hnot wf_rest (.seq (release_last wf_rest rfl))))
      · rw [if_neg hb, if_neg hb]
        refine .seq (release_insert hnot wf_scanning ?_)
        rw [hsucc]
        exact ih (q + 1) true
    · rw [if_neg ho, if_neg ho, hsucc]
      exact ih (q + 1) havekids

theorem waitLoop_keeps {copied : Bool} :
    (waitLoop p copied).Keeps (spec n) (.inl p) ⟨{.wait}, ⟨none, .scanning 0, .no⟩⟩
      (Post (n := n) (.inl p)) := by
  -- to leave `wait` is to release `wait_lock`
  have hleave : (do release (.inl p) .wait; return .idle : Prog (Sys n) Job).Keeps (spec n) (.inl p)
      ⟨{.wait}, ⟨none, .scanning NPROC, .no⟩⟩ (Post (n := n) (.inl p)) := by
    exact .seq (keeps_ghost _ (fun s loc c h hl _ => h.forget hl) (release_last wf_rest .idle))
  refine (waitFrom_keeps NPROC 0 false).bind ?_
  rintro o _ rfl
  rw [zero_add]
  rcases o with _ | havekids
  · exact .idle
  cases havekids with
  | false => exact hleave
  | true =>
    refine (killed_keeps wf_scanning).bind ?_
    rintro b _ rfl
    cases b with
    | true => exact hleave
    | false =>
      refine .bind (sleep_keeps rfl rfl (by simp) (fun l hg => ?_) (fun r hr => ?_)
        fun s loc h hst q hq hz => ?_) ?_
      · cases hg
        rfl
      · cases hr
        rfl
      · have hfact := h.fact hst
        exact hfact q (h.family.range q (by rw [hz]; simp)) hq hz
      · rintro _ _ rfl
        exact rfl

theorem wait_keeps : (wait p).Keeps (spec n) (.inl p) ⟨∅, .rest⟩ (Post (n := n) (.inl p)) := by
  exact .seq (acquire_keeps fun _ => rfl)

end Xv6.Sched
