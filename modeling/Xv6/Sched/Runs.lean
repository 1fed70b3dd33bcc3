import Xv6.Sched.Exit

/-!
# Runs of the processes

Every step of every run keeps the invariant. From it follow what the scheduler, sleep-locks, and
`exit` and `wait` are for: a process is executed by one CPU at a time, nobody sleeps on a free
sleep-lock, and every exit is reported once, to the parent.
-/

namespace Xv6.Sched

open Lib
open Function (update update_eq_self update_idem update_self)

variable {n : Nat} {s : Sys n} {loc : Thread n → Ghost} {w w' : World n} {t : Thread n} {p : Nat}

/-! ## Soundness -/

/-- Who holds what at the start. -/
def bootGhost : Thread n → Ghost
  | .inl p => ⟨{.proc p}, .rest⟩
  | .inr _ => ⟨∅, .rest⟩

theorem boot_inv : Inv (boot n).shared bootGhost := by
  have hstate : ∀ q, ((boot n).shared.proc q).state = if q = 0 then .runnable else .unused :=
    fun _ => rfl
  have hst : ∀ t : Thread n, stages bootGhost t = .rest := by
    rintro (p | c) <;> rfl
  have hrunnable : ∀ q, ((boot n).shared.proc q).state = .runnable ∨
      ((boot n).shared.proc q).state = .unused := by
    intro q
    rw [hstate]
    split
    · exact .inl rfl
    · exact .inr rfl
  have hnot : ∀ q a, ((boot n).shared.proc q).state = a → a ≠ .runnable → a = .unused := by
    rintro q a rfl ha
    exact (hrunnable q).resolve_left ha
  have hin : ∀ q ch, ¬ InWait (boot n).shared (stages bootGhost) q ch := by
    rintro q ch (hw | ⟨hw, -⟩)
    · rw [hst] at hw
      cases hw
    · cases hnot q _ hw (by simp)
  have hused : ∀ q, ((boot n).shared.proc q).state ≠ .unused → q = 0 := by
    intro q hq
    by_contra hne
    rw [hstate, if_neg hne] at hq
    exact hq rfl
  refine ⟨⟨fun _ _ _ hr => ?_, fun c l _ => ?_, fun _ _ => rfl, fun _ _ hr => ?_⟩, fun t => ?_,
    ⟨fun _ _ hr => ?_, fun _ _ _ hp => ?_, fun _ _ hp => ?_, fun _ _ hr => ?_, fun q hq => ?_,
      fun q hq => ?_, fun q _ => ?_⟩,
    ⟨fun q ch hw => absurd hw (hin q ch), fun _ _ _ hk => ?_, fun q r hw => absurd hw (hin q _)⟩,
    ⟨fun q hq => ?_, ⟨trivial, rfl⟩, fun _ _ => rfl, fun _ _ hp => ?_, fun q hq _ hi => ?_,
      fun _ _ hp => ?_⟩,
    ⟨fun q => ?_, fun x y np hx => ?_⟩, ⟨fun _ _ hi => ?_, fun _ _ _ hi => ?_⟩,
    ⟨fun _ hm => ?_, fun q hq => ?_, List.nodup_nil, fun _ hm => ?_, List.nodup_nil, fun q _ => ?_,
      fun _ hm => ?_, fun x y hx hy _ => ?_, fun _ hm => ?_⟩, fun _ _ hd => ?_⟩
  · cases hr
  · exact ⟨fun hc => (by cases hc), fun hm => absurd hm (Finset.notMem_empty l)⟩
  · cases hr
  · rcases t with p | c <;> exact wf_rest
  · cases hr
  · cases hp
  · cases hp
  · cases hr
  · cases hnot q _ hq (by simp)
  · rw [hst] at hq
    cases hq
  · rw [hst]
    rfl
  · rw [hst] at hk
    cases hk
  · rw [hused q hq]
    decide
  · cases hp
  · exact absurd (hused q hq) hi
  · cases hp
  · rw [hst]
    exact trivial
  · rw [hst] at hx
    cases hx
  · cases hi
  · cases hi
  · cases hm
  · cases hnot q _ hq (by simp)
  · cases hm
  · exact ⟨Nat.zero_lt_one, fun _ hm => by cases hm⟩
  · cases hm
  · rw [hused x hx, hused y hy]
  · cases hm
  · cases hd

theorem boot_good : Team.Good (spec n) Post (boot n) := by
  refine ⟨bootGhost, boot_inv, ?_⟩
  rintro (p | c) <;> exact rfl

/-- What a process does between calls keeps the invariant. -/
theorem call_keeps {q : Prog (Sys n) Job} (h : Inv s loc) (hl : loc (.inl p) = ⟨∅, .rest⟩)
    (hcall : Call p s q) :
    ∃ g, Inv s (update loc (.inl p) g) ∧
      q.Keeps (spec n) (.inl p) g (Post (n := n) (.inl p)) := by
  have hself : Inv s (update loc (.inl p) ⟨∅, .rest⟩) := by
    rw [show (⟨∅, .rest⟩ : Ghost) = loc (.inl p) from hl.symm, update_eq_self]
    exact h
  cases hcall with
  | yield =>
    refine ⟨_, hself, (yield_keeps rfl wf_rest).bind ?_⟩
    rintro _ _ rfl
    exact .idle
  | sleep x lk => exact ⟨_, hself, sleepOn_keeps⟩
  | wakeup x =>
    have hwf : ∀ k, Ghost.Wf (.inl p : Thread n) ⟨∅, ⟨some (.other x, k), .none, .no⟩⟩ := by
      refine fun k => ⟨fun _ _ hlv => absurd rfl hlv, fun _ _ _ hw hg => ?_, Finset.empty_subset _⟩
      cases hw
      cases hg
    refine ⟨_, h.begin_wake hl (hwf 0), (wakeup_keeps hwf).bind ?_⟩
    rintro _ _ ⟨k, rfl, hk⟩
    exact ⟨some (.other x, k), hk, rfl⟩
  | kill pid =>
    refine ⟨_, hself, (killFrom_keeps rfl wf_rest NPROC 0).bind ?_⟩
    rintro _ _ rfl
    exact .idle
  | fork ok => exact ⟨_, hself, fork_keeps⟩
  | exit status => exact ⟨_, hself, exit_keeps⟩
  | wait => exact ⟨_, hself, wait_keeps⟩
  | acquiresleep i => exact ⟨_, hself, acquiresleep_keeps⟩
  | releasesleep i hi =>
    refine ⟨_, h.rephase (φ := .releasing i) hl (Finset.empty_subset _) hi fun _ hm => ?_,
      releasesleep_keeps⟩
    cases hm

theorem forkret_keeps :
    (forkret p).Keeps (spec n) (.inl p) ⟨{.proc p}, .rest⟩ (Post (n := n) (.inl p)) := by
  exact .seq (release_last wf_rest .idle)

theorem next_keeps {j : Job} {q : Prog (Sys n) Job} (h : Inv s loc) (hj : Post t j (loc t))
    (hnext : Next t j s q) :
    ∃ g, Inv s (update loc t g) ∧ q.Keeps (spec n) t g (Post t) := by
  have hself : Inv s (update loc t (loc t)) := by
    rw [update_eq_self]
    exact h
  cases hnext with
  | forkret =>
    refine ⟨_, hself, ?_⟩
    rw [show loc _ = _ from hj]
    exact forkret_keeps
  | call hcall =>
    rename_i p
    obtain ⟨w, hw, hl⟩ := hj
    have hover := h.over hl hw
    obtain ⟨g, hg, hk⟩ := call_keeps hover (update_self ..) hcall
    rw [update_idem] at hg
    exact ⟨g, hg, hk⟩
  | wait copied =>
    refine ⟨_, h.rephase (φ := .scanning 0) hj (Finset.Subset.refl _) (fun q hq => ?_)
      fun np hm => ?_, waitLoop_keeps⟩
    · omega
    · cases hm
  | acquiresleep =>
    refine ⟨_, hself, ?_⟩
    rw [show loc _ = _ from hj]
    exact acquiresleepLoop_keeps
  | scan =>
    refine ⟨_, hself, ?_⟩
    rw [show loc _ = _ from hj]
    refine scheduler_keeps.mono ?_
    rintro _ _ ⟨⟨q, rfl⟩, rfl⟩
    exact rfl
  | intr x =>
    refine ⟨_, hself, ?_⟩
    rw [show loc _ = _ from hj]
    exact wakeup_idle.bind fun _ _ hg => hg

/-- A timer interrupt leaves the process where it was. -/
theorem timer_keeps (h : Inv s loc) (ht : Interruptible t s) :
    (timer t).Keeps (spec n) t (loc t) fun _ g => g = loc t := by
  cases t with
  | inr c => exact ht.elim
  | inl p =>
    obtain ⟨c, hc, hfree⟩ := ht
    have hheld : (loc (.inl p)).held = ∅ := by
      refine Finset.eq_empty_of_forall_notMem fun l hm => hfree l ?_
      exact (h.locks.procs c p l hc).mpr hm
    have hwf := h.wf (.inl p)
    generalize loc (.inl p) = g at hheld hwf ⊢
    obtain ⟨H, σ⟩ := g
    obtain rfl : H = ∅ := hheld
    refine yield_keeps ?_ hwf
    by_contra hne
    exact absurd (hwf.leave p rfl hne) (Finset.notMem_empty _)

theorem reach_inv (h : Reach n w) : ∃ loc, Inv w.shared loc := by
  have hgood : Team.Good (spec n) Post w := by
    induction h with
    | refl => exact boot_good
    | tail _ hstep ih =>
      exact ih.step (fun t j s loc q hI hj hn => next_keeps hI hj hn)
        (fun t s loc hI ht => timer_keeps hI ht) hstep
  obtain ⟨loc, hI, -⟩ := hgood
  exact ⟨loc, hI⟩

/-! ## One CPU per process -/

/-- A process whose lock is free is not on its way into or out of a CPU. -/
theorem Inv.cpu_of_free (h : Inv s loc) (hfree : s.lock (.proc p) = none) {c : Fin n}
    (hc : (s.cpu c).proc = some p) : (s.proc p).state = .running := by
  cases hr : (s.cpu c).running with
  | none =>
    exfalso
    have hback := h.cpus.back c p hc
    have hheld := (h.locks.scheds c (.proc p) hr).mpr ((h.wf (.inr c)).phase (by
      rw [stages] at hback
      rw [hback]
      exact Finset.mem_singleton_self _))
    rw [hfree] at hheld
    cases hheld
  | some y =>
    have hy := h.cpus.proc c y hr
    rw [hc] at hy
    cases hy
    refine (h.cpus.state c p hr).resolve_right fun hleave => ?_
    have hheld := (h.locks.procs c p (.proc p) hr).mpr ((h.wf (.inl p)).leave p rfl (by
      rw [stages] at hleave
      rw [hleave]
      simp))
    rw [hfree] at hheld
    cases hheld

/-- In every state of every run: a process whose lock is free is `RUNNING` exactly if one CPU, and
    only one, has it as its current process; no two CPUs have the same one; and `freeproc` has only
    been called for processes that no CPU had. -/
theorem one_cpu_per_process (h : Reach n w) :
    (∀ p, w.shared.lock (.proc p) = none →
      ((w.shared.proc p).state = .running ↔ ∃! c, (w.shared.cpu c).proc = some p)) ∧
    (∀ c d p, (w.shared.cpu c).proc = some p → (w.shared.cpu d).proc = some p → c = d) ∧
    (∀ f ∈ w.shared.frees, ∀ c, f.2 c ≠ some f.1) := by
  obtain ⟨loc, hI⟩ := reach_inv h
  refine ⟨fun p hfree => ⟨fun hrun => ?_, ?_⟩, hI.cpus.inj, hI.past.frees⟩
  · obtain ⟨c, hc⟩ := hI.cpus.running p hrun
    have hproc := hI.cpus.proc c p hc
    exact ⟨c, hproc, fun d hd => hI.cpus.inj d c p hd hproc⟩
  · rintro ⟨c, hc, -⟩
    exact hI.cpu_of_free hfree hc

/-- A run in which the first process forks, and the other CPU switches to the child. -/
theorem one_cpu_per_process_two : ∃ w, Reach 2 w ∧ (w.shared.cpu 0).proc = some 0 ∧
    (w.shared.proc 1).state = .running ∧ ∃! c, (w.shared.cpu c).proc = some 1 := by
  have h₁ : Reach 2 _ := Team.goes (t := .inr 0) 2 rfl .scan rfl
  have h₂ : Reach 2 _ := h₁.trans (Team.goes (t := .inl 0) 1 rfl .forkret rfl)
  have h₃ : Reach 2 _ := h₂.trans (Team.goes (t := .inl 0) 16 rfl (.call (.fork true)) rfl)
  have h₄ : Reach 2 _ := h₃.trans (Team.goes (t := .inr 1) 3 rfl .scan rfl)
  have h₅ : Reach 2 _ := h₄.trans (Team.goes (t := .inr 1) 2 rfl .scan rfl)
  have h₆ : Reach 2 _ := h₅.trans (Team.goes (t := .inl 1) 1 rfl .forkret rfl)
  exact ⟨_, h₆, rfl, rfl, ((one_cpu_per_process h₆).1 1 rfl).mp rfl⟩

/-! ## Sleep-locks -/

/-- Who waits under a lock that is free has a reason to. -/
theorem Inv.reason_of_free (h : Inv s loc) {l : Lock} {ch : Chan} (hg : ch.guard = some l)
    (hfree : s.lock l = none) (hw : InWait s (stages loc) p ch) : Reason s ch := by
  refine (h.waits.reason p ch hw).resolve_right ?_
  rintro ⟨q, k, hk, -⟩
  have hheld := (h.wf (.inl q)).wake ch k l hk hg
  have hne : ∀ y, l ≠ .proc y := by
    rintro y rfl
    cases ch <;> cases hg
  obtain ⟨c, hc⟩ := h.executed (p := q) (.inl fun he => by
    rw [he, Finset.mem_singleton] at hheld
    exact hne q hheld)
  have hlock := (h.locks.procs c q l hc).mpr hheld
  rw [hfree] at hlock
  cases hlock

/-- In every state of every run, at most one process is inside a sleep-lock; and while the lock is
    neither locked nor being looked at, no process sleeps on it or is in `sleep` about to. -/
theorem sleeplock_safe (h : Reach n w) (i : Nat) :
    (∀ p q, w.shared.inside p i = true → w.shared.inside q i = true → p = q) ∧
    (w.shared.lock (.sleeplock i) = none → (w.shared.sleeplock i).locked = false → ∀ p,
      ¬ ((w.shared.proc p).state = .sleeping ∧ (w.shared.proc p).chan = some (.sleeplock i)) ∧
      w.shared.dozing p ≠ some (.sleeplock i)) := by
  obtain ⟨loc, hI⟩ := reach_inv h
  refine ⟨fun p q => hI.sleeplocks.one p q i, fun hfree hopen p => ?_⟩
  have hnot : ¬ InWait w.shared (stages loc) p (.sleeplock i) := by
    intro hw
    have hlocked : (w.shared.sleeplock i).locked = true := hI.reason_of_free rfl hfree hw
    rw [hopen] at hlocked
    cases hlocked
  exact ⟨fun hs => hnot (.inr hs), fun hd => hnot (.inl (hI.dozing p _ hd))⟩

/-- A run in which the first process has taken a sleep-lock, and its child sleeps on it. -/
theorem sleeplock_safe_two : ∃ w, Reach 2 w ∧ w.shared.inside 0 5 = true ∧
    (w.shared.proc 1).state = .sleeping ∧ (w.shared.proc 1).chan = some (.sleeplock 5) ∧
    ∀ p, w.shared.inside p 5 = true → p = 0 := by
  have h₁ : Reach 2 _ := Team.goes (t := .inr 0) 2 rfl .scan rfl
  have h₂ : Reach 2 _ := h₁.trans (Team.goes (t := .inl 0) 1 rfl .forkret rfl)
  have h₃ : Reach 2 _ := h₂.trans (Team.goes (t := .inl 0) 16 rfl (.call (.fork true)) rfl)
  have h₄ : Reach 2 _ := h₃.trans (Team.goes (t := .inl 0) 1 rfl (.call (.acquiresleep 5)) rfl)
  have h₅ : Reach 2 _ := h₄.trans (Team.goes (t := .inl 0) 3 rfl .acquiresleep rfl)
  have h₆ : Reach 2 _ := h₅.trans (Team.goes (t := .inr 1) 3 rfl .scan rfl)
  have h₇ : Reach 2 _ := h₆.trans (Team.goes (t := .inr 1) 2 rfl .scan rfl)
  have h₈ : Reach 2 _ := h₇.trans (Team.goes (t := .inl 1) 1 rfl .forkret rfl)
  have h₉ : Reach 2 _ := h₈.trans (Team.goes (t := .inl 1) 1 rfl (.call (.acquiresleep 5)) rfl)
  have h₁₀ : Reach 2 _ := h₉.trans (Team.goes (t := .inl 1) 5 rfl .acquiresleep rfl)
  exact ⟨_, h₁₀, rfl, rfl, rfl, fun p hp => (sleeplock_safe h₁₀ 5).1 p 0 hp rfl⟩

/-! ## `exit` and `wait` -/

/-- In every state of every run: each exit has either been reported by a `wait`, with its pid and
    status, or the process is still there as a zombie; no exit is reported twice; every report is of
    an exit, to the process that was the parent, which is `initproc` if the process that had called
    `fork` had exited. And whenever `wait_lock` is free, every process whose `fork` is through (it
    has left `USED` by then) has a parent that has not exited, and nobody sleeps in `wait` that has
    a zombie for a child. -/
theorem exit_wait (h : Reach n w) :
    (∀ e ∈ w.shared.exits, e ∈ w.shared.reaps.map Reap.exit ↔ ¬ Pending w.shared e) ∧
    (w.shared.reaps.map fun r => r.exit.born).Nodup ∧ (w.shared.exits.map Exit.born).Nodup ∧
    (∀ r ∈ w.shared.reaps, r.exit ∈ w.shared.exits ∧ r.parent = some r.caller ∧
      (r.orphan = true → r.caller = w.shared.initproc)) ∧
    (w.shared.lock .wait = none →
      (∀ q, (w.shared.proc q).state ≠ .unused → (w.shared.proc q).state ≠ .used →
        q ≠ w.shared.initproc → ∃ r, (w.shared.proc q).parent = some r ∧
          (w.shared.proc r).state ≠ .unused ∧ (w.shared.proc r).state ≠ .zombie) ∧
      (∀ p q, (w.shared.proc p).state = .sleeping → (w.shared.proc p).chan = some (.proc p) →
        (w.shared.proc q).parent = some p → (w.shared.proc q).state ≠ .zombie)) := by
  obtain ⟨loc, hI⟩ := reach_inv h
  refine ⟨fun e he => ⟨fun hm hp => ?_, (hI.past.exits e he).resolve_right⟩, hI.past.once,
    hI.past.exited, hI.past.reaps, fun hfree => ⟨fun q hu hd hi => ?_, fun p q hs hc => ?_⟩⟩
  · obtain ⟨r, hr, rfl⟩ := List.mem_map.mp hm
    exact (hI.past.alive r.exit.slot (by rw [hp.1]; simp)).2 r hr hp.2.1.symm
  · obtain ⟨r, hr⟩ := Option.ne_none_iff_exists'.mp (hI.family.has q hu hd hi)
    have hlive := hI.family.live q r hr
    refine ⟨r, hr, fun hc => ?_, fun hc => ?_⟩
    · rw [hc] at hlive
      exact hlive
    · rw [hc] at hlive
      exact hlive
  · exact hI.reason_of_free rfl hfree (.inr ⟨hs, hc⟩) q

set_option maxRecDepth 20000 in
/-- A run on two CPUs: the first process forks, the child exits with status 7 on the other CPU, and
    `wait` reports it. -/
theorem exit_wait_child : ∃ w, Reach 2 w ∧
    w.shared.reaps = [⟨0, some 0, false, ⟨1, 1, 2, 7⟩⟩] ∧ ¬ Pending w.shared ⟨1, 1, 2, 7⟩ := by
  have h₁ : Reach 2 _ := Team.goes (t := .inr 0) 2 rfl .scan rfl
  have h₂ : Reach 2 _ := h₁.trans (Team.goes (t := .inl 0) 1 rfl .forkret rfl)
  have h₃ : Reach 2 _ := h₂.trans (Team.goes (t := .inl 0) 16 rfl (.call (.fork true)) rfl)
  have h₄ : Reach 2 _ := h₃.trans (Team.goes (t := .inr 1) 3 rfl .scan rfl)
  have h₅ : Reach 2 _ := h₄.trans (Team.goes (t := .inr 1) 2 rfl .scan rfl)
  have h₆ : Reach 2 _ := h₅.trans (Team.goes (t := .inl 1) 1 rfl .forkret rfl)
  have h₇ : Reach 2 _ := h₆.trans (Team.goes (t := .inl 1) 260 rfl (.call (.exit 7)) rfl)
  have h₈ : Reach 2 _ := h₇.trans (Team.alone (t := .inr 1) 2 rfl)
  have h₉ : Reach 2 _ := h₈.trans (Team.goes (t := .inl 0) 1 rfl (.call .wait) rfl)
  have h₁₀ : Reach 2 _ := h₉.trans (Team.goes (t := .inl 0) 5 rfl (.wait true) rfl)
  exact ⟨_, h₁₀, rfl, ((exit_wait h₁₀).1 ⟨1, 1, 2, 7⟩ (.head _)).mp (.head _)⟩

end Xv6.Sched
