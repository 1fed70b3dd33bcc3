import Xv6.Sched.Steps

/-!
# `yield`, `sleep`, `wakeup`, `kill` and sleep-locks

What each function of the scheduler's interface keeps, and from which ghost value to which it goes.
`sleep` is where a process starts to wait: it needs a reason to, found under the lock that a
`wakeup` would need. `wakeup` passes over the whole table, and behind it nobody waits. A handler on
a CPU without a process holds no such lock, and wakes up for channels that need none.
-/

namespace Xv6.Sched

open Lib
open Function (update update_eq_self update_of_ne update_self)

variable {n : Nat} {s s' : Sys n} {loc : Thread n → Ghost} {st st' : Stages n}
  {t : Thread n} {c : Fin n} {p q r x y i k : Nat} {pid : Int} {l lk : Lock} {ch ch' : Chan}
  {H : Finset Lock} {σ : Stage} {φ : Phase} {w : Option (Chan × Nat)}

/-! ## `yield` -/

theorem yield_keeps (hσ : σ.leave = .no) (hwf : Ghost.Wf (.inl p : Thread n) ⟨∅, σ⟩) :
    (yield p).Keeps (spec n) (.inl p) ⟨∅, σ⟩ fun _ g => g = ⟨∅, σ⟩ := by
  have hback : { σ with leave := Leave.no } = σ := by rw [← hσ]
  refine .seq (acquire_keeps fun _ => ?_)
  refine .seq (keeps_does ⟨{.proc p}, { σ with leave := .leaving }⟩
    (fun s loc c h hl hc => ?_) ?_)
  · refine h.leave hc hl (Finset.mem_singleton_self _) ?_ (.inl rfl) ⟨rfl, rfl, rfl⟩
      (h.not_dozing hl fun ch => ?_) fun hz => by cases hz
    · rw [hσ]
      simp
    · rw [hσ]
      simp
  · refine .seq (sched_keeps ?_)
    rw [hback]
    exact release_last hwf rfl

/-! ## The entry of a process whose lock is held -/

/-- A thread changes the entry of a process whose lock it has, without ending the process, taking
    it off a CPU or making it wait. -/
theorem Inv.rouse {z : Proc} {w : Option (Chan × Nat)} (h : Inv s loc)
    (hc : s.on t = some c) (hl : loc t = ⟨H, σ⟩) (hσ : σ.leave = .no)
    (hq : .proc q ∈ H)
    (hz : (z.parent = (s.proc q).parent ∧ z.forker = (s.proc q).forker ∧
      z.born = (s.proc q).born) ∧ z.pid = (s.proc q).pid ∧ z.xstate = (s.proc q).xstate)
    (hstate : z.state = (s.proc q).state ∨ (s.proc q).state = .sleeping ∧ z.state = .runnable)
    (hchan : z.state = .sleeping → ∀ ch, z.chan = some ch → (s.proc q).chan = some ch)
    (hwf : Ghost.Wf t ⟨H, { σ with wake := w }⟩)
    (hwaits : (∀ y ch, InWait (s.setProc q z)
        (update (stages loc) t { σ with wake := w }) y ch →
        InWait s (stages loc) y ch ∧ (y = q → z.state = .sleeping ∧ z.chan = some ch)) →
      (∀ ch, Reason s ch → Reason (s.setProc q z) ch) →
      Waits (s.setProc q z) (update (stages loc) t { σ with wake := w })) :
    Inv (s.setProc q z) (update loc t ⟨H, { σ with wake := w }⟩) := by
  have hst := stages_self hl
  have hleave : ∀ u, (update (stages loc) t { σ with wake := w } u).leave =
      (stages loc u).leave := leave_update (by rw [hst])
  -- the other process is not on its way out, since it would need its lock
  have hqleave : (stages loc (.inl q)).leave = .no := by
    by_cases hqt : t = .inl q
    · rw [← hqt, hst, hσ]
    · exact (h.locked_out hc (by rw [hl]; exact hq) hqt).1
  have hself : (s.setProc q z).proc q = z := update_self ..
  have hne : ∀ y, y ≠ q → (s.setProc q z).proc y = s.proc y :=
    fun y hy => update_of_ne hy ..
  have hin : ∀ y ch, InWait (s.setProc q z)
      (update (stages loc) t { σ with wake := w }) y ch →
      InWait s (stages loc) y ch ∧ (y = q → z.state = .sleeping ∧ z.chan = some ch) := by
    intro y ch hw
    by_cases hy : y = q
    · subst hy
      rw [InWait, hleave, hqleave, hself] at hw
      rcases hw with hw | ⟨hsl, hch⟩
      · cases hw
      · refine ⟨.inr ⟨?_, hchan hsl ch hch⟩, fun _ => ⟨hsl, hch⟩⟩
        rcases hstate with he | ⟨-, he⟩
        · exact he.symm.trans hsl
        · rw [hsl] at he
          cases he
    · exact ⟨hw.congr (hleave _) (hne y hy), fun he => absurd he hy⟩
  have hsame : (s.proc q).state.Same z.state := by
    rcases hstate with he | ⟨he, he'⟩
    · rw [he]
      exact .refl _
    · rw [he, he']
      exact Procstate.Live.same trivial trivial
  have hreason : ∀ ch, Reason s ch → Reason (s.setProc q z) ch := by
    intro ch hr
    cases ch with
    | proc r =>
      intro y hy
      by_cases hyq : y = q
      · subst hyq
        rw [hself] at hy ⊢
        rw [ne_eq, hsame.2.2]
        exact hr y (hz.1.1 ▸ hy)
      · rw [hne y hyq] at hy ⊢
        exact hr y hy
    | sleeplock i => exact hr
    | other => exact trivial
  refine h.of_entry hl hsame hz.1 (fun _ => hz.2) hwf rfl (fun y ch hw => (hin y ch hw).1)
    ?_ (hwaits hin hreason) fun y ch hd => (hleave _).trans (h.dozing y ch hd)
  rcases hstate with he | ⟨he, he'⟩
  · refine h.cpus.congr rfl (fun y => ?_) (fun _ => hleave _) fun d => ?_
    · by_cases hyq : y = q
      · subst hyq
        rw [hself, he]
      · rw [hne y hyq]
    · exact phase_update (by rw [hst]) _
  · refine h.cpus.set rfl rfl ?_ ?_ ?_ (fun _ => hleave _) fun d => ?_
    · rw [he]
      simp
    · rw [he']
      simp
    · rw [hqleave]
      simp
    · exact phase_update (by rw [hst]) _

/-- The same without moving on with a `wakeup`. -/
theorem Inv.touch {z : Proc} (h : Inv s loc) (hc : s.on t = some c)
    (hl : loc t = ⟨H, σ⟩) (hσ : σ.leave = .no) (hq : .proc q ∈ H)
    (hz : (z.parent = (s.proc q).parent ∧ z.forker = (s.proc q).forker ∧
      z.born = (s.proc q).born) ∧ z.pid = (s.proc q).pid ∧ z.xstate = (s.proc q).xstate)
    (hstate : z.state = (s.proc q).state ∨ (s.proc q).state = .sleeping ∧ z.state = .runnable)
    (hchan : z.state = .sleeping → ∀ ch, z.chan = some ch → (s.proc q).chan = some ch) :
    Inv (s.setProc q z) (update loc t ⟨H, σ⟩) := by
  have hwf := h.wf t
  rw [hl] at hwf
  refine h.rouse (w := σ.wake) hc hl hσ hq hz hstate hchan hwf fun hin hreason => ?_
  refine h.waits.congr (fun y ch hw => (hin y ch hw).1) (fun _ ch _ => hreason ch) fun y => ?_
  exact wake_update (by rw [stages_self hl]) _

/-! ## `sleep` -/

section

variable (h : Inv s loc) (hc : s.on (.inl p) = some c) (hl : loc (.inl p) = ⟨H, σ⟩)
  (hσ : σ.leave = .no)
include h hc hl hσ

/-- Who waits once process `p` has made up its mind to. -/
theorem Inv.doze_inWait
    (hw : InWait s (update (stages loc) (.inl p) ⟨w, φ, .dozing ch⟩) y ch') :
    y = p ∧ ch' = ch ∨ y ≠ p ∧ InWait s (stages loc) y ch' := by
  by_cases hy : y = p
  · subst hy
    rw [InWait, update_self] at hw
    rcases hw with hw | hw
    · exact .inl ⟨rfl, (Leave.dozing.inj hw).symm⟩
    · rw [(h.running hc hl hσ).1] at hw
      cases hw.1
  · refine .inr ⟨hy, hw.congr ?_ rfl⟩
    rw [update_of_ne (fun he => hy (Sum.inl.inj he))]

theorem Inv.doze_cpus :
    Cpus s (update (stages loc) (.inl p) ⟨w, φ, .dozing ch⟩) := by
  have hne : ∀ y, y ≠ p → update (stages loc) (.inl p) ⟨w, φ, .dozing ch⟩ (.inl y) =
      stages loc (.inl y) := fun y hy => update_of_ne (fun he => hy (Sum.inl.inj he)) ..
  refine ⟨h.cpus.proc, h.cpus.inj, fun d y hd => ?_, fun d y hd => ?_, h.cpus.running,
    fun y hy => ?_, fun y hy => ?_⟩
  · rw [update_of_ne (by simp)]
    exact h.cpus.back d y hd
  · by_cases hy : y = p
    · subst hy
      exact .inl (h.running hc hl hσ).1
    · rw [hne y hy]
      exact h.cpus.state d y hd
  · have hyp : y ≠ p := by
      rintro rfl
      rw [update_self] at hy
      cases hy
    rw [hne y hyp] at hy
    exact h.cpus.leaving y hy
  · have hyp : y ≠ p := by
      rintro rfl
      exact hy c (on_inl hc)
    rw [hne y hyp]
    exact h.cpus.away y hy

/-- The process has reason to wait. From here on it counts as waiting. -/
theorem Inv.doze (hwake : σ.wake = none) (hH : .proc p ∈ H)
    (hguard : ∀ l, ch.guard = some l → l ∈ H) (hown : ∀ r, ch = .proc r → r = p)
    (hr : Reason s ch) :
    Inv s (update loc (.inl p) ⟨H, ⟨none, .none, .dozing ch⟩⟩) := by
  have hst := stages_self hl
  have hne : ∀ y, y ≠ p → update (stages loc) (.inl p) ⟨none, .none, .dozing ch⟩ (.inl y) =
      stages loc (.inl y) := fun y hy => update_of_ne (fun he => hy (Sum.inl.inj he)) ..
  -- nobody else has the lock that a `wakeup` of this channel needs
  have hfree : ∀ l y, ch.guard = some l → y ≠ p → l ∉ (loc (.inl y)).held := by
    intro l y hg hy hm
    have hnp : ∀ z, l ≠ .proc z := by
      rintro z rfl
      cases ch <;> cases hg
    exact hy (h.unique hm (by rw [hl]; exact hguard l hg) (hnp y) (hnp p))
  refine h.of_parts hl rfl rfl ⟨fun y hy _ => ?_, fun _ _ _ hw => ?_, Finset.empty_subset _⟩
    (h.doze_cpus hc hl hσ) ⟨fun y ch' hw => ?_, fun z ch' k hk hg y hyk hyz hw => ?_,
      fun y r hw => ?_⟩ h.family
    (h.facts.update (fun y hy => ?_) (fun _ _ => trivial) fun _ hm => ?_) h.sleeplocks h.past
    fun y ch' hd => ?_
  · cases hy
    exact hH
  · cases hw
  · rcases h.doze_inWait hc hl hσ hw with ⟨rfl, rfl⟩ | ⟨-, hw⟩
    · exact .inl hr
    · refine (h.waits.reason y ch' hw).imp_right ?_
      rintro ⟨z, k, hk, hz⟩
      have hzp : z ≠ p := by
        rintro rfl
        rw [hst, hwake] at hk
        cases hk
      exact ⟨z, k, by rw [hne z hzp]; exact hk, hz⟩
  · have hzp : z ≠ p := by
      rintro rfl
      rw [update_self] at hk
      cases hk
    rw [hne z hzp] at hk
    rcases h.doze_inWait hc hl hσ hw with ⟨rfl, rfl⟩ | ⟨-, hw⟩
    · obtain ⟨l, hl'⟩ := Option.ne_none_iff_exists'.mp hg
      exact hfree l z hl' hzp ((h.wf (.inl z)).wake ch' k l hk hl')
    · exact h.waits.scanned z ch' k hk hg y hyk hyz hw
  · rcases h.doze_inWait hc hl hσ hw with ⟨rfl, he⟩ | ⟨-, hw⟩
    · exact (hown r he.symm).symm
    · exact h.waits.own y r hw
  · have hyp : y ≠ p := fun he => hy (congrArg Sum.inl he.symm)
    have hfact := h.facts.fact y
    by_cases hwk : (stages loc (.inl y)).phase = .woken
    · rw [hwk] at hfact ⊢
      refine ⟨hfact.1, hfact.2.1, fun r z hr hw => ?_⟩
      rcases h.doze_inWait hc hl hσ hw with ⟨rfl, he⟩ | ⟨-, hw⟩
      · refine hfree .wait y (by rw [← he]; rfl) hyp ((h.wf (.inl y)).phase ?_)
        rw [stages] at hwk
        rw [hwk]
        exact Finset.mem_singleton_self _
      · exact hfact.2.2 r z hr hw
    · exact hfact.congr rfl (fun _ => .refl _) (fun _ => rfl) (fun _ => rfl) rfl
        fun he => absurd he hwk
  · cases hm
  · have hyp : y ≠ p := by
      rintro rfl
      rw [h.not_dozing hl (fun ch => by rw [hσ]; simp)] at hd
      cases hd
    rw [hne y hyp]
    exact h.dozing y ch' hd

end

/-- `sleep`, for a process that has reason to wait. -/
theorem sleep_keeps (hσ : σ.leave = .no) (hwake : σ.wake = none) (hlk : lk ≠ .proc p)
    (hguard : ∀ l, ch.guard = some l → l = lk) (hown : ∀ r, ch = .proc r → r = p)
    (hr : ∀ (s : Sys n) loc, Inv s loc → (loc (.inl p)).stage = σ → Reason s ch) :
    (sleep p ch lk).Keeps (spec n) (.inl p) ⟨{lk}, σ⟩ fun _ g => g = ⟨{lk}, .rest⟩ := by
  have herase : (insert (.proc p) {lk} : Finset Lock).erase lk = {.proc p} := by
    rw [Finset.erase_insert_of_ne (Ne.symm hlk), Finset.erase_singleton]
    rfl
  have hwf : Ghost.Wf (.inl p : Thread n) ⟨{.proc p}, ⟨none, .none, .dozing ch⟩⟩ := by
    refine ⟨fun y hy _ => ?_, fun _ _ _ hw => ?_, Finset.empty_subset _⟩
    · cases hy
      exact Finset.mem_singleton_self _
    · cases hw
  have hrelease : (releaseNoting (.inl p) lk fun s =>
      { s with dozing := update s.dozing p (some ch) }).Keeps (spec n) (.inl p)
      ⟨insert (.proc p) {lk}, ⟨none, .none, .dozing ch⟩⟩
      fun _ g => g = ⟨{.proc p}, ⟨none, .none, .dozing ch⟩⟩ := by
    refine (releaseNoting_keeps (by rw [herase]; exact hwf) fun s loc h hl =>
      h.of_notes fun y ch' hd => ?_).mono fun _ g hg => herase ▸ hg
    by_cases hy : y = p
    · subst hy
      rw [update_self] at hd
      cases hd
      rw [hl]
    · rw [update_of_ne hy] at hd
      exact h.dozing y ch' hd
  refine .seq (acquire_keeps fun _ => ?_)
  refine .bind (keeps_ghost _ (fun s loc c h hl hc => ?_) hrelease) ?_
  · refine h.doze hc hl hσ hwake (Finset.mem_insert_self ..) (fun l hg => ?_) hown
      (hr s loc h (by rw [hl]))
    rw [hguard l hg]
    exact Finset.mem_insert_of_mem (Finset.mem_singleton_self _)
  rintro _ _ rfl
  refine .seq (keeps_does ⟨{.proc p}, ⟨none, .none, .leaving⟩⟩
    (fun s loc c h hl hc => ?_) ?_)
  · have hawake : Inv { s with dozing := update s.dozing p none } loc := by
      refine h.of_notes fun y ch' hd => ?_
      by_cases hy : y = p
      · subst hy
        rw [update_self] at hd
        cases hd
      · rw [update_of_ne hy] at hd
        exact h.dozing y ch' hd
    refine hawake.leave hc hl (Finset.mem_singleton_self _) (by simp) (.inr rfl) ⟨rfl, rfl, rfl⟩
      (update_self ..) fun _ ch' hch => ?_
    cases hch
    rfl
  refine .seq (sched_keeps ?_)
  refine .seq (keeps_does ⟨{.proc p}, .rest⟩ (fun s loc c h hl hc => ?_) ?_)
  · refine h.touch hc hl rfl (Finset.mem_singleton_self _) ⟨⟨rfl, rfl, rfl⟩, rfl, rfl⟩ (.inl rfl)
      fun _ _ hch => ?_
    cases hch
  exact .seq (release_last wf_rest (acquire_keeps fun _ => rfl))

/-! ## `wakeup` and `kill` -/

/-- A `wakeup` that has looked at every entry from `k` to `q` has only passed over the process
    itself. -/
def Passed (p k q : Nat) : Prop := k ≤ q ∧ ∀ x, k ≤ x → x < q → x = p

theorem Waits.woke {z : Proc} {σ' : Stage} (h : Waits s st) (hst : st (.inl p) = σ)
    (hσ : σ.wake = some (ch, k)) (hσ' : σ'.wake = some (ch, q + 1)) (hk : Passed p k q)
    (hqp : q ≠ p)
    (hin : ∀ y ch', InWait (s.setProc q z) (update st (.inl p) σ') y ch' →
      InWait s st y ch' ∧ (y = q → ch' ≠ ch))
    (hreason : ∀ ch, Reason s ch → Reason (s.setProc q z) ch) :
    Waits (s.setProc q z) (update st (.inl p) σ') := by
  have hne : ∀ y, y ≠ p → update st (.inl p) σ' (.inl y) = st (.inl y) :=
    fun y hy => update_of_ne (fun he => hy (Sum.inl.inj he)) ..
  refine ⟨fun y ch' hw => ?_, fun y ch' m hm hg x hx hxy hw => ?_,
    fun y r hw => h.own y r (hin _ _ hw).1⟩
  · obtain ⟨hw', hyq⟩ := hin y ch' hw
    refine (h.reason y ch' hw').imp (hreason ch') ?_
    rintro ⟨v, m, hm, hmy, hyv⟩
    by_cases hvp : v = p
    · subst hvp
      rw [hst, hσ] at hm
      cases hm
      refine ⟨v, q + 1, by rw [update_self, hσ'], ?_, hyv⟩
      -- everybody before `q` has been looked at, and `q` does not wait on the channel any more
      by_contra hlt
      rcases lt_or_ge y q with hlq | hge
      · exact hyv (hk.2 y hmy hlq)
      · exact hyq (by omega) rfl
    · exact ⟨v, m, by rw [hne v hvp]; exact hm, hmy, hyv⟩
  · obtain ⟨hw', hxq⟩ := hin x ch' hw
    by_cases hyp : y = p
    · subst hyp
      rw [update_self, hσ'] at hm
      cases hm
      rcases lt_or_ge x k with hlt | hge
      · exact h.scanned y ch k (by rw [hst, hσ]) hg x hlt hxy hw'
      · rcases lt_or_ge x q with hlq | hgq
        · exact hxy (hk.2 x hge hlq)
        · exact hxq (by omega) rfl
    · rw [hne y hyp] at hm
      exact h.scanned y ch' m hm hg x hx hxy hw'

/-- What `wakeup` makes of an entry: it does not sleep on the channel, and else it is as it was. -/
theorem woken_entry (x : Proc) (ch : Chan) {z : Proc}
    (h : z = if x.state = .sleeping ∧ x.chan = some ch then { x with state := .runnable } else x) :
    ((z.parent = x.parent ∧ z.forker = x.forker ∧ z.born = x.born) ∧ z.pid = x.pid ∧
      z.xstate = x.xstate) ∧ (z.state = x.state ∨ x.state = .sleeping ∧ z.state = .runnable) ∧
    (z.state = .sleeping → ∀ ch', z.chan = some ch' → x.chan = some ch') ∧
    ¬ (z.state = .sleeping ∧ z.chan = some ch) := by
  split at h
  · next hs =>
    subst h
    exact ⟨⟨⟨rfl, rfl, rfl⟩, rfl, rfl⟩, .inr ⟨hs.1, rfl⟩, fun _ _ hch => hch,
      fun hz => by cases hz.1⟩
  · next hs =>
    subst h
    exact ⟨⟨⟨rfl, rfl, rfl⟩, rfl, rfl⟩, .inl rfl, fun _ _ hch => hch, hs⟩

theorem wakeupOne_keeps (hk : Passed p k q)
    (hwf : ∀ k, Ghost.Wf (.inl p : Thread n) ⟨H, ⟨some (ch, k), φ, .no⟩⟩) :
    (wakeupOne (.inl p) ch q).Keeps (spec n) (.inl p) ⟨H, ⟨some (ch, k), φ, .no⟩⟩
      fun _ g => ∃ k', g = ⟨H, ⟨some (ch, k'), φ, .no⟩⟩ ∧ Passed p k' (q + 1) := by
  rw [wakeupOne]
  split
  · next hqp =>
    cases hqp
    refine ⟨k, rfl, Nat.le_succ_of_le hk.1, fun x hkx hx => ?_⟩
    rcases lt_or_eq_of_le (Nat.lt_succ_iff.mp hx) with hlt | heq
    · exact hk.2 x hkx hlt
    · exact heq
  · next hqp =>
    refine .seq (acquire_keeps fun hnot => ?_)
    refine .seq (keeps_does ⟨insert (.proc q) H, ⟨some (ch, q + 1), φ, .no⟩⟩
      (fun s loc c h hl hc => ?_) ?_)
    · obtain ⟨hz, hstate, hchan, hno⟩ := woken_entry (s.proc q) ch rfl
      refine h.rouse (w := some (ch, q + 1)) hc hl rfl (Finset.mem_insert_self ..) hz hstate hchan
        ((hwf _).mono (Finset.subset_insert ..)) fun hin hreason => ?_
      refine h.waits.woke (stages_self hl) rfl rfl hk (fun he => hqp (he ▸ rfl))
        (fun y ch' hw => ?_) hreason
      obtain ⟨hw', hyq⟩ := hin y ch' hw
      refine ⟨hw', fun he hch => ?_⟩
      subst hch
      exact hno (hyq he)
    · exact release_insert hnot (hwf _) ⟨q + 1, rfl, le_rfl, fun x hx hx' => by omega⟩

theorem wakeup_keeps (hwf : ∀ k, Ghost.Wf (.inl p : Thread n) ⟨H, ⟨some (ch, k), φ, .no⟩⟩) :
    (wakeup (.inl p) ch).Keeps (spec n) (.inl p) ⟨H, ⟨some (ch, 0), φ, .no⟩⟩
      fun _ g => ∃ k, g = ⟨H, ⟨some (ch, k), φ, .no⟩⟩ ∧ Passed p k NPROC := by
  refine (Prog.Keeps.loop (K := fun q g => ∃ k, g = ⟨H, ⟨some (ch, k), φ, .no⟩⟩ ∧ Passed p k q)
    ⟨0, rfl, le_rfl, fun x hx hx' => by omega⟩ fun q l _ _ hl => ?_).mono fun _ g hg => ?_
  · obtain ⟨k, rfl, hk⟩ := hl
    exact wakeupOne_keeps hk hwf
  · rwa [zero_add] at hg

/-- The handler of an interrupt on a CPU that executes no process. -/
theorem wakeup_idle : (wakeup (.inr c) ch).Keeps (spec n) (.inr c) ⟨∅, .rest⟩
    fun _ g => g = ⟨∅, .rest⟩ := by
  refine Prog.Keeps.loop (K := fun _ (g : Ghost) => g = ⟨∅, .rest⟩) rfl fun q l _ _ hl => ?_
  subst hl
  rw [wakeupOne, if_neg (by simp)]
  refine .seq (acquire_keeps fun hnot => ?_)
  refine .seq (keeps_does ⟨{.proc q}, .rest⟩ (fun s loc c h hl hc => ?_) ?_)
  · obtain ⟨hz, hstate, hchan, -⟩ := woken_entry (s.proc q) ch rfl
    exact h.touch hc hl rfl (Finset.mem_singleton_self _) hz hstate hchan
  · exact release_last wf_rest rfl

/-- A `wakeup` that is through with the table, or none. -/
def Over (p : Nat) : Option (Chan × Nat) → Prop
  | none => True
  | some (_, k) => Passed p k NPROC

/-- A process that is in no `wakeup`, or through with it, may begin another or go on without one. -/
theorem Inv.rewake {w' : Option (Chan × Nat)} (h : Inv s loc)
    (hl : loc (.inl p) = ⟨H, ⟨w, φ, .no⟩⟩) (hw : Over p w)
    (hwf : Ghost.Wf (.inl p : Thread n) ⟨H, ⟨w', φ, .no⟩⟩)
    (hnew : ∀ ch k, w' = some (ch, k) → k = 0) :
    Inv s (update loc (.inl p) ⟨H, ⟨w', φ, .no⟩⟩) := by
  have hst := stages_self hl
  have hfact := h.fact hst
  refine h.restage hl hwf rfl ⟨fun y ch hin => ?_, fun y ch k hk hg x hx hxy hin => ?_,
    fun y r hin => ?_⟩ hfact fun _ hm => hm
  all_goals
    have hin' : InWait s (stages loc) _ _ := hin.congr (leave_update (by rw [hst]) _) rfl
  · refine (h.waits.reason y ch hin').imp_right ?_
    rintro ⟨z, k, hk, hky, hyz⟩
    have hzp : z ≠ p := by
      rintro rfl
      rw [hst] at hk
      cases hk
      exact hyz (hw.2 y hky (h.inWait_lt hin'))
    exact ⟨z, k, by rw [update_of_ne (fun he => hzp (Sum.inl.inj he))]; exact hk, hky, hyz⟩
  · by_cases hyp : y = p
    · subst hyp
      rw [update_self] at hk
      rw [hnew ch k hk] at hx
      exact absurd hx (Nat.not_lt_zero x)
    · rw [update_of_ne (fun he => hyp (Sum.inl.inj he))] at hk
      exact h.waits.scanned y ch k hk hg x hx hxy hin'
  · exact h.waits.own y r hin'

/-- What the process did before its next step no longer matters. -/
theorem Inv.over (h : Inv s loc) (hl : loc (.inl p) = ⟨H, ⟨w, φ, .no⟩⟩) (hw : Over p w) :
    Inv s (update loc (.inl p) ⟨H, ⟨none, φ, .no⟩⟩) := by
  have hwf := h.wf (.inl p)
  rw [hl] at hwf
  refine h.rewake hl hw ⟨hwf.leave, fun _ _ _ hc => ?_, hwf.phase⟩ fun _ _ hc => ?_ <;> cases hc

/-- A `wakeup` can be begun wherever its lock is held. -/
theorem Inv.begin_wake (h : Inv s loc) (hl : loc (.inl p) = ⟨H, ⟨none, φ, .no⟩⟩)
    (hwf : Ghost.Wf (.inl p : Thread n) ⟨H, ⟨some (ch, 0), φ, .no⟩⟩) :
    Inv s (update loc (.inl p) ⟨H, ⟨some (ch, 0), φ, .no⟩⟩) := by
  refine h.rewake (w := none) hl trivial hwf fun _ _ he => ?_
  cases he
  rfl

theorem killFrom_keeps (hσ : σ.leave = .no) (hwf : Ghost.Wf (.inl p : Thread n) ⟨H, σ⟩) (m : Nat) :
    ∀ q, (killFrom p pid q m).Keeps (spec n) (.inl p) ⟨H, σ⟩ fun _ g => g = ⟨H, σ⟩ := by
  induction m with
  | zero => exact fun _ => rfl
  | succ m ih =>
    intro q
    refine .seq (acquire_keeps fun hnot => ?_)
    refine .bind (Q := fun _ g => g = ⟨insert (.proc q) H, σ⟩)
      (keeps_step fun s loc c h hl hc r s' hf => ⟨_, ?_, rfl⟩) ?_
    · split at hf
      · cases hf
        refine h.touch hc hl hσ (Finset.mem_insert_self ..) ⟨⟨rfl, rfl, rfl⟩, rfl, rfl⟩ ?_
          fun _ _ hch => hch
        by_cases hs : (s.proc q).state = .sleeping
        · exact .inr ⟨hs, if_pos hs⟩
        · exact .inl (if_neg hs)
      · cases hf
        rw [← hl, update_eq_self]
        exact h
    · rintro found _ rfl
      refine .seq (release_insert hnot hwf ?_)
      cases found with
      | true => exact rfl
      | false => exact ih (q + 1)

/-- A step that only looks and finds out nothing. -/
theorem read_keeps {α : Type} {t : Thread n} {g : Ghost} {f : Sys n → α} :
    (read t f).Keeps (spec n) t g fun _ g' => g' = g := by
  refine keeps_step fun s loc c h hl _ r s' hf => ⟨g, ?_, rfl⟩
  cases hf
  rw [← hl, update_eq_self]
  exact h

theorem killed_keeps (hwf : Ghost.Wf (.inl p : Thread n) ⟨H, σ⟩) :
    (killed p).Keeps (spec n) (.inl p) ⟨H, σ⟩ fun _ g => g = ⟨H, σ⟩ := by
  refine .seq (acquire_keeps fun hnot => ?_)
  refine read_keeps.bind ?_
  rintro _ _ rfl
  exact .seq (release_insert hnot hwf rfl)

/-! ## Sleep-locks -/

/-- A step on a sleep-lock whose spin-lock the process has. -/
theorem Inv.of_sleeplock {b : Bool} {σ' : Stage} (h : Inv s loc)
    (hl : loc (.inl p) = ⟨H, σ⟩) (hH : .sleeplock i ∈ H) (hleave : σ'.leave = σ.leave)
    (hwf : Ghost.Wf (.inl p : Thread n) ⟨H, σ'⟩) (hphase : σ'.phase = .none)
    (hsl : ∀ j, j ≠ i → s'.sleeplock j = s.sleeplock j)
    (hins : s'.inside = update s.inside p (update (s.inside p) i b))
    (hrest : s' = { s with sleeplock := s'.sleeplock, inside := s'.inside })
    (hwaits : Waits s' (update (stages loc) (.inl p) σ')) (hnew : Sleeplocks s') :
    Inv s' (update loc (.inl p) ⟨H, σ'⟩) := by
  have hst := stages_self hl
  have hlv : ∀ u, (update (stages loc) (.inl p) σ' u).leave = (stages loc u).leave :=
    leave_update (hleave.trans (by rw [hst]))
  have hproc : s'.proc = s.proc := by rw [hrest]
  have hin : ∀ y ch, InWait s' (update (stages loc) (.inl p) σ') y ch →
      InWait s (stages loc) y ch := fun y ch hw => hw.congr (hlv _) (by rw [hproc])
  refine h.of_parts hl (by rw [hrest]) (by rw [hrest]) hwf
    (h.cpus.congr (by rw [hrest]) (fun _ => by rw [hproc]) (fun _ => hlv _) fun d => ?_) hwaits
    (h.family.congr (by rw [hrest]) (fun _ => by rw [hproc]; exact .refl _)
      fun _ => by rw [hproc]; exact ⟨rfl, rfl, rfl⟩)
    (h.facts.update (fun y hy => ?_) (fun y hy => ?_) fun np hm => ?_) hnew
    (h.past.congr (fun _ => by rw [hproc]; exact ⟨id, Iff.rfl, rfl, fun _ => ⟨rfl, rfl⟩⟩)
      (by rw [hrest]) (by rw [hrest]) (by rw [hrest]) (by rw [hrest])
      (by rw [hrest]; exact h.past.frees))
    fun y ch hd => (hlv _).trans (h.dozing y ch (by rw [hrest] at hd; exact hd))
  · rw [update_of_ne (by simp)]
  · have hyp : y ≠ p := fun he => hy (congrArg Sum.inl he.symm)
    have hfact := h.facts.fact y
    -- whoever has found out something about this sleep-lock has its spin-lock
    have hexcl : .sleeplock i ∉ (stages loc (.inl y)).phase.locks :=
      h.excl (by rw [hl]; exact hH) (by simp) (by simp) hyp
    have hinit : s'.initproc = s.initproc := by rw [hrest]
    have hinsy : s'.inside y = s.inside y := by rw [hins, update_of_ne hyp]
    cases hφ : (stages loc (.inl y)).phase with
    | contending j | vacant j =>
      rw [hφ] at hfact hexcl
      have hji : j ≠ i := by
        rintro rfl
        exact hexcl (Finset.mem_singleton_self _)
      rw [Phase.Fact, hsl j hji]
      exact hfact
    | releasing j =>
      rw [hφ] at hfact
      rw [Phase.Fact, hinsy]
      exact hfact
    | woken =>
      rw [hφ] at hfact
      rw [Phase.Fact, hinit, hproc]
      exact ⟨hfact.1, hfact.2.1, fun r z hr hw => hfact.2.2 r z hr (hin _ _ hw)⟩
    | none | switched => exact trivial
    | _ =>
      rw [hφ] at hfact
      simpa only [Phase.Fact, hinit, hproc] using hfact
  · cases hy
    rw [hphase]
    exact trivial
  · rw [hphase] at hm
    cases hm

/-- `acquiresleep` takes a lock it has found unlocked. -/
theorem Inv.take (h : Inv s loc)
    (hl : loc (.inl p) = ⟨{.sleeplock i}, ⟨none, .vacant i, .no⟩⟩) :
    Inv { s with
        sleeplock := update s.sleeplock i ⟨true, pid⟩
        inside := update s.inside p (update (s.inside p) i true) }
      (update loc (.inl p) ⟨{.sleeplock i}, .rest⟩) := by
  have hst := stages_self hl
  have hfact : (s.sleeplock i).locked = false := by
    exact h.fact hst
  have hout : ∀ y, s.inside y i = false := by
    intro y
    by_contra hne
    have := h.sleeplocks.locked y i (Bool.eq_true_of_not_eq_false hne)
    rw [hfact] at this
    cases this
  refine h.of_sleeplock (b := true) hl (Finset.mem_singleton_self _) rfl wf_rest rfl
    (fun j hj => update_of_ne hj ..) rfl rfl
    (h.waits.congr (fun y ch hw => hw.congr (leave_update (by rw [hst]; rfl) _) rfl)
      (fun y ch _ hr => ?_) fun y => wake_update (by rw [hst]; rfl) _) ⟨fun y j hy => ?_,
      fun x y j hx hy => ?_⟩
  · cases ch with
    | sleeplock j =>
      by_cases hji : j = i
      · subst hji
        simp only [Reason, update_self]
      · simp only [Reason, update_of_ne hji]
        exact hr
    | _ => exact hr
  · by_cases hji : j = i
    · subst hji
      simp only [update_self]
    · simp only [update_of_ne hji]
      by_cases hyp : y = p
      · subst hyp
        simp only [update_self, update_of_ne hji] at hy
        exact h.sleeplocks.locked y j hy
      · simp only [update_of_ne hyp] at hy
        exact h.sleeplocks.locked y j hy
  · have hkey : ∀ y, update s.inside p (update (s.inside p) i true) y j = true →
        j = i ∧ y = p ∨ j ≠ i ∧ s.inside y j = true := by
      intro z hz
      by_cases hzp : z = p
      · subst hzp
        by_cases hji : j = i
        · exact .inl ⟨hji, rfl⟩
        · simp only [update_self, update_of_ne hji] at hz
          exact .inr ⟨hji, hz⟩
      · simp only [update_of_ne hzp] at hz
        refine .inr ⟨?_, hz⟩
        rintro rfl
        rw [hout z] at hz
        cases hz
    rcases hkey x hx with ⟨hj, rfl⟩ | ⟨hj, hx⟩
    · rcases hkey y hy with ⟨-, rfl⟩ | ⟨hj', -⟩
      · rfl
      · exact absurd hj hj'
    · rcases hkey y hy with ⟨hj', -⟩ | ⟨-, hy⟩
      · exact absurd hj' hj
      · exact h.sleeplocks.one x y j hx hy

/-- `releasesleep` gives the lock up and starts to wake up those who wait for it. -/
theorem Inv.give (h : Inv s loc) (hc : s.on (.inl p) = some c)
    (hl : loc (.inl p) = ⟨{.sleeplock i}, ⟨none, .releasing i, .no⟩⟩) :
    Inv { s with
        sleeplock := update s.sleeplock i ⟨false, 0⟩
        inside := update s.inside p (update (s.inside p) i false) }
      (update loc (.inl p) ⟨{.sleeplock i}, ⟨some (.sleeplock i, 0), .none, .no⟩⟩) := by
  have hst := stages_self hl
  have hfact : s.inside p i = true := by
    exact h.fact hst
  have hkey : ∀ y j, update s.inside p (update (s.inside p) i false) y j = true →
      j ≠ i ∧ s.inside y j = true := by
    intro y j hy
    by_cases hyp : y = p
    · subst hyp
      by_cases hji : j = i
      · subst hji
        simp only [update_self, Bool.false_eq_true] at hy
      · simp only [update_self, update_of_ne hji] at hy
        exact ⟨hji, hy⟩
    · simp only [update_of_ne hyp] at hy
      refine ⟨?_, hy⟩
      rintro rfl
      exact hyp (h.sleeplocks.one y p j hy hfact)
  have hin : ∀ y ch, InWait { s with
        sleeplock := update s.sleeplock i ⟨false, 0⟩
        inside := update s.inside p (update (s.inside p) i false) }
      (update (stages loc) (.inl p) ⟨some (.sleeplock i, 0), .none, .no⟩) y ch →
      InWait s (stages loc) y ch := fun y ch hw => hw.congr (leave_update (by rw [hst]) _) rfl
  have hne : ∀ y, y ≠ p → update (stages loc) (.inl p)
      ⟨some (.sleeplock i, 0), .none, .no⟩ (.inl y) = stages loc (.inl y) :=
    fun y hy => update_of_ne (fun he => hy (Sum.inl.inj he)) ..
  refine h.of_sleeplock (b := false) hl (Finset.mem_singleton_self _) rfl
    ⟨fun _ _ hlv => absurd rfl hlv, fun ch k l hk hg => ?_, Finset.empty_subset _⟩ rfl
    (fun j hj => update_of_ne hj ..) rfl rfl ⟨fun y ch hw => ?_,
      fun y ch k hk hg x hx hxy hw => ?_, fun y r hw => h.waits.own y r (hin _ _ hw)⟩
    ⟨fun y j hy => ?_, fun x y j hx hy => ?_⟩
  · cases hk
    cases hg
    exact Finset.mem_singleton_self _
  · by_cases hch : ch = .sleeplock i
    · subst hch
      refine .inr ⟨p, 0, by rw [update_self], Nat.zero_le y, ?_⟩
      rintro rfl
      exact (h.running hc hl rfl).2 _ (hin _ _ hw)
    · refine (h.waits.reason y ch (hin _ _ hw)).imp (fun hr => ?_) ?_
      · cases ch with
        | sleeplock j =>
          have hji : j ≠ i := fun he => hch (congrArg _ he)
          simp only [Reason, update_of_ne hji]
          exact hr
        | _ => exact hr
      · rintro ⟨z, k, hk, hky⟩
        have hzp : z ≠ p := by
          rintro rfl
          rw [hst] at hk
          cases hk
        exact ⟨z, k, by rw [hne z hzp]; exact hk, hky⟩
  · by_cases hyp : y = p
    · subst hyp
      rw [update_self] at hk
      cases hk
      omega
    · rw [hne y hyp] at hk
      exact h.waits.scanned y ch k hk hg x hx hxy (hin _ _ hw)
  · obtain ⟨hji, hy⟩ := hkey y j hy
    simp only [update_of_ne hji]
    exact h.sleeplocks.locked y j hy
  · exact h.sleeplocks.one x y j (hkey x j hx).2 (hkey y j hy).2

/-- Where a thread is between two programs. -/
def Post : Thread n → Job → Ghost → Prop
  | .inl p, .forkret, g => g = ⟨{.proc p}, .rest⟩
  | .inl p, .idle, g => ∃ w, Over p w ∧ g = ⟨∅, ⟨w, .none, .no⟩⟩
  | .inl _, .wait, g => g = ⟨{.wait}, .rest⟩
  | .inl _, .acquiresleep i, g => g = ⟨{.sleeplock i}, .rest⟩
  | .inr _, .scan _, g => g = ⟨∅, .rest⟩
  | _, _, _ => False

theorem Post.idle : Post (.inl p : Thread n) .idle ⟨∅, .rest⟩ := ⟨none, trivial, rfl⟩

theorem acquiresleepLoop_keeps :
    (acquiresleepLoop p i).Keeps (spec n) (.inl p) ⟨{.sleeplock i}, .rest⟩
      (Post (n := n) (.inl p)) := by
  refine .bind (Q := fun (b : Bool) g =>
    g = ⟨{.sleeplock i}, ⟨none, if b then .contending i else .vacant i, .no⟩⟩)
    (keeps_step fun s loc c h hl _ r s' hf => ⟨_, ?_, rfl⟩) ?_
  · cases hf
    refine h.rephase hl ?_ ?_ fun np hm => ?_
    · split <;> exact Finset.Subset.refl _
    · split
      · next hb => exact hb
      · next hb => exact Bool.eq_false_of_not_eq_true hb
    · split at hm <;> cases hm
  rintro b _ rfl
  cases b with
  | true =>
    refine .bind (sleep_keeps rfl rfl (by simp) (fun l hg => ?_) (fun r hr => ?_)
      fun s loc h hst => ?_) ?_
    · cases hg
      rfl
    · cases hr
    · exact h.fact hst
    · rintro _ _ rfl
      exact rfl
  | false =>
    refine .seq (keeps_does _ (fun _ _ _ h hl _ => h.take hl) ?_)
    exact .seq (release_last wf_rest .idle)

theorem acquiresleep_keeps :
    (acquiresleep p i).Keeps (spec n) (.inl p) ⟨∅, .rest⟩ (Post (n := n) (.inl p)) := by
  exact .seq (acquire_keeps fun _ => rfl)

theorem releasesleep_keeps :
    (releasesleep p i).Keeps (spec n) (.inl p) ⟨∅, ⟨none, .releasing i, .no⟩⟩
      (Post (n := n) (.inl p)) := by
  refine .seq (acquire_keeps fun _ => ?_)
  refine .seq (keeps_does _ (fun _ _ _ h hl hc => h.give hc hl) ?_)
  refine .bind (wakeup_keeps fun k => ⟨fun _ _ hlv => absurd rfl hlv,
    fun ch k l hk hg => ?_, Finset.empty_subset _⟩) ?_
  · cases hk
    cases hg
    exact Finset.mem_singleton_self _
  rintro _ _ ⟨k, rfl, hk⟩
  exact .seq (keeps_ghost ⟨{.sleeplock i}, .rest⟩
    (fun s loc c h hl _ => h.over hl (w := some (_, k)) hk) (release_last wf_rest .idle))

theorem sleepOn_keeps {v lk : Nat} :
    (sleepOn p v lk).Keeps (spec n) (.inl p) ⟨∅, .rest⟩ (Post (n := n) (.inl p)) := by
  refine .seq (acquire_keeps fun _ => ?_)
  refine .bind (sleep_keeps rfl rfl (by simp) (fun l hg => ?_) (fun r hr => ?_)
    fun s loc h hst => trivial) ?_
  · cases hg
  · cases hr
  rintro _ _ rfl
  exact .seq (release_last wf_rest .idle)

end Xv6.Sched
