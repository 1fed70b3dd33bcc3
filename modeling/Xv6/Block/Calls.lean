import Xv6.Block.Commit

/-!
# Every call keeps the invariant

The calls of the processes between which the layer is shared, `end_op` with its commit and
`initlog` with its recovery among them. Hence the invariant holds in every world that can be
reached, with any number of processes and, under the file system's discipline, any number of
crashes (`Reach.good`).
-/

namespace Xv6.BlockLayer

open Lib Function

section

variable {T : Type} [DecidableEq T] {pol : Policy} {sb : Layout} {init : Nat → Block}
  {w : Option T} {ph : Phase} {s s' : Sys T} {loc : T → Loc} {t : T} {i : Nat}

theorem initlog_eq (t : T) (sb : Layout) :
    initlog t sb = (do
      Prog.modify fun s : Sys T =>
        { s with log := { s.log with start := sb.logstart, size := sb.nlog, dev := sb.dev } }
      recoverFromLog t) >>= fun _ => Prog.modify fun s => { s with up := true } := by
  rw [initlog, Prog.bind_assoc']

variable [Fintype T]

/-! ## Who is in an operation -/

theorem card_begin {op : T → Option Nat} (h : op t = none) (n : Nat) :
    (Finset.univ.filter fun u => update op t (some n) u ≠ none).card
      = (Finset.univ.filter fun u => op u ≠ none).card + 1 := by
  have heq : (Finset.univ.filter fun u => update op t (some n) u ≠ none)
      = insert t (Finset.univ.filter fun u => op u ≠ none) := by
    ext u
    by_cases hu : u = t
    · simp [hu]
    · simp [hu]
  rw [heq, Finset.card_insert_of_notMem (by simp [h])]

theorem card_end {op : T → Option Nat} (h : op t ≠ none) :
    (Finset.univ.filter fun u => update op t none u ≠ none).card + 1
      = (Finset.univ.filter fun u => op u ≠ none).card := by
  have heq : (Finset.univ.filter fun u => update op t none u ≠ none)
      = (Finset.univ.filter fun u => op u ≠ none).erase t := by
    ext u
    by_cases hu : u = t
    · simp [hu]
    · simp [hu]
  rw [heq]
  exact Finset.card_erase_add_one (by simp [h])

/-- While somebody is in an operation nobody commits. -/
theorem At.idle_of_op (h : At pol sb init w ph s loc) (hop : s.op t ≠ none) :
    w = none ∧ ph = .writing 0 := by
  have hw : w = none := by
    by_contra hw
    exact hop (h.ops.quiet hw t)
  exact ⟨hw, h.ops.idle hw⟩

theorem At.op_of_outstanding (h : At pol sb init w ph s loc) (ho : ¬ s.log.outstanding < 1) :
    ∃ u, s.op u ≠ none := by
  rw [h.ops.outstanding] at ho
  obtain ⟨u, hu⟩ := Finset.card_pos.mp (by omega :
    0 < (Finset.univ.filter fun u => s.op u ≠ none).card)
  exact ⟨u, by simpa using hu⟩

/-- The ghost value of a process between calls. -/
structure Resting (l : Loc) : Prop where
  worker : l.worker = none
  filling : l.filling = none
  known : l.known = []

/-! ## The calls of `bio.c` -/

theorem Sys.Holds.locked (hh : s.Holds t i) (h : At pol sb init w ph s loc) :
    i ∈ (loc t).locked := (h.cache.lock i hh.1 t).mp hh.2

theorem store_keepsFrom (h : At pol sb init w ph s loc) (hr : Resting (loc t))
    (hh : s.Holds t i) (hpol : pol = .logged → s.op t ≠ none ∧ sb.Home (s.buf i).blockno)
    (f : Block → Block) :
    (store i fun _ => f : Prog (Sys T) Unit).KeepsFrom (spec pol sb init) t s loc
      fun _ => Resting := by
  have hl := hh.locked h
  obtain ⟨-, -, -, hv, -⟩ := h.cache.holding hl hr.filling
  intro _ s' hs
  cases hs
  have hbc : (s.setBuf i { s.buf i with data := f (s.buf i).data }).bcache
      = s.bcache.set i { s.buf i with data := f (s.buf i).data } := rfl
  have hid := setBuf_id hbc rfl rfl
  refine ⟨⟨⟨fun _ => rfl, fun _ => rfl, fun j _ _ => hid j, .inr ⟨t, i, hh, hv, ?_⟩⟩, rfl,
    fun _ => rfl⟩,
    { loc t with mods := i :: (loc t).mods }, ⟨w, ph, ?_, ?_, ?_, ?_⟩,
    ⟨hr.worker, hr.filling, hr.known⟩⟩
  · simp [Sys.buf]
  · exact (h.cache.store hl hr.filling _).congr rfl rfl rfl rfl rfl rfl (.inl rfl)
      (.update rfl rfl rfl)
  · exact h.held.store h.cache hl _ rfl (fun j => List.mem_cons) (by simp [hr.known])
  · exact h.ops.frame rfl rfl rfl (update_worker rfl)
  · intro hp
    obtain ⟨hop, hhome⟩ := hpol hp
    obtain ⟨-, rfl⟩ := h.idle_of_op hop
    obtain ⟨r, hr', hri⟩ := List.mem_map.mp ((h.cache.locked t).2 i hl)
    have hdev : (s.buf i).dev = sb.dev := by
      rw [← hri, (h.cache.refs t r hr').2.1, ((h.logged hp).refs t r hr').1]
    refine (h.logged hp).modify hh.2 hh.1 hdev rfl rfl rfl rfl rfl rfl rfl rfl rfl
      (fun u hu => update_of_ne hu ..) ?_ ?_ ?_ (fun k hk => ?_) (.inl ⟨hop, hhome⟩)
    · rw [update_self]
    · rw [update_self]
      exact fun j hj => List.mem_cons_of_mem _ hj
    · rw [update_self]
    · cases hk
      exact .inl rfl

theorem bwrite_keepsFrom (h : At pol sb init w ph s loc) (hr : Resting (loc t))
    (hh : s.Holds t i) (hpol : pol ≠ .logged) :
    (bwrite t i).KeepsFrom (spec pol sb init) t s loc fun _ => Resting := by
  have hl := hh.locked h
  intro _ s' hs
  obtain ⟨hwr, -⟩ := bwriteStep_ok hs
  refine ⟨bwriteStep_guar h hs, loc t, ⟨w, ph, ?_, ?_, ?_, fun hp => absurd hp hpol⟩, hr⟩
  · rw [update_eq_self]
    exact h.cache.bwrite hl hr.filling hwr
  · exact h.held.bwrite h.cache hl hr.filling hwr rfl
      (fun _ hj => hj) (fun _ hj _ => hj) fun _ hk => .inl hk
  · exact h.ops.frame hwr.log hwr.up hwr.op (update_worker rfl)

theorem bpin_keepsFrom (h : At pol sb init w ph s loc) (hr : Resting (loc t))
    (hup : s.up = true) (hh : s.Holds t i) (hpol : pol ≠ .logged) :
    (bpin i : Prog (Sys T) Unit).KeepsFrom (spec pol sb init) t s loc fun _ => Resting := by
  have hu := (h.cache.used ((h.cache.locked t).2 i (hh.locked h))).2
  intro _ s' hs
  cases hs
  have hsame : SameBufs s { s with bcache := s.bcache.bpin i
                                   pins := update s.pins i (s.pins i + 1) } :=
    sameBufs_set rfl rfl
  refine ⟨.of_same rfl rfl rfl (fun hd => ?_) fun j => ⟨(hsame j).1, (hsame j).2.1⟩, loc t,
    ⟨w, ph, ?_, ?_, ?_, fun hp => absurd hp hpol⟩, hr⟩
  · rw [hup] at hd
    cases hd
  · rw [update_eq_self]
    exact h.cache.bpin hh.1 hu
  · exact h.held.of_sameBufs h.cache hsame rfl rfl rfl
  · exact h.ops.frame rfl rfl rfl (update_worker rfl)

theorem bunpin_keepsFrom (h : At pol sb init w ph s loc) (hr : Resting (loc t))
    (hup : s.up = true) (hi : i < NBUF) (hp : 0 < s.pins i) (hpol : pol ≠ .logged) :
    (bunpin i : Prog (Sys T) Unit).KeepsFrom (spec pol sb init) t s loc fun _ => Resting := by
  intro _ s' hs
  cases hs
  have hsame : SameBufs s { s with bcache := s.bcache.bunpin i
                                   pins := update s.pins i (s.pins i - 1) } :=
    sameBufs_set rfl rfl
  refine ⟨.of_same rfl rfl rfl (fun hd => ?_) fun j => ⟨(hsame j).1, (hsame j).2.1⟩, loc t,
    ⟨w, ph, ?_, ?_, ?_, fun hp => absurd hp hpol⟩, hr⟩
  · rw [hup] at hd
    cases hd
  · rw [update_eq_self]
    exact h.cache.bunpin hi hp
  · exact h.held.of_sameBufs h.cache hsame rfl rfl rfl
  · exact h.ops.frame rfl rfl rfl (update_worker rfl)

/-! ## The calls of `log.c` -/

theorem logWrite_keepsFrom (h : At pol sb init w ph s loc) (hr : Resting (loc t))
    (hh : s.Holds t i) (hdev : (s.buf i).dev = s.log.dev)
    (hpol : pol = .logged → s.op t ≠ none ∧ sb.Home (s.buf i).blockno) :
    (logWrite t i).KeepsFrom (spec pol sb init) t s loc fun _ => Resting := by
  have hl := hh.locked h
  obtain ⟨-, -, -, -, hdata⟩ := h.cache.holding hl hr.filling
  intro _ s' hs
  unfold logWriteStep at hs
  dsimp only at hs
  rw [Log.logWrite_eq] at hs
  split at hs
  · cases hs
  next pin l hw =>
  split at hw
  · cases hw
  next hroom =>
  split at hw
  · cases hw
  next hout =>
  obtain ⟨u, hu⟩ := h.op_of_outstanding hout
  obtain ⟨rfl, rfl⟩ := h.idle_of_op hu
  have hloc := h.ops.located (by simp)
  rw [not_or] at hroom
  -- the header is still one that recovery can follow
  have hcon : ∀ {c : Bcache T} {lg : Log}, SameBufs s { s with bcache := c } →
      (HeaderOk sb s.log.lh → sb.Home (s.buf i).blockno → (s.buf i).blockno < 2 ^ 32 →
        HeaderOk sb lg.lh) →
      (∀ b ∈ s.log.lh.blocks, b ∈ lg.lh.blocks) → (s.buf i).blockno ∈ lg.lh.blocks →
      pol = .logged → Logged sb init { s with
        log := lg, bcache := c, dirty := update s.dirty i false
        group := s.group ++ [⟨(s.op t).getD 0, (s.buf i).blockno, (s.buf i).data⟩] }
        (update loc t (loc t)) (.writing 0) := by
    intro c lg hb hok hsub hmem hp
    obtain ⟨hopt, hhome⟩ := hpol hp
    obtain ⟨id, hid⟩ := Option.ne_none_iff_exists'.mp hopt
    obtain ⟨r, hr', hri⟩ := List.mem_map.mp ((h.cache.locked t).2 i hl)
    have hlt : (s.buf i).blockno < 2 ^ 32 := by
      rw [← hri, (h.cache.refs t r hr').2.2]
      exact ((h.logged hp).refs t r hr').2
    rw [update_eq_self, hid]
    exact (h.logged hp).log_write hb hid (hdev.trans hloc.1) (by rw [hdata, hdev, hloc.1])
      (hok (h.logged hp).lh hhome hlt) hsub hmem
  split at hw
  · next hmem =>
    cases hw
    cases hs
    refine ⟨.of_same rfl rfl rfl (fun _ => ⟨rfl, rfl⟩) fun _ => ⟨rfl, rfl⟩, loc t,
      ⟨none, .writing 0, ?_, ?_, ?_, ?_⟩, hr⟩
    · rw [update_eq_self]
      exact h.cache.logWrite_absorbed hdev hmem
    · exact h.held.logWrite h.cache (fun _ => ⟨rfl, rfl, rfl, rfl, rfl⟩) rfl (fun _ hb => hb) rfl
        rfl rfl
    · exact h.ops.frame rfl rfl rfl (update_worker rfl)
    · exact hcon (fun _ => ⟨rfl, rfl, rfl, rfl, rfl⟩) (fun hok _ _ => hok) (fun _ hb => hb) hmem
  · next hmem =>
    cases hw
    cases hs
    have hpush := LogHeader.blocks_push s.log.lh (s.buf i).blockno
    have hsub : ∀ b ∈ s.log.lh.blocks, b ∈ (s.log.lh.push (s.buf i).blockno).blocks := by
      intro b hb
      rw [hpush]
      exact List.mem_append_left _ hb
    have hb : SameBufs s { s with bcache := s.bcache.bpin i } := sameBufs_set rfl rfl
    refine ⟨.of_same rfl rfl rfl (fun _ => ⟨rfl, rfl⟩) fun j => ⟨(hb j).1, (hb j).2.1⟩, loc t,
      ⟨none, .writing 0, ?_, ?_, ?_, ?_⟩, hr⟩
    · rw [update_eq_self]
      exact h.cache.logWrite_new hl hr.filling hdev hmem rfl rfl rfl rfl rfl rfl rfl
    · exact h.held.logWrite h.cache hb rfl hsub rfl rfl rfl
    · refine ⟨fun u => ?_, h.ops.idle, h.ops.busy, h.ops.quiet, h.ops.down, h.ops.down_idle,
        h.ops.outstanding, h.ops.located⟩
      rw [update_worker rfl, h.ops.worker]
      rfl
    · refine hcon hb (fun hok hhome hlt => ?_) hsub ?_
      · refine ⟨?_, ?_, ?_, ?_⟩
        · show s.log.lh.n + 1 ≤ LOGSIZE
          omega
        · show s.log.lh.n + 1 ≤ sb.nlog - 1
          rw [hloc.2.2] at hroom
          omega
        · rw [hpush]
          refine List.nodup_append.mpr ⟨hok.nodup, by simp, ?_⟩
          rintro a ha c hc rfl
          rw [List.mem_singleton] at hc
          exact hmem (hc ▸ ha)
        · rw [hpush]
          intro b hb
          rcases List.mem_append.mp hb with hb | hb
          · exact hok.home b hb
          · rw [List.mem_singleton.mp hb]
            exact ⟨hhome, hlt⟩
      · rw [hpush]
        simp

theorem beginOp_keepsFrom (h : At pol sb init w ph s loc) (hr : Resting (loc t))
    (hup : s.up = true) (hop : s.op t = none) :
    (beginOp t).KeepsFrom (spec pol sb init) t s loc fun _ => Resting := by
  intro _ s' hs
  unfold beginOpStep Log.beginOp at hs
  split at hs
  · cases hs
  next l hl =>
  split at hl
  · cases hl
  next hcom =>
  split at hl
  · cases hl
  cases hl
  cases hs
  have hw : w = none := by
    by_contra hw
    rcases h.ops.busy.mp hw with hc | hc
    · exact hcom hc
    · rw [hup] at hc
      cases hc
  refine ⟨.of_same rfl rfl rfl (fun _ => ⟨rfl, rfl⟩) fun _ => ⟨rfl, rfl⟩, loc t,
    ⟨w, ph, ?_, ?_, ?_, fun hp => ?_⟩, hr⟩
  · rw [update_eq_self]
    exact h.cache.congr rfl rfl rfl rfl rfl rfl (.inl rfl) (.refl _)
  · exact h.held.congr h.cache rfl rfl rfl rfl (.inl rfl) rfl rfl rfl
  · rw [update_eq_self]
    refine ⟨h.ops.worker, h.ops.idle, h.ops.busy, fun hc => absurd hw hc, h.ops.down,
      h.ops.down_idle, ?_, h.ops.located⟩
    have := card_begin hop s.nextOp
    have := h.ops.outstanding
    simp only
    omega
  · rw [update_eq_self]
    refine (h.logged hp).setOp rfl (Nat.le_succ _) (fun id hid => ?_) (fun _ _ _ _ => ⟨hop, rfl⟩)
      (fun _ => rfl) fun _ _ => rfl
    cases hid
    exact ⟨Nat.lt_succ_self _, le_rfl⟩

/-- `end_op`'s first critical section: the operation is over, and whoever ends the last one is
    the worker from now on. -/
theorem endOpStep_keepsFrom (h : At pol sb init w ph s loc) (hr : Resting (loc t))
    (hup : s.up = true) (hop : s.op t ≠ none)
    (hpol : pol = .logged → ∀ i, s.Holds t i → s.dirty i = false) :
    (Prog.atomic (endOpStep t)).KeepsFrom (spec pol sb init) t s loc fun doCommit l' =>
      if doCommit then ∃ lh, Working pol sb (.writing 0) lh l' else Resting l' := by
  obtain ⟨rfl, rfl⟩ := h.idle_of_op hop
  have hcard := card_end hop
  have hout := h.ops.outstanding
  have hclean : pol = .logged → ∀ i < NBUF, s.dirty i = true → (s.buf i).lock = some t → False :=
    fun hp i hi hd hl => absurd hd (by simp [hpol hp i ⟨hi, hl⟩])
  intro doCommit s' hs
  unfold endOpStep Log.endOp at hs
  dsimp only at hs
  split at hs
  · cases hs
  next d l hl =>
  split at hl
  · cases hl
  next hcom =>
  split at hl
  · next h0 =>
    -- the last one: this process commits
    cases hl
    cases hs
    have hnone : ∀ u, update s.op t none u = none := by
      intro u
      by_contra hu
      have := Finset.card_pos.mpr ⟨u, (by simpa using hu :
        u ∈ Finset.univ.filter fun u => update s.op t none u ≠ none)⟩
      omega
    refine ⟨.of_same rfl rfl rfl (fun hd => absurd hd (by simp [hup])) fun _ => ⟨rfl, rfl⟩,
      { loc t with
      worker := some (.writing 0, s.log.lh)
      mods := if pol = .logged then [] else (loc t).mods }, ⟨some t, .writing 0, ?_, ?_, ?_, ?_⟩,
        ?_⟩
    · exact h.cache.congr rfl rfl rfl rfl rfl rfl (.inl rfl) (.update rfl rfl rfl)
    · refine h.held.frame rfl (fun _ _ hd => hd) (fun j _ _ hv hd hb => .inl ⟨hv, hd, hb⟩)
        (fun _ _ _ hv => ⟨hv, rfl, rfl, rfl⟩) h.cache.locked_lt ?_ ?_ ?_
      · intro j hj
        dsimp only at hj
        split at hj
        · cases hj
        · exact h.held.mods t j hj
      · intro j hj hd hm
        dsimp only
        split
        · next hp =>
          have hl := (h.cache.lock j hj t).mpr (h.held.mods t j hm)
          exact (hclean hp j hj hd hl).elim
        · exact hm
      · exact fun k hk => ⟨(h.held.known t k hk).1, hk⟩
    · refine ⟨fun u => ?_, fun hc => (by cases hc), ?_, fun _ => hnone, h.ops.down, fun hc => ?_,
        ?_, fun _ => h.ops.located (by simp)⟩
      · by_cases hu : u = t
        · rw [hu, update_self, if_pos rfl]
        · have hne : ¬ (some t = some u) := fun hc => hu (Option.some.inj hc).symm
          rw [update_of_ne hu, h.ops.worker, if_neg hne, if_neg (by simp)]
      · simp
      · rw [hup] at hc
        cases hc
      · simp only
        omega
    · intro hp
      exact (h.logged hp).setOp rfl le_rfl (fun _ hid => by cases hid)
        (fun i hi hd hl => (hclean hp i hi hd hl).elim)
        (update_refs_eq rfl) fun u hu => update_of_ne hu ..
    · refine ⟨s.log.lh, rfl, hr.filling, hr.known, fun hp => ?_, fun hp => (h.logged hp).lh,
        fun hd => hd.elim⟩
      simp [hp]
  · cases hl
    cases hs
    refine ⟨.of_same rfl rfl rfl (fun _ => ⟨rfl, rfl⟩) fun _ => ⟨rfl, rfl⟩, loc t,
      ⟨none, .writing 0, ?_, ?_, ?_, fun hp => ?_⟩, hr⟩
    · rw [update_eq_self]
      exact h.cache.congr rfl rfl rfl rfl rfl rfl (.inl rfl) (.refl _)
    · exact h.held.congr h.cache rfl rfl rfl rfl (.inl rfl) rfl rfl rfl
    · rw [update_eq_self]
      refine ⟨h.ops.worker, h.ops.idle, h.ops.busy, fun hc => absurd rfl hc, h.ops.down,
        h.ops.down_idle, ?_, h.ops.located⟩
      simp only
      omega
    · rw [update_eq_self]
      exact (h.logged hp).setOp rfl le_rfl (fun _ hid => by cases hid)
        (fun i hi hd hl => (hclean hp i hi hd hl).elim)
        (fun _ => rfl) fun _ _ => rfl

/-- The worker is done: `log.committing = 0`, or `initlog` returns. -/
theorem At.done {lh : LogHeader} (h : At pol sb init w ph s loc)
    (hw : (loc t).worker = some (ph, lh)) (hpin : pinned lh ph = lh.blocks) (hboot : ph ≠ .boot)
    (hb : s'.bcache = s.bcache) (hdisk : s'.disk = s.disk) (hstore : s'.store = s.store)
    (hdirty : s'.dirty = s.dirty) (hpins : s'.pins = s.pins) (hop : s'.op = s.op)
    (hlog : s'.log = { s.log with committing := false }) (hup : s'.up = true)
    (hlogged : pol = .logged →
      Logged sb init s' (update loc t { loc t with worker := none }) (.writing 0)) :
    At pol sb init none (.writing 0) s'
      (update loc t { loc t with worker := none }) := by
  obtain ⟨rfl, -, rfl⟩ := h.worker_eq hw
  refine ⟨?_, ?_, ?_, hlogged⟩
  · refine h.cache.congr hb hdisk hstore hdirty hpins ?_ (.inl (by rw [hlog])) (.update rfl rfl rfl)
    rw [hlog, hpin]
    rfl
  · refine h.held.congr h.cache hb hdisk hdirty ?_ (.inl (by rw [hlog])) rfl rfl rfl
    rw [hlog, hpin]
    rfl
  · refine ⟨fun u => ?_, fun _ => rfl, by simp [hlog, hup], fun hc => absurd rfl hc, ?_, fun hc =>
      ?_,
      ?_, ?_⟩
    · rw [if_neg (by simp)]
      by_cases hu : u = t
      · rw [hu, update_self]
      · rw [update_of_ne hu, h.ops.worker, if_neg fun hc => hu (Option.some.inj hc).symm]
    · simp [hup, Phase.Down]
    · rw [hup] at hc
      cases hc
    · rw [hlog, hop]
      exact h.ops.outstanding
    · rw [hlog]
      exact fun _ => h.ops.located hboot

/-- `end_op` lets the others go on. -/
theorem done_keeps {lh : LogHeader} {l : Loc} (hw : Working pol sb (.writing 0) lh l) :
    (Prog.modify fun s : Sys T => { s with log := { s.log with committing := false } }).Keeps
      (spec pol sb init) t l fun _ => Resting := by
  refine .modify ?_
  rintro s loc ⟨w, ph, h⟩ rfl
  obtain ⟨rfl, rfl, -⟩ := h.worker_eq hw.worker
  have hup : s.up = true := by
    by_contra hup
    exact h.ops.down.mp (by simpa using hup)
  refine ⟨.of_same rfl rfl rfl (fun hd => absurd hd (by simp [hup])) fun _ => ⟨rfl, rfl⟩,
    { loc t with worker := none }, ⟨none, .writing 0, ?_⟩, rfl, hw.filling, hw.known⟩
  refine h.done hw.worker rfl (by simp) rfl rfl rfl rfl rfl rfl rfl hup fun hp => ?_
  have hlg := h.logged hp
  refine hlg.quiet rfl rfl rfl rfl rfl hlg.phase hlg.lh hlg.logged le_rfl
    (fun u id hu => ⟨(hlg.running u id hu).1, .inl hu⟩) (fun _ _ _ => ⟨rfl, rfl, rfl⟩)
    (fun u i _ _ _ => ⟨id, fun hwu hm => ?_⟩) hlg.store (update_refs fun r hr => .inl hr)
  rw [h.worker_unique hwu, hw.mods hp] at hm
  cases hm

theorem endOp_keepsFrom (hsb : pol = .logged → sb.Ok) (h : At pol sb init w ph s loc)
    (hr : Resting (loc t)) (hup : s.up = true) (hop : s.op t ≠ none)
    (hpol : pol = .logged → ∀ i, s.Holds t i → s.dirty i = false) :
    (endOp t).KeepsFrom (spec pol sb init) t s loc fun _ => Resting := by
  refine Prog.KeepsFrom.bind ⟨w, ph, h⟩ (endOpStep_keepsFrom h hr hup hop hpol) ?_
  intro doCommit l hl
  cases doCommit with
  | false => exact hl
  | true =>
    obtain ⟨lh, hw⟩ := hl
    exact (commit_keeps hsb hw).bind fun _ l ⟨lh, hw⟩ => done_keeps hw

/-- The first step of `initlog`: where the log is. -/
theorem At.mount {lh : LogHeader} (h : At pol sb init w .boot s loc)
    (hw : (loc t).worker = some (.boot, lh)) :
    At pol sb init (some t) .head
      { s with log := { s.log with start := sb.logstart, size := sb.nlog, dev := sb.dev } }
      (update loc t { loc t with worker := some (.head, lh) }) := by
  obtain ⟨rfl, -, rfl⟩ := h.worker_eq hw
  refine ⟨?_, ?_, ?_, fun hp => ?_⟩
  · exact h.cache.congr rfl rfl rfl rfl rfl rfl (.inr rfl) (.update rfl rfl rfl)
  · exact h.held.congr h.cache rfl rfl rfl rfl (.inr rfl) rfl rfl rfl
  · exact h.ops.rephase rfl rfl rfl rfl rfl Iff.rfl ⟨rfl, rfl, rfl⟩
  · exact (h.logged hp).rephase (fun _ => ⟨rfl, rfl, rfl, rfl, rfl⟩)
      (fun u hwu => by simp [h.worker_unique hwu]) (update_mods_eq rfl) (update_refs_eq rfl)
      (by simp) trivial (h.logged hp).lh fun hc => by cases hc

/-- `spec` without the promise to leave `up` alone. -/
def upSpec (pol : Policy) (sb : Layout) (init : Nat → Block) : Spec (Sys T) T Loc :=
  { spec pol sb init with guar := Guar }

/-- `initlog` returns and the file system is up. -/
theorem up_keeps {lh : LogHeader} {l : Loc} (hw : Working pol sb .recovered lh l)
    (hn : lh.n = 0) :
    (Prog.modify fun s : Sys T => { s with up := true }).Keeps (upSpec pol sb init) t l
      fun _ => Resting := by
  refine .modify ?_
  rintro s loc ⟨w, ph, h⟩ rfl
  obtain ⟨rfl, rfl, hlh⟩ := h.worker_eq hw.worker
  have hdown := h.ops.down_idle (h.ops.down.mpr trivial)
  refine ⟨⟨fun _ => rfl, fun _ => rfl, fun _ _ _ => ⟨rfl, rfl⟩, .inl rfl⟩,
    { loc t with worker := none }, ⟨none, .writing 0, ?_⟩, rfl, hw.filling, hw.known⟩
  refine h.done hw.worker ?_ (by simp) rfl rfl rfl rfl rfl rfl ?_ rfl fun hp => ?_
  · simp [pinned, LogHeader.blocks, hn]
  · rw [← hdown]
  · have hlg := h.logged hp
    refine hlg.quiet rfl rfl rfl rfl rfl
      ⟨hlg.phase, Nat.zero_le _, fun _ hj => absurd hj (Nat.not_lt_zero _)⟩ hlg.lh
      (by simp [hlg.group_nil]) (Nat.le_refl _) (fun u id hu => ⟨(hlg.running u id hu).1, .inl hu⟩)
      (fun _ _ _ => ⟨rfl, rfl, rfl⟩) (fun u i _ _ _ => ⟨id, fun hwu hm => ?_⟩)
      (fun _ => hlg.store trivial) (update_refs fun r hr => .inl hr)
    rw [h.worker_unique hwu, hw.mods hp] at hm
    cases hm

/-- `initlog` up to its return. -/
theorem recover_keeps {lh : LogHeader} {l : Loc} (hsb : pol = .logged → sb.Ok)
    (hw : Working pol sb .boot lh l) :
    (do
      Prog.modify fun s : Sys T =>
        { s with log := { s.log with start := sb.logstart, size := sb.nlog, dev := sb.dev } }
      recoverFromLog t).Keeps (spec pol sb init) t l
      fun _ l' => ∃ lh' : LogHeader, lh'.n = 0 ∧ Working pol sb .recovered lh' l' := by
  refine .bind (Q := fun _ => Working pol sb .head lh) ?_ fun _ _ hw =>
    recoverFromLog_keeps hsb hw
  refine .modify ?_
  rintro s loc ⟨w, ph, h⟩ rfl
  obtain ⟨rfl, rfl, -⟩ := h.worker_eq hw.worker
  exact ⟨.of_same rfl rfl rfl (fun _ => ⟨rfl, rfl⟩) fun _ => ⟨rfl, rfl⟩, _,
    ⟨some t, .head, h.mount hw.worker⟩, rfl, hw.filling, hw.known, hw.mods, hw.header, hw.refs⟩

theorem initlog_keeps {lh : LogHeader} {l : Loc} (hsb : pol = .logged → sb.Ok)
    (hw : Working pol sb .boot lh l) :
    (initlog t sb).Keeps (upSpec pol sb init) t l fun _ => Resting := by
  rw [initlog_eq]
  refine .bind ((recover_keeps hsb hw).weaken rfl rfl fun _ _ hg => hg.toGuar) ?_
  exact fun _ _ ⟨lh, hn, hw⟩ => up_keeps hw hn

/-- What a call that has returned leaves its process with; `bread` returns a buffer of the block
    that it holds. -/
structure Post (c : Call) (r : Option Nat) (l : Loc) : Prop where
  resting : Resting l
  bread : ∀ dev blockno, c = .bread dev blockno →
    ∃ i, r = some i ∧ ⟨i, dev, blockno⟩ ∈ l.refs ∧ i ∈ l.locked

/-- A call other than `bread` leaves nothing but a resting process to show. -/
theorem keepsFrom_post {p : Prog (Sys T) Unit} {c : Call} (h : Inv pol sb init s loc)
    (hp : p.KeepsFrom (spec pol sb init) t s loc fun _ => Resting)
    (hc : ∀ dev blockno, c ≠ .bread dev blockno) :
    (do p; return none : Prog (Sys T) (Option Nat)).KeepsFrom (spec pol sb init) t s loc
      (Post c) :=
  hp.bind h fun _ _ hr => ⟨hr, fun dev blockno he => absurd he (hc dev blockno)⟩

/-- Every call that its policy allows keeps the invariant. -/
theorem body_keepsFrom (hsb : pol = .logged → sb.Ok) {c : Call} (h : Inv pol sb init s loc)
    (hr : Resting (loc t)) (hmay : mayStart pol sb t c s) :
    (body t c).KeepsFrom (spec pol sb init) t s loc (Post c) := by
  obtain ⟨hup, hd, hl⟩ := hmay
  obtain ⟨w, ph, hat⟩ := h
  cases c with
  | bread dev blockno =>
    refine Prog.Keeps.from (Prog.Keeps.bind (bread_keeps hr.filling hl ?_) ?_) ⟨w, ph, hat⟩
    · intro _ ph lh hw
      rw [hr.worker] at hw
      cases hw
    · rintro i _ ⟨rfl, -⟩
      refine ⟨⟨hr.worker, rfl, hr.known⟩, fun _ _ he => ?_⟩
      cases he
      exact ⟨i, rfl, List.mem_cons_self, List.mem_cons_self⟩
  | store i f =>
    exact keepsFrom_post ⟨w, ph, hat⟩ (store_keepsFrom hat hr hd hl f) fun _ _ hc => by cases hc
  | bwrite i =>
    exact keepsFrom_post ⟨w, ph, hat⟩ (bwrite_keepsFrom hat hr hd hl) fun _ _ hc => by cases hc
  | logWrite i =>
    exact keepsFrom_post ⟨w, ph, hat⟩ (logWrite_keepsFrom hat hr hd.1 hd.2 hl)
      fun _ _ hc => by cases hc
  | brelse i =>
    refine keepsFrom_post ⟨w, ph, hat⟩ (brelse_keepsFrom hat (hd.1.locked hat) hr.filling ?_ hl
      |>.mono ?_) fun _ _ hc => by cases hc
    · refine hd.2.imp_right fun hd => ?_
      obtain ⟨-, rfl⟩ := hat.idle_of_op hd.1
      exact hd.2
    · rintro _ _ rfl
      exact ⟨hr.worker, hr.filling, by simp [Loc.put, Loc.dropRef, Loc.forget, Loc.unlock,
        hr.known]⟩
  | bpin i =>
    exact keepsFrom_post ⟨w, ph, hat⟩ (bpin_keepsFrom hat hr hup hd hl) fun _ _ hc => by cases hc
  | bunpin i =>
    exact keepsFrom_post ⟨w, ph, hat⟩ (bunpin_keepsFrom hat hr hup hd.1 hd.2 hl)
      fun _ _ hc => by cases hc
  | beginOp =>
    exact keepsFrom_post ⟨w, ph, hat⟩ (beginOp_keepsFrom hat hr hup hd) fun _ _ hc => by cases hc
  | endOp =>
    exact keepsFrom_post ⟨w, ph, hat⟩ (endOp_keepsFrom hsb hat hr hup hd hl)
      fun _ _ hc => by cases hc
  | initlog sb => exact hd.elim

end

end Xv6.BlockLayer
