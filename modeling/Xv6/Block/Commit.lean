import Xv6.Block.Steps

/-!
# Committing and recovering, `log.c`

The process that commits or recovers (the *worker*) runs with nobody in an operation. Its ghost
value says which phase it is in and which header it works on; each round of `write_log` and of
`install_trans` and each `write_head` moves it to the next phase.
-/

namespace Xv6.BlockLayer

open Lib Function List

section

variable {T : Type} {pol : Policy} {sb : Layout} {init : Nat → Block}
  {w : Option T} {ph ph' : Phase} {s s' : Sys T} {loc loc' : T → Loc} {t : T} {i : Nat}
  {lh : LogHeader}

theorem Held.rephase (h : Held s loc ph) (hpin : pinned s.log.lh ph' = pinned s.log.lh ph) :
    Held s loc ph' := ⟨h.mods, hpin ▸ h.dirty, h.known⟩

variable [DecidableEq T]

/-- What `bwrite` does, and when it is the commit. -/
theorem bwriteStep_ok (hs : bwriteStep t i s = .ok () s') :
    Wrote s s' i ∧
      ((s.log.committing = true ∧ (s.buf i).dev = s.log.dev ∧ (s.buf i).blockno = s.log.start ∧
          announces (s.buf i).data = true ∧
          s'.committed = s.committed ++ [s.group] ∧ s'.group = []) ∨
        (¬ (s.log.committing = true ∧ (s.buf i).dev = s.log.dev ∧
            (s.buf i).blockno = s.log.start ∧ announces (s.buf i).data = true) ∧
          s'.committed = s.committed ∧ s'.group = s.group)) := by
  unfold bwriteStep at hs
  dsimp only at hs
  split at hs
  · cases hs
  · split at hs
    · next hc =>
      cases hs
      exact ⟨⟨rfl, rfl, rfl, rfl, rfl, rfl, rfl, rfl, rfl⟩,
        .inl ⟨hc.1, hc.2.1, hc.2.2.1, hc.2.2.2, rfl, rfl⟩⟩
    · next hc =>
      cases hs
      exact ⟨⟨rfl, rfl, rfl, rfl, rfl, rfl, rfl, rfl, rfl⟩, .inr ⟨hc, rfl, rfl⟩⟩

/-- A process can write a buffer it holds. -/
theorem bwriteStep_able (hl : (s.buf i).lock = some t) : ∃ r s', bwriteStep t i s = .ok r s' := by
  unfold bwriteStep
  dsimp only
  rw [if_neg (by simp [hl])]
  split
  · exact ⟨_, _, rfl⟩
  · exact ⟨_, _, rfl⟩

theorem update_refs_eq {l : Loc} (hr : l.refs = (loc t).refs) (u : T) :
    (update loc t l u).refs = (loc u).refs := by
  by_cases hu : u = t
  · rw [hu, update_self, hr]
  · rw [update_of_ne hu]

theorem update_mods_eq {l : Loc} (hm : l.mods = (loc t).mods) (u : T) :
    (update loc t l u).mods = (loc u).mods := by
  by_cases hu : u = t
  · rw [hu, update_self, hm]
  · rw [update_of_ne hu]

variable [Fintype T]

theorem At.worker_eq (h : At pol sb init w ph s loc) (hw : (loc t).worker = some (ph', lh)) :
    w = some t ∧ ph = ph' ∧ s.log.lh = lh := by
  rw [h.ops.worker] at hw
  split at hw
  · next hwt =>
    cases hw
    exact ⟨hwt, rfl, rfl⟩
  · cases hw

theorem At.worker_unique (h : At pol sb init (some t) ph s loc) {u : T}
    (hu : (loc u).worker ≠ none) : u = t := by
  rw [h.ops.worker] at hu
  split at hu
  · next hwt => exact (Option.some.inj hwt).symm
  · exact absurd rfl hu

/-- The worker moves on to phase `ph'`. -/
theorem Ops.rephase {l : Loc} (h : Ops sb (some t) ph s loc)
    (hw : l.worker = some (ph', s'.log.lh)) (hcom : s'.log.committing = s.log.committing)
    (hout : s'.log.outstanding = s.log.outstanding) (hup : s'.up = s.up) (hop : s'.op = s.op)
    (hdown : ph'.Down ↔ ph.Down)
    (hloc : s'.log.dev = sb.dev ∧ s'.log.start = sb.logstart ∧ s'.log.size = sb.nlog) :
    Ops sb (some t) ph' s' (update loc t l) where
  worker u := by
    by_cases hu : u = t
    · rw [hu, update_self, hw, if_pos rfl]
    · have hne : ¬ (some t = some u) := fun hc => hu (Option.some.inj hc).symm
      rw [update_of_ne hu, h.worker, if_neg hne, if_neg hne]
  idle hn := by cases hn
  busy := by rw [hcom, hup]; exact h.busy
  quiet := by rw [hop]; exact h.quiet
  down := by rw [hup, hdown]; exact h.down
  down_idle := by rw [hcom, hup]; exact h.down_idle
  outstanding := by rw [hout, hop]; exact h.outstanding
  located _ := hloc

/-! ## Single steps of the worker -/

/-- The worker stores into a buffer it has read. -/
theorem At.store_worker (h : At pol sb init w ph s loc) (ks : List Known)
    (hl : i ∈ (loc t).locked) (hf : (loc t).filling = none) (hw : (loc t).worker ≠ none)
    (hdev : pol = .logged → (s.buf i).dev = sb.dev)
    (hhome : pol = .logged → ∀ k, ph = .writing k → ¬ sb.Home (s.buf i).blockno) (d : Block)
    (hks : ∀ k ∈ ks, k.i ∈ (loc t).locked ∧ (s.buf k.i).valid = true ∧
      (k.i = i → k.data = d ∧ k.synced = false) ∧
      (k.i ≠ i → (s.buf k.i).data = k.data ∧ (k.synced = true →
        s.disk (s.buf k.i).dev (s.buf k.i).blockno = k.data ∧ s.dirty k.i = false))) :
    let s' := { s with bcache := s.bcache.set i { s.buf i with data := d }
                       store := set₂ s.store (s.buf i).dev (s.buf i).blockno d
                       dirty := update s.dirty i true }
    Steady s s' ∧ At pol sb init w ph s'
      (update loc t { loc t with mods := i :: (loc t).mods, known := ks }) := by
  intro s'
  obtain ⟨hi, -, hlk, hv, -⟩ := h.cache.holding hl hf
  have hid : s'.bcache = s.bcache.set i { s.buf i with data := d } := rfl
  refine ⟨⟨⟨fun _ => rfl, fun _ => rfl, fun j _ _ => setBuf_id hid rfl rfl j, ?_⟩, rfl,
    fun _ => rfl⟩, ?_, ?_, ?_, ?_⟩
  · refine .inr ⟨t, i, ⟨hi, hlk⟩, hv, ?_⟩
    simp [s', Sys.buf]
  · exact (h.cache.store hl hf d).congr rfl rfl rfl rfl rfl rfl (.inl rfl) (.update rfl rfl rfl)
  · exact h.held.store h.cache hl d rfl (fun j => mem_cons) hks
  · exact h.ops.frame rfl rfl rfl (update_worker rfl)
  · intro hp
    refine (h.logged hp).modify hlk hi (hdev hp) rfl rfl rfl rfl rfl rfl rfl rfl rfl
      (fun u hu => update_of_ne hu ..) ?_ ?_ ?_ (fun k hk => .inr (hhome hp k hk))
        (.inr ?_)
    · rw [update_self]
    · rw [update_self]
      exact fun j hj => mem_cons_of_mem _ hj
    · rw [update_self]
    · rw [update_self]
      exact ⟨hw, mem_cons_self⟩

theorem bwriteStep_guar (h : At pol sb init w ph s loc) (hs : bwriteStep t i s = .ok () s') :
    Steady s s' := by
  obtain ⟨hwr, hc⟩ := bwriteStep_ok hs
  refine ⟨⟨fun hup => ?_, fun _ => by rw [hwr.log], fun j _ _ => ?_, .inl hwr.store⟩, hwr.up,
    fun _ => hwr.pins⟩
  · rcases hc with hc | hc
    · rw [h.ops.down_idle hup] at hc
      exact absurd hc.1 (by simp)
    · exact hc.2.1
  · rw [Sys.buf, hwr.bcache, Sys.buf]
    exact ⟨rfl, rfl⟩

/-- The worker writes a buffer and moves on to phase `ph'`, with the same pins. -/
theorem At.bwrite_worker {l : Loc} (h : At pol sb init (some t) ph s loc) (hwr : Wrote s s' i)
    (hl : i ∈ (loc t).locked) (hf : (loc t).filling = none)
    (hpin : pinned s.log.lh ph' = pinned s.log.lh ph) (hlrefs : l.refs = (loc t).refs)
    (hlocked : l.locked = (loc t).locked) (hlf : l.filling = (loc t).filling)
    (hlw : l.worker = some (ph', s.log.lh)) (hmods : l.mods = (loc t).mods.filter (· ≠ i))
    (hknown : ∀ k ∈ l.known, k ∈ (loc t).known ∨
      k.i = i ∧ ∃ k' ∈ (loc t).known, k'.i = i ∧ k'.data = k.data)
    (hboot : ph ≠ .boot)
    (hdown : ph'.Down ↔ ph.Down)
    (hlogged : pol = .logged → Logged sb init s' (update loc t l) ph') :
    At pol sb init (some t) ph' s' (update loc t l) := by
  have hlog := hwr.log
  refine ⟨?_, ?_, ?_, hlogged⟩
  · refine (h.cache.bwrite hl hf hwr).congr
      rfl rfl rfl rfl rfl ?_ (.inl rfl) (.update hlrefs hlocked hlf)
    rw [hlog, hpin]
  · refine (h.held.bwrite h.cache hl hf hwr hlocked ?_ ?_
      hknown).rephase ?_
    · rw [hmods]
      exact fun j hj => mem_of_mem_filter hj
    · rw [hmods]
      exact fun j hj hji => mem_filter.mpr ⟨hj, by simpa using hji⟩
    · rw [hlog, hpin]
  · exact h.ops.rephase (by rw [hlw, hlog]) (by rw [hlog]) (by rw [hlog]) hwr.up hwr.op
      hdown (by rw [hlog]; exact h.ops.located hboot)

/-- The worker after it has written buffer `i`. -/
theorem At.afterWrite {l : Loc} (h : At pol sb init (some t) ph s loc) (hr : l.refs = (loc t).refs)
    (hw : l.worker ≠ none) (hmods : l.mods = (loc t).mods.filter (· ≠ i)) :
    AfterWrite loc (update loc t l) i := by
  refine ⟨update_refs_eq hr, fun u j hji hwu hj => ?_⟩
  obtain rfl := h.worker_unique hwu
  rw [update_self, hmods]
  exact ⟨hw, mem_filter.mpr ⟨hj, by simpa using hji⟩⟩

/-- The worker's `bwrite`. Under the file system's discipline the log's invariant has to hold with
    the block on the disk. -/
theorem bwrite_keeps {l : Loc} (ph' : Phase) (ks : List Known) (hi : i ∈ l.locked)
    (hf : l.filling = none) (hw : l.worker = some (ph, lh)) (hboot : ph ≠ .boot)
    (hpin : pinned lh ph' = pinned lh ph) (hdown : ph'.Down ↔ ph.Down)
    (hks : ∀ k ∈ ks, k ∈ l.known ∨ k.i = i ∧ ∃ k' ∈ l.known, k'.i = i ∧ k'.data = k.data)
    (hlog : pol = .logged → ∀ s s' loc, At pol sb init (some t) ph s loc → loc t = l →
      s.log.lh = lh → bwriteStep t i s = .ok () s' → Logged sb init s' (update loc t { l with
        mods := l.mods.filter (· ≠ i), known := ks, worker := some (ph', lh) }) ph') :
    (bwrite t i).Keeps (spec pol sb init) t l fun _ l' => l' = { l with
      mods := l.mods.filter (· ≠ i), known := ks, worker := some (ph', lh) } := by
  refine .atomic ?_
  rintro s loc ⟨w, ph, hI⟩ rfl
  refine ⟨fun _ => bwriteStep_able (hI.cache.holding hi hf).2.2.1, fun _ s' hs => ?_⟩
  obtain ⟨rfl, rfl, rfl⟩ := hI.worker_eq hw
  refine ⟨bwriteStep_guar hI hs, _, ⟨some t, ph', ?_⟩, rfl⟩
  exact hI.bwrite_worker (bwriteStep_ok hs).1 hi hf hpin rfl rfl rfl rfl rfl hks hboot hdown
    fun hp => hlog hp s s' loc hI rfl rfl hs

/-! ## The rounds of the loops -/

/-- The ghost value of the worker between two rounds. -/
structure Working (pol : Policy) (sb : Layout) (ph : Phase) (lh : LogHeader) (l : Loc) : Prop where
  worker : l.worker = some (ph, lh)
  filling : l.filling = none
  known : l.known = []
  mods : pol = .logged → l.mods = []
  header : pol = .logged → HeaderOk sb lh
  refs : ph.Down → l.refs = []

/-- The log as the worker has read it. -/
def LogIs (sb : Layout) (lh : LogHeader) (lg : Log) : Prop :=
  lg.dev = sb.dev ∧ lg.start = sb.logstart ∧ lg.lh = lh

/-- With the worker's own buffers written and nobody in an operation, nothing is modified. -/
theorem At.not_dirty (h : At pol sb init (some t) ph s loc) (hp : pol = .logged)
    (hm : (loc t).mods = []) : ∀ j < NBUF, s.dirty j = false := by
  intro j hj
  by_contra hd
  obtain ⟨-, u, -, hc | hc⟩ := (h.logged hp).dirty j hj (by simpa using hd)
  · exact hc.1 (h.ops.quiet (by simp) u)
  · rw [h.worker_unique hc.1, hm] at hc
    simp at hc

/-- Then a block outside the pins is on the disk as it was last stored. -/
theorem At.on_disk (h : At pol sb init (some t) ph s loc) (hp : pol = .logged)
    (hm : (loc t).mods = []) {b : Nat} (hb : b ∉ pinned s.log.lh ph) :
    s.disk sb.dev b = s.store sb.dev b := by
  by_contra hne
  obtain ⟨j, hj, -, -, -, hc | hc⟩ := h.cache.clean _ _ hne
  · rw [h.not_dirty hp hm j hj] at hc
    simp at hc
  · exact hb hc.2

/-- The worker copies buffer `j` to buffer `i` and remembers that both have the same bytes; with
    `sy`, that those of `j` are on the disk. -/
theorem memmove_keeps {l : Loc} {i j a b : Nat} (sy : Bool) (hi : i ∈ l.locked)
    (hj : j ∈ l.locked) (hf : l.filling = none) (hw : l.worker = some (ph, lh)) (hji : j ≠ i)
    (hir : ⟨i, sb.dev, a⟩ ∈ l.refs) (hjr : ⟨j, sb.dev, b⟩ ∈ l.refs)
    (hhome : pol = .logged → ∀ k, ph = .writing k → ¬ sb.Home a)
    (hsy : sy = true → pol = .logged ∧ l.mods = [] ∧ b ∉ pinned lh ph) :
    (memmove i j).Keeps (spec pol sb init) t l fun _ l' => ∃ d,
      l' = { l with mods := i :: l.mods, known := [⟨i, d, false⟩, ⟨j, d, sy⟩] } := by
  refine .modify ?_
  rintro s loc ⟨w, ph, hI⟩ rfl
  obtain ⟨rfl, rfl, rfl⟩ := hI.worker_eq hw
  obtain ⟨-, hdi, hbi⟩ := hI.cache.refs t _ hir
  obtain ⟨-, hdj, hbj⟩ := hI.cache.refs t _ hjr
  obtain ⟨-, -, -, hvi, -⟩ := hI.cache.holding hi hf
  obtain ⟨hlt, -, -, hvj, hdata⟩ := hI.cache.holding hj hf
  have hks : ∀ k ∈ [(⟨i, (s.buf j).data, false⟩ : Known), ⟨j, (s.buf j).data, sy⟩],
      k.i ∈ (loc t).locked ∧ (s.buf k.i).valid = true ∧
        (k.i = i → k.data = (s.buf j).data ∧ k.synced = false) ∧
        (k.i ≠ i → (s.buf k.i).data = k.data ∧ (k.synced = true →
          s.disk (s.buf k.i).dev (s.buf k.i).blockno = k.data ∧ s.dirty k.i = false)) := by
    intro k hk
    simp only [mem_cons, not_mem_nil, or_false] at hk
    rcases hk with rfl | rfl
    · exact ⟨hi, hvi, fun _ => ⟨rfl, rfl⟩, fun hc => absurd rfl hc⟩
    · refine ⟨hj, hvj, fun hc => absurd hc hji, fun _ => ⟨rfl, fun hs => ?_⟩⟩
      obtain ⟨hp, hm, hb⟩ := hsy hs
      refine ⟨?_, hI.not_dirty hp hm j hlt⟩
      simp only [hdata, hdj, hbj]
      exact hI.on_disk hp hm hb
  obtain ⟨hg, hI'⟩ := hI.store_worker _ hi hf (by rw [hw]; simp) (fun _ => hdi)
    (fun hp k hk => hbi ▸ hhome hp k hk) (s.buf j).data hks
  exact ⟨hg, _, ⟨_, _, hI'⟩, _, rfl⟩

/-- The worker lets go of its last buffer. -/
theorem put_keeps {l : Loc} (hi : i ∈ l.locked) (hf : l.filling = none)
    (hw : l.worker = some (ph, lh)) (hik : i ∉ l.mods) (hk : ∀ k ∈ l.known, k.i = i)
    (hm : pol = .logged → l.mods = []) (hlh : pol = .logged → HeaderOk sb lh)
    (hrefs : ph.Down → ∃ b, l.refs = [⟨i, sb.dev, b⟩]) :
    (brelse t i).Keeps (spec pol sb init) t l fun _ => Working pol sb ph lh := by
  refine .mono (brelse_keeps hi hf hik (by rw [hw]; simp)) ?_
  rintro _ _ rfl
  refine ⟨hw, hf, ?_, fun hp => ?_, hlh, fun hd => ?_⟩
  · exact filter_eq_nil_iff.mpr fun k hk' => by simp [hk k hk']
  · simp [Loc.put, Loc.dropRef, Loc.forget, Loc.unlock, hm hp]
  · obtain ⟨b, hr⟩ := hrefs hd
    simp [Loc.put, Loc.dropRef, Loc.forget, Loc.unlock, hr]

/-- The worker lets go of the two buffers of a round. -/
theorem put_put {l : Loc} (hi : i ∈ l.locked) {j : Nat} (hj : j ∈ l.locked) (hji : j ≠ i)
    (hf : l.filling = none) (hw : l.worker = some (ph, lh)) (hik : i ∉ l.mods)
    (hjk : j ∉ l.mods) (hk : ∀ k ∈ l.known, k.i = i ∨ k.i = j) (hm : pol = .logged → l.mods = [])
    (hlh : pol = .logged → HeaderOk sb lh)
    (hrefs : ph.Down → ∃ a b, l.refs = [⟨j, sb.dev, a⟩, ⟨i, sb.dev, b⟩]) :
    (do brelse t i; brelse t j).Keeps (spec pol sb init) t l
      fun _ => Working pol sb ph lh := by
  refine .bind (brelse_keeps hi hf hik (by rw [hw]; simp)) ?_
  rintro _ _ rfl
  refine put_keeps ?_ hf hw ?_ ?_ ?_ hlh fun hd => ?_
  · exact (mem_erase_of_ne hji).mpr hj
  · exact fun hc => hjk (mem_of_mem_filter hc)
  · intro k hk'
    obtain ⟨hk', hki⟩ := mem_filter.mp hk'
    exact (hk k hk').resolve_left (by simpa using hki)
  · intro hp
    simp [Loc.put, Loc.dropRef, Loc.forget, Loc.unlock, hm hp]
  · obtain ⟨a, b, hr⟩ := hrefs hd
    exact ⟨a, by simp [Loc.put, Loc.dropRef, Loc.forget, Loc.unlock, hr, hji]⟩

theorem LogHeader.not_mem_pinned (hlh : HeaderOk sb lh) {b : Nat} (hb : ¬ sb.Home b) :
    b ∉ pinned lh ph := by
  intro hc
  refine hb (hlh.home b ?_).1
  cases ph with
  | boot => cases hc
  | head => cases hc
  | writing k => exact hc
  | installing r k =>
    cases r with
    | false => exact mem_of_mem_drop hc
    | true => cases hc
  | clearing r => cases hc
  | recovered => cases hc

theorem HeaderOk.log_block (hlh : HeaderOk sb lh) (hsb : sb.Ok) {k : Nat} (hk : k < lh.n) :
    sb.logstart + k + 1 < 2 ^ 32 ∧ ¬ sb.Home (sb.logstart + k + 1) := by
  have hr := hlh.room
  have hlt := hsb.lt
  refine ⟨by omega, ?_⟩
  rw [add_assoc]
  exact hsb.not_home (by omega)

/-- What the worker holds in round `k` of a loop: buffer `i` has the block in the log and buffer
    `j` the home block. -/
structure Pair (pol : Policy) (sb : Layout) (ph : Phase) (lh : LogHeader) (k i j : Nat) (l : Loc) :
    Prop where
  ne : j ≠ i
  log_locked : i ∈ l.locked
  home_locked : j ∈ l.locked
  log_ref : ⟨i, sb.dev, sb.logstart + k + 1⟩ ∈ l.refs
  home_ref : ⟨j, sb.dev, lh.block k⟩ ∈ l.refs
  worker : l.worker = some (ph, lh)
  filling : l.filling = none
  mods : pol = .logged → l.mods = []
  log_clean : i ∉ l.mods
  home_clean : j ∉ l.mods
  refs : ph.Down → l.refs = [⟨j, sb.dev, lh.block k⟩, ⟨i, sb.dev, sb.logstart + k + 1⟩]

/-- The two `bread` of a round. -/
theorem pair_keeps {k : Nat} {lg : Log} {l : Loc} {f : Nat → Nat → Prog (Sys T) Unit}
    {Q : Unit → Loc → Prop} (hsb : pol = .logged → sb.Ok) (hlg : LogIs sb lh lg) (hk : k < lh.n)
    (h : Working pol sb ph lh l)
    (hf : ∀ i j l', Pair pol sb ph lh k i j l' → (f i j).Keeps (spec pol sb init) t l' Q) :
    (do let i ← bread t lg.dev (lg.start + k + 1)
        let j ← bread t lg.dev (lg.lh.block k)
        f i j).Keeps (spec pol sb init) t l Q := by
  obtain ⟨hdev, hstart, hlh⟩ := hlg
  rw [hdev, hstart, hlh]
  have hroom := fun hp => (h.header hp).log_block (hsb hp) hk
  refine .bind (bread_keeps h.filling (fun hp => ⟨rfl, (hroom hp).1⟩) ?_) ?_
  · intro _ ph' lh' hw hd
    rw [h.worker] at hw
    cases hw
    rw [h.refs hd]
    exact ⟨by decide, by simp⟩
  rintro i _ ⟨rfl, -, him⟩
  refine .bind (bread_keeps rfl (fun hp => ⟨rfl, ((h.header hp).home_block hk).2⟩) ?_) ?_
  · intro hp ph' lh' hw hd
    cases h.worker.symm.trans hw
    have hr : (l.took i sb.dev (sb.logstart + k + 1)).refs = [⟨i, sb.dev, sb.logstart + k + 1⟩] :=
      congrArg _ (h.refs hd)
    rw [hr]
    refine ⟨Nat.lt_of_sub_eq_succ rfl, fun r hr => ?_⟩
    rw [mem_singleton.mp hr]
    rintro ⟨-, hc⟩
    have hc' : sb.logstart + k + 1 = lh.block k := hc
    exact (hroom hp).2 (hc' ▸ ((h.header hp).home_block hk).1)
  rintro j _ ⟨rfl, hnew, hjm⟩
  exact hf i j _
    { ne := fun hc => hnew (hc ▸ mem_cons_self)
      log_locked := mem_cons_of_mem _ mem_cons_self
      home_locked := mem_cons_self
      log_ref := mem_cons_of_mem _ mem_cons_self
      home_ref := mem_cons_self
      worker := h.worker
      filling := rfl
      mods := h.mods
      log_clean := him
      home_clean := hjm
      refs := fun hd => congrArg (fun rs => _ :: _ :: rs) (h.refs hd) }

theorem writeLogBlock_keeps {k : Nat} {lg : Log} {l : Loc} (hsb : pol = .logged → sb.Ok)
    (hlg : LogIs sb lh lg) (hk : k < lh.n) (h : Working pol sb (.writing k) lh l) :
    (writeLogBlock t lg k).Keeps (spec pol sb init) t l
      fun _ => Working pol sb (.writing (k + 1)) lh := by
  refine pair_keeps hsb hlg hk h fun i j l₂ h₂ => ?_
  refine .bind (memmove_keeps false h₂.log_locked h₂.home_locked h₂.filling h₂.worker h₂.ne
    h₂.log_ref h₂.home_ref (fun hp _ _ => ((h.header hp).log_block (hsb hp) hk).2)
    fun hc => by cases hc) ?_
  rintro _ _ ⟨d, rfl⟩
  -- bwrite: the log has the block
  refine .bind (bwrite_keeps (.writing (k + 1)) [] h₂.log_locked h₂.filling h₂.worker
    (by simp) rfl Iff.rfl (by simp) fun hp s s' loc hI hloc hlh hs => ?_) ?_
  · obtain ⟨hwr, hc⟩ := bwriteStep_ok hs
    obtain ⟨-, hdi, hbi⟩ := hI.cache.refs t ⟨i, _, _⟩ (by rw [hloc]; exact h₂.log_ref)
    obtain ⟨-, hdj, hbj⟩ := hI.cache.refs t ⟨j, _, _⟩ (by rw [hloc]; exact h₂.home_ref)
    obtain ⟨-, -, hki, -⟩ := hI.held.known t ⟨i, d, false⟩ (by rw [hloc]; simp)
    obtain ⟨-, hvj, hkj, -⟩ := hI.held.known t ⟨j, d, false⟩ (by rw [hloc]; simp)
    have hsame : s'.committed = s.committed ∧ s'.group = s.group := by
      rcases hc with hc | hc
      · rw [(hI.ops.located (by simp)).2.1, hbi] at hc
        exact absurd hc.2.2.1 (by simp only; omega)
      · exact hc.2
    refine (hI.logged hp).write_log (hsb hp) hwr hsame.1 hsame.2 ?_ (hlh ▸ hk) hdi hbi ?_
    · exact hI.afterWrite (by rw [hloc]) (by simp) (by rw [hloc])
    · rw [hki, ← hkj, hI.cache.data j (hI.cache.locked_lt t j (by rw [hloc]; exact h₂.home_locked))
        hvj, hdj, hbj, hlh]
  rintro _ _ rfl
  refine put_put ?_ ?_ (Ne.symm h₂.ne) ?_ rfl ?_ ?_ ?_ ?_ h.header fun hd => hd.elim
  · exact h₂.home_locked
  · exact h₂.log_locked
  · exact h₂.filling
  · simp [h₂.ne, h₂.home_clean]
  · simp
  · simp
  · intro hp
    simp [h₂.mods hp]

/-- `install_trans` unpins a block that it has just written. -/
theorem At.logUnpin {k : Nat} {l : Loc} (h : At pol sb init (some t) (.installing false k) s loc)
    (hl : i ∈ (loc t).locked) (hf : (loc t).filling = none) (hk : k < s.log.lh.n)
    (hdev : (s.buf i).dev = sb.dev) (hbno : (s.buf i).blockno = s.log.lh.block k)
    (hdisk : s.disk (s.buf i).dev (s.buf i).blockno = (s.buf i).data)
    (hclean : s.dirty i = false)
    (hlog : pol = .logged →
      s.disk sb.dev (s.log.lh.block k) = s.disk sb.dev (sb.logstart + k + 1))
    (hlr : l.refs = (loc t).refs) (hll : l.locked = (loc t).locked)
    (hlf : l.filling = (loc t).filling) (hlm : l.mods = (loc t).mods) (hlk : l.known = [])
    (hlw : l.worker = some (.installing false (k + 1), s.log.lh)) :
    Steady s { s with bcache := s.bcache.bunpin i } ∧
      At pol sb init (some t) (.installing false (k + 1)) { s with bcache := s.bcache.bunpin i }
        (update loc t l) := by
  obtain ⟨hi, -, -, hv, hdata⟩ := h.cache.holding hl hf
  have hloc := h.ops.located (by simp)
  have hd : (s.buf i).dev = s.log.dev := hdev.trans hloc.1.symm
  have hsame : SameBufs s { s with bcache := s.bcache.bunpin i } := sameBufs_set rfl rfl
  refine ⟨.of_same rfl rfl rfl (fun _ => ⟨rfl, rfl⟩) fun j => ⟨(hsame j).1, (hsame j).2.1⟩, ?_, ?_,
    ?_, ?_⟩
  · refine (h.cache.logUnpin hi hk hv hd hbno ?_).congr rfl rfl rfl rfl rfl rfl (.inl rfl)
      (.update hlr hll hlf)
    rw [← hd, ← hbno, hdisk, hdata]
  · exact h.held.logUnpin h.cache hsame hi hv hd hbno hk hclean hll hlm (by simp [hlk])
  · exact h.ops.rephase hlw rfl rfl rfl rfl Iff.rfl hloc
  · intro hp
    have hlg := h.logged hp
    obtain ⟨hs, -, hinst⟩ := hlg.phase
    refine hlg.rephase hsame ?_ ?_ (update_refs_eq hlr) (by simp)
      ?_ hlg.lh ?_
    · exact fun u hwu => by simp [h.worker_unique hwu, hlw]
    · exact update_mods_eq hlm
    · refine ⟨hs, hk, fun j hj => ?_⟩
      rcases Nat.lt_succ_iff_lt_or_eq.mp hj with hj | rfl
      · exact hinst j hj
      · exact hlog hp
    · intro hcur b hb hn
      rw [hlg.store hcur b hb hn, hlg.group_nil (by simp), applyAll_concat_nil]

theorem installBlock_keeps {r : Bool} {k : Nat} {lg : Log} {l : Loc}
    (hsb : pol = .logged → sb.Ok) (hlg : LogIs sb lh lg) (hk : k < lh.n)
    (h : Working pol sb (.installing r k) lh l) :
    (installBlock t r lg k).Keeps (spec pol sb init) t l
      fun _ => Working pol sb (.installing r (k + 1)) lh := by
  refine pair_keeps hsb hlg hk h fun i j l₂ h₂ => ?_
  -- under the file system's discipline the block in the log is on the disk
  refine .bind (memmove_keeps (decide (pol = .logged)) h₂.home_locked h₂.log_locked h₂.filling
    h₂.worker (Ne.symm h₂.ne) h₂.home_ref h₂.log_ref (fun _ _ hc => by cases hc) fun hsy => ?_) ?_
  · have hp : pol = .logged := by simpa using hsy
    exact ⟨hp, h₂.mods hp,
      LogHeader.not_mem_pinned (h.header hp) ((h.header hp).log_block (hsb hp) hk).2⟩
  rintro _ _ ⟨d, rfl⟩
  -- bwrite: the block is installed; in recovery there is no pin to drop, so it counts at once
  refine .bind (bwrite_keeps (.installing r (if r then k + 1 else k))
    (if r then [] else [⟨j, d, true⟩, ⟨i, d, decide (pol = .logged)⟩]) h₂.home_locked h₂.filling
    h₂.worker (by simp) (by cases r <;> rfl) Iff.rfl ?_ fun hp s s' loc hI hloc hlh hs => ?_) ?_
  · intro m hm
    cases r with
    | true => cases hm
    | false =>
      simp only [Bool.false_eq_true, if_false, mem_cons, not_mem_nil, or_false] at hm
      rcases hm with rfl | rfl
      · exact .inr ⟨rfl, ⟨j, d, false⟩, by simp, rfl, rfl⟩
      · exact .inl (by simp)
  · obtain ⟨hwr, hc⟩ := bwriteStep_ok hs
    obtain ⟨-, hdi, hbi⟩ := hI.cache.refs t ⟨i, _, _⟩ (by rw [hloc]; exact h₂.log_ref)
    obtain ⟨-, hdj, hbj⟩ := hI.cache.refs t ⟨j, _, _⟩ (by rw [hloc]; exact h₂.home_ref)
    obtain ⟨-, -, -, hki⟩ := hI.held.known t ⟨i, d, decide (pol = .logged)⟩ (by rw [hloc]; simp)
    obtain ⟨-, hvj, hkj, -⟩ := hI.held.known t ⟨j, d, false⟩ (by rw [hloc]; simp)
    have hsame : s'.committed = s.committed ∧ s'.group = s.group := by
      rcases hc with hc | hc
      · rw [(hI.ops.located (by simp)).2.1, hbj] at hc
        have hh := ((h.header hp).home_block hk).1
        have hbs : lh.block k = sb.logstart := hc.2.2.1
        rw [hbs] at hh
        exact absurd hh ((hsb hp).not_home (Nat.zero_le _))
      · exact hc.2
    refine (hI.logged hp).install (hsb hp) hwr hsame.1 hsame.2 ?_ (hlh ▸ hk)
      (by cases r <;> simp) hdj (by rw [hbj, hlh]) ?_ ?_
    · exact hI.afterWrite (by rw [hloc]) (by simp) (by rw [hloc])
    · rw [hkj, ← (hki (by simpa using hp)).1, hdi, hbi]
    · rw [hI.cache.data j (hI.cache.locked_lt t j (by rw [hloc]; exact h₂.home_locked)) hvj, hdj]
  rintro _ _ rfl
  have hij : i ∉ (j :: l₂.mods).filter (· ≠ j) := by simp [Ne.symm h₂.ne, h₂.log_clean]
  have hnil : pol = .logged → (j :: l₂.mods).filter (· ≠ j) = [] := fun hp => by simp [h₂.mods hp]
  -- bunpin: the disk has the block, so its buffer may be recycled
  have hput : (do brelse t i; brelse t j).Keeps (spec pol sb init) t { l₂ with
      mods := (j :: l₂.mods).filter (· ≠ j), known := [],
      worker := some (.installing r (k + 1), lh) }
      fun _ => Working pol sb (.installing r (k + 1)) lh := by
    refine put_put ?_ ?_ h₂.ne ?_ rfl hij ?_ ?_ hnil h.header fun hd => ⟨_, _, h₂.refs hd⟩
    · exact h₂.log_locked
    · exact h₂.home_locked
    · exact h₂.filling
    · simp
    · simp
  cases r with
  | true => exact hput
  | false =>
    refine .bind (Q := fun _ l' => l' = { l₂ with
      mods := (j :: l₂.mods).filter (· ≠ j)
      known := []
      worker := some (.installing false (k + 1), lh) }) ?_ ?_
    · refine .modify ?_
      rintro s loc ⟨w, ph, hI⟩ hloc
      have hlw : (loc t).worker = some (.installing false k, lh) := by rw [hloc]; rfl
      obtain ⟨rfl, rfl, hlh'⟩ := hI.worker_eq hlw
      obtain ⟨-, hdi, hbi⟩ := hI.cache.refs t ⟨i, _, _⟩ (by rw [hloc]; exact h₂.log_ref)
      obtain ⟨-, hdj, hbj⟩ := hI.cache.refs t ⟨j, _, _⟩ (by rw [hloc]; exact h₂.home_ref)
      obtain ⟨-, -, -, hki⟩ := hI.held.known t ⟨i, d, decide (pol = .logged)⟩ (by rw [hloc]; simp)
      obtain ⟨-, -, hkj, hsj⟩ := hI.held.known t ⟨j, d, true⟩ (by rw [hloc]; simp)
      have hlog : pol = .logged →
          s.disk sb.dev (s.log.lh.block k) = s.disk sb.dev (sb.logstart + k + 1) := by
        intro hp
        have h1 := (hsj rfl).1
        have h2 := (hki (by simpa using hp)).1
        simp only [hdj, hbj, hdi, hbi] at h1 h2
        rw [hlh', h1, h2]
      obtain ⟨hg, hI'⟩ := hI.logUnpin (i := j) (l := { l₂ with
        mods := (j :: l₂.mods).filter (· ≠ j)
        known := []
        worker := some (.installing false (k + 1), lh) }) (by rw [hloc]; exact h₂.home_locked)
        (by rw [hloc]; exact h₂.filling) (hlh' ▸ hk) hdj (by rw [hbj, hlh'])
        ((hsj rfl).1.trans hkj.symm) (hsj rfl).2 hlog (by rw [hloc]) (by rw [hloc]) (by rw [hloc])
        (by rw [hloc]) rfl (by rw [hlh'])
      exact ⟨hg, _, ⟨_, _, hI'⟩, rfl⟩
    rintro _ _ rfl
    exact hput

/-- Whoever works on the log finds it where the superblock has it. -/
theorem getLog_keeps {f : Log → Prog (Sys T) Unit} {l : Loc} {Q : Unit → Loc → Prop}
    (hboot : ph ≠ .boot) (h : Working pol sb ph lh l)
    (hf : ∀ lg, LogIs sb lh lg → (f lg).Keeps (spec pol sb init) t l Q) :
    (do let s ← Prog.get; f s.log).Keeps (spec pol sb init) t l Q := by
  refine .bind (Q := fun s l' => l' = l ∧ LogIs sb lh s.log) ?_ ?_
  · refine .get Steady.refl ?_
    rintro s loc ⟨w, ph, hI⟩ rfl
    obtain ⟨-, rfl, hlh⟩ := hI.worker_eq h.worker
    have hloc := hI.ops.located hboot
    exact ⟨rfl, hloc.1, hloc.2.1, hlh⟩
  · rintro s _ ⟨rfl, hlg⟩
    exact hf s.log hlg

/-- A loop over the log keeps what each of its rounds keeps. -/
theorem forTail_keeps {f : Log → Nat → Prog (Sys T) Unit} {P : Nat → Phase} {l : Loc}
    (hboot : P 0 ≠ .boot) (h : Working pol sb (P 0) lh l)
    (hbody : ∀ k lg l, LogIs sb lh lg → k < lh.n → Working pol sb (P k) lh l →
      (f lg k).Keeps (spec pol sb init) t l fun _ => Working pol sb (P (k + 1)) lh) :
    (forTail f).Keeps (spec pol sb init) t l fun _ => Working pol sb (P lh.n) lh := by
  have hgo : ∀ m k lg l, LogIs sb lh lg → k + m = lh.n → Working pol sb (P k) lh l →
      (forTail.go f lg k m).Keeps (spec pol sb init) t l
        fun _ => Working pol sb (P lh.n) lh := by
    intro m
    induction m with
    | zero =>
      intro k lg l _ hk hw
      obtain rfl : k = lh.n := hk
      exact hw
    | succ m ih =>
      intro k lg l hlg hk hw
      exact (hbody k lg l hlg (by omega) hw).bind fun _ l' hw' => ih (k + 1) lg l' hlg
        (by omega) hw'
  exact getLog_keeps hboot h fun lg hlg =>
    hgo lg.lh.n 0 lg l hlg (by rw [hlg.2.2, zero_add]) h

theorem writeLog_keeps {l : Loc} (hsb : pol = .logged → sb.Ok)
    (h : Working pol sb (.writing 0) lh l) :
    (writeLog t).Keeps (spec pol sb init) t l fun _ => Working pol sb (.writing lh.n) lh :=
  forTail_keeps (by simp) h fun _ _ _ hlg hk hw => writeLogBlock_keeps hsb hlg hk hw

theorem installTrans_keeps {r : Bool} {l : Loc} (hsb : pol = .logged → sb.Ok)
    (h : Working pol sb (.installing r 0) lh l) :
    (installTrans t r).Keeps (spec pol sb init) t l
      fun _ => Working pol sb (.installing r lh.n) lh :=
  forTail_keeps (P := .installing r) (by simp) h fun _ _ _ hlg hk hw =>
    installBlock_keeps hsb hlg hk hw

/-- The two uses of `write_head`: after `write_log` it commits, and after the header has been
    cleared in memory it clears it on the disk. -/
inductive HeadWrite (lh : LogHeader) : Phase → Phase → Prop where
  | commit : 0 < lh.n → HeadWrite lh (.writing lh.n) (.installing false 0)
  | clear : lh.n = 0 → HeadWrite lh (.clearing false) (.writing 0)
  | recovered : lh.n = 0 → HeadWrite lh (.clearing true) .recovered

theorem HeadWrite.pinned (h : HeadWrite lh ph ph') : pinned lh ph' = pinned lh ph := by
  cases h with
  | commit => rfl
  | clear hn => simp [BlockLayer.pinned, LogHeader.blocks, hn]
  | recovered => rfl

theorem HeadWrite.ne_boot (h : HeadWrite lh ph ph') : ph ≠ .boot := by
  cases h <;> simp

theorem HeadWrite.down (h : HeadWrite lh ph ph') : ph'.Down ↔ ph.Down := by
  cases h <;> simp [Phase.Down]

/-- The write of the header, as a step of the log's invariant. -/
theorem At.write_head {old : Block} {l : Loc} (h : At pol sb init (some t) ph s loc)
    (hp : pol = .logged) (hsb : sb.Ok) (hph : HeadWrite s.log.lh ph ph')
    (hs : bwriteStep t i s = .ok () s') (hdev : (s.buf i).dev = sb.dev)
    (hbno : (s.buf i).blockno = sb.logstart) (hdata : (s.buf i).data = s.log.lh.toBlock old)
    (hmods : (loc t).mods = [i]) (hlr : l.refs = (loc t).refs) (hlw : l.worker ≠ none)
    (hlm : l.mods = (loc t).mods.filter (· ≠ i)) :
    Logged sb init s' (update loc t l) ph' := by
  have hlg := h.logged hp
  have hafter := h.afterWrite hlr hlw hlm
  have hloc := h.ops.located hph.ne_boot
  obtain ⟨hwr, hc⟩ := bwriteStep_ok hs
  have hann : announces (s.buf i).data = (s.log.lh.n != 0) := by
    rw [announces, hdata, (LogHeader.ofBlock_toBlock old hlg.lh.size
      fun j hj => (hlg.lh.home_block hj).2).1]
  have hclear : s.log.lh.n = 0 → s'.committed = s.committed ∧ s'.group = s.group := by
    intro hn
    rcases hc with hc | hc
    · rw [hann, hn] at hc
      exact absurd hc.2.2.2.1 (by simp)
    · exact hc.2
  cases hph with
  | commit hn =>
    have hcom : s.log.committing = true := by
      rcases h.ops.busy.mp (by simp) with hcom | hup
      · exact hcom
      · exact (h.ops.down.mp hup).elim
    rcases hc with hc | hc
    · refine hlg.commit hsb hwr hc.2.2.2.2.1 hc.2.2.2.2.2 hafter hdev hbno hdata
        (h.ops.quiet (by simp)) fun b hb => ?_
      refine hlg.not_dirtyAt (h.ops.quiet (by simp)) (fun u hu j hj => ?_) hb
      rw [h.worker_unique hu, hmods, mem_singleton] at hj
      rw [hj, hbno]
      exact hsb.not_home (Nat.zero_le _)
    · refine absurd ⟨hcom, hdev.trans hloc.1.symm, hbno.trans hloc.2.1.symm, ?_⟩ hc.1
      rw [hann]
      simp only [bne_iff_ne]
      omega
  | clear hn =>
    exact hlg.clear hsb (.inl rfl) hwr (hclear hn).1 (hclear hn).2 hafter hdev hbno hdata
  | recovered hn =>
    exact hlg.clear hsb (.inr rfl) hwr (hclear hn).1 (hclear hn).2 hafter hdev hbno hdata

/-- What the worker holds while it works on the header's block, in buffer `i`. -/
structure HeadTaken (pol : Policy) (sb : Layout) (ph : Phase) (lh : LogHeader) (i : Nat) (l : Loc) :
    Prop where
  locked : i ∈ l.locked
  ref : ⟨i, sb.dev, sb.logstart⟩ ∈ l.refs
  worker : l.worker = some (ph, lh)
  filling : l.filling = none
  mods : pol = .logged → l.mods = []
  clean : i ∉ l.mods
  known : l.known = []
  refs : ph.Down → ∃ b, l.refs = [⟨i, sb.dev, b⟩]

/-- The `bread` of the header's block. -/
theorem head_keeps {l : Loc} {f : Nat → Prog (Sys T) Unit} {Q : Unit → Loc → Prop}
    (hsb : pol = .logged → sb.Ok) (hboot : ph ≠ .boot) (h : Working pol sb ph lh l)
    (hf : ∀ i l', HeadTaken pol sb ph lh i l' → (f i).Keeps (spec pol sb init) t l' Q) :
    (do let s ← Prog.get
        let i ← bread t s.log.dev s.log.start
        f i).Keeps (spec pol sb init) t l Q := by
  refine getLog_keeps (f := fun lg => do f (← bread t lg.dev lg.start)) hboot h fun lg hlg => ?_
  rw [hlg.1, hlg.2.1]
  have hlt : pol = .logged → sb.logstart < 2 ^ 32 := fun hp => by
    have := (hsb hp).lt
    have := (hsb hp).pos
    omega
  refine .bind (bread_keeps h.filling (fun hp => ⟨rfl, hlt hp⟩) ?_) ?_
  · intro _ ph' lh' hw hd
    rw [h.worker] at hw
    cases hw
    rw [h.refs hd]
    exact ⟨by decide, by simp⟩
  rintro i _ ⟨rfl, -, him⟩
  exact hf i _
    { locked := mem_cons_self
      ref := mem_cons_self
      worker := h.worker
      filling := rfl
      mods := h.mods
      clean := him
      known := h.known
      refs := fun hd => ⟨_, congrArg _ (h.refs hd)⟩ }

theorem writeHead_keeps {l : Loc} (hsb : pol = .logged → sb.Ok) (h : Working pol sb ph lh l)
    (hph : HeadWrite lh ph ph') :
    (writeHead t).Keeps (spec pol sb init) t l fun _ => Working pol sb ph' lh := by
  refine head_keeps hsb hph.ne_boot h fun i l₂ h₂ => ?_
  -- fill in the header block
  refine .bind (Q := fun _ l' => ∃ old, l' = { l₂ with
    mods := i :: l₂.mods, known := [⟨i, lh.toBlock old, false⟩] }) ?_ ?_
  · refine .modify ?_
    rintro s loc ⟨w, ph, hI⟩ rfl
    obtain ⟨rfl, rfl, rfl⟩ := hI.worker_eq h₂.worker
    obtain ⟨-, hdi, hbi⟩ := hI.cache.refs t _ h₂.ref
    obtain ⟨-, -, -, hvi, -⟩ := hI.cache.holding h₂.locked h₂.filling
    obtain ⟨hg, hI'⟩ := hI.store_worker [⟨i, s.log.lh.toBlock (s.buf i).data, false⟩] h₂.locked
      h₂.filling (by rw [h₂.worker]; simp) (fun _ => hdi)
      (fun hp _ _ => hbi ▸ (hsb hp).not_home (Nat.zero_le _)) (s.log.lh.toBlock (s.buf i).data)
      (by simp [h₂.locked, hvi])
    exact ⟨hg, _, ⟨_, _, hI'⟩, _, rfl⟩
  rintro _ _ ⟨old, rfl⟩
  -- and write it
  refine .bind (bwrite_keeps _ [] h₂.locked h₂.filling h₂.worker hph.ne_boot hph.pinned hph.down
    (by simp) fun hp s s' loc hI hloc hlh hs => ?_) ?_
  · obtain ⟨-, hdi, hbi⟩ := hI.cache.refs t ⟨i, _, _⟩ (by rw [hloc]; exact h₂.ref)
    obtain ⟨-, -, hki, -⟩ := hI.held.known t ⟨i, lh.toBlock old, false⟩ (by rw [hloc]; simp)
    exact hI.write_head hp (hsb hp) (hlh ▸ hph) hs hdi hbi (hlh ▸ hki)
      (by rw [hloc, h₂.mods hp]) (by rw [hloc]) (by simp) (by rw [hloc])
  rintro _ _ rfl
  refine put_keeps ?_ ?_ rfl ?_ ?_ (fun hp => ?_) h.header fun hd => h₂.refs (hph.down.mp hd)
  · exact h₂.locked
  · exact h₂.filling
  · simp
  · simp
  · simp [h₂.mods hp]

theorem pinned_installed (lh : LogHeader) (r : Bool) : pinned lh (.installing r lh.n) = [] := by
  cases r with
  | true => rfl
  | false =>
    rw [pinned, drop_eq_nil_iff, LogHeader.blocks_length]

/-- All blocks are installed and the header is cleared in memory. -/
theorem At.clear_head {r : Bool} {l : Loc}
    (h : At pol sb init (some t) (.installing r s.log.lh.n) s loc)
    (hm : pol = .logged → (loc t).mods = []) (hlr : l.refs = (loc t).refs)
    (hll : l.locked = (loc t).locked) (hlf : l.filling = (loc t).filling)
    (hlm : l.mods = (loc t).mods) (hlk : l.known = (loc t).known)
    (hlw : l.worker = some (.clearing r, { s.log.lh with n := 0 })) :
    At pol sb init (some t) (.clearing r)
      { s with log := { s.log with lh := { s.log.lh with n := 0 } } } (update loc t l) := by
  have hpin := pinned_installed s.log.lh r
  refine ⟨?_, ?_, ?_, ?_⟩
  · exact h.cache.congr rfl rfl rfl rfl rfl hpin.symm (.inl rfl) (.update hlr hll hlf)
  · exact h.held.congr h.cache rfl rfl rfl hpin.symm (.inl rfl) hll hlm hlk
  · exact h.ops.rephase hlw rfl rfl rfl rfl Iff.rfl (h.ops.located (by simp))
  · intro hp
    have hlg := h.logged hp
    obtain ⟨hsame, -, hinst⟩ := hlg.phase
    have hinst' : ∀ i < (BlockLayer.header sb s.disk).n,
        s.disk sb.dev ((BlockLayer.header sb s.disk).block i)
          = s.disk sb.dev (sb.logstart + i + 1) := by
      intro j hj
      rw [← hsame.1] at hj
      rw [← hsame.2 j hj]
      exact hinst j hj
    refine hlg.rephase (fun _ => ⟨rfl, rfl, rfl, rfl, rfl⟩) ?_ ?_
      (update_refs_eq hlr) (by simp) ⟨rfl, hinst'⟩ (headerOk_of_zero rfl) ?_
    · exact fun u hwu => by simp [h.worker_unique hwu, hlw]
    · exact update_mods_eq hlm
    · -- nothing is modified or pinned: the cache agrees with the disk
      intro _ b hb _
      rw [← h.on_disk hp (hm hp) (by rw [hpin]; simp), ← hlg.recovered b hb]
      by_cases hbm : b ∈ (BlockLayer.header sb s.disk).blocks
      · obtain ⟨j, hj, rfl⟩ := LogHeader.mem_blocks.mp hbm
        rw [hinst' j hj, recovered_block hlg.header hj]
      · rw [recovered_of_not_mem hbm]

theorem clearHead_keeps {r : Bool} {l : Loc} (h : Working pol sb (.installing r lh.n) lh l) :
    (clearHead : Prog (Sys T) Unit).Keeps (spec pol sb init) t l
      fun _ => Working pol sb (.clearing r) { lh with n := 0 } := by
  refine .modify ?_
  rintro s loc ⟨w, ph, hI⟩ rfl
  obtain ⟨rfl, rfl, rfl⟩ := hI.worker_eq h.worker
  refine ⟨.of_same rfl rfl rfl (fun _ => ⟨rfl, rfl⟩) fun _ => ⟨rfl, rfl⟩, { loc t with
    worker := some (.clearing r, { s.log.lh with n := 0 }) }, ⟨some t, .clearing r, ?_⟩, ?_⟩
  · exact hI.clear_head h.mods rfl rfl rfl rfl rfl rfl
  · exact ⟨rfl, h.filling, h.known, h.mods, fun _ => headerOk_of_zero rfl, h.refs⟩

theorem commit_keeps {l : Loc} (hsb : pol = .logged → sb.Ok)
    (h : Working pol sb (.writing 0) lh l) :
    (commit t).Keeps (spec pol sb init) t l
      fun _ l' => ∃ lh', Working pol sb (.writing 0) lh' l' := by
  refine .bind (Q := fun s l' => l' = l ∧ s.log.lh = lh) ?_ ?_
  · refine .get Steady.refl ?_
    rintro s loc ⟨w, ph, hI⟩ rfl
    exact ⟨rfl, (hI.worker_eq h.worker).2.2⟩
  rintro s _ ⟨rfl, rfl⟩
  split
  · next hn =>
    refine (writeLog_keeps hsb h).bind fun _ _ h => ?_
    refine (writeHead_keeps hsb h (.commit hn)).bind fun _ _ h => ?_
    refine (installTrans_keeps hsb h).bind fun _ _ h => ?_
    refine (clearHead_keeps h).bind fun _ _ h => ?_
    exact (writeHead_keeps hsb h (.clear rfl)).mono fun _ _ h => ⟨_, h⟩
  · exact ⟨_, h⟩

/-! ## Recovery -/

/-- `read_head` loads the header that is on the disk. -/
theorem At.read_head {l : Loc} {b : Block} (h : At pol sb init (some t) .head s loc)
    (hb : pol = .logged → b = s.disk sb.dev sb.logstart) (hlr : l.refs = (loc t).refs)
    (hll : l.locked = (loc t).locked) (hlf : l.filling = (loc t).filling)
    (hlm : l.mods = (loc t).mods) (hlk : l.known = (loc t).known)
    (hlw : l.worker = some (.installing true 0, s.log.lh.load b)) :
    At pol sb init (some t) (.installing true 0)
      { s with log := { s.log with lh := s.log.lh.load b } } (update loc t l) := by
  refine ⟨?_, ?_, ?_, ?_⟩
  · exact h.cache.congr rfl rfl rfl rfl rfl rfl (.inl rfl) (.update hlr hll hlf)
  · exact h.held.congr h.cache rfl rfl rfl rfl (.inl rfl) hll hlm hlk
  · exact h.ops.rephase hlw rfl rfl rfl rfl (by simp [Phase.Down]) (h.ops.located (by simp))
  · intro hp
    have hlg := h.logged hp
    have hsame : (BlockLayer.header sb s.disk).Same (s.log.lh.load b) := by
      rw [BlockLayer.header, ← hb hp]
      exact ⟨rfl, fun i hi => (if_pos hi).symm⟩
    refine hlg.rephase (fun _ => ⟨rfl, rfl, rfl, rfl, rfl⟩) ?_ ?_
      (update_refs_eq hlr) (by simp) ⟨?_, Nat.zero_le _, fun _ hj => absurd hj (Nat.not_lt_zero _)⟩
      (hlg.header.congr hsame) fun hc => by cases hc
    · exact fun u hwu => by simp [h.worker_unique hwu, hlw]
    · exact update_mods_eq hlm
    · exact ⟨hsame.1.symm, fun i hi => (hsame.2 i (hsame.1 ▸ hi)).symm⟩

theorem readHead_keeps {l : Loc} (hsb : pol = .logged → sb.Ok) (h : Working pol sb .head lh l) :
    (readHead t).Keeps (spec pol sb init) t l
      fun _ l' => ∃ lh', Working pol sb (.installing true 0) lh' l' := by
  refine head_keeps hsb (by simp) h fun i l₂ h₂ => ?_
  refine .bind (Q := fun _ l' => ∃ lh', (pol = .logged → HeaderOk sb lh') ∧
    l' = { l₂ with worker := some (.installing true 0, lh') }) ?_ ?_
  · refine .modify ?_
    rintro s loc ⟨w, ph, hI⟩ rfl
    obtain ⟨rfl, rfl, -⟩ := hI.worker_eq h₂.worker
    obtain ⟨-, hdi, hbi⟩ := hI.cache.refs t _ h₂.ref
    obtain ⟨-, -, -, -, hdata⟩ := hI.cache.holding h₂.locked h₂.filling
    have hb : pol = .logged → (s.buf i).data = s.disk sb.dev sb.logstart := by
      intro hp
      rw [hdata, hdi, hbi]
      exact (hI.on_disk hp (h₂.mods hp) (by simp [pinned])).symm
    have hI' := hI.read_head hb rfl rfl rfl rfl rfl
      (l := { loc t with worker := some (.installing true 0, s.log.lh.load (s.buf i).data) }) rfl
    exact ⟨.of_same rfl rfl rfl (fun _ => ⟨rfl, rfl⟩) fun _ => ⟨rfl, rfl⟩, _, ⟨_, _, hI'⟩, _,
      fun hp => (hI'.logged hp).lh, rfl⟩
  rintro _ _ ⟨lh', hok, rfl⟩
  refine .mono (put_keeps ?_ ?_ rfl ?_ ?_ ?_ hok ?_) fun _ _ hw => ⟨lh', hw⟩
  · exact h₂.locked
  · exact h₂.filling
  · exact h₂.clean
  · simp [h₂.known]
  · exact h₂.mods
  · exact fun _ => h₂.refs trivial

theorem recoverFromLog_keeps {l : Loc} (hsb : pol = .logged → sb.Ok)
    (h : Working pol sb .head lh l) :
    (recoverFromLog t).Keeps (spec pol sb init) t l
      fun _ l' => ∃ lh', lh'.n = 0 ∧ Working pol sb .recovered lh' l' := by
  refine (readHead_keeps hsb h).bind fun _ _ ⟨_, h⟩ => ?_
  refine (installTrans_keeps hsb h).bind fun _ _ h => ?_
  refine (clearHead_keeps h).bind fun _ _ h => ?_
  exact (writeHead_keeps hsb h (.recovered rfl)).mono fun _ _ h => ⟨_, rfl, h⟩

end

end Xv6.BlockLayer
