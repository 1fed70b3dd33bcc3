import Xv6.Block.Logged

/-!
# The invariant of the whole layer, and `bio.c`

`Inv` puts the invariants of the cache, of its holders, of the operations and (under
`Policy.logged`) of the log together. There is one lemma for each atomic step of `bio.c`, and from
them one for `bread` and one for `brelse`, in the form that `Lib.Threads` composes.
-/

namespace Xv6.BlockLayer

open Lib Function

section

variable {T : Type} [DecidableEq T] [Fintype T]

/-- The phases of recovery. -/
def Phase.Down : Phase → Prop
  | .boot | .head | .recovered => True
  | .installing recovering _ | .clearing recovering => recovering = true
  | .writing _ => False

/-- Who is in an operation, and who commits or recovers (`w`, in phase `ph`). While somebody does,
    nobody is in an operation. -/
structure Ops (sb : Layout) (w : Option T) (ph : Phase) (s : Sys T) (loc : T → Loc) : Prop where
  worker : ∀ t, (loc t).worker = if w = some t then some (ph, s.log.lh) else none
  idle : w = none → ph = .writing 0
  busy : w ≠ none ↔ (s.log.committing = true ∨ s.up = false)
  quiet : w ≠ none → ∀ t, s.op t = none
  down : s.up = false ↔ ph.Down
  down_idle : s.up = false → s.log.committing = false
  outstanding : s.log.outstanding = ((Finset.univ.filter fun t => s.op t ≠ none).card : Int)
  located : ph ≠ .boot → s.log.dev = sb.dev ∧ s.log.start = sb.logstart ∧ s.log.size = sb.nlog

structure At (pol : Policy) (sb : Layout) (init : Nat → Block) (w : Option T) (ph : Phase)
    (s : Sys T) (loc : T → Loc) : Prop where
  cache : Cache s loc ph
  held : Held s loc ph
  ops : Ops sb w ph s loc
  logged : pol = .logged → Logged sb init s loc ph

def Inv (pol : Policy) (sb : Layout) (init : Nat → Block) (s : Sys T) (loc : T → Loc) : Prop :=
  ∃ w ph, At pol sb init w ph s loc

/-- What a step may do to the blocks' bytes: nothing, or give a block the bytes that the holder of
    its buffer has just stored there. -/
def Stored (s s' : Sys T) : Prop :=
  s'.store = s.store ∨ ∃ t i, s.Holds t i ∧ (s.buf i).valid = true ∧
    s'.store = set₂ s.store (s.buf i).dev (s.buf i).blockno (s'.buf i).data

/-- What no step does: commit while recovering, give a buffer in use another block, or change a
    block's bytes other than through a buffer its holder has read. -/
structure Guar (s s' : Sys T) : Prop where
  committed : s.up = false → s'.committed = s.committed
  committing : s.up = false → s'.log.committing = s.log.committing
  ident : ∀ i < NBUF, 0 < (s.buf i).refcnt →
    (s'.buf i).dev = (s.buf i).dev ∧ (s'.buf i).blockno = (s.buf i).blockno
  store : Stored s s'

/-- All steps but the last of `initlog` also leave `up` alone, and nobody pins before that. -/
structure Steady (s s' : Sys T) : Prop extends Guar s s' where
  up : s'.up = s.up
  pins : s.up = false → s'.pins = s.pins

/-- Nobody but `t` has anything to do with the buffers, and `t` is still recovering. -/
structure Alone (t : T) (s : Sys T) (loc : T → Loc) : Prop where
  down : s.up = false
  pins : ∀ i, s.pins i = 0
  others : ∀ u, u ≠ t → (loc u).refs = [] ∧ (loc u).locked = [] ∧ (loc u).worker = none

/-- What the proofs about the layer's programs rest on. -/
def spec (pol : Policy) (sb : Layout) (init : Nat → Block) : Spec (Sys T) T Loc where
  inv := Inv pol sb init
  guar := Steady
  able t s loc := pol = .logged ∧ Alone t s loc

end

section

variable {T : Type} {pol : Policy} {sb : Layout} {init : Nat → Block}
  {w : Option T} {ph : Phase} {s s' : Sys T} {loc loc' : T → Loc} {t : T} {i : Nat}

theorem Steady.refl (s : Sys T) : Steady s s :=
  ⟨⟨fun _ => rfl, fun _ => rfl, fun _ _ _ => ⟨rfl, rfl⟩, .inl rfl⟩, rfl, fun _ => rfl⟩

/-- A step that changes nothing but one buffer, which keeps its block. -/
theorem Steady.of_same (hcom : s'.committed = s.committed) (hstore : s'.store = s.store)
    (hup : s'.up = s.up)
    (hdown : s.up = false → s'.pins = s.pins ∧ s'.log.committing = s.log.committing)
    (hid : ∀ j, (s'.buf j).dev = (s.buf j).dev ∧ (s'.buf j).blockno = (s.buf j).blockno) :
    Steady s s' :=
  ⟨⟨fun _ => hcom, fun hd => (hdown hd).2, fun j _ _ => hid j, .inl hstore⟩, hup,
    fun hd => (hdown hd).1⟩

theorem setBuf_id {b : Buf T} (hs : s'.bcache = s.bcache.set i b) (hd : b.dev = (s.buf i).dev)
    (hb : b.blockno = (s.buf i).blockno) (j : Nat) :
    (s'.buf j).dev = (s.buf j).dev ∧ (s'.buf j).blockno = (s.buf j).blockno := by
  simp only [Sys.buf, hs]
  by_cases hji : j = i
  · subst hji
    rw [Bcache.set_buf_self]
    exact ⟨hd, hb⟩
  · rw [Bcache.set_buf_of_ne _ _ hji]
    exact ⟨rfl, rfl⟩

variable [DecidableEq T]

theorem Alone.step {l : Loc} (h : Alone t s loc) (hs : Steady s s') :
    Alone t s' (update loc t l) where
  down := hs.up.trans h.down
  pins := by rw [hs.pins h.down]; exact h.pins
  others u hu := by rw [update_of_ne hu]; exact h.others u hu

theorem update_worker {l : Loc} (hw : l.worker = (loc t).worker) (u : T) :
    (update loc t l u).worker = (loc u).worker := by
  by_cases hu : u = t
  · rw [hu, update_self, hw]
  · rw [update_of_ne hu]

theorem update_mods {l : Loc} {j : Nat} (hm : j ∈ (loc t).mods → j ∈ l.mods) (u : T) :
    j ∈ (loc u).mods → j ∈ (update loc t l u).mods := by
  by_cases hu : u = t
  · rw [hu, update_self]
    exact hm
  · rw [update_of_ne hu]
    exact id

theorem update_refs {l : Loc} {P : Ref → Prop} (hr : ∀ r ∈ l.refs, r ∈ (loc t).refs ∨ P r) (u : T) :
    ∀ r ∈ (update loc t l u).refs, r ∈ (loc u).refs ∨ P r := by
  by_cases hu : u = t
  · rw [hu, update_self]
    exact hr
  · rw [update_of_ne hu]
    exact fun r hr => .inl hr

variable [Fintype T]

theorem Ops.frame (h : Ops sb w ph s loc) (hlog : s'.log = s.log) (hup : s'.up = s.up)
    (hop : s'.op = s.op) (hw : ∀ u, (loc' u).worker = (loc u).worker) : Ops sb w ph s' loc' where
  worker u := by rw [hw, hlog, h.worker]
  idle := h.idle
  busy := by rw [hlog, hup]; exact h.busy
  quiet := by rw [hop]; exact h.quiet
  down := by rw [hup]; exact h.down
  down_idle := by rw [hlog, hup]; exact h.down_idle
  outstanding := by rw [hlog, hop]; exact h.outstanding
  located := by rw [hlog]; exact h.located

/-- The part of `Logged.quiet` that `bio.c` needs: the ghost value of `t` changes in what it holds
    only. -/
theorem At.logged_frame {l : Loc} {c : Bcache T} (h : At pol sb init w ph s loc)
    (hbuf : ∀ i < NBUF, s.dirty i = true → (s.buf i).lock ≠ none → (c.buf i).dev = (s.buf i).dev ∧
      (c.buf i).blockno = (s.buf i).blockno ∧ (c.buf i).lock = (s.buf i).lock)
    (hw : l.worker = (loc t).worker)
    (hmods : ∀ j, s.dirty j = true → j ∈ (loc t).mods → j ∈ l.mods)
    (hrefs : pol = .logged → ∀ r ∈ l.refs,
      r ∈ (loc t).refs ∨ r.dev = sb.dev ∧ r.blockno < 2 ^ 32) :
    pol = .logged → Logged sb init { s with bcache := c } (update loc t l) ph := by
  intro hpol
  have hlg := h.logged hpol
  refine hlg.quiet rfl rfl rfl rfl rfl (hlg.phase.congr rfl rfl rfl) hlg.lh hlg.logged le_rfl
    (fun u id hu => ⟨(hlg.running u id hu).1, .inl hu⟩) ?_ ?_ hlg.store (update_refs (hrefs hpol))
  · intro j hj hd
    obtain ⟨-, u, hl, -⟩ := hlg.dirty j hj hd
    exact hbuf j hj hd (by rw [hl]; simp)
  · intro u j _ hd _
    rw [update_worker hw]
    exact ⟨id, fun hwu hm => ⟨hwu, update_mods (hmods j hd) u hm⟩⟩

theorem At.bget {dev blockno : Nat} {c : Bcache T} (h : At pol sb init w ph s loc)
    (hpol : pol = .logged → dev = sb.dev ∧ blockno < 2 ^ 32)
    (hb : s.bcache.bget dev blockno = some (i, c)) :
    Steady s { s with bcache := c } ∧ At pol sb init w ph { s with bcache := c }
      (update loc t ((loc t).addRef ⟨i, dev, blockno⟩)) := by
  -- whichever way `bget` goes, it does not touch the block or the lock of a buffer in use
  have hid : ∀ j < NBUF, 0 < (s.buf j).refcnt → (c.buf j).dev = (s.buf j).dev ∧
      (c.buf j).blockno = (s.buf j).blockno ∧ (c.buf j).lock = (s.buf j).lock := by
    intro j _ hr
    unfold Sys.buf at hr ⊢
    by_cases hji : j = i
    · subst hji
      rcases Bcache.bget_cases hb with ⟨-, -, -, rfl⟩ | ⟨-, h0, -, rfl⟩
      · rw [Bcache.set_buf_self]
        exact ⟨rfl, rfl, rfl⟩
      · omega
    · rcases Bcache.bget_cases hb with ⟨-, -, -, rfl⟩ | ⟨-, -, -, rfl⟩ <;>
        rw [Bcache.set_buf_of_ne _ _ hji] <;> exact ⟨rfl, rfl, rfl⟩
  refine ⟨⟨⟨fun _ => rfl, fun _ => rfl, fun j hj hr => ⟨(hid j hj hr).1, (hid j hj hr).2.1⟩,
    .inl rfl⟩, rfl,
    fun _ => rfl⟩, ?_⟩
  refine ⟨h.cache.bget hb, h.held.bget h.cache hb, h.ops.frame rfl rfl rfl (update_worker rfl), ?_⟩
  refine h.logged_frame
    (fun j hj _ hl => hid j hj (h.cache.refcnt_of_lock hj hl)) rfl (fun _ _ hm => hm) ?_
  intro hp r hr
  rcases List.mem_cons.mp hr with rfl | hr
  · exact .inr (hpol hp)
  · exact .inl hr

theorem At.acquiresleep (h : At pol sb init w ph s loc) (hr : i ∈ (loc t).refs.map Ref.i)
    (hf : (loc t).filling = none) (hl : (s.buf i).lock = none) :
    At pol sb init w ph (s.setBuf i { s.buf i with lock := some t })
      (update loc t ((loc t).lock i)) := by
  refine ⟨h.cache.acquiresleep hr hf hl, h.held.acquiresleep h.cache,
    h.ops.frame rfl rfl rfl (update_worker rfl), ?_⟩
  refine h.logged_frame ?_ rfl (fun _ _ hm => hm)
    fun _ r hr => .inl hr
  intro j _ _ hlj
  have hji : j ≠ i := by
    rintro rfl
    exact hlj hl
  simp only [Sys.buf, Bcache.set_buf_of_ne _ _ hji, and_self]

theorem At.fill (h : At pol sb init w ph s loc) (hl : i ∈ (loc t).locked)
    (hf : (loc t).filling = some i) (hv : (s.buf i).valid = false) :
    At pol sb init w ph (s.setBuf i
        { s.buf i with data := s.disk (s.buf i).dev (s.buf i).blockno, valid := true })
      (update loc t (loc t).fill) := by
  refine ⟨h.cache.fill hl hf hv, h.held.fill h.cache hv _,
    h.ops.frame rfl rfl rfl (update_worker rfl), ?_⟩
  refine h.logged_frame ?_ rfl (fun _ _ hm => hm)
    fun _ r hr => .inl hr
  intro j _ _ _
  unfold Sys.buf
  by_cases hji : j = i
  · subst hji
    rw [Bcache.set_buf_self]
    exact ⟨rfl, rfl, rfl⟩
  · rw [Bcache.set_buf_of_ne _ _ hji]
    exact ⟨rfl, rfl, rfl⟩

/-- A buffer that was valid already. -/
theorem At.filled (h : At pol sb init w ph s loc) (hf : (loc t).filling = some i)
    (hv : (s.buf i).valid = true) :
    At pol sb init w ph s (update loc t (loc t).fill) := by
  have hc := h.cache
  have hlk : ∀ u, (update loc t (loc t).fill u).locked = (loc u).locked ∧
      (update loc t (loc t).fill u).refs = (loc u).refs := by
    intro u
    by_cases hu : u = t
    · subst hu
      rw [update_self]
      exact ⟨rfl, rfl⟩
    · rw [update_of_ne hu]
      exact ⟨rfl, rfl⟩
  refine ⟨?_, h.held.congr hc rfl rfl rfl rfl (.inl rfl) rfl rfl rfl,
    h.ops.frame rfl rfl rfl (update_worker rfl), ?_⟩
  · refine ⟨hc.ok, ?_, ?_, ?_, ?_, ?_, hc.data, hc.clean, hc.pinnedIn, hc.pinNodup⟩
    · simpa only [Loc.count, (hlk _).2] using hc.refcnt
    · simpa only [(hlk _).2] using hc.refs
    · simpa only [(hlk _).1] using hc.lock
    · simpa only [(hlk _).1, (hlk _).2] using hc.locked
    · intro u j hj
      by_cases hu : u = t
      · subst hu
        rw [update_self] at hj
        rcases hc.filled u j hj with hfj | hvj
        · rw [hf] at hfj
          exact .inr (Option.some.inj hfj ▸ hv)
        · exact .inr hvj
      · rw [update_of_ne hu] at hj ⊢
        exact hc.filled u j hj
  · exact h.logged_frame (fun _ _ _ _ => ⟨rfl, rfl, rfl⟩) rfl
      (fun _ _ hm => hm) fun _ r hr => .inl hr

theorem At.releasesleep (h : At pol sb init w ph s loc) (hl : i ∈ (loc t).locked)
    (hf : (loc t).filling = none)
    (hd : s.dirty i = false ∨ (s.buf i).dev = s.log.dev ∧ (s.buf i).blockno ∈ pinned s.log.lh ph)
    (hpol : pol = .logged → s.dirty i = false) :
    At pol sb init w ph (s.setBuf i { s.buf i with lock := none })
      (update loc t (((loc t).unlock i).forget i)) := by
  have hv := (h.cache.holding hl hf).2.2.2.1
  refine ⟨?_, h.held.releasesleep (hd.imp_right fun hd => ⟨hv, hd⟩),
    h.ops.frame rfl rfl rfl (update_worker rfl), ?_⟩
  · refine (h.cache.releasesleep hl hf hd).congr rfl rfl rfl rfl rfl rfl (.inl rfl) ?_
    intro u
    by_cases hu : u = t
    · subst hu
      simp only [update_self]
      exact ⟨rfl, rfl, rfl⟩
    · simp only [update_of_ne hu]
      exact ⟨trivial, trivial, trivial⟩
  · intro hp
    have hne : ∀ j, s.dirty j = true → j ≠ i := by
      rintro j hdj rfl
      rw [hpol hp] at hdj
      simp at hdj
    refine h.logged_frame ?_ rfl ?_ (fun _ r hr => .inl hr) hp
    · intro j _ hdj _
      simp only [Sys.buf, Bcache.set_buf_of_ne _ _ (hne j hdj), and_self]
    · intro j hdj hm
      exact List.mem_filter.mpr ⟨hm, by simpa using hne j hdj⟩

theorem At.unref (h : At pol sb init w ph s loc) (hr : i ∈ (loc t).refs.map Ref.i)
    (hl : i ∉ (loc t).locked) :
    At pol sb init w ph { s with bcache := s.bcache.unref i }
      (update loc t ((loc t).dropRef i)) := by
  have hsame : SameBufs s { s with bcache := s.bcache.unref i } :=
    sameBufs_set (Bcache.unref_buf ..) rfl
  refine ⟨h.cache.unref hr hl, h.held.of_sameBufs h.cache hsame rfl rfl rfl,
    h.ops.frame rfl rfl rfl (update_worker rfl), ?_⟩
  exact h.logged_frame
    (fun j _ _ _ => ⟨(hsame j).1, (hsame j).2.1, (hsame j).2.2.2.1⟩) rfl (fun _ _ hm => hm)
    fun _ r hr => .inl (List.mem_of_mem_eraseP hr)

/-! ## Programs -/

/-- The ghost value of a process that has read a block. -/
def Loc.took (l : Loc) (i dev blockno : Nat) : Loc := ((l.addRef ⟨i, dev, blockno⟩).lock i).fill

/-- The ghost value of a process that has released buffer `i`. -/
def Loc.put (l : Loc) (i : Nat) : Loc := ((l.unlock i).forget i).dropRef i

/-- A process that recovers alone is the worker, in a phase of recovery. -/
theorem At.alone_worker (h : At pol sb init w ph s loc) (ha : Alone t s loc) :
    (loc t).worker = some (ph, s.log.lh) ∧ ph.Down := by
  refine ⟨?_, h.ops.down.mp ha.down⟩
  obtain ⟨u, rfl⟩ := Option.ne_none_iff_exists'.mp (h.ops.busy.mpr (.inr ha.down))
  have hu : (loc u).worker = some (ph, s.log.lh) := by rw [h.ops.worker, if_pos rfl]
  by_cases hut : u = t
  · rwa [← hut]
  · rw [(ha.others u hut).2.2] at hu
    cases hu

theorem Phase.Down.pinned {lh : LogHeader} (h : ph.Down) : pinned lh ph = [] := by
  cases ph with
  | writing k => exact h.elim
  | installing r k =>
    obtain rfl : r = true := h
    rfl
  | _ => rfl

/-- `bget` finds a buffer while not all of them are in use. -/
theorem At.bget_able (h : At pol sb init w ph s loc) (ha : Alone t s loc)
    (hlen : (loc t).refs.length < NBUF) (dev blockno : Nat) :
    ∃ i c, s.bcache.bget dev blockno = some (i, c) := by
  unfold Bcache.bget
  split
  · exact ⟨_, _, rfl⟩
  split
  · exact ⟨_, _, rfl⟩
  next hn =>
  exfalso
  -- otherwise `t` refers to every buffer
  have hall : ∀ i ∈ List.range NBUF, i ∈ (loc t).refs.map Ref.i := by
    intro i hi
    rw [List.mem_range] at hi
    by_contra hc
    have hsum : ∑ u, (loc u).count i = 0 := by
      refine Finset.sum_eq_zero fun u _ => List.count_eq_zero.mpr fun hu => ?_
      by_cases hut : u = t
      · exact hc (hut ▸ hu)
      · rw [(ha.others u hut).1] at hu
        cases hu
    have hpin : logPin s ph i = 0 := by
      refine if_neg fun hp => ?_
      rw [(h.alone_worker ha).2.pinned] at hp
      cases hp.2.2
    have hr := h.cache.refcnt i hi
    rw [hsum, ha.pins, hpin, Sys.buf] at hr
    have := List.find?_eq_none.mp hn i (List.mem_reverse.mpr (h.cache.ok.mem_lru.mpr hi))
    exact this (by simpa using hr)
  have := List.nodup_range.length_le_of_subset hall
  rw [List.length_range, List.length_map] at this
  omega

theorem bread_keeps {l : Loc} {dev blockno : Nat} (hf : l.filling = none)
    (hpol : pol = .logged → dev = sb.dev ∧ blockno < 2 ^ 32)
    (hab : pol = .logged → ∀ ph lh, l.worker = some (ph, lh) → ph.Down →
      l.refs.length < NBUF ∧ ∀ r ∈ l.refs, ¬ (r.dev = dev ∧ r.blockno = blockno)) :
    (bread t dev blockno).Keeps (spec pol sb init) t l
      fun i l' => l' = l.took i dev blockno ∧ i ∉ l.locked ∧ i ∉ l.mods := by
  refine .bind (Q := fun i l' => l' = l.addRef ⟨i, dev, blockno⟩ ∧
    (i ∈ l.locked → i ∈ l.refs.map Ref.i)) ?_ ?_
  · refine .atomic ?_
    rintro s loc ⟨w, ph, h⟩ rfl
    refine ⟨fun hpa => ?_, fun i s' hs => ?_⟩
    · obtain ⟨hp, ha⟩ := hpa
      obtain ⟨hw, hd⟩ := h.alone_worker ha
      obtain ⟨i, c, hb⟩ := h.bget_able ha (hab hp _ _ hw hd).1 dev blockno
      exact ⟨i, { s with bcache := c }, by rw [bgetStep, hb]⟩
    unfold bgetStep at hs
    split at hs
    · next j c hb =>
      cases hs
      obtain ⟨hg, h'⟩ := h.bget hpol hb
      exact ⟨hg, _, ⟨w, ph, h'⟩, rfl, (h.cache.locked t).2 _⟩
    · cases hs
  rintro i _ ⟨rfl, hsub⟩
  refine .bind (Q := fun _ l' => l' = (l.addRef ⟨i, dev, blockno⟩).lock i ∧
    i ∉ l.locked ∧ i ∉ l.mods) ?_ ?_
  · refine .atomic ?_
    rintro s loc ⟨w, ph, h⟩ hl
    have hmem : i ∈ (loc t).refs.map Ref.i := by
      rw [hl]
      exact List.mem_cons_self
    refine ⟨fun hpa => ?_, fun _ s' hs => ?_⟩
    · obtain ⟨hp, ha⟩ := hpa
      -- the lock is free: `t` does not hold this block yet, and nobody else holds anything
      have hlk : (s.buf i).lock = none := by
        by_contra hne
        obtain ⟨u, hu⟩ := Option.ne_none_iff_exists'.mp hne
        have hlu := (h.cache.lock i (h.cache.used hmem).1 u).mp hu
        by_cases hut : u = t
        · rw [hut, hl] at hlu
          obtain ⟨r, hr, rfl⟩ := List.mem_map.mp (hsub hlu)
          obtain ⟨hw, hd⟩ := h.alone_worker ha
          rw [hl] at hw
          obtain ⟨-, hd₁, hb₁⟩ := h.cache.refs t r (by rw [hl]; exact List.mem_cons_of_mem _ hr)
          obtain ⟨-, hd₂, hb₂⟩ := h.cache.refs t ⟨r.i, dev, blockno⟩
            (by rw [hl]; exact List.mem_cons_self)
          exact (hab hp _ _ hw hd).2 r hr ⟨hd₁.symm.trans hd₂, hb₁.symm.trans hb₂⟩
        · rw [(ha.others u hut).2.1] at hlu
          cases hlu
      exact ⟨(), s.setBuf i { s.buf i with lock := some t }, by rw [BlockLayer.acquiresleep, hlk]⟩
    unfold BlockLayer.acquiresleep at hs
    split at hs
    · next hlk =>
      cases hs
      have hnew : i ∉ (loc t).locked := fun hc => by
        rw [(h.cache.lock i (h.cache.used hmem).1 t).mpr hc] at hlk
        cases hlk
      have hmods : i ∉ (loc t).mods := fun hc => hnew (h.held.mods t i hc)
      rw [hl] at hnew hmods
      refine ⟨.of_same rfl rfl rfl (fun _ => ⟨rfl, rfl⟩) (setBuf_id rfl rfl rfl), _,
        ⟨w, ph, h.acquiresleep hmem ?_ hlk⟩, ?_⟩
      · rw [hl]
        exact hf
      · rw [hl]
        exact ⟨rfl, hnew, hmods⟩
    · cases hs
  rintro _ _ ⟨rfl, hnew⟩
  refine .bind (Q := fun _ l' => l' = l.took i dev blockno) ?_ ?_
  · refine .atomic ?_
    rintro s loc ⟨w, ph, h⟩ hl
    refine ⟨fun _ => ?_, fun _ s' hs => ?_⟩
    · unfold BlockLayer.fill
      dsimp only
      split
      · exact ⟨_, _, rfl⟩
      · exact ⟨_, _, rfl⟩
    have hloc : (loc t).fill = l.took i dev blockno := by rw [hl]; rfl
    have hfill : (loc t).filling = some i := by rw [hl]; rfl
    unfold BlockLayer.fill at hs
    dsimp only at hs
    split at hs
    · next hv =>
      cases hs
      exact ⟨.refl _, _, ⟨w, ph, h.filled hfill hv⟩, hloc⟩
    · next hv =>
      cases hs
      refine ⟨.of_same rfl rfl rfl (fun _ => ⟨rfl, rfl⟩) (setBuf_id rfl rfl rfl), _,
        ⟨w, ph, h.fill ?_ hfill ?_⟩, hloc⟩
      · rw [hl]
        exact List.mem_cons_self
      · simpa using hv
  rintro _ _ rfl
  exact ⟨rfl, hnew⟩

/-- The second half of `brelse`. -/
theorem unref_keeps {l : Loc} (hr : i ∈ l.refs.map Ref.i) (hl : i ∉ l.locked) :
    (Prog.modify fun s : Sys T => { s with bcache := s.bcache.unref i }).Keeps (spec pol sb init)
      t l fun _ l' => l' = l.dropRef i := by
  refine .modify ?_
  rintro s loc ⟨w, ph, h⟩ rfl
  refine ⟨.of_same rfl rfl rfl (fun _ => ⟨rfl, rfl⟩) fun j => ?_, _, ⟨w, ph, h.unref hr hl⟩, rfl⟩
  have hsame : SameBufs s { s with bcache := s.bcache.unref i } :=
    sameBufs_set (Bcache.unref_buf ..) rfl
  exact ⟨(hsame j).1, (hsame j).2.1⟩

/-- `brelse` from a state in which the holder may let the buffer go. -/
theorem brelse_keepsFrom {ph : Phase} (h : At pol sb init w ph s loc) (hl : i ∈ (loc t).locked)
    (hf : (loc t).filling = none)
    (hd : s.dirty i = false ∨ (s.buf i).dev = s.log.dev ∧ (s.buf i).blockno ∈ pinned s.log.lh ph)
    (hpol : pol = .logged → s.dirty i = false) :
    (brelse t i).KeepsFrom (spec pol sb init) t s loc fun _ l' => l' = (loc t).put i := by
  have hnd := (h.cache.locked t).1
  refine Prog.KeepsFrom.bind (Q := fun _ l' => l' = ((loc t).unlock i).forget i) ⟨w, ph, h⟩ ?_ ?_
  · intro _ s' hs
    unfold BlockLayer.releasesleep at hs
    split at hs
    · cases hs
    · cases hs
      exact ⟨.of_same rfl rfl rfl (fun _ => ⟨rfl, rfl⟩) (setBuf_id rfl rfl rfl), _,
        ⟨w, ph, h.releasesleep hl hf hd hpol⟩, rfl⟩
  · rintro _ _ rfl
    exact unref_keeps ((h.cache.locked t).2 i hl) hnd.not_mem_erase

/-- `brelse` by the process that commits or recovers, of a buffer it has not left modified. -/
theorem brelse_keeps {l : Loc} (hl : i ∈ l.locked) (hf : l.filling = none) (hm : i ∉ l.mods)
    (hw : l.worker ≠ none) :
    (brelse t i).Keeps (spec pol sb init) t l fun _ l' => l' = l.put i := by
  have hmine : ∀ {w : Option T} {ph : Phase} {s : Sys T} {loc : T → Loc},
      At pol sb init w ph s loc → loc t = l →
      (brelse t i).KeepsFrom (spec pol sb init) t s loc fun _ l' => l' = (loc t).put i := by
    intro w ph s loc h hloc
    subst hloc
    obtain ⟨hi, -, hlk, -⟩ := h.cache.holding hl hf
    have hexcl : ∀ u, i ∈ (loc u).mods → False := fun u hu =>
      hm (h.cache.excl hl (h.held.mods u i hu) ▸ hu)
    have hquiet : s.op t = none := by
      refine h.ops.quiet ?_ t
      rintro rfl
      rw [h.ops.worker] at hw
      simp at hw
    refine brelse_keepsFrom h hl hf ?_ ?_
    · by_cases hd : s.dirty i = true
      · rcases h.held.dirty i hi hd with hp | ⟨u, hu⟩
        · exact .inr hp.2
        · exact (hexcl u hu).elim
      · exact .inl (by simpa using hd)
    · intro hp
      by_contra hd
      obtain ⟨-, u, hlu, hc⟩ := (h.logged hp).dirty i hi (by simpa using hd)
      rw [hlk] at hlu
      obtain rfl := Option.some.inj hlu
      rcases hc with hc | hc
      · exact hc.1 hquiet
      · exact hm hc.2
  intro s loc ⟨w, ph, h⟩ hloc
  refine ⟨fun _ => ?_, ?_⟩
  · subst hloc
    obtain ⟨-, -, hlk, -⟩ := h.cache.holding hl hf
    exact ⟨(), s.setBuf i { s.buf i with lock := none }, by simp [BlockLayer.releasesleep, hlk]⟩
  · have := hmine h hloc
    rw [hloc] at this
    exact this

end

end Xv6.BlockLayer
