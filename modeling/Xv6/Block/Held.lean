import Xv6.Block.Cache

/-!
# What a holder knows

A process that holds a buffer's sleep-lock is the only one to change the buffer's bytes and the
block's bytes on the disk. So what it remembers of them (`Loc.known`) stays true, whatever the
others do, and a buffer can be left modified only by its holder (`Loc.mods`) or pinned by the log.
-/

namespace Xv6.BlockLayer

open Lib Function

section

variable {T : Type}

structure Held (s : Sys T) (loc : T → Loc) (ph : Phase) : Prop where
  mods : ∀ t, ∀ i ∈ (loc t).mods, i ∈ (loc t).locked
  dirty : ∀ i < NBUF, s.dirty i = true → ((s.buf i).valid = true ∧ (s.buf i).dev = s.log.dev ∧
    (s.buf i).blockno ∈ pinned s.log.lh ph) ∨ ∃ t, i ∈ (loc t).mods
  known : ∀ t, ∀ k ∈ (loc t).known, k.i ∈ (loc t).locked ∧ (s.buf k.i).valid = true ∧
    (s.buf k.i).data = k.data ∧ (k.synced = true →
      s.disk (s.buf k.i).dev (s.buf k.i).blockno = k.data ∧ s.dirty k.i = false)

end

section

variable {T : Type} {s s' : Sys T} {loc : T → Loc} {ph ph' : Phase}
  {t : T} {i : Nat}

variable [DecidableEq T]

/-- Steps that change no bytes, no lock that is held and no block of a buffer in use. -/
theorem Held.frame {l : Loc} (h : Held s loc ph) (hdisk : s'.disk = s.disk)
    (hdirty : ∀ i < NBUF, s'.dirty i = true → s.dirty i = true)
    (hpin : ∀ i < NBUF, s'.dirty i = true → (s.buf i).valid = true → (s.buf i).dev = s.log.dev →
      (s.buf i).blockno ∈ pinned s.log.lh ph →
      (s'.buf i).valid = true ∧ (s'.buf i).dev = s'.log.dev ∧
        (s'.buf i).blockno ∈ pinned s'.log.lh ph' ∨ i ∈ l.mods)
    (hbuf : ∀ u, ∀ j ∈ (loc u).locked, (s.buf j).valid = true →
      (s'.buf j).valid = true ∧ (s'.buf j).data = (s.buf j).data ∧
        (s'.buf j).dev = (s.buf j).dev ∧ (s'.buf j).blockno = (s.buf j).blockno)
    (hlt : ∀ u, ∀ j ∈ (loc u).locked, j < NBUF)
    (hmods : ∀ j ∈ l.mods, j ∈ l.locked)
    (hsub : ∀ j < NBUF, s'.dirty j = true → j ∈ (loc t).mods → j ∈ l.mods)
    (hknown : ∀ k ∈ l.known, k.i ∈ l.locked ∧ k ∈ (loc t).known) :
    Held s' (update loc t l) ph' := by
  refine ⟨fun u => ?_, fun i hi hd => ?_, fun u k hk => ?_⟩
  · by_cases hu : u = t
    · subst hu
      rw [update_self]
      exact hmods
    · rw [update_of_ne hu]
      exact h.mods u
  · have hmine : i ∈ l.mods → ∃ u, i ∈ (update loc t l u).mods := fun hm =>
      ⟨t, by rwa [update_self]⟩
    rcases h.dirty i hi (hdirty i hi hd) with ⟨hv, hdev, hb⟩ | ⟨u, hu⟩
    · exact (hpin i hi hd hv hdev hb).imp_right hmine
    · by_cases hut : u = t
      · subst hut
        exact .inr (hmine (hsub i hi hd hu))
      · exact .inr ⟨u, by rwa [update_of_ne hut]⟩
  · have key : ∀ u, k ∈ (loc u).known → (s'.buf k.i).valid = true ∧
        (s'.buf k.i).data = k.data ∧ (k.synced = true →
          s'.disk (s'.buf k.i).dev (s'.buf k.i).blockno = k.data ∧ s'.dirty k.i = false) := by
      intro u hku
      obtain ⟨hl, hv, hd, hs⟩ := h.known u k hku
      obtain ⟨hv', hd', hdev', hb'⟩ := hbuf u k.i hl hv
      refine ⟨hv', hd'.trans hd, fun hsy => ?_⟩
      rw [hdisk, hdev', hb']
      refine ⟨(hs hsy).1, ?_⟩
      by_contra hne
      have := hdirty k.i (hlt u k.i hl) (by simpa using hne)
      rw [(hs hsy).2] at this
      simp at this
    by_cases hu : u = t
    · subst hu
      rw [update_self] at hk ⊢
      exact ⟨(hknown k hk).1, key u (hknown k hk).2⟩
    · rw [update_of_ne hu] at hk ⊢
      exact ⟨(h.known u k hk).1, key u hk⟩

/-- The holder forgets about buffer `i`. -/
def Loc.forget (l : Loc) (i : Nat) : Loc :=
  { l with mods := l.mods.filter (· ≠ i), known := l.known.filter (·.i ≠ i) }

theorem Held.releasesleep (h : Held s loc ph)
    (hd : s.dirty i = false ∨ (s.buf i).valid = true ∧ (s.buf i).dev = s.log.dev ∧
      (s.buf i).blockno ∈ pinned s.log.lh ph) :
    Held (s.setBuf i { s.buf i with lock := none })
      (update loc t (((loc t).unlock i).forget i)) ph := by
  have hbuf : ∀ j, ((s.setBuf i { s.buf i with lock := none }).buf j).valid = (s.buf j).valid ∧
      ((s.setBuf i { s.buf i with lock := none }).buf j).data = (s.buf j).data ∧
      ((s.setBuf i { s.buf i with lock := none }).buf j).dev = (s.buf j).dev ∧
      ((s.setBuf i { s.buf i with lock := none }).buf j).blockno = (s.buf j).blockno := by
    intro j
    unfold Sys.buf Sys.setBuf
    by_cases hji : j = i
    · subst hji
      rw [Bcache.set_buf_self]
      exact ⟨rfl, rfl, rfl, rfl⟩
    · rw [Bcache.set_buf_of_ne _ _ hji]
      exact ⟨rfl, rfl, rfl, rfl⟩
  have hkeep : ∀ j, j ≠ i → j ∈ (loc t).locked → j ∈ ((loc t).locked.erase i) := fun j hji hj =>
    (List.mem_erase_of_ne hji).mpr hj
  refine ⟨fun u => ?_, fun j hj hdj => ?_, fun u k hk => ?_⟩
  · by_cases hu : u = t
    · subst hu
      rw [update_self]
      intro j hj
      obtain ⟨hj, hji⟩ := List.mem_filter.mp hj
      exact hkeep j (by simpa using hji) (h.mods u j hj)
    · rw [update_of_ne hu]
      exact h.mods u
  · rw [(hbuf j).1, (hbuf j).2.2.1, (hbuf j).2.2.2]
    rcases h.dirty j hj hdj with hp | ⟨u, hu⟩
    · exact .inl hp
    · by_cases hji : j = i
      · subst hji
        rcases hd with hd | hd
        · rw [show (s.setBuf j { s.buf j with lock := none }).dirty = s.dirty from rfl, hd] at hdj
          simp at hdj
        · exact .inl hd
      · refine .inr ⟨u, ?_⟩
        by_cases hut : u = t
        · subst hut
          rw [update_self]
          exact List.mem_filter.mpr ⟨hu, by simpa using hji⟩
        · rwa [update_of_ne hut]
  · rw [(hbuf k.i).1, (hbuf k.i).2.1, (hbuf k.i).2.2.1, (hbuf k.i).2.2.2]
    by_cases hu : u = t
    · subst hu
      rw [update_self] at hk ⊢
      obtain ⟨hk, hki⟩ := List.mem_filter.mp hk
      obtain ⟨hl, hrest⟩ := h.known u k hk
      exact ⟨hkeep k.i (by simpa using hki) hl, hrest⟩
    · rw [update_of_ne hu] at hk ⊢
      exact h.known u k hk

variable [Fintype T]

/-- Steps that change neither bytes nor locks. -/
theorem Held.same {l : Loc} {ph₀ : Phase} (h : Held s loc ph) (hc : Cache s loc ph₀)
    (hb : SameBufs s s') (hdisk : s'.disk = s.disk)
    (hdirty : ∀ j < NBUF, s'.dirty j = true → s.dirty j = true)
    (hpin : ∀ j < NBUF, s'.dirty j = true → (s.buf j).valid = true → (s.buf j).dev = s.log.dev →
      (s.buf j).blockno ∈ pinned s.log.lh ph →
      (s.buf j).dev = s'.log.dev ∧ (s.buf j).blockno ∈ pinned s'.log.lh ph')
    (hl : l.locked = (loc t).locked) (hm : l.mods = (loc t).mods)
    (hk : ∀ k ∈ l.known, k ∈ (loc t).known) : Held s' (update loc t l) ph' := by
  refine h.frame hdisk hdirty ?_ ?_ hc.locked_lt (by rw [hl, hm]; exact h.mods t)
    (fun _ _ _ hj => hm ▸ hj) fun k hkl => ⟨hl ▸ (h.known t k (hk k hkl)).1, hk k hkl⟩
  · intro j hj hdj hv hd hbn
    obtain ⟨e1, e2, e3, -, -⟩ := hb j
    rw [e1, e2, e3]
    exact .inl ⟨hv, hpin j hj hdj hv hd hbn⟩
  · intro u j _ hv
    obtain ⟨e1, e2, e3, -, e5⟩ := hb j
    exact ⟨e3.trans hv, e5, e1, e2⟩

/-- Steps that change reference counts only. -/
theorem Held.of_sameBufs {l : Loc} {c : Bcache T} {pins : Nat → Nat} (h : Held s loc ph)
    (hc : Cache s loc ph) (hb : SameBufs s { s with bcache := c, pins := pins })
    (hl : l.locked = (loc t).locked) (hm : l.mods = (loc t).mods) (hk : l.known = (loc t).known) :
    Held { s with bcache := c, pins := pins } (update loc t l) ph :=
  h.same hc hb rfl (fun _ _ hd => hd) (fun _ _ _ _ hd hbn => ⟨hd, hbn⟩) hl hm
    fun _ hkl => hk ▸ hkl

/-- Steps of the log that leave the buffers alone and the pins of modified buffers in place. -/
theorem Held.congr {l : Loc} (h : Held s loc ph) (hc : Cache s loc ph) (hb : s'.bcache = s.bcache)
    (hdisk : s'.disk = s.disk) (hdirty : s'.dirty = s.dirty)
    (hpin : pinned s'.log.lh ph' = pinned s.log.lh ph)
    (hdev : s'.log.dev = s.log.dev ∨ pinned s.log.lh ph = [])
    (hl : l.locked = (loc t).locked) (hm : l.mods = (loc t).mods) (hk : l.known = (loc t).known) :
    Held s' (update loc t l) ph' := by
  refine h.same hc (fun j => by simp only [Sys.buf, hb, and_self]) hdisk (fun _ _ hd => hdirty ▸ hd)
    (fun j _ _ _ hd hbn => ?_) hl hm fun _ hkl => hk ▸ hkl
  rcases hdev with hdev | hnil
  · exact ⟨hdev ▸ hd, hpin ▸ hbn⟩
  · rw [hnil] at hbn
    simp at hbn

/-- `bget` recycles only buffers nobody holds and the log has not pinned. -/
theorem Held.bget (h : Held s loc ph) (hc : Cache s loc ph) {dev blockno : Nat} {c : Bcache T}
    (hb : s.bcache.bget dev blockno = some (i, c)) :
    Held { s with bcache := c } (update loc t ((loc t).addRef ⟨i, dev, blockno⟩)) ph := by
  rcases Bcache.bget_cases hb with ⟨-, -, -, rfl⟩ | ⟨hm, h0, -, rfl⟩
  · exact h.of_sameBufs hc (sameBufs_set rfl rfl) rfl rfl rfl
  · have hi := hc.ok.mem_lru.mp hm
    have hne : ∀ j, 0 < (s.buf j).refcnt → (s.bcache.set i
        { s.bcache.buf i with dev := dev, blockno := blockno, valid := false, refcnt := 1 }).buf j
        = s.buf j := by
      intro j hj
      refine Bcache.set_buf_of_ne _ _ ?_
      rintro rfl
      exact absurd h0 (by rw [Sys.buf] at hj; omega)
    refine h.frame rfl (fun _ _ hd => hd) ?_ ?_ hc.locked_lt (h.mods t) (fun _ _ _ hj => hj)
      fun k hk => ⟨(h.known t k hk).1, hk⟩
    · intro j hj _ hv hd hbn
      simp only [Sys.buf] at hne ⊢
      rw [hne j (hc.refcnt_of_pinned hj hv hd hbn)]
      exact .inl ⟨hv, hd, hbn⟩
    · intro u j hj hv
      have hr := (hc.locked u).2 j hj
      simp only [Sys.buf] at hne ⊢
      rw [hne j (hc.refcnt_of_ref (hc.used hr).1 hr)]
      exact ⟨hv, rfl, rfl, rfl⟩

/-- A change to buffer `i` that keeps its block and, if it was valid, its bytes. -/
theorem Held.setBuf {l : Loc} {b : Buf T} (h : Held s loc ph) (hc : Cache s loc ph)
    (hdev : b.dev = (s.buf i).dev) (hbno : b.blockno = (s.buf i).blockno)
    (hv : (s.buf i).valid = true → b.valid = true ∧ b.data = (s.buf i).data)
    (hmods : ∀ j ∈ l.mods, j ∈ l.locked)
    (hpin : ∀ j < NBUF, s.dirty j = true → j ∈ (loc t).mods → j ∈ l.mods)
    (hknown : ∀ k ∈ l.known, k.i ∈ l.locked ∧ k ∈ (loc t).known) :
    Held (s.setBuf i b) (update loc t l) ph := by
  have hid : ∀ j, (s.buf j).valid = true → ((s.setBuf i b).buf j).valid = true ∧
      ((s.setBuf i b).buf j).data = (s.buf j).data ∧
      ((s.setBuf i b).buf j).dev = (s.buf j).dev ∧
      ((s.setBuf i b).buf j).blockno = (s.buf j).blockno := by
    intro j hvj
    unfold Sys.buf Sys.setBuf
    by_cases hji : j = i
    · subst hji
      rw [Bcache.set_buf_self]
      exact ⟨(hv hvj).1, (hv hvj).2, hdev, hbno⟩
    · rw [Bcache.set_buf_of_ne _ _ hji]
      exact ⟨hvj, rfl, rfl, rfl⟩
  refine h.frame rfl (fun _ _ hd => hd) ?_ (fun _ j _ => hid j) hc.locked_lt hmods hpin hknown
  intro j _ _ hvj hd hbn
  obtain ⟨h1, -, h3, h4⟩ := hid j hvj
  rw [h1, h3, h4]
  exact .inl ⟨rfl, hd, hbn⟩

theorem Held.acquiresleep (h : Held s loc ph) (hc : Cache s loc ph) :
    Held (s.setBuf i { s.buf i with lock := some t }) (update loc t ((loc t).lock i))
      ph :=
  h.setBuf hc rfl rfl (fun hv => ⟨hv, rfl⟩) (fun j hj => List.mem_cons_of_mem _ (h.mods t j hj))
    (fun _ _ _ hj => hj) fun k hk => ⟨List.mem_cons_of_mem _ (h.known t k hk).1, hk⟩

theorem Held.fill (h : Held s loc ph) (hc : Cache s loc ph) (hv : (s.buf i).valid = false)
    (d : Block) :
    Held (s.setBuf i { s.buf i with data := d, valid := true })
      (update loc t (loc t).fill) ph :=
  h.setBuf hc rfl rfl (fun hv' => by rw [hv] at hv'; simp at hv') (h.mods t) (fun _ _ _ hj => hj)
    fun k hk => ⟨(h.known t k hk).1, hk⟩

/-- The holder stores new bytes and remembers what it will. -/
theorem Held.store {l : Loc} (h : Held s loc ph) (hc : Cache s loc ph)
    (hl : i ∈ (loc t).locked) (d : Block) (hlk : l.locked = (loc t).locked)
    (hmods : ∀ j, j ∈ l.mods ↔ j = i ∨ j ∈ (loc t).mods)
    (hknown : ∀ k ∈ l.known, k.i ∈ (loc t).locked ∧ (s.buf k.i).valid = true ∧
      (k.i = i → k.data = d ∧ k.synced = false) ∧
      (k.i ≠ i → (s.buf k.i).data = k.data ∧ (k.synced = true →
        s.disk (s.buf k.i).dev (s.buf k.i).blockno = k.data ∧ s.dirty k.i = false))) :
    Held { s with bcache := s.bcache.set i { s.buf i with data := d }
                  store := set₂ s.store (s.buf i).dev (s.buf i).blockno d
                  dirty := update s.dirty i true } (update loc t l) ph := by
  refine ⟨fun u => ?_, fun j hj hdj => ?_, fun u k hk => ?_⟩
  · by_cases hu : u = t
    · subst hu
      rw [update_self, hlk]
      intro j hj
      rcases (hmods j).mp hj with rfl | hj
      · exact hl
      · exact h.mods u j hj
    · rw [update_of_ne hu]
      exact h.mods u
  · have hmine : j ∈ l.mods → ∃ u, j ∈ (update loc t l u).mods := fun hm =>
      ⟨t, by rwa [update_self]⟩
    by_cases hji : j = i
    · exact .inr (hmine ((hmods j).mpr (.inl hji)))
    · simp only [Sys.buf, Bcache.set_buf_of_ne _ _ hji, update_of_ne hji] at hdj ⊢
      rcases h.dirty j hj hdj with hp | ⟨u, hu⟩
      · exact .inl hp
      · by_cases hut : u = t
        · subst hut
          exact .inr (hmine ((hmods j).mpr (.inr hu)))
        · exact .inr ⟨u, by rwa [update_of_ne hut]⟩
  · by_cases hu : u = t
    · subst hu
      rw [update_self] at hk ⊢
      obtain ⟨hkl, hv, hself, hother⟩ := hknown k hk
      rw [hlk]
      refine ⟨hkl, ?_⟩
      by_cases hki : k.i = i
      · obtain ⟨hd, hsy⟩ := hself hki
        rw [hki] at hv ⊢
        simp only [Sys.buf, Bcache.set_buf_self] at hv ⊢
        exact ⟨hv, hd.symm, fun hs => by rw [hsy] at hs; simp at hs⟩
      · simp only [Sys.buf, Bcache.set_buf_of_ne _ _ hki, update_of_ne hki]
        exact ⟨hv, hother hki⟩
    · rw [update_of_ne hu] at hk ⊢
      obtain ⟨hkl, hrest⟩ := h.known u k hk
      have hki : k.i ≠ i := fun hki => hu (hc.excl hl (hki ▸ hkl))
      simp only [Sys.buf, Bcache.set_buf_of_ne _ _ hki, update_of_ne hki]
      exact ⟨hkl, hrest⟩

/-- The holder writes its buffer to the disk. -/
theorem Held.bwrite {l : Loc} (h : Held s loc ph) (hc : Cache s loc ph)
    (hl : i ∈ (loc t).locked) (hf : (loc t).filling = none) (hwr : Wrote s s' i)
    (hlk : l.locked = (loc t).locked)
    (hmods : ∀ j ∈ l.mods, j ∈ (loc t).mods)
    (hmods' : ∀ j ∈ (loc t).mods, j ≠ i → j ∈ l.mods)
    (hknown : ∀ k ∈ l.known, k ∈ (loc t).known ∨
      k.i = i ∧ ∃ k' ∈ (loc t).known, k'.i = i ∧ k'.data = k.data) :
    Held s' (update loc t l) ph := by
  obtain ⟨hb, hdisk, hlog, -, -, -, hdirty, -, -⟩ := hwr
  have hbuf : ∀ i, s'.buf i = s.buf i := fun i => by rw [Sys.buf, hb, Sys.buf]
  obtain ⟨hi, hu, -, hv, -⟩ := hc.holding hl hf
  -- a buffer that is held and valid is on the disk as before, or is the one being written
  have hon : ∀ u, ∀ j ∈ (loc u).locked, (s.buf j).valid = true → j ≠ i →
      s'.disk (s.buf j).dev (s.buf j).blockno = s.disk (s.buf j).dev (s.buf j).blockno := by
    intro u j hj hvj hji
    rw [hdisk, set₂_of_ne fun hid => hji ?_]
    exact hc.uniq hi hu (hc.locked_lt u j hj) hvj hid.1 hid.2
  have hold : ∀ u, ∀ k ∈ (loc u).known, k.i ∈ (loc u).locked ∧ (s.buf k.i).valid = true ∧
      (s.buf k.i).data = k.data ∧ (k.synced = true →
        s'.disk (s.buf k.i).dev (s.buf k.i).blockno = k.data ∧ s'.dirty k.i = false) := by
    intro u k hk
    obtain ⟨hkl, hkv, hkd, hks⟩ := h.known u k hk
    refine ⟨hkl, hkv, hkd, fun hsy => ?_⟩
    by_cases hki : k.i = i
    · rw [hki, hdisk, set₂_self, hdirty, update_self, ← hkd, hki]
      exact ⟨rfl, rfl⟩
    · rw [hon u k.i hkl hkv hki, hdirty, update_of_ne hki]
      exact hks hsy
  refine ⟨fun u => ?_, fun j hj hdj => ?_, fun u k hk => ?_⟩
  · by_cases hu : u = t
    · subst hu
      rw [update_self, hlk]
      exact fun j hj => h.mods u j (hmods j hj)
    · rw [update_of_ne hu]
      exact h.mods u
  · rw [hdirty] at hdj
    have hji : j ≠ i := by
      rintro rfl
      simp at hdj
    rw [update_of_ne hji] at hdj
    rw [hbuf, hlog]
    rcases h.dirty j hj hdj with hp | ⟨u, hu⟩
    · exact .inl hp
    · refine .inr ⟨u, ?_⟩
      by_cases hut : u = t
      · subst hut
        rw [update_self]
        exact hmods' j hu hji
      · rwa [update_of_ne hut]
  · rw [hbuf]
    by_cases hu : u = t
    · subst hu
      rw [update_self] at hk ⊢
      rw [hlk]
      rcases hknown k hk with hk | ⟨hki, k', hk', hki', hd⟩
      · exact hold u k hk
      · obtain ⟨-, -, hkd, -⟩ := hold u k' hk'
        rw [hki, ← hd, ← hkd, hki', hdisk, set₂_self, hdirty, update_self]
        exact ⟨hl, hv, rfl, fun _ => ⟨rfl, rfl⟩⟩
    · rw [update_of_ne hu] at hk ⊢
      exact hold u k hk

/-- `log_write`: the buffer is no longer modified, and the log's pins have grown at most. -/
theorem Held.logWrite {l : Loc} {c : Bcache T} {lg : Log} {g : List Update} (h : Held s loc ph)
    (hc : Cache s loc ph) (hb : SameBufs s { s with bcache := c }) (hdev : lg.dev = s.log.dev)
    (hpin : ∀ b ∈ pinned s.log.lh ph, b ∈ pinned lg.lh ph) (hl : l.locked = (loc t).locked)
    (hm : l.mods = (loc t).mods) (hk : l.known = (loc t).known) :
    Held { s with bcache := c, log := lg, dirty := update s.dirty i false, group := g }
      (update loc t l) ph := by
  refine h.same hc hb rfl (fun j _ hd => ?_)
    (fun _ _ _ _ hd hbn => ⟨hd.trans hdev.symm, hpin _ hbn⟩) hl hm fun _ hkl => hk ▸ hkl
  change update s.dirty i false j = true at hd
  by_cases hji : j = i
  · subst hji
    simp at hd
  · rwa [update_of_ne hji] at hd

/-- `install_trans` drops a pin; the buffer is on the disk, so it is not modified. -/
theorem Held.logUnpin {l : Loc} {k : Nat} {c : Bcache T} (h : Held s loc (.installing false k))
    (hc : Cache s loc ph) (hb : SameBufs s { s with bcache := c }) (hi : i < NBUF)
    (hv : (s.buf i).valid = true) (hd : (s.buf i).dev = s.log.dev)
    (hbk : (s.buf i).blockno = s.log.lh.block k) (hk : k < s.log.lh.n) (hclean : s.dirty i = false)
    (hl : l.locked = (loc t).locked) (hm : l.mods = (loc t).mods)
    (hkn : ∀ k ∈ l.known, k ∈ (loc t).known) :
    Held { s with bcache := c } (update loc t l) (.installing false (k + 1)) := by
  have hdrop : pinned s.log.lh (.installing false k)
      = s.log.lh.block k :: pinned s.log.lh (.installing false (k + 1)) := pinned_drop hk
  refine h.same hc hb rfl (fun _ _ hd => hd) (fun j hj hdj hvj hdevj hbn => ⟨hdevj, ?_⟩) hl hm hkn
  rw [hdrop, List.mem_cons] at hbn
  refine hbn.resolve_left fun hbn => ?_
  have hji := hc.uniq hi (not_blank_of_valid hv) hj hvj (hdevj.trans hd.symm) (hbn.trans hbk.symm)
  change s.dirty j = true at hdj
  rw [hji, hclean] at hdj
  cases hdj

end

end Xv6.BlockLayer
