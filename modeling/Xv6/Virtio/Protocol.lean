import Xv6.Virtio.Driver

/-!
# The driver and the device keep to their protocol

A request owns its three descriptors from their allocation to the return of `virtio_disk_rw`. On its
way it is published, taken by the device, served, reported, and cleared by the interrupt handler;
the lists of the history say how far each one is. The numbers of the requests in flight are tied to
the heads of their chains, so that what the device reports by its head is the request that was
published with it, and the buffer that the interrupt handler finds there is that request's.
-/

namespace Xv6.Virtio

open Lib Function List

/-! ## The invariant -/

/-- The request of a call that has its descriptors. -/
def Call.req : Call → Option Req
  | .formatted r => some r
  | .offered r => some r
  | .check r => some r
  | .asleep r => some r
  | _ => none

/-- The call has `vdisk_lock`. -/
def Call.locked : Call → Bool
  | .alloc _ _ _ => true
  | .formatted _ => true
  | .offered _ => true
  | .check _ => true
  | .intr => true
  | _ => false

/-- The call has published its request. -/
def Call.posted : Call → Bool
  | .check _ => true
  | .asleep _ => true
  | _ => false

/-- The buffer of a call. -/
def Call.buf : Call → Option Nat
  | .enter b _ _ => some b
  | .alloc b _ _ => some b
  | .formatted r => some r.b
  | .offered r => some r.b
  | .check r => some r.b
  | .asleep r => some r.b
  | _ => none

/-- The requests in flight. -/
def Sys.req (s : Sys) (t : Nat) : Option Req := (s.call t).req

/-- The descriptors of a request are its own and say what it is. -/
structure Chain (d : Disk) (r : Req) : Prop where
  nodup : r.idx.Nodup
  mem : ∀ i ∈ r.idx, i < NUM ∧ d.free i = false
  first : d.desc r.i = ⟨.op r.i, 16, VRING_DESC_F_NEXT, r.j⟩
  second : d.desc r.j = ⟨.data r.b, BSIZE,
    (if r.write then 0 else VRING_DESC_F_WRITE) ||| VRING_DESC_F_NEXT, r.k⟩
  third : d.desc r.k = ⟨.status r.i, 1, VRING_DESC_F_WRITE, 0⟩
  info : (d.info r.i).b = some r.b

structure Locks (s : Sys) : Prop where
  lock : ∀ t, s.vdisk_lock = some t ↔ (s.call t).locked = true
  holder : ∀ t b, (s.call t).buf = some b → s.holder b = some t

structure Descs (s : Sys) : Prop where
  chain : ∀ t r, s.req t = some r → Chain s.disk r
  apart : ∀ t u r r', s.req t = some r → s.req u = some r' → t ≠ u → r.idx.Disjoint r'.idx
  free : ∀ i < NUM, s.disk.free i = false → ∃ t r, s.req t = some r ∧ i ∈ r.idx

structure Names (s : Sys) : Prop where
  names : ∀ t r, s.req t = some r → s.head r.i = r.id ∧ s.data r.b = r.id ∧ r.id < s.requests
  owned : ∀ t r, s.req t = some r → (s.owned r.b = true ↔ r.id ∉ s.cleared)
  inj : ∀ t u r r', s.req t = some r → s.req u = some r' → r.id = r'.id → t = u
  posted : ∀ t r, s.req t = some r →
    (r.id ∈ s.published.map Prod.snd ↔ (s.call t).posted = true)
  live : ∀ x ∈ s.published, x.2 ∉ s.cleared → ∃ t r, s.req t = some r ∧ x = (r.i, r.id)
  old : ∀ x ∈ s.published, x.2 < s.requests
  own : ∀ t r, s.req t = some r → ∀ x ∈ s.published, x.2 = r.id → x.1 = r.i
  nodup : (s.published.map Prod.snd).Nodup

/-- What the device has taken is being worked on or has been reported; what the interrupt handler
    has cleared is what was reported first. -/
structure Flow (s : Sys) : Prop where
  perm : (s.published.take s.taken).Perm
    ((s.device.active ++ s.device.served).map (fun h => (h, s.head h)) ++ s.reported)
  cleared : s.cleared <+: s.reported.map Prod.snd
  served : ∀ h ∈ s.device.served, (s.disk.info h).status = 0
  reported : ∀ x ∈ s.reported, x.2 ∉ s.cleared → (s.disk.info x.1).status = 0
  returned : ∀ i ∈ s.returned, i ∈ s.cleared

/-- The rings hold what has not been taken from them yet. -/
structure Rings (s : Sys) : Prop where
  avail : Holds NUM s.disk.avail.ring (s.published.map Prod.fst) s.taken
  idx : s.disk.avail.idx = s.published.length % 2 ^ 16
  seen : s.device.seen = s.taken % 2 ^ 16
  taken : s.taken ≤ s.published.length
  used : Holds NUM s.disk.used.ring (s.reported.map Prod.fst) s.cleared.length
  usedIdx : s.disk.used.idx = s.reported.length % 2 ^ 16
  used_idx : s.disk.used_idx = s.cleared.length % 2 ^ 16
  offered : ∀ t r, s.call t = .offered r → s.disk.avail.ring (s.disk.avail.idx % NUM) = r.i

structure Good (s : Sys) : Prop where
  locks : Locks s
  descs : Descs s
  names : Names s
  flow : Flow s
  rings : Rings s

variable {s p : Sys} {d d' : Disk} {r r' : Req} {t u b i j k : Nat} {c : Call}
  {x : Nat × Nat} {L : List (Nat × Nat)}

/-! ## Requests in flight -/

theorem Req.mem_idx : i ∈ r.idx ↔ i = r.i ∨ i = r.j ∨ i = r.k := by
  simp only [Req.idx, mem_cons, not_mem_nil, or_false]

theorem Req.not_mem_idx : i ∉ r.idx ↔ i ≠ r.i ∧ i ≠ r.j ∧ i ≠ r.k := by
  rw [Req.mem_idx, not_or, not_or]

/-- Requests with a common descriptor are the same. -/
theorem Descs.same (h : Descs s) (ht : s.req t = some r) (hu : s.req u = some r')
    (hi : i ∈ r.idx) (hi' : i ∈ r'.idx) : t = u ∧ r = r' := by
  by_cases htu : t = u
  · subst htu
    exact ⟨rfl, Option.some.inj (ht.symm.trans hu)⟩
  · exact absurd hi' (h.apart t u r r' ht hu htu hi)

/-! ## How far the requests are -/

section

variable (h : Good s)
include h

theorem Good.taken_nodup :
    ((s.device.active ++ s.device.served).map s.head ++ s.reported.map Prod.snd).Nodup := by
  have hnd : ((s.published.take s.taken).map Prod.snd).Nodup :=
    h.names.nodup.sublist ((take_sublist ..).map _)
  rw [(h.flow.perm.map Prod.snd).nodup_iff, map_append, map_map] at hnd
  exact hnd

theorem Good.reported_mem (hx : x ∈ s.reported) : x ∈ s.published :=
  mem_of_mem_take (h.flow.perm.mem_iff.mpr (mem_append_right _ hx))

theorem Good.cleared_mem (hi : i ∈ s.cleared) : ∃ x ∈ s.reported, x.2 = i := by
  obtain ⟨x, hx, rfl⟩ := mem_map.mp (h.flow.cleared.subset hi)
  exact ⟨x, hx, rfl⟩

theorem Good.cleared_lt (hi : i ∈ s.cleared) : i < s.requests := by
  obtain ⟨x, hx, rfl⟩ := h.cleared_mem hi
  exact h.names.old x (h.reported_mem hx)

/-- The requests in the device are published and not cleared. -/
theorem Good.in_device (hi : i ∈ s.device.active ++ s.device.served) :
    (i, s.head i) ∈ s.published ∧ s.head i ∉ s.cleared := by
  have hmem : (i, s.head i) ∈ (s.device.active ++ s.device.served).map fun h => (h, s.head h) :=
    mem_map.mpr ⟨i, hi, rfl⟩
  refine ⟨mem_of_mem_take (h.flow.perm.mem_iff.mpr (mem_append_left _ hmem)), ?_⟩
  intro hc
  obtain ⟨y, hy, he⟩ := h.cleared_mem hc
  -- its number would stand twice among those taken
  exact (nodup_append.mp h.taken_nodup).2.2 _ (mem_map.mpr ⟨i, hi, rfl⟩) _
    (mem_map.mpr ⟨y, hy, rfl⟩) he.symm

/-- What has not been taken has not been cleared. -/
theorem Good.not_taken (hx : x ∈ s.published.drop s.taken) : x.2 ∉ s.cleared := by
  intro hc
  obtain ⟨y, hy, he⟩ := h.cleared_mem hc
  have hmem : y ∈ s.published.take s.taken :=
    h.flow.perm.mem_iff.mpr (mem_append_right _ hy)
  have hnd := h.names.nodup
  rw [← take_append_drop s.taken s.published, map_append, nodup_append] at hnd
  exact hnd.2.2 _ (mem_map.mpr ⟨y, hmem, rfl⟩) _ (mem_map.mpr ⟨x, hx, rfl⟩) he

/-- What was reported and not yet consumed has not been cleared. -/
theorem Good.not_consumed (hx : x ∈ s.reported.drop s.cleared.length) : x.2 ∉ s.cleared := by
  intro hc
  have hnd := (nodup_append.mp h.taken_nodup).2.1
  rw [prefix_iff_eq_take.mp h.flow.cleared, ← map_take] at hc
  rw [← take_append_drop s.cleared.length s.reported, map_append,
    nodup_append] at hnd
  exact hnd.2.2 _ hc _ (mem_map.mpr ⟨x, hx, rfl⟩) rfl

/-- The heads of requests in flight are different, so there are at most `NUM`. -/
theorem Good.heads (hL : (L.map Prod.snd).Nodup)
    (hlive : ∀ x ∈ L, ∃ t r, s.req t = some r ∧ x = (r.i, r.id)) : L.length ≤ NUM := by
  have hnd : (L.map Prod.fst).Nodup := by
    refine List.Nodup.map_on (fun x hx y hy hxy => ?_) (List.Nodup.of_map _ hL)
    obtain ⟨t, r, hr, rfl⟩ := hlive x hx
    obtain ⟨u, r', hr', rfl⟩ := hlive y hy
    obtain ⟨-, rfl⟩ := h.descs.same hr hr' (i := r.i) (Req.mem_idx.mpr (.inl rfl))
      (Req.mem_idx.mpr (.inl hxy))
    rfl
  have hsub : L.map Prod.fst ⊆ range NUM := by
    intro i hi
    obtain ⟨x, hx, rfl⟩ := mem_map.mp hi
    obtain ⟨t, r, hr, rfl⟩ := hlive x hx
    exact mem_range.mpr ((h.descs.chain t r hr).mem r.i (Req.mem_idx.mpr (.inl rfl))).1
  have := (hnd.subperm hsub).length_le
  rwa [length_range, length_map] at this

/-- There is room on the available ring for a request that is not on it. -/
theorem Good.avail_room (ht : s.req t = some r) (hp : (s.call t).posted = false) :
    s.published.length < s.taken + NUM := by
  have hnew : r.id ∉ s.published.map Prod.snd := by
    rw [h.names.posted t r ht, hp]
    simp
  have := h.heads (L := (r.i, r.id) :: s.published.drop s.taken) ?_ fun x hx => ?_
  · rw [length_cons, length_drop] at this
    have := h.rings.taken
    omega
  · rw [map_cons, nodup_cons]
    refine ⟨fun hm => hnew ?_, h.names.nodup.sublist ((drop_sublist ..).map _)⟩
    exact (drop_sublist ..).map Prod.snd |>.subset hm
  · rcases mem_cons.mp hx with rfl | hx
    · exact ⟨t, r, ht, rfl⟩
    · exact h.names.live x (mem_of_mem_drop hx) (h.not_taken hx)

theorem Good.avail_le : s.published.length ≤ s.taken + NUM := by
  have := h.heads (L := s.published.drop s.taken)
    (h.names.nodup.sublist ((drop_sublist ..).map _))
    fun x hx => h.names.live x (mem_of_mem_drop hx) (h.not_taken hx)
  rw [length_drop] at this
  omega

theorem Good.consumed_live (hx : x ∈ s.reported.drop s.cleared.length) :
    ∃ t r, s.req t = some r ∧ x = (r.i, r.id) :=
  h.names.live x (h.reported_mem (mem_of_mem_drop hx)) (h.not_consumed hx)

theorem Good.cleared_le : s.cleared.length ≤ s.reported.length := by
  have := h.flow.cleared.length_le
  rwa [length_map] at this

/-- There is room on the used ring for a chain that the device has served. -/
theorem Good.used_room (hi : i ∈ s.device.served) :
    s.reported.length < s.cleared.length + NUM := by
  have hdev := h.in_device (mem_append_right _ hi)
  obtain ⟨hnd1, hnd2, hnd⟩ := nodup_append.mp h.taken_nodup
  have := h.heads (L := (i, s.head i) :: s.reported.drop s.cleared.length) ?_ fun x hx => ?_
  · rw [length_cons, length_drop] at this
    omega
  · rw [map_cons, nodup_cons]
    refine ⟨fun hm => ?_, hnd2.sublist ((drop_sublist ..).map _)⟩
    refine hnd _ (mem_map.mpr ⟨i, mem_append_right _ hi, rfl⟩) _ ?_ rfl
    exact (drop_sublist ..).map Prod.snd |>.subset hm
  · rcases mem_cons.mp hx with rfl | hx
    · exact h.names.live _ hdev.1 hdev.2
    · exact h.consumed_live hx

theorem Good.used_le : s.reported.length ≤ s.cleared.length + NUM := by
  have := h.heads (L := s.reported.drop s.cleared.length)
    ((nodup_append.mp h.taken_nodup).2.1.sublist ((drop_sublist ..).map _))
    fun x hx => h.consumed_live hx
  rw [length_drop] at this
  omega

end

/-! ## Descriptors -/

/-- What `alloc_desc` does. -/
theorem allocDescFrom_spec (d : Disk) (m : Nat) : ∀ i, allocDescFrom d i m = (d, none) ∨
    ∃ j, j < i + m ∧ d.free j = true ∧ allocDescFrom d i m = (d.claim j, some j) := by
  induction m with
  | zero => exact fun i => .inl rfl
  | succ m ih =>
    intro i
    rw [allocDescFrom]
    split
    · next hf =>
      exact .inr ⟨i, by omega, hf, rfl⟩
    · refine (ih (i + 1)).imp_right ?_
      rintro ⟨j, hj, hfj, he⟩
      exact ⟨j, by omega, hfj, he⟩

theorem allocDesc_spec (d : Disk) : allocDesc d = (d, none) ∨
    ∃ i, i < NUM ∧ d.free i = true ∧ allocDesc d = (d.claim i, some i) := by
  refine (allocDescFrom_spec d NUM 0).imp_right ?_
  rintro ⟨i, hi, hf, he⟩
  exact ⟨i, by omega, hf, he⟩

/-- `free_desc` of a descriptor that is not free. -/
theorem freeDesc_ok (hi : i < NUM) (hf : d.free i = false) : freeDesc i d = .ok (d.clear i) := by
  rw [freeDesc, if_neg (by omega), hf]
  rfl

theorem claim_free (h : j ≠ i) : (d.claim i).free j = d.free j := update_of_ne h ..

theorem claim_self : (d.claim i).free i = false := update_self ..

theorem clear_free (h : j ≠ i) : (d.clear i).free j = d.free j := update_of_ne h ..

theorem clear_desc (h : j ≠ i) : (d.clear i).desc j = d.desc j := update_of_ne h ..

/-- What a failed `alloc3_desc` changes: at most what free descriptors say. -/
structure Undone (d d' : Disk) : Prop where
  free : d'.free = d.free
  desc : ∀ i, d.free i = false → d'.desc i = d.desc i
  rest : d' = { d with desc := d'.desc, free := d'.free }

/-- `alloc3_desc` does not panic; it allocates three descriptors that were free, or none. -/
theorem alloc3Desc_spec (d : Disk) :
    (∃ d', alloc3Desc d = .ok (d', none) ∧ Undone d d') ∨
    ∃ i j k, [i, j, k].Nodup ∧ (∀ l ∈ [i, j, k], l < NUM ∧ d.free l = true) ∧
      alloc3Desc d = .ok (((d.claim i).claim j).claim k, some (i, j, k)) := by
  have hne : ∀ {i l}, d.free i = true → d.free l = false → l ≠ i := by
    rintro i l hi hl rfl
    rw [hi] at hl
    cases hl
  rw [alloc3Desc]
  rcases allocDesc_spec d with he | ⟨i, hi, hfi, he⟩ <;> rw [he]
  · exact .inl ⟨d, rfl, rfl, fun _ _ => rfl, rfl⟩
  dsimp only
  rcases allocDesc_spec (d.claim i) with he | ⟨j, hj, hfj, he⟩ <;> rw [he]
  · dsimp only
    rw [freeDesc_ok hi claim_self]
    refine .inl ⟨(d.claim i).clear i, rfl, funext fun l => ?_, fun l hl => ?_, rfl⟩
    · by_cases hl : l = i
      · subst hl
        exact (update_self ..).trans hfi.symm
      · rw [clear_free hl, claim_free hl]
    · exact clear_desc (hne hfi hl)
  dsimp only
  have hji : j ≠ i := by
    rintro rfl
    rw [claim_self] at hfj
    cases hfj
  rw [claim_free hji] at hfj
  rcases allocDesc_spec ((d.claim i).claim j) with he | ⟨k, hk, hfk, he⟩ <;> rw [he]
  · dsimp only
    have hfj' : (((d.claim i).claim j).clear i).free j = false := by
      rw [clear_free hji, claim_self]
    rw [freeDesc_ok hi (by rw [claim_free (Ne.symm hji), claim_self])]
    refine .inl ⟨(((d.claim i).claim j).clear i).clear j, ?_, funext fun l => ?_, fun l hl => ?_,
      rfl⟩
    · exact congrArg (fun r => r >>= fun d' => Except.ok (d', none)) (freeDesc_ok hj hfj')
    · by_cases hlj : l = j
      · subst hlj
        exact (update_self ..).trans hfj.symm
      · rw [clear_free hlj]
        by_cases hli : l = i
        · subst hli
          exact (update_self ..).trans hfi.symm
        · rw [clear_free hli, claim_free hlj, claim_free hli]
    · rw [clear_desc (hne hfj hl), clear_desc (hne hfi hl)]
      rfl
  have hkj : k ≠ j := by
    rintro rfl
    rw [claim_self] at hfk
    cases hfk
  rw [claim_free hkj] at hfk
  have hki : k ≠ i := by
    rintro rfl
    rw [claim_self] at hfk
    cases hfk
  rw [claim_free hki] at hfk
  refine .inr ⟨i, j, k, ?_, fun l hl => ?_, rfl⟩
  · simp [Ne.symm hji, Ne.symm hki, Ne.symm hkj]
  · rcases mem_cons.mp hl with rfl | hl
    · exact ⟨hi, hfi⟩
    · rcases mem_cons.mp hl with rfl | hl
      · exact ⟨hj, hfj⟩
      · cases mem_singleton.mp hl
        exact ⟨hk, hfk⟩

theorem freeChainFrom_succ (m : Nat) (h : freeDesc i d = .ok d') :
    freeChainFrom (m + 1) i d = if (d.desc i).flags &&& VRING_DESC_F_NEXT ≠ 0 then
      freeChainFrom m (d.desc i).next d' else .ok d' := by
  rw [freeChainFrom, h]
  rfl

/-- `free_chain` of the descriptors of a request does not panic. -/
theorem freeChain_spec (h : Chain d r) :
    freeChain r.i (d.forget r.i) =
      .ok ((((d.forget r.i).clear r.i).clear r.j).clear r.k) := by
  have hnd := h.nodup
  simp only [Req.idx, nodup_cons, mem_cons, not_mem_nil, or_false, not_or,
    not_false_eq_true, and_true, nodup_nil] at hnd
  obtain ⟨⟨hij, hik⟩, hjk⟩ := hnd
  obtain ⟨hi, hfi⟩ := h.mem r.i (Req.mem_idx.mpr (.inl rfl))
  obtain ⟨hj, hfj⟩ := h.mem r.j (Req.mem_idx.mpr (.inr (.inl rfl)))
  obtain ⟨hk, hfk⟩ := h.mem r.k (Req.mem_idx.mpr (.inr (.inr rfl)))
  have hflag : ((if r.write then 0 else VRING_DESC_F_WRITE) ||| VRING_DESC_F_NEXT) &&&
      VRING_DESC_F_NEXT ≠ 0 := by
    cases r.write <;> decide
  -- what the three calls of `free_desc` find
  have h1 : freeDesc r.i (d.forget r.i) = .ok ((d.forget r.i).clear r.i) := freeDesc_ok hi hfi
  have h2 : freeDesc r.j ((d.forget r.i).clear r.i) =
      .ok (((d.forget r.i).clear r.i).clear r.j) := by
    refine freeDesc_ok hj ?_
    rw [clear_free (Ne.symm hij)]
    exact hfj
  have h3 : freeDesc r.k (((d.forget r.i).clear r.i).clear r.j) =
      .ok ((((d.forget r.i).clear r.i).clear r.j).clear r.k) := by
    refine freeDesc_ok hk ?_
    rw [clear_free (Ne.symm hjk), clear_free (Ne.symm hik)]
    exact hfk
  have hd1 : (d.forget r.i).desc r.i = d.desc r.i := rfl
  have hd2 : ((d.forget r.i).clear r.i).desc r.j = d.desc r.j := clear_desc (Ne.symm hij)
  have hd3 : (((d.forget r.i).clear r.i).clear r.j).desc r.k = d.desc r.k := by
    rw [clear_desc (Ne.symm hjk), clear_desc (Ne.symm hik)]
    rfl
  have hnext : VRING_DESC_F_NEXT &&& VRING_DESC_F_NEXT ≠ 0 := by decide
  have hlast : ¬ (VRING_DESC_F_WRITE &&& VRING_DESC_F_NEXT ≠ 0) := by decide
  rw [freeChain, freeChainFrom_succ NUM h1, hd1, h.first, if_pos hnext, freeChainFrom_succ 7 h2,
    hd2, h.second, if_pos hflag, freeChainFrom_succ 6 h3, hd3, h.third, if_neg hlast]

/-! ## Frames -/

theorem req_update (hcall : p.call = update s.call t c) (hc : c.req = s.req t) :
    p.req = s.req := by
  funext u
  rw [Sys.req, hcall]
  by_cases hu : u = t
  · subst hu
    rw [update_self, hc]
  · rw [update_of_ne hu]
    rfl

/-- The request of a thread, after a step in which it got or lost one. -/
theorem req_of_ne (hcall : p.call = update s.call t c) (hu : u ≠ t) :
    p.req u = s.req u := by
  rw [Sys.req, hcall, update_of_ne hu]
  rfl

theorem req_self (hcall : p.call = update s.call t c) : p.req t = c.req := by
  rw [Sys.req, hcall, update_self]

section

variable (h : Locks s) (hcall : p.call = update s.call t c)
  (hholder : p.holder = s.holder) (hbuf : ∀ b, c.buf = some b → s.holder b = some t)
include h hcall hholder hbuf

theorem Locks.of_lock (hlock : p.vdisk_lock = some t ↔ c.locked = true)
    (hother : ∀ u, u ≠ t → (p.vdisk_lock = some u ↔ s.vdisk_lock = some u)) : Locks p := by
  refine ⟨fun u => ?_, fun u b hb => ?_⟩
  · rw [hcall]
    by_cases hu : u = t
    · subst hu
      rw [update_self]
      exact hlock
    · rw [update_of_ne hu, hother u hu]
      exact h.lock u
  · rw [hcall] at hb
    rw [hholder]
    by_cases hu : u = t
    · subst hu
      rw [update_self] at hb
      exact hbuf b hb
    · rw [update_of_ne hu] at hb
      exact h.holder u b hb

/-- A step with or without the lock. -/
theorem Locks.keep (hlock : p.vdisk_lock = s.vdisk_lock)
    (hc : c.locked = (s.call t).locked) : Locks p := by
  refine h.of_lock hcall hholder hbuf ?_ fun u _ => by rw [hlock]
  rw [hlock, hc]
  exact h.lock t

theorem Locks.acquire (hfree : s.vdisk_lock = none) (hlock : p.vdisk_lock = some t)
    (hc : c.locked = true) : Locks p := by
  refine h.of_lock hcall hholder hbuf (iff_of_true hlock hc) fun u hu => ?_
  rw [hlock, hfree]
  exact iff_of_false (fun he => hu (Option.some.inj he).symm) (by simp)

theorem Locks.release (ht : (s.call t).locked = true) (hlock : p.vdisk_lock = none)
    (hc : c.locked = false) : Locks p := by
  have hmine := (h.lock t).mpr ht
  refine h.of_lock hcall hholder hbuf (iff_of_false (by simp [hlock]) (by simp [hc])) fun u hu => ?_
  rw [hlock, hmine]
  exact iff_of_false (by simp) fun he => hu (Option.some.inj he).symm

end

/-- Only one thread has the lock. -/
theorem Locks.unique (h : Locks s) (ht : (s.call t).locked = true)
    (hu : (s.call u).locked = true) : u = t := by
  have h1 := (h.lock t).mpr ht
  rw [(h.lock u).mpr hu] at h1
  exact Option.some.inj h1

/-- Requests of different threads have different buffers. -/
theorem Locks.buf_ne (h : Locks s) (ht : s.req t = some r) (hb : s.holder b = some u)
    (hut : t ≠ u) : r.b ≠ b := by
  rintro rfl
  have hbuf : (s.call t).buf = some r.b := by
    rw [Sys.req] at ht
    cases hc : s.call t <;> rw [hc] at ht <;> cases ht <;> rfl
  rw [h.holder t r.b hbuf] at hb
  exact hut (Option.some.inj hb)

theorem Chain.congr (h : Chain d r) (hfree : ∀ i ∈ r.idx, d'.free i = d.free i)
    (hdesc : ∀ i ∈ r.idx, d'.desc i = d.desc i) (hinfo : (d'.info r.i).b = (d.info r.i).b) :
    Chain d' r := by
  refine ⟨h.nodup, fun i hi => ?_, ?_, ?_, ?_, ?_⟩
  · rw [hfree i hi]
    exact h.mem i hi
  · rw [hdesc r.i (Req.mem_idx.mpr (.inl rfl))]
    exact h.first
  · rw [hdesc r.j (Req.mem_idx.mpr (.inr (.inl rfl)))]
    exact h.second
  · rw [hdesc r.k (Req.mem_idx.mpr (.inr (.inr rfl)))]
    exact h.third
  · rw [hinfo]
    exact h.info

theorem Descs.congr (h : Descs s) (hreq : p.req = s.req) (hfree : p.disk.free = s.disk.free)
    (hdesc : ∀ i, s.disk.free i = false → p.disk.desc i = s.disk.desc i)
    (hinfo : ∀ i, (p.disk.info i).b = (s.disk.info i).b) : Descs p := by
  refine ⟨fun t r ht => ?_, fun t u r r' ht hu => ?_, fun i hi hf => ?_⟩
  · rw [hreq] at ht
    have hc := h.chain t r ht
    exact hc.congr (fun i _ => by rw [hfree]) (fun i hi => hdesc i (hc.mem i hi).2) (hinfo _)
  · rw [hreq] at ht hu
    exact h.apart t u r r' ht hu
  · rw [hfree] at hf
    rw [hreq]
    exact h.free i hi hf

theorem Names.congr (h : Names s) (hreq : p.req = s.req)
    (hposted : ∀ u, (p.call u).posted = (s.call u).posted) (hhead : p.head = s.head)
    (hdata : p.data = s.data) (hrequests : p.requests = s.requests) (howned : p.owned = s.owned)
    (hpub : p.published = s.published) (hclear : p.cleared = s.cleared) : Names p := by
  refine ⟨?_, ?_, ?_, ?_, ?_, ?_, ?_, ?_⟩
  · simpa only [hreq, hhead, hdata, hrequests] using h.names
  · simpa only [hreq, howned, hclear] using h.owned
  · simpa only [hreq] using h.inj
  · simpa only [hreq, hposted, hpub] using h.posted
  · simpa only [hreq, hclear, hpub] using h.live
  · simpa only [hpub, hrequests] using h.old
  · simpa only [hreq, hpub] using h.own
  · simpa only [hpub] using h.nodup

theorem Flow.congr (h : Flow s) (hpub : p.published = s.published) (htaken : p.taken = s.taken)
    (hdev : p.device = s.device) (hhead : p.head = s.head) (hrep : p.reported = s.reported)
    (hclear : p.cleared = s.cleared) (hret : p.returned = s.returned)
    (hstatus : ∀ i, (p.disk.info i).status = (s.disk.info i).status) : Flow p := by
  refine ⟨?_, ?_, ?_, ?_, ?_⟩
  · simpa only [hpub, htaken, hdev, hhead, hrep] using h.perm
  · simpa only [hclear, hrep] using h.cleared
  · simpa only [hdev, hstatus] using h.served
  · simpa only [hrep, hclear, hstatus] using h.reported
  · simpa only [hret, hclear] using h.returned

theorem Rings.congr (h : Rings s) (havail : p.disk.avail = s.disk.avail)
    (hused : p.disk.used = s.disk.used) (hidx : p.disk.used_idx = s.disk.used_idx)
    (hpub : p.published = s.published) (htaken : p.taken = s.taken)
    (hdev : p.device = s.device) (hrep : p.reported = s.reported)
    (hclear : p.cleared = s.cleared)
    (hoffered : ∀ u r, p.call u = .offered r → s.call u = .offered r) : Rings p := by
  refine ⟨?_, ?_, ?_, ?_, ?_, ?_, ?_, fun u r hu => ?_⟩
  · simpa only [havail, hpub, htaken] using h.avail
  · simpa only [havail, hpub] using h.idx
  · simpa only [hdev, htaken] using h.seen
  · simpa only [hpub, htaken] using h.taken
  · simpa only [hused, hrep, hclear] using h.used
  · simpa only [hused, hrep] using h.usedIdx
  · simpa only [hidx, hclear] using h.used_idx
  · rw [havail]
    exact h.offered u r (hoffered u r hu)

theorem offered_update (hcall : p.call = update s.call t c) (hc : ∀ r, c ≠ .offered r)
    (u : Nat) (r : Req) (hu : p.call u = .offered r) : s.call u = .offered r := by
  rw [hcall] at hu
  by_cases hut : u = t
  · subst hut
    rw [update_self] at hu
    exact absurd hu (hc r)
  · rwa [update_of_ne hut] at hu

theorem posted_update (hcall : p.call = update s.call t c)
    (hc : c.posted = (s.call t).posted) (u : Nat) :
    (p.call u).posted = (s.call u).posted := by
  rw [hcall]
  by_cases hu : u = t
  · subst hu
    rw [update_self, hc]
  · rw [update_of_ne hu]

/-! ## Steps that change no request -/

/-- A thread takes a step that concerns only the lock and where it is. -/
theorem Good.of_call (h : Good s) (hlocks : Locks p)
    (hcall : p.call = update s.call t c) (hreq : c.req = s.req t)
    (hposted : c.posted = (s.call t).posted) (hc : ∀ r, c ≠ .offered r)
    (hrest : p = { s with vdisk_lock := p.vdisk_lock, call := p.call }) : Good p := by
  have hr := req_update hcall hreq
  refine ⟨hlocks, h.descs.congr hr ?_ (fun _ _ => ?_) fun _ => ?_,
    h.names.congr hr (posted_update hcall hposted) ?_ ?_ ?_ ?_ ?_ ?_,
    h.flow.congr ?_ ?_ ?_ ?_ ?_ ?_ ?_ fun _ => ?_,
    h.rings.congr ?_ ?_ ?_ ?_ ?_ ?_ ?_ ?_ (offered_update hcall hc)⟩ <;> rw [hrest]

/-- `acquire` -/
theorem Good.acquire (h : Good s) (hs : s.acquire t c = some (.ok p)) (hlocked : c.locked = true)
    (hbuf : ∀ b, c.buf = some b → s.holder b = some t) (hreq : c.req = s.req t)
    (hposted : c.posted = (s.call t).posted) (hc : ∀ r, c ≠ .offered r) : Good p := by
  rw [Sys.acquire] at hs
  split at hs
  · next hfree =>
    cases hs
    exact h.of_call (h.locks.acquire rfl rfl hbuf hfree rfl hlocked) rfl hreq hposted hc rfl
  · cases hs

/-- The step of a thread that had the lock and sleeps or returns. -/
theorem Good.release (h : Good s) (ht : (s.call t).locked = true) (hlocked : c.locked = false)
    (hbuf : ∀ b, c.buf = some b → s.holder b = some t) (hreq : c.req = s.req t)
    (hposted : c.posted = (s.call t).posted) (hc : ∀ r, c ≠ .offered r) :
    Good ({ s with vdisk_lock := none }.setCall t c) :=
  h.of_call (h.locks.release rfl rfl hbuf ht rfl hlocked) rfl hreq hposted hc rfl

/-- A thread starts a call. -/
theorem Good.start (h : Good s) (ht : s.call t = .idle) (hlocked : c.locked = false)
    (hbuf : ∀ b, c.buf = some b → s.holder b = some t) (hreq : c.req = none)
    (hposted : c.posted = false) (hc : ∀ r, c ≠ .offered r) : Good (s.setCall t c) := by
  refine h.of_call (h.locks.keep rfl rfl hbuf rfl ?_) rfl ?_ ?_ hc rfl
  · rw [ht, hlocked]
    rfl
  · rw [Sys.req, ht, hreq]
    rfl
  · rw [ht, hposted]
    rfl

/-- The sleep-lock of a buffer changes hands. -/
theorem Good.of_holder {f : Nat → Option Nat} (h : Good s)
    (hf : ∀ t b, (s.call t).buf = some b → f b = some t) : Good { s with holder := f } :=
  ⟨⟨h.locks.lock, hf⟩, h.descs.congr rfl rfl (fun _ _ => rfl) fun _ => rfl,
    h.names.congr rfl (fun _ => rfl) rfl rfl rfl rfl rfl rfl,
    h.flow.congr rfl rfl rfl rfl rfl rfl rfl fun _ => rfl,
    h.rings.congr rfl rfl rfl rfl rfl rfl rfl rfl fun _ _ hu => hu⟩

end Xv6.Virtio
