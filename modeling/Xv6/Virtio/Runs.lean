import Xv6.Virtio.Protocol

/-!
# Runs of the disk driver

Each step of a thread or of the device keeps the protocol and none of them panics, so both hold in
every run. A request takes three descriptors, is offered in the ring and published, served and
reported by the device in any order, found by the handler, and gives its descriptors back: one
section for each.
-/

namespace Xv6.Virtio

open Lib Function List

variable {s p : Sys} {d d' : Disk} {r r' : Req} {t u b blockno i j k : Nat} {write : Bool}
  {c : Call} {x : Nat × Nat} {e : Except String Sys}

/-! ## Allocation -/

/-- The disk after a successful `alloc3_desc`. -/
def Disk.claim3 (d : Disk) (r : Req) : Disk := ((d.claim r.i).claim r.j).claim r.k

theorem claim3_self (hi : i ∈ r.idx) : (d.claim3 r).free i = false := by
  rw [Disk.claim3]
  by_cases hk : i = r.k
  · rw [hk, claim_self]
  rw [claim_free hk]
  by_cases hj : i = r.j
  · rw [hj, claim_self]
  rw [claim_free hj]
  rcases Req.mem_idx.mp hi with h | h | h
  · rw [h, claim_self]
  · exact absurd h hj
  · exact absurd h hk

theorem claim3_free (hi : i ∉ r.idx) : (d.claim3 r).free i = d.free i := by
  have hi' := Req.not_mem_idx.mp hi
  rw [Disk.claim3, claim_free hi'.2.2, claim_free hi'.2.1, claim_free hi'.1]

theorem format_desc (hi : i ∉ r.idx) : (d.format r).desc i = d.desc i := by
  have hi' := Req.not_mem_idx.mp hi
  show update (update (update d.desc _ _) _ _) _ _ i = _
  rw [update_of_ne hi'.2.2, update_of_ne hi'.2.1, update_of_ne hi'.1]

theorem format_info (hi : i ≠ r.i) : (d.format r).info i = d.info i := update_of_ne hi ..

/-- The descriptors of a new request. -/
theorem chain_format (hnd : r.idx.Nodup) (hlt : ∀ i ∈ r.idx, i < NUM) :
    Chain ((d.claim3 r).format r) r := by
  have hd := hnd
  simp only [Req.idx, nodup_cons, mem_cons, not_mem_nil, or_false, not_or,
    not_false_eq_true, and_true, nodup_nil] at hd
  obtain ⟨⟨hij, hik⟩, hjk⟩ := hd
  refine ⟨hnd, fun i hi => ⟨hlt i hi, claim3_self hi⟩, ?_, ?_, ?_, ?_⟩
  · show update (update (update _ _ _) _ _) _ _ r.i = _
    rw [update_of_ne hik, update_of_ne hij, update_self]
  · show update (update (update _ _ _) _ _) _ _ r.j = _
    rw [update_of_ne hjk, update_self]
  · exact update_self ..
  · have hinfo : ((d.claim3 r).format r).info r.i = ⟨some r.b, 0xff⟩ := update_self ..
    rw [hinfo]

theorem Undone.good (h : Undone s.disk d') (hg : Good s) : Good { s with disk := d' } := by
  obtain ⟨hfree, hdesc, hrest⟩ := h
  rw [hrest]
  exact ⟨⟨hg.locks.lock, hg.locks.holder⟩, hg.descs.congr rfl hfree hdesc fun _ => rfl,
    hg.names.congr rfl (fun _ => rfl) rfl rfl rfl rfl rfl rfl,
    hg.flow.congr rfl rfl rfl rfl rfl rfl rfl fun _ => rfl,
    hg.rings.congr rfl rfl rfl rfl rfl rfl rfl rfl fun _ _ hu => hu⟩

/-- The state after the allocation of a request. -/
def Sys.begin (s : Sys) (t : Nat) (r : Req) : Sys :=
  { s with
    disk := (s.disk.claim3 r).format r
    owned := update s.owned r.b true
    requests := s.requests + 1
    head := update s.head r.i s.requests
    data := update s.data r.b s.requests }.setCall t (.formatted r)

theorem begin_ne (ht : s.call t = .alloc b blockno write) (hu : s.req u = some r') : u ≠ t := by
  rintro rfl
  rw [Sys.req, ht] at hu
  cases hu

theorem begin_req (ht : s.call t = .alloc b blockno write) (hu : s.req u = some r') :
    (s.begin t r).req u = some r' :=
  (req_of_ne (p := s.begin t r) rfl (begin_ne ht hu)).trans hu

/-- A request afterwards is the new one, or an old one of another thread. -/
theorem begin_cases (hu : (s.begin t r).req u = some r') :
    u = t ∧ r' = r ∨ u ≠ t ∧ s.req u = some r' := by
  by_cases hut : u = t
  · subst hut
    rw [req_self (p := s.begin u r) rfl] at hu
    exact .inl ⟨rfl, (Option.some.inj hu).symm⟩
  · rw [req_of_ne (p := s.begin t r) rfl hut] at hu
    exact .inr ⟨hut, hu⟩

section

variable (h : Good s) (ht : s.call t = .alloc r.b r.blockno r.write) (hid : r.id = s.requests)
  (hnd : r.idx.Nodup) (hfree : ∀ i ∈ r.idx, i < NUM ∧ s.disk.free i = true)
include h

theorem Good.not_free (hu : s.req u = some r') (hi : i ∈ r'.idx) : s.disk.free i = false :=
  ((h.descs.chain u r' hu).mem i hi).2

include hfree

/-- The descriptors of a new request are not those of others. -/
theorem Good.begin_disjoint (hu : s.req u = some r') : r'.idx.Disjoint r.idx := by
  intro i hi hi'
  have h1 := h.not_free hu hi
  rw [(hfree i hi').2] at h1
  cases h1

theorem Good.begin_head_ne (hu : s.req u = some r') : r'.i ≠ r.i := by
  intro he
  refine h.begin_disjoint hfree hu (Req.mem_idx.mpr (.inl rfl)) ?_
  rw [he]
  exact Req.mem_idx.mpr (.inl rfl)

/-- The heads of the chains in the device are not the head of a new request. -/
theorem Good.begin_device (hi : i ∈ s.device.active ++ s.device.served) : i ≠ r.i := by
  obtain ⟨hp, hc⟩ := h.in_device hi
  obtain ⟨u, r', hu, he⟩ := h.names.live _ hp hc
  rw [show i = r'.i from congrArg Prod.fst he]
  exact h.begin_head_ne hfree hu

include ht hnd

theorem Good.begin_descs : Descs (s.begin t r) := by
  refine ⟨fun u r' hu => ?_, fun u v r₁ r₂ hu hv huv => ?_, fun i hi hf => ?_⟩
  · rcases begin_cases hu with ⟨-, rfl⟩ | ⟨-, hu⟩
    · exact chain_format hnd fun i hi => (hfree i hi).1
    · have hdis := h.begin_disjoint hfree hu
      refine (h.descs.chain u r' hu).congr (fun i hi => claim3_free (hdis hi))
        (fun i hi => format_desc (hdis hi)) ?_
      exact congrArg Info.b (format_info (h.begin_head_ne hfree hu))
  · rcases begin_cases hu with ⟨rfl, rfl⟩ | ⟨-, hu'⟩
    · rcases begin_cases hv with ⟨rfl, -⟩ | ⟨-, hv'⟩
      · exact absurd rfl huv
      · exact (h.begin_disjoint hfree hv').symm
    · rcases begin_cases hv with ⟨rfl, rfl⟩ | ⟨-, hv'⟩
      · exact h.begin_disjoint hfree hu'
      · exact h.descs.apart u v r₁ r₂ hu' hv' huv
  · by_cases hmem : i ∈ r.idx
    · exact ⟨t, r, req_self (p := s.begin t r) rfl, hmem⟩
    · have hf' : (s.disk.claim3 r).free i = false := hf
      rw [claim3_free hmem] at hf'
      obtain ⟨u, r', hu, hi'⟩ := h.descs.free i hi hf'
      exact ⟨u, r', begin_req ht hu, hi'⟩

include hid

theorem Good.begin_names : Names (s.begin t r) := by
  have hb : s.holder r.b = some t := h.locks.holder t r.b (by rw [ht]; rfl)
  have hold : ∀ {u r'}, s.req u = some r' → r'.id < s.requests :=
    fun hu => (h.names.names _ _ hu).2.2
  refine ⟨fun u r' hu => ?_, fun u r' hu => ?_, fun u v r₁ r₂ hu hv he => ?_, fun u r' hu => ?_,
    fun x hx hc => ?_, fun x hx => Nat.lt_succ_of_lt (h.names.old x hx), fun u r' hu x hx he => ?_,
    h.names.nodup⟩
  · rcases begin_cases hu with ⟨-, rfl⟩ | ⟨hut, hu⟩
    · exact ⟨(update_self ..).trans hid.symm, (update_self ..).trans hid.symm,
        Nat.lt_succ_of_le (le_of_eq hid)⟩
    · obtain ⟨h1, h2, h3⟩ := h.names.names u r' hu
      exact ⟨(update_of_ne (h.begin_head_ne hfree hu) ..).trans h1,
        (update_of_ne (h.locks.buf_ne hu hb hut) ..).trans h2, Nat.lt_succ_of_lt h3⟩
  · rcases begin_cases hu with ⟨-, rfl⟩ | ⟨hut, hu⟩
    · refine iff_of_true (update_self ..) fun hc => ?_
      exact absurd (h.cleared_lt hc) (by omega)
    · rw [show (s.begin t r).owned r'.b = s.owned r'.b from
        update_of_ne (h.locks.buf_ne hu hb hut) ..]
      exact h.names.owned u r' hu
  · rcases begin_cases hu with ⟨rfl, rfl⟩ | ⟨-, hu'⟩
    · rcases begin_cases hv with ⟨rfl, -⟩ | ⟨-, hv'⟩
      · rfl
      · exact absurd (hold hv') (by omega)
    · rcases begin_cases hv with ⟨-, rfl⟩ | ⟨-, hv'⟩
      · exact absurd (hold hu') (by omega)
      · exact h.names.inj u v r₁ r₂ hu' hv' he
  · rcases begin_cases hu with ⟨rfl, rfl⟩ | ⟨hut, hu⟩
    · refine iff_of_false (fun hp => ?_) ?_
      · obtain ⟨x, hx, he⟩ := mem_map.mp hp
        exact absurd (h.names.old x hx) (by omega)
      · show ¬ (update s.call u (.formatted r') u).posted = true
        rw [update_self]
        exact Bool.false_ne_true
    · rw [show (s.begin t r).call u = s.call u from update_of_ne hut ..]
      exact h.names.posted u r' hu
  · obtain ⟨u, r', hu, he⟩ := h.names.live x hx hc
    exact ⟨u, r', begin_req ht hu, he⟩
  · rcases begin_cases hu with ⟨-, rfl⟩ | ⟨-, hu⟩
    · exact absurd (h.names.old x hx) (by omega)
    · exact h.names.own u r' hu x hx he

theorem Good.begin : Good (s.begin t r) := by
  have hb : s.holder r.b = some t := h.locks.holder t r.b (by rw [ht]; rfl)
  refine ⟨h.locks.keep rfl rfl (fun b' he => ?_) rfl (by rw [ht]; rfl),
    h.begin_descs ht hnd hfree, h.begin_names ht hid hnd hfree,
    ⟨?_, h.flow.cleared, fun i hi => ?_, fun x hx hc => ?_, h.flow.returned⟩,
    h.rings.congr rfl rfl rfl rfl rfl rfl rfl rfl
      (offered_update (p := s.begin t r) rfl fun _ hc => (by cases hc))⟩
  · cases he
    exact hb
  · -- no chain of the device gets a new number
    have hmap : (s.device.active ++ s.device.served).map
          (fun i => (i, update s.head r.i s.requests i)) =
        (s.device.active ++ s.device.served).map fun i => (i, s.head i) := by
      refine map_congr_left fun i hi => ?_
      rw [update_of_ne (h.begin_device hfree hi)]
    have hp := h.flow.perm
    rw [← hmap] at hp
    exact hp
  · rw [show (s.begin t r).disk.info i = s.disk.info i from
      format_info (h.begin_device hfree (mem_append_right _ hi))]
    exact h.flow.served i hi
  · obtain ⟨u, r', hu, rfl⟩ := h.names.live x (h.reported_mem hx) hc
    rw [show (s.begin t r).disk.info r'.i = s.disk.info r'.i from
      format_info (h.begin_head_ne hfree hu)]
    exact h.flow.reported _ hx hc

end

/-- Allocation: all three descriptors, or none and back to the start. -/
theorem Good.alloc (h : Good s) (ht : s.call t = .alloc b blockno write) :
    ∃ p, s.alloc t b blockno write = .ok p ∧ Good p := by
  rw [Sys.alloc]
  rcases alloc3Desc_spec s.disk with ⟨d', he, hun⟩ | ⟨i, j, k, hnd, hfree, he⟩ <;> rw [he]
  · refine ⟨_, rfl, (hun.good h).release (t := t) ?_ rfl (fun b' hb => ?_) ?_ ?_
      fun _ hc => (by cases hc)⟩
    · rw [ht]
      rfl
    · cases hb
      exact h.locks.holder t b (by rw [ht]; rfl)
    · rw [Sys.req, ht]
      rfl
    · rw [ht]
      rfl
  · exact ⟨_, rfl, h.begin (r := ⟨b, blockno, write, i, j, k, s.requests⟩) ht rfl hnd hfree⟩

/-! ## Publication -/

/-- `disk.avail->ring[disk.avail->idx % NUM] = idx[0]` -/
theorem Good.offer (h : Good s) (ht : s.call t = .formatted r) :
    Good ({ s with disk := s.disk.offer r.i }.setCall t (.offered r)) := by
  have hreq : s.req t = some r := by
    rw [Sys.req, ht]
    rfl
  have hr : ({ s with disk := s.disk.offer r.i }.setCall t (.offered r)).req = s.req :=
    req_update (c := .offered r) rfl hreq.symm
  have hroom := h.avail_room hreq (by rw [ht]; rfl)
  have hcell : s.disk.avail.idx % NUM = (s.published.map Prod.fst).length % NUM := by
    rw [h.rings.idx, counter_cell (by decide), length_map]
  refine ⟨h.locks.keep rfl rfl (fun b' he => ?_) rfl (by rw [ht]; rfl),
    h.descs.congr hr rfl (fun _ _ => rfl) fun _ => rfl,
    h.names.congr hr (posted_update (c := .offered r) rfl (by rw [ht]; rfl)) rfl rfl rfl rfl rfl
      rfl,
    h.flow.congr rfl rfl rfl rfl rfl rfl rfl fun _ => rfl,
    ⟨?_, h.rings.idx, h.rings.seen, h.rings.taken, h.rings.used, h.rings.usedIdx,
      h.rings.used_idx, fun u r' hu => ?_⟩⟩
  · refine h.locks.holder t b' ?_
    rw [ht]
    exact he
  · show Holds NUM (update _ (s.disk.avail.idx % NUM) _) _ _
    rw [hcell]
    exact h.rings.avail.write (by rwa [length_map])
  · have hut : u = t := by
      by_contra hut
      have hu' : s.call u = .offered r' := (update_of_ne hut ..).symm.trans hu
      exact hut (h.locks.unique (by rw [ht]; rfl) (by rw [hu']; rfl))
    subst hut
    have he : Call.offered r = .offered r' := (update_self ..).symm.trans hu
    cases he
    exact update_self ..

/-- `disk.avail->idx += 1` -/
theorem Good.publish (h : Good s) (ht : s.call t = .offered r) :
    Good ({ s with
      disk := s.disk.publish
      published := s.published ++ [(r.i, r.id)] }.setCall t (.check r)) := by
  have hreq : s.req t = some r := by
    rw [Sys.req, ht]
    rfl
  have hr := req_update (s := s) (t := t) (c := .check r) (p := { s with
    disk := s.disk.publish, published := s.published ++ [(r.i, r.id)] }.setCall t (.check r))
    rfl hreq.symm
  have hnew : r.id ∉ s.published.map Prod.snd := by
    rw [h.names.posted t r hreq, ht]
    exact Bool.false_ne_true
  refine ⟨h.locks.keep rfl rfl (fun b' he => ?_) rfl (by rw [ht]; rfl),
    h.descs.congr hr rfl (fun _ _ => rfl) fun _ => rfl,
    ⟨?_, ?_, ?_, fun u r' hu => ?_, fun x hx hc => ?_, fun x hx => ?_, fun u r' hu x hx he => ?_,
      ?_⟩,
    ⟨?_, h.flow.cleared, h.flow.served, h.flow.reported, h.flow.returned⟩,
    ⟨?_, ?_, h.rings.seen, ?_, h.rings.used, h.rings.usedIdx, h.rings.used_idx,
      fun u r' hu => ?_⟩⟩
  · refine h.locks.holder t b' ?_
    rw [ht]
    exact he
  · rw [hr]
    exact h.names.names
  · rw [hr]
    exact h.names.owned
  · rw [hr]
    exact h.names.inj
  · rw [hr] at hu
    show r'.id ∈ (s.published ++ [(r.i, r.id)]).map Prod.snd ↔
      (update s.call t (.check r) u).posted = true
    rw [map_append, mem_append, map_singleton, mem_singleton]
    by_cases hut : u = t
    · subst hut
      cases hreq.symm.trans hu
      rw [update_self]
      exact iff_of_true (.inr rfl) rfl
    · rw [update_of_ne hut, ← h.names.posted u r' hu]
      exact or_iff_left fun he => hut (h.names.inj u t r' r hu hreq he)
  · rw [hr]
    rcases mem_append.mp hx with hx | hx
    · exact h.names.live x hx hc
    · exact ⟨t, r, hreq, mem_singleton.mp hx⟩
  · rcases mem_append.mp hx with hx | hx
    · exact h.names.old x hx
    · rw [mem_singleton.mp hx]
      exact (h.names.names t r hreq).2.2
  · rw [hr] at hu
    rcases mem_append.mp hx with hx | hx
    · exact h.names.own u r' hu x hx he
    · rw [mem_singleton.mp hx] at he ⊢
      obtain rfl := h.names.inj t u r r' hreq hu he
      cases hreq.symm.trans hu
      rfl
  · show ((s.published ++ [(r.i, r.id)]).map Prod.snd).Nodup
    rw [map_append, map_singleton, ← concat_eq_append]
    exact h.names.nodup.concat hnew
  · show ((s.published ++ [(r.i, r.id)]).take s.taken).Perm _
    rw [take_append_of_le_length h.rings.taken]
    exact h.flow.perm
  · show Holds NUM _ ((s.published ++ [(r.i, r.id)]).map Prod.fst) _
    rw [map_append, map_singleton]
    refine h.rings.avail.append ?_
    have := h.rings.offered t r ht
    rwa [h.rings.idx, counter_cell (by decide), ← length_map (f := Prod.fst)] at this
  · show (s.disk.avail.idx + 1) % 2 ^ 16 = (s.published ++ [(r.i, r.id)]).length % 2 ^ 16
    rw [h.rings.idx, counter_succ, length_append, length_singleton]
  · show s.taken ≤ (s.published ++ [(r.i, r.id)]).length
    rw [length_append]
    exact Nat.le_add_right_of_le h.rings.taken
  · -- nobody else has the lock
    exfalso
    have hu' := offered_update (s := s) (t := t) (c := .check r) (p := { s with
      disk := s.disk.publish, published := s.published ++ [(r.i, r.id)] }.setCall t (.check r))
      rfl (fun _ hc => by cases hc) u r' hu
    have hut := h.locks.unique (t := t) (u := u) (by rw [ht]; rfl) (by rw [hu']; rfl)
    subst hut
    have he : Call.check r = .offered r' := (update_self ..).symm.trans hu
    cases he

/-! ## Return -/

/-- The disk after the descriptors of a request have been freed. -/
def Disk.clear3 (d : Disk) (r : Req) : Disk :=
  (((d.forget r.i).clear r.i).clear r.j).clear r.k

theorem clear3_self (hi : i ∈ r.idx) : (d.clear3 r).free i = true := by
  rw [Disk.clear3]
  by_cases hk : i = r.k
  · rw [hk]
    exact update_self ..
  rw [clear_free hk]
  by_cases hj : i = r.j
  · rw [hj]
    exact update_self ..
  rw [clear_free hj]
  rcases Req.mem_idx.mp hi with h | h | h
  · rw [h]
    exact update_self ..
  · exact absurd h hj
  · exact absurd h hk

theorem clear3_free (hi : i ∉ r.idx) : (d.clear3 r).free i = d.free i := by
  have hi' := Req.not_mem_idx.mp hi
  rw [Disk.clear3, clear_free hi'.2.2, clear_free hi'.2.1, clear_free hi'.1]
  rfl

theorem clear3_desc (hi : i ∉ r.idx) : (d.clear3 r).desc i = d.desc i := by
  have hi' := Req.not_mem_idx.mp hi
  rw [Disk.clear3, clear_desc hi'.2.2, clear_desc hi'.2.1, clear_desc hi'.1]
  rfl

theorem clear3_info (hi : i ≠ r.i) : (d.clear3 r).info i = d.info i := update_of_ne hi ..

theorem clear3_status : ((d.clear3 r).info i).status = (d.info i).status := by
  by_cases hi : i = r.i
  · have he : (d.clear3 r).info r.i = { d.info r.i with b := none } := update_self ..
    rw [hi, he]
  · rw [clear3_info hi]

/-- The return of `virtio_disk_rw`. -/
theorem Good.finish (h : Good s) (ht : s.call t = .check r) (ho : s.owned r.b = false) :
    ∃ p, s.finish t r = .ok p ∧ Good p := by
  have hreq : s.req t = some r := by
    rw [Sys.req, ht]
    rfl
  have hdone : r.id ∈ s.cleared := by
    by_contra hc
    rw [(h.names.owned t r hreq).mpr hc] at ho
    cases ho
  rw [Sys.finish, freeChain_spec (h.descs.chain t r hreq)]
  refine ⟨{ s with
    disk := s.disk.clear3 r, vdisk_lock := none,
    returned := s.returned ++ [r.id] }.setCall t .idle, rfl, ?_⟩
  generalize hp : { s with
    disk := s.disk.clear3 r, vdisk_lock := none,
    returned := s.returned ++ [r.id] }.setCall t .idle = p
  have hcall : p.call = update s.call t .idle := by rw [← hp]; rfl
  have hdisk : p.disk = s.disk.clear3 r := by rw [← hp]; rfl
  -- the requests of the others are what they were
  have hold : ∀ {u r'}, p.req u = some r' → u ≠ t ∧ s.req u = some r' := by
    intro u r' hu
    have hut : u ≠ t := by
      rintro rfl
      rw [req_self hcall] at hu
      cases hu
    rw [req_of_ne hcall hut] at hu
    exact ⟨hut, hu⟩
  have hkeep : ∀ {u r'}, s.req u = some r' → u ≠ t → p.req u = some r' :=
    fun hu hut => (req_of_ne hcall hut).trans hu
  refine ⟨h.locks.release hcall (by rw [← hp]; rfl) (fun b' he => by cases he) (by rw [ht]; rfl)
      (by rw [← hp]; rfl) rfl,
    ⟨fun u r' hu => ?_, fun u v r₁ r₂ hu hv => ?_, fun i hi hf => ?_⟩,
    ⟨fun u r' hu => ?_, fun u r' hu => ?_, fun u v r₁ r₂ hu hv => ?_, fun u r' hu => ?_,
      fun x hx hc => ?_, ?_, fun u r' hu => ?_, ?_⟩,
    ⟨?_, ?_, ?_, ?_, fun i hi => ?_⟩,
    h.rings.congr ?_ ?_ ?_ ?_ ?_ ?_ ?_ ?_ (offered_update hcall fun _ hc => (by cases hc))⟩
  · obtain ⟨hut, hu⟩ := hold hu
    have hdis := h.descs.apart u t r' r hu hreq hut
    rw [hdisk]
    refine (h.descs.chain u r' hu).congr (fun i hi => clear3_free (hdis hi))
      (fun i hi => clear3_desc (hdis hi)) ?_
    rw [clear3_info fun he => hdis (Req.mem_idx.mpr (.inl rfl)) (Req.mem_idx.mpr (.inl he))]
  · exact h.descs.apart u v r₁ r₂ (hold hu).2 (hold hv).2
  · rw [hdisk] at hf
    have hmem : i ∉ r.idx := by
      intro hmem
      rw [clear3_self hmem] at hf
      cases hf
    rw [clear3_free hmem] at hf
    obtain ⟨u, r', hu, hi'⟩ := h.descs.free i hi hf
    refine ⟨u, r', hkeep hu ?_, hi'⟩
    rintro rfl
    cases hreq.symm.trans hu
    exact hmem hi'
  · rw [← hp]
    exact h.names.names u r' (hold hu).2
  · rw [← hp]
    exact h.names.owned u r' (hold hu).2
  · exact h.names.inj u v r₁ r₂ (hold hu).2 (hold hv).2
  · rw [hcall, update_of_ne (hold hu).1, ← hp]
    exact h.names.posted u r' (hold hu).2
  · rw [← hp] at hx hc
    obtain ⟨u, r', hu, rfl⟩ := h.names.live x hx hc
    refine ⟨u, r', hkeep hu ?_, rfl⟩
    rintro rfl
    cases hreq.symm.trans hu
    exact hc hdone
  · rw [← hp]
    exact h.names.old
  · rw [← hp]
    exact h.names.own u r' (hold hu).2
  · rw [← hp]
    exact h.names.nodup
  · rw [← hp]
    exact h.flow.perm
  · rw [← hp]
    exact h.flow.cleared
  · rw [hdisk, ← hp]
    intro i hi
    rw [clear3_status]
    exact h.flow.served i hi
  · rw [hdisk, ← hp]
    intro x hx hc
    rw [clear3_status]
    exact h.flow.reported x hx hc
  · rw [← hp] at hi ⊢
    rcases mem_append.mp hi with hi | hi
    · exact h.flow.returned i hi
    · rw [mem_singleton.mp hi]
      exact hdone
  all_goals rw [← hp]; rfl

/-! ## The interrupt handler -/

/-- One round of the interrupt handler finds the buffer of a request that is in flight. -/
theorem Good.intr_entry (h : Good s) (hne : s.disk.used_idx ≠ s.disk.used.idx) :
    ∃ (hlt : s.cleared.length < s.reported.length) (u : Nat) (r : Req), s.req u = some r ∧
      s.reported[s.cleared.length] = (r.i, r.id) ∧
      s.disk.used.ring (s.disk.used_idx % NUM) = r.i ∧ (s.disk.info r.i).status = 0 ∧
      (s.disk.info r.i).b = some r.b ∧ s.data r.b = r.id := by
  have hle := h.cleared_le
  have hlt : s.cleared.length < s.reported.length := by
    rcases lt_or_eq_of_le hle with hlt | he
    · exact hlt
    · rw [h.rings.used_idx, h.rings.usedIdx, he] at hne
      exact absurd rfl hne
  have hmem : s.reported[s.cleared.length] ∈ s.reported.drop s.cleared.length := by
    rw [drop_eq_getElem_cons hlt]
    exact mem_cons_self
  obtain ⟨u, r, hu, he⟩ := h.consumed_live hmem
  have hstatus := h.flow.reported _ (getElem_mem hlt) (h.not_consumed hmem)
  have hcell := h.rings.used.head (by rwa [length_map])
  rw [getElem_map, he] at hcell
  rw [he] at hstatus
  refine ⟨hlt, u, r, hu, he, ?_, hstatus, (h.descs.chain u r hu).info, (h.names.names u r hu).2.1⟩
  rw [h.rings.used_idx, counter_cell (by decide), hcell]

/-- `virtio_disk_intr` gives the buffer of the next reported request back. -/
theorem Good.intr (h : Good s) (ht : s.call t = .intr) : ∃ p, s.intr t = .ok p ∧ Good p := by
  rw [Sys.intr]
  by_cases hne : s.disk.used_idx = s.disk.used.idx
  · rw [if_pos hne]
    refine ⟨_, rfl, h.release (t := t) (by rw [ht]; rfl) rfl (fun _ hb => by cases hb) ?_ ?_
      fun _ hc => (by cases hc)⟩
    · rw [Sys.req, ht]
      rfl
    · rw [ht]
      rfl
  obtain ⟨hlt, u, r, hu, hx, hring, hstatus, hb, hdata⟩ := h.intr_entry hne
  rw [if_neg hne]
  dsimp only
  rw [hring, if_neg (not_not_intro hstatus), hb]
  dsimp only
  rw [hdata]
  refine ⟨_, rfl, ⟨h.locks.lock, h.locks.holder⟩,
    h.descs.congr rfl rfl (fun _ _ => rfl) fun _ => rfl,
    ⟨h.names.names, fun v r' hv => ?_, h.names.inj, h.names.posted, fun x hx hc => ?_, h.names.old,
      h.names.own, h.names.nodup⟩,
    ⟨h.flow.perm, ?_, h.flow.served, fun x hx hc => ?_, fun i hi => ?_⟩,
    ⟨h.rings.avail, h.rings.idx, h.rings.seen, h.rings.taken, ?_, h.rings.usedIdx, ?_,
      h.rings.offered⟩⟩
  · show update s.owned r.b false r'.b = true ↔ r'.id ∉ s.cleared ++ [r.id]
    rw [mem_append, mem_singleton, not_or]
    have hv' : s.req v = some r' := hv
    by_cases hvu : v = u
    · subst hvu
      cases hu.symm.trans hv'
      rw [update_self]
      exact iff_of_false Bool.false_ne_true fun hc => hc.2 rfl
    · have hbuf : s.holder r.b = some u := by
        refine h.locks.holder u r.b ?_
        rw [Sys.req] at hu
        cases hc : s.call u <;> rw [hc] at hu <;> cases hu <;> rfl
      rw [update_of_ne (h.locks.buf_ne hv' hbuf hvu), h.names.owned v r' hv']
      exact (and_iff_left fun he => hvu (h.names.inj v u r' r hv' hu he)).symm
  · exact h.names.live x hx fun hm => hc (mem_append_left _ hm)
  · show s.cleared ++ [r.id] <+: s.reported.map Prod.snd
    rw [prefix_iff_eq_take, length_append, length_singleton,
      take_succ_eq_append_getElem (by rwa [length_map]),
      ← prefix_iff_eq_take.mp h.flow.cleared, getElem_map, hx]
  · exact h.flow.reported x hx fun hm => hc (mem_append_left _ hm)
  · exact mem_append_left _ (h.flow.returned i hi)
  · show Holds NUM _ _ (s.cleared ++ [r.id]).length
    rw [length_append, length_singleton]
    exact h.rings.used.pop
  · show (s.disk.used_idx + 1) % 2 ^ 16 = (s.cleared ++ [r.id]).length % 2 ^ 16
    rw [h.rings.used_idx, counter_succ, length_append, length_singleton]

/-! ## The device -/

theorem Good.fetch (h : Good s) (hp : s.fetch = some e) : ∃ p, e = .ok p ∧ Good p := by
  rw [Sys.fetch] at hp
  split at hp
  · cases hp
  next hne =>
  cases hp
  have hlt : s.taken < s.published.length := by
    rcases lt_or_eq_of_le h.rings.taken with hlt | he
    · exact hlt
    · rw [h.rings.seen, h.rings.idx, he] at hne
      exact absurd rfl hne
  have hmem : s.published[s.taken] ∈ s.published.drop s.taken := by
    rw [drop_eq_getElem_cons hlt]
    exact mem_cons_self
  obtain ⟨u, r, hu, hy⟩ := h.names.live _ (getElem_mem hlt) (h.not_taken hmem)
  have hcell : s.disk.avail.ring (s.device.seen % NUM) = r.i := by
    have := h.rings.avail.head (by rwa [length_map])
    rw [getElem_map, hy] at this
    rw [h.rings.seen, counter_cell (by decide), this]
  rw [hcell]
  refine ⟨_, rfl, ⟨h.locks.lock, h.locks.holder⟩,
    h.descs.congr rfl rfl (fun _ _ => rfl) fun _ => rfl,
    h.names.congr rfl (fun _ => rfl) rfl rfl rfl rfl rfl rfl,
    ⟨?_, h.flow.cleared, h.flow.served, h.flow.reported, h.flow.returned⟩,
    ⟨h.rings.avail.pop, h.rings.idx, ?_, hlt, h.rings.used, h.rings.usedIdx, h.rings.used_idx,
      h.rings.offered⟩⟩
  · show (s.published.take (s.taken + 1)).Perm
      (((s.device.active ++ [r.i]) ++ s.device.served).map (fun i => (i, s.head i)) ++ s.reported)
    rw [take_succ_eq_append_getElem hlt, hy, ← (h.names.names u r hu).1]
    refine (h.flow.perm.append_right _).trans ?_
    simp only [map_append, map_cons, map_nil, append_assoc]
    refine List.Perm.append_left _ ?_
    rw [← append_assoc]
    exact perm_append_comm
  · show (s.device.seen + 1) % 2 ^ 16 = (s.taken + 1) % 2 ^ 16
    rw [h.rings.seen, counter_succ]

/-- The chain of a request ends at its status byte. -/
theorem Chain.done (h : Chain d r) : d.done r.i =
    { d with info := update d.info r.i { d.info r.i with status := 0 } } := by
  rw [Disk.done, h.first, h.second, h.third]

theorem Good.serve (h : Good s) (hp : s.serve i = some e) : ∃ p, e = .ok p ∧ Good p := by
  rw [Sys.serve] at hp
  split at hp
  swap
  · cases hp
  next hi =>
  cases hp
  obtain ⟨hpub, hc⟩ := h.in_device (mem_append_left _ hi)
  obtain ⟨u, r, hu, he⟩ := h.names.live _ hpub hc
  obtain rfl : i = r.i := congrArg Prod.fst he
  rw [(h.descs.chain u r hu).done]
  have hstatus : ∀ j, (s.disk.info j).status = 0 ∨ j = r.i →
      (update s.disk.info r.i { s.disk.info r.i with status := 0 } j).status = 0 := by
    intro j hj
    by_cases hji : j = r.i
    · rw [hji, update_self]
    · rw [update_of_ne hji]
      exact hj.resolve_right hji
  refine ⟨_, rfl, ⟨h.locks.lock, h.locks.holder⟩,
    h.descs.congr rfl rfl (fun _ _ => rfl) fun j => ?_,
    h.names.congr rfl (fun _ => rfl) rfl rfl rfl rfl rfl rfl,
    ⟨?_, h.flow.cleared, fun j hj => ?_, fun x hx hcx => ?_, h.flow.returned⟩,
    ⟨h.rings.avail, h.rings.idx, h.rings.seen, h.rings.taken, h.rings.used, h.rings.usedIdx,
      h.rings.used_idx, h.rings.offered⟩⟩
  · show (update s.disk.info r.i { s.disk.info r.i with status := 0 } j).b = _
    by_cases hji : j = r.i
    · rw [hji, update_self]
    · rw [update_of_ne hji]
  · refine h.flow.perm.trans (List.Perm.append_right _ (List.Perm.map _ ?_))
    refine ((perm_cons_erase hi).append_right _).trans ?_
    show (r.i :: (s.device.active.erase r.i ++ s.device.served)).Perm
      (s.device.active.erase r.i ++ (s.device.served ++ [r.i]))
    rw [← append_assoc]
    exact (perm_append_singleton ..).symm
  · rcases mem_append.mp hj with hj | hj
    · exact hstatus j (.inl (h.flow.served j hj))
    · exact hstatus j (.inr (mem_singleton.mp hj))
  · exact hstatus x.1 (.inl (h.flow.reported x hx hcx))

theorem Good.report (h : Good s) (hp : s.report i = some e) : ∃ p, e = .ok p ∧ Good p := by
  rw [Sys.report] at hp
  split at hp
  swap
  · cases hp
  next hi =>
  cases hp
  have hroom := h.used_room hi
  refine ⟨_, rfl, ⟨h.locks.lock, h.locks.holder⟩,
    h.descs.congr rfl rfl (fun _ _ => rfl) fun _ => rfl,
    h.names.congr rfl (fun _ => rfl) rfl rfl rfl rfl rfl rfl,
    ⟨?_, ?_, fun j hj => h.flow.served j (mem_of_mem_erase hj), fun x hx hcx => ?_,
      h.flow.returned⟩,
    ⟨h.rings.avail, h.rings.idx, h.rings.seen, h.rings.taken, ?_, ?_, h.rings.used_idx,
      h.rings.offered⟩⟩
  · refine h.flow.perm.trans ?_
    show ((s.device.active ++ s.device.served).map (fun i => (i, s.head i)) ++ s.reported).Perm
      ((s.device.active ++ s.device.served.erase i).map (fun i => (i, s.head i)) ++
        (s.reported ++ [(i, s.head i)]))
    rw [← append_assoc]
    refine List.Perm.trans ?_ (perm_append_singleton ..).symm
    rw [← cons_append]
    refine List.Perm.append_right _ ?_
    have hperm : (s.device.active ++ s.device.served).Perm
        (i :: (s.device.active ++ s.device.served.erase i)) :=
      ((perm_cons_erase hi).append_left _).trans perm_middle
    exact hperm.map fun i => (i, s.head i)
  · show s.cleared <+: (s.reported ++ [(i, s.head i)]).map Prod.snd
    rw [map_append]
    exact h.flow.cleared.trans (prefix_append ..)
  · rcases mem_append.mp hx with hx | hx
    · exact h.flow.reported x hx hcx
    · rw [mem_singleton.mp hx]
      exact h.flow.served i hi
  · show Holds NUM (update _ (s.disk.used.idx % NUM) i)
      ((s.reported ++ [(i, s.head i)]).map Prod.fst) _
    rw [map_append, h.rings.usedIdx, counter_cell (by decide),
      ← length_map (f := Prod.fst)]
    exact h.rings.used.push (by rwa [length_map])
  · show (s.disk.used.idx + 1) % 2 ^ 16 = (s.reported ++ [(i, s.head i)]).length % 2 ^ 16
    rw [h.rings.usedIdx, counter_succ, length_append, length_singleton]

/-! ## Runs -/

/-- The next step of a thread does not panic. -/
theorem Good.run (h : Good s) (hp : s.run t = some e) : ∃ p, e = .ok p ∧ Good p := by
  have hbuf : ∀ b, (s.call t).buf = some b → s.holder b = some t := h.locks.holder t
  have hreq : s.req t = (s.call t).req := rfl
  -- where a step only takes the lock
  have hacq : ∀ c, s.acquire t c = some e → c.locked = true → c.buf = (s.call t).buf →
      c.req = (s.call t).req → c.posted = (s.call t).posted → (∀ r, c ≠ .offered r) →
      ∃ p, e = .ok p ∧ Good p := by
    intro c hs hlocked hb hr hposted hc
    cases e with
    | error m =>
      rw [Sys.acquire] at hs
      split at hs <;> cases hs
    | ok p =>
      exact ⟨p, rfl, h.acquire hs hlocked (fun b hb' => hbuf b (hb ▸ hb')) (hr.trans hreq.symm)
        hposted hc⟩
  rw [Sys.run] at hp
  cases hc : s.call t with
  | idle =>
    rw [hc] at hp
    cases hp
  | enter b blockno write =>
    rw [hc] at hp hacq
    exact hacq _ hp rfl rfl rfl rfl fun _ he => (by cases he)
  | alloc b blockno write =>
    rw [hc] at hp
    cases hp
    exact h.alloc hc
  | formatted r =>
    rw [hc] at hp
    cases hp
    exact ⟨_, rfl, h.offer hc⟩
  | offered r =>
    rw [hc] at hp
    cases hp
    exact ⟨_, rfl, h.publish hc⟩
  | check r =>
    rw [hc] at hp
    cases hp
    cases ho : s.owned r.b with
    | false => exact h.finish hc ho
    | true =>
      refine ⟨_, rfl, h.release (t := t) (by rw [hc]; rfl) rfl (fun b hb => ?_) ?_ ?_
        fun _ he => (by cases he)⟩
      · rw [hc] at hbuf
        exact hbuf b hb
      · rw [hreq, hc]
        rfl
      · rw [hc]
        rfl
  | asleep r =>
    rw [hc] at hp hacq
    exact hacq _ hp rfl rfl rfl rfl fun _ he => (by cases he)
  | interrupted =>
    rw [hc] at hp hacq
    exact hacq _ hp rfl rfl rfl rfl fun _ he => (by cases he)
  | intr =>
    rw [hc] at hp
    cases hp
    exact h.intr hc

/-- No step panics, and every step keeps the protocol. -/
theorem Good.step (h : Good s) (a : Action) (hp : s.step a = some e) :
    ∃ p, e = .ok p ∧ Good p := by
  cases a with
  | acquiresleep t b =>
    rw [Sys.step] at hp
    split at hp
    · next hfree =>
      cases hp
      refine ⟨_, rfl, h.of_holder fun u b' hb => ?_⟩
      have hu := h.locks.holder u b' hb
      rw [update_of_ne, hu]
      rintro rfl
      rw [hfree] at hu
      cases hu
    · cases hp
  | releasesleep t b =>
    rw [Sys.step] at hp
    split at hp
    · next hidle =>
      split at hp
      · next hheld =>
        cases hp
        refine ⟨_, rfl, h.of_holder fun u b' hb => ?_⟩
        have hu := h.locks.holder u b' hb
        rw [update_of_ne, hu]
        rintro rfl
        cases hheld.symm.trans hu
        rw [hidle] at hb
        cases hb
      · cases hp
    · cases hp
  | rw t b blockno write =>
    rw [Sys.step] at hp
    split at hp
    · next hidle =>
      split at hp
      · next hheld =>
        cases hp
        refine ⟨_, rfl, h.start hidle rfl (fun b' hb => ?_) rfl rfl fun _ he => (by cases he)⟩
        cases hb
        exact hheld
      · cases hp
    · cases hp
  | interrupt t =>
    rw [Sys.step] at hp
    split at hp
    · next hidle =>
      cases hp
      exact ⟨_, rfl, h.start hidle rfl (fun _ hb => by cases hb) rfl rfl fun _ he => (by cases he)⟩
    · cases hp
  | run t => exact h.run hp
  | fetch => exact h.fetch hp
  | serve i => exact h.serve hp
  | report i => exact h.report hp

theorem init_good : Good init := by
  have hnone : ∀ {P : Prop} {t : Nat} {r : Req}, init.req t = some r → P := by
    intro P t r h
    cases h
  refine ⟨⟨fun t => iff_of_false (fun h => ?_) Bool.false_ne_true, fun _ _ h => ?_⟩,
    ⟨fun _ _ => hnone, fun _ _ _ _ => hnone, fun i hi h => ?_⟩,
    ⟨fun _ _ => hnone, fun _ _ => hnone, fun _ _ _ _ => hnone, fun _ _ => hnone, ?_, ?_,
      fun _ _ => hnone, nodup_nil⟩,
    ⟨.refl _, nil_prefix, ?_, ?_, ?_⟩,
    ⟨Holds.nil _, rfl, rfl, le_rfl, Holds.nil _, rfl, rfl, fun _ _ h => ?_⟩⟩
  · cases h
  · cases h
  · exact absurd hi (of_decide_eq_false h)
  · exact fun _ h => absurd h not_mem_nil
  · exact fun _ h => absurd h not_mem_nil
  · exact fun _ h => absurd h not_mem_nil
  · exact fun _ h => absurd h not_mem_nil
  · exact fun _ h => absurd h not_mem_nil
  · cases h

theorem reach_good (h : Sys.Reach init s) : Good s := by
  induction h with
  | refl => exact init_good
  | step a _ hs ih =>
    obtain ⟨p, he, hp⟩ := ih.step a hs
    cases he
    exact hp

/-- A request that is no longer owned by the disk was reported with its own chain. -/
theorem Good.reported_own (h : Good s) (ht : s.req t = some r) (hc : r.id ∈ s.cleared) :
    (r.i, r.id) ∈ s.reported := by
  obtain ⟨x, hx, he⟩ := h.cleared_mem hc
  rw [← h.names.own t r ht x (h.reported_mem hx) he, ← he]
  exact hx

/-- The driver and the device, in every run. The descriptors of a request are distinct, not free,
    and not those of another request; all others are free. `b->disk` is cleared once for a request,
    after the device has reported its chain. The rings hold all entries that have not been consumed.
    Nothing panics. -/
theorem virtio_protocol (h : Sys.Reach init s) :
    (∀ t r, s.req t = some r → r.idx.Nodup ∧ ∀ i ∈ r.idx, i < NUM ∧ s.disk.free i = false) ∧
    (∀ t u r r', s.req t = some r → s.req u = some r' → t ≠ u → r.idx.Disjoint r'.idx) ∧
    (∀ i < NUM, s.disk.free i = true ↔ ∀ t r, s.req t = some r → i ∉ r.idx) ∧
    (∀ t r, s.req t = some r → s.cleared.count r.id = (if s.owned r.b then 0 else 1) ∧
      (s.owned r.b = false → (r.i, r.id) ∈ s.reported)) ∧
    (∀ i ∈ s.returned, s.cleared.count i = 1) ∧
    s.cleared <+: s.reported.map Prod.snd ∧
    Holds NUM s.disk.avail.ring (s.published.map Prod.fst) s.taken ∧
    s.disk.avail.idx = s.published.length % 2 ^ 16 ∧ s.device.seen = s.taken % 2 ^ 16 ∧
    s.taken ≤ s.published.length ∧ s.published.length ≤ s.taken + NUM ∧
    Holds NUM s.disk.used.ring (s.reported.map Prod.fst) s.cleared.length ∧
    s.disk.used.idx = s.reported.length % 2 ^ 16 ∧
    s.disk.used_idx = s.cleared.length % 2 ^ 16 ∧
    s.cleared.length ≤ s.reported.length ∧ s.reported.length ≤ s.cleared.length + NUM ∧
    ∀ a m, s.step a ≠ some (.error m) := by
  have hg := reach_good h
  have hnd : s.cleared.Nodup :=
    (nodup_append.mp hg.taken_nodup).2.1.sublist hg.flow.cleared.sublist
  refine ⟨fun t r ht => ⟨(hg.descs.chain t r ht).nodup, (hg.descs.chain t r ht).mem⟩,
    hg.descs.apart, fun i hi => ⟨fun hf t r ht hm => ?_, fun hn => ?_⟩, fun t r ht => ?_,
    fun i hi => count_eq_one_of_mem hnd (hg.flow.returned i hi), hg.flow.cleared,
    hg.rings.avail, hg.rings.idx, hg.rings.seen, hg.rings.taken, hg.avail_le, hg.rings.used,
    hg.rings.usedIdx, hg.rings.used_idx, hg.cleared_le, hg.used_le, fun a m he => ?_⟩
  · rw [hg.not_free ht hm] at hf
    cases hf
  · cases hf : s.disk.free i with
    | true => rfl
    | false =>
      obtain ⟨t, r, ht, hm⟩ := hg.descs.free i hi hf
      exact absurd hm (hn t r ht)
  · have ho := hg.names.owned t r ht
    cases hb : s.owned r.b with
    | true =>
      rw [hb] at ho
      exact ⟨count_eq_zero_of_not_mem (ho.mp rfl), fun hc => by cases hc⟩
    | false =>
      have hc : r.id ∈ s.cleared := by
        by_contra hc
        rw [ho.mpr hc] at hb
        cases hb
      exact ⟨count_eq_one_of_mem hnd hc, fun _ => hg.reported_own ht hc⟩
  · obtain ⟨p, hp, -⟩ := hg.step a he
    cases hp

/-- Two requests of which the second is served first; its caller returns and the first one waits. -/
def twoRequests : List Action :=
  [.acquiresleep 0 5, .acquiresleep 1 6, .rw 0 5 100 false, .rw 1 6 200 true,
    .run 0, .run 0, .run 0, .run 0, .run 0, .run 1, .run 1, .run 1, .run 1, .run 1,
    .fetch, .fetch, .serve 3, .report 3, .interrupt 2, .run 2, .run 2, .run 2, .run 1, .run 1]

theorem virtio_protocol_two : ∃ s, init.runs twoRequests = some s ∧ s.returned = [1] ∧
    s.published = [(0, 0), (3, 1)] ∧ s.disk.free 0 = false ∧ s.disk.free 3 = true ∧
    ∀ a m, s.step a ≠ some (.error m) := by
  refine ⟨_, rfl, rfl, rfl, rfl, rfl, ?_⟩
  have h := virtio_protocol (Sys.Reach.of_runs (l := twoRequests) rfl)
  exact h.2.2.2.2.2.2.2.2.2.2.2.2.2.2.2.2

end Xv6.Virtio
