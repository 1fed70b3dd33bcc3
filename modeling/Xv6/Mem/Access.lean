import Xv6.Mem.Own

/-!
# Reading and writing user memory

`trans m pt va` is the physical address of the byte that a user program has at `va`, if there is
one. What `copyin`, `copyout` and `copyinstr` do is said with it byte by byte: they work page by
page, but what comes of it is that the bytes of the user addresses `va`, `va + 1`, … are read or
written one after the other, up to the first one that is not mapped.

`walkaddr` says with a null address that a page is not mapped, so that a user page at physical
address 0 cannot be read or written. `copyout` goes on reading the page table while it writes. What
it does can be said by looking at the state before only if no user page is a page of the page table,
and if no two user pages are the same page.
-/

namespace Xv6.Mem

open Lib List

/-- The physical address of the byte at the user address `va`. -/
def trans (m : Bytes) (pt va : Nat) : Option Nat :=
  match look m pt (va / PGSIZE) with
  | none => none
  | some (pa, fl) => if fl &&& PTE_U = 0 then none else some (pa + va % PGSIZE)

/-- The byte at the user address `va`. -/
def userByte (m : Bytes) (pt va : Nat) : Option UInt8 := (trans m pt va).map m

/-- The page of `va` is mapped, and the user may access it. -/
def UserMapped (m : Bytes) (pt va : Nat) : Prop :=
  va < MAXVA ∧ ∃ pa fl, look m pt (va / PGSIZE) = some (pa, fl) ∧ fl &&& PTE_U ≠ 0

/-- No user page is at physical address 0. -/
def NoNull (m : Bytes) (pt : Nat) : Prop :=
  ∀ v pa fl, look m pt v = some (pa, fl) → fl &&& PTE_U ≠ 0 → pa ≠ 0

/-- No two user pages are the same, and none is a page of the page table. -/
structure Distinct (m : Bytes) (pt : Nat) : Prop where
  inj : ∀ v w pa fl fl', look m pt v = some (pa, fl) → fl &&& PTE_U ≠ 0 →
    look m pt w = some (pa, fl') → fl' &&& PTE_U ≠ 0 → v = w
  apart : ∀ v pa fl, look m pt v = some (pa, fl) → fl &&& PTE_U ≠ 0 → pa ∉ ptPages m 2 pt
  aligned : pt % PGSIZE = 0

section

variable {img : Image} {s s' : Phys} {fs : List Nat} {pt va len a i k c n p v w tf : Nat}
  {m m' : Bytes} {src : Nat → UInt8} {R : Multiset Owner} {E : Option String → Prop}

/-! ## Translation -/

theorem trans_eq_some : trans m pt va = some a ↔
    ∃ pa fl, look m pt (va / PGSIZE) = some (pa, fl) ∧ fl &&& PTE_U ≠ 0 ∧ a = pa + va % PGSIZE := by
  unfold trans
  cases hl : look m pt (va / PGSIZE) with
  | none => exact iff_of_false (by simp) (by simp)
  | some b =>
    obtain ⟨pa, fl⟩ := b
    simp only
    split
    · next hU =>
      refine iff_of_false (by simp) ?_
      rintro ⟨pa', fl', he, hU', -⟩
      cases he
      exact hU' hU
    · next hU =>
      constructor
      · intro h
        cases h
        exact ⟨pa, fl, rfl, hU, rfl⟩
      · rintro ⟨pa', fl', he, -, rfl⟩
        cases he
        rfl

theorem trans_ne_none : trans m pt va ≠ none ↔ UserMapped m pt va := by
  rw [Option.ne_none_iff_exists']
  constructor
  · rintro ⟨a, ha⟩
    obtain ⟨pa, fl, hl, hU, -⟩ := trans_eq_some.mp ha
    refine ⟨?_, pa, fl, hl, hU⟩
    have := (look_some hl).1
    simp only [NPAGES, PGSIZE, MAXVA] at this ⊢
    omega
  · rintro ⟨-, pa, fl, hl, hU⟩
    exact ⟨_, trans_eq_some.mpr ⟨pa, fl, hl, hU, rfl⟩⟩

theorem trans_congr (h : look m' pt = look m pt) : trans m' pt va = trans m pt va := by
  rw [trans, trans, h]

theorem pgrounddown_div (va : Nat) : pgrounddown va / PGSIZE = va / PGSIZE :=
  Nat.mul_div_cancel _ (by decide)

/-- The place in its page of an address. -/
theorem sub_pgrounddown (va : Nat) : va - pgrounddown va = va % PGSIZE := by
  unfold pgrounddown
  simp only [PGSIZE]
  omega

/-- The address that follows a chunk, if there is more to copy. -/
theorem chunk_next (va len : Nat) (h : len - chunk va len ≠ 0) :
    pgrounddown va + PGSIZE = va + chunk va len := by
  unfold chunk pgrounddown at *
  simp only [PGSIZE] at *
  omega

theorem chunk_fits (va len : Nat) : va % PGSIZE + chunk va len ≤ PGSIZE := by
  unfold chunk pgrounddown
  simp only [PGSIZE]
  omega

/-- The bytes of a chunk are on the page of the first. -/
theorem chunk_page (hi : i < chunk va len) :
    (va + i) / PGSIZE = va / PGSIZE ∧ (va + i) % PGSIZE = va % PGSIZE + i := by
  have := chunk_fits va len
  simp only [PGSIZE] at *
  omega

/-- What `walkaddr` returns for the page of `va`. -/
theorem userPage_cases (hnull : NoNull m pt) (va : Nat) :
    (userPage m pt (pgrounddown va) = 0 ∧ ∀ i, (va + i) / PGSIZE = va / PGSIZE →
      trans m pt (va + i) = none) ∨
    (userPage m pt (pgrounddown va) ≠ 0 ∧ ∀ i, (va + i) / PGSIZE = va / PGSIZE →
      trans m pt (va + i) = some (userPage m pt (pgrounddown va) + (va + i) % PGSIZE)) := by
  unfold userPage
  rw [pgrounddown_div]
  cases hl : look m pt (va / PGSIZE) with
  | none =>
    refine .inl ⟨rfl, fun i hi => ?_⟩
    rw [trans, hi, hl]
  | some b =>
    obtain ⟨pa, fl⟩ := b
    simp only
    split
    · next hU =>
      refine .inl ⟨rfl, fun i hi => ?_⟩
      rw [trans, hi, hl]
      exact if_pos hU
    · next hU =>
      refine .inr ⟨hnull _ pa fl hl hU, fun i hi => ?_⟩
      rw [trans, hi, hl]
      exact if_neg hU

/-! ## `copyin` -/

/-- What `copyin` gets are the bytes one after the other, if they are all there. -/
theorem copyin_bytes (hnull : NoNull s.mem pt) : (copyin pt va len).Runs s E fun r s' => s' = s ∧
    ((r = none ∧ ∃ i < len, trans s.mem pt (va + i) = none) ∨
      ∃ bs, r = some bs ∧ bs.length = len ∧ ∀ i < len, ∃ a, trans s.mem pt (va + i) = some a ∧
        bs[i]? = some (s.mem a)) := by
  induction len using Nat.strong_induction_on generalizing va with
  | _ len ih =>
  rw [copyin]
  split
  · next hlen =>
    refine .ret ⟨rfl, .inr ⟨[], rfl, hlen.symm, fun i hi => ?_⟩⟩
    omega
  rename_i hlen
  refine .bind walkaddr_runs ?_
  rintro _ s ⟨rfl, rfl⟩
  have hpos := chunk_pos va hlen
  rcases userPage_cases hnull va with ⟨h0, hnone⟩ | ⟨h0, hsome⟩
  · rw [if_pos h0]
    exact .ret ⟨rfl, .inl ⟨rfl, 0, pos_of_ne_zero hlen, hnone 0 rfl⟩⟩
  rw [if_neg h0]
  refine .seq (.get ?_)
  refine .bind (ih (len - chunk va len) (by omega)) ?_
  have hle := chunk_le va len
  rintro _ s ⟨rfl, ⟨rfl, i, hi, ht⟩ | ⟨bs, rfl, hbs, hbytes⟩⟩
  · refine .ret ⟨rfl, .inl ⟨rfl, chunk va len + i, by omega, ?_⟩⟩
    rwa [chunk_next va len (by omega), add_assoc] at ht
  · refine .ret ⟨rfl, .inr ⟨_, rfl, ?_, fun i hi => ?_⟩⟩
    · rw [length_append, length_map, length_range, hbs]
      omega
    · by_cases hic : i < chunk va len
      · obtain ⟨hpage, hoff⟩ := chunk_page hic
        refine ⟨_, hsome i hpage, ?_⟩
        rw [getElem?_append_left (by simpa using hic), getElem?_map,
          getElem?_range hic, Option.map_some, sub_pgrounddown, hoff, add_assoc]
      · obtain ⟨a, ha, hb⟩ := hbytes (i - chunk va len) (by omega)
        have hsplit : pgrounddown va + PGSIZE + (i - chunk va len) = va + i := by
          rw [chunk_next va len (by omega)]
          omega
        rw [hsplit] at ha
        refine ⟨a, ha, ?_⟩
        rw [getElem?_append_right (by simpa using hic), length_map, length_range]
        exact hb

/-! ## `copyout` -/

/-- The first `n` bytes of `src` were stored at `va`, `va + 1`, …. -/
structure Stored (m m' : Bytes) (pt va : Nat) (src : Nat → UInt8) (n : Nat) : Prop where
  bytes : ∀ i < n, ∃ a, trans m pt (va + i) = some a ∧ m' a = src i
  frame : ∀ a, (∀ i < n, trans m pt (va + i) ≠ some a) → m' a = m a

theorem Distinct.congr (h : Distinct m pt) (hal : Alike 2 pt m m') : Distinct m' pt := by
  refine ⟨?_, ?_, h.aligned⟩
  · rw [hal.look]
    exact h.inj
  · rw [hal.look, hal.pages]
    exact h.apart

/-- Two user addresses that are translated to the same byte are the same. -/
theorem Distinct.trans_inj (h : Distinct m pt) {va' : Nat} (ha : trans m pt va = some a)
    (ha' : trans m pt va' = some a) : va = va' := by
  obtain ⟨pa, fl, hl, hU, rfl⟩ := trans_eq_some.mp ha
  obtain ⟨pa', fl', hl', hU', he⟩ := trans_eq_some.mp ha'
  have hal : pa % PGSIZE = 0 ∧ pa' % PGSIZE = 0 := by
    obtain ⟨-, -, hb⟩ := look_some hl
    obtain ⟨-, -, hb'⟩ := look_some hl'
    cases hb
    cases hb'
    exact ⟨pte2pa_mod _, pte2pa_mod _⟩
  have hpa : pa = pa' ∧ va % PGSIZE = va' % PGSIZE := by
    simp only [PGSIZE] at he hal ⊢
    omega
  have hpage := h.inj _ _ pa fl fl' hl hU (hpa.1 ▸ hl') hU'
  have hmod := hpa.2
  simp only [PGSIZE] at hpage hmod
  omega

theorem Stored.mapped (h : Stored m m' pt va src n) (hi : i < n) : UserMapped m pt (va + i) := by
  obtain ⟨a, ha, -⟩ := h.bytes i hi
  exact trans_ne_none.mp (by rw [ha]; simp)

/-- Storing to user addresses leaves the page table as it is. -/
theorem Stored.alike (h : Stored m m' pt va src n) (hd : Distinct m pt) : Alike 2 pt m m' := by
  refine Mem.alike fun q hq i hi => h.frame _ fun j _ hj => ?_
  obtain ⟨pa, fl, hl, hU, he⟩ := trans_eq_some.mp hj
  have hpage : pa = q := by
    have hpa := look_aligned hl
    have hq0 := ptPages_aligned hd.aligned hq
    simp only [PGSIZE] at he hi hpa hq0
    omega
  exact hd.apart _ pa fl hl hU (hpage ▸ hq)

theorem Stored.nil : Stored m m pt va src 0 :=
  ⟨fun i hi => absurd hi (Nat.not_lt_zero i), fun _ _ => rfl⟩

/-- What is stored next does not overwrite what was stored before. -/
theorem Stored.append {m₁ : Bytes} (hd : Distinct m pt) (h : Stored m m₁ pt va src n)
    (h' : Stored m₁ m' pt (va + n) (fun i => src (n + i)) k) : Stored m m' pt va src (n + k) := by
  have htrans : ∀ a, trans m₁ pt a = trans m pt a := fun a => trans_congr (h.alike hd).look
  refine ⟨fun i hi => ?_, fun a ha => ?_⟩
  · by_cases hin : i < n
    · obtain ⟨a, ha, hb⟩ := h.bytes i hin
      refine ⟨a, ha, (h'.frame a fun j _ hj => ?_).trans hb⟩
      rw [htrans] at hj
      have := hd.trans_inj ha hj
      omega
    · obtain ⟨a, ha, hb⟩ := h'.bytes (i - n) (by omega)
      rw [htrans, add_assoc, Nat.add_sub_cancel' (not_lt.mp hin)] at ha
      rw [Nat.add_sub_cancel' (not_lt.mp hin)] at hb
      exact ⟨a, ha, hb⟩
  · rw [h'.frame a fun j hj hc => ha (n + j) (by omega) ?_,
      h.frame a fun j hj => ha j (by omega)]
    rwa [htrans, add_assoc] at hc

/-- `copyout` stores the bytes one after the other, up to the first address that is not mapped. -/
theorem copyout_stored (hnull : NoNull s.mem pt) (hd : Distinct s.mem pt) :
    (copyout pt va src len).Runs s E fun r s' => s'.freelist = s.freelist ∧
      look s'.mem pt = look s.mem pt ∧ ∃ n, Stored s.mem s'.mem pt va src n ∧
      ((r = true ∧ n = len) ∨ (r = false ∧ n < len ∧ trans s.mem pt (va + n) = none)) := by
  induction len using Nat.strong_induction_on generalizing s va src with
  | _ len ih =>
  rw [copyout]
  by_cases hlen : len = 0
  · rw [if_pos hlen]
    exact .ret ⟨rfl, rfl, 0, .nil, .inl ⟨rfl, hlen.symm⟩⟩
  rw [if_neg hlen]
  refine .bind walkaddr_runs ?_
  rintro _ s ⟨rfl, rfl⟩
  rcases userPage_cases hnull va with ⟨h0, hnone⟩ | ⟨h0, hsome⟩
  · rw [if_pos h0]
    exact .ret ⟨rfl, rfl, 0, .nil, .inr ⟨rfl, pos_of_ne_zero hlen, hnone 0 rfl⟩⟩
  rw [if_neg h0]
  generalize userPage s.mem pt (pgrounddown va) = pa at *
  generalize hm₁ : putBytes s.mem (pa + (va - pgrounddown va)) src (chunk va len) = m₁
  rw [sub_pgrounddown] at hm₁
  have hpos := chunk_pos va hlen
  have hle := chunk_le va len
  have hfirst : Stored s.mem m₁ pt va src (chunk va len) := by
    refine ⟨fun i hi => ?_, fun a ha => ?_⟩
    · obtain ⟨hpage, hoff⟩ := chunk_page hi
      refine ⟨_, hsome i hpage, ?_⟩
      rw [← hm₁, putBytes, if_pos (by omega), hoff]
      congr 1
      omega
    · rw [← hm₁, putBytes, if_neg fun hin => ?_]
      have hi : a - (pa + va % PGSIZE) < chunk va len := by omega
      obtain ⟨hpage, hoff⟩ := chunk_page hi
      refine ha _ hi ?_
      rw [hsome _ hpage, hoff]
      congr 1
      omega
  have halike := hfirst.alike hd
  have hlook := halike.look
  refine .bind (.modify (Q := fun _ t => t = ⟨m₁, s.freelist⟩) (by rw [← hm₁, sub_pgrounddown])) ?_
  rintro _ _ rfl
  have hnull₁ : NoNull m₁ pt := by
    rw [NoNull, hlook]
    exact hnull
  refine (ih (len - chunk va len) (by omega) (s := ⟨m₁, s.freelist⟩) hnull₁
    (hd.congr halike)).mono ?_
  rintro r s' ⟨hfree, hlook', n, hst, hr⟩
  -- if there is more to copy, it goes behind the chunk
  have hrest : Stored m₁ s'.mem pt (va + chunk va len) (fun i => src (chunk va len + i)) n := by
    by_cases hlast : len - chunk va len = 0
    · obtain rfl : n = 0 := by omega
      refine ⟨fun i hi => absurd hi (Nat.not_lt_zero i), fun a _ => hst.frame a fun i hi => ?_⟩
      exact absurd hi (Nat.not_lt_zero i)
    · rw [chunk_next va len hlast] at hst
      simpa only [add_comm] using hst
  refine ⟨hfree, hlook'.trans hlook, _, hfirst.append hd hrest, ?_⟩
  rcases hr with ⟨rfl, rfl⟩ | ⟨rfl, hlt, hnone⟩
  · exact .inl ⟨rfl, by omega⟩
  · rw [trans_congr hlook, chunk_next va len (by omega), add_assoc] at hnone
    exact .inr ⟨rfl, by omega, hnone⟩

/-! ## Copies are translation, byte by byte -/

/-- `copyin` and `copyout` succeed if every address is mapped; then the bytes are those at the
    translations. Nothing else is written, whether they succeed or fail. -/
theorem copy_is_translation (hnull : NoNull s.mem pt) :
    (∀ va len, (copyin pt va len).Runs s (fun _ => False) fun r s' => s' = s ∧
      (r ≠ none ↔ ∀ i < len, UserMapped s.mem pt (va + i)) ∧
      ∀ bs, r = some bs → bs.length = len ∧
        ∀ i < len, bs[i]? = userByte s.mem pt (va + i)) ∧
    (Distinct s.mem pt → ∀ va len src,
      (copyout pt va src len).Runs s (fun _ => False) fun r s' =>
        (r = true ↔ ∀ i < len, UserMapped s.mem pt (va + i)) ∧
        (r = true → ∀ i < len, ∃ a, trans s.mem pt (va + i) = some a ∧ s'.mem a = src i) ∧
        (∀ a, (∀ i < len, trans s.mem pt (va + i) ≠ some a) → s'.mem a = s.mem a) ∧
        s'.freelist = s.freelist) := by
  constructor
  · intro va len
    refine (copyin_bytes hnull).mono ?_
    rintro r s' ⟨hs, ⟨rfl, i, hi, hn⟩ | ⟨bs, rfl, hlen, hbytes⟩⟩
    · refine ⟨hs, iff_of_false (by simp) fun hall => ?_, fun bs hc => absurd hc (by simp)⟩
      exact trans_ne_none.mpr (hall i hi) hn
    · refine ⟨hs, iff_of_true (by simp) fun i hi => ?_, fun bs' hbs => ?_⟩
      · obtain ⟨a, ha, -⟩ := hbytes i hi
        exact trans_ne_none.mp (by simp [ha])
      · cases hbs
        refine ⟨hlen, fun i hi => ?_⟩
        obtain ⟨a, ha, hb⟩ := hbytes i hi
        rw [hb, userByte, ha, Option.map_some]
  · intro hd va len src
    refine (copyout_stored hnull hd).mono ?_
    rintro r s' ⟨hfree, -, n, hst, ⟨rfl, rfl⟩ | ⟨rfl, hlt, hn⟩⟩
    · refine ⟨iff_of_true rfl fun i hi => ?_, fun _ => hst.bytes, hst.frame, hfree⟩
      obtain ⟨a, ha, -⟩ := hst.bytes i hi
      exact trans_ne_none.mp (by simp [ha])
    · refine ⟨iff_of_false (by simp) fun hall => trans_ne_none.mpr (hall n hlt) hn,
        (fun hc => absurd hc (by simp)), fun a ha => ?_, hfree⟩
      exact hst.frame a fun i hi => ha i (hi.trans hlt)

theorem Owned.noNull (h : Owned img s fs ({.space pt n tf} + R)) : NoNull s.mem pt := by
  obtain ⟨hs, ha⟩ := h.space
  intro v pa fl hl hU
  exact Nat.ne_of_gt (hs.frame_page (ha.user_lt hl hU) hl).1.pos

theorem Owned.distinct (h : Owned img s fs ({.space pt n tf} + R)) : Distinct s.mem pt := by
  obtain ⟨hs, ha⟩ := h.space
  refine ⟨fun v w pa fl fl' hl hU hl' hU' => ?_, fun v pa fl hl hU hm => ?_,
    (hs.page pt pt_mem_ptPages).aligned⟩
  · have hv := ha.user_lt hl hU
    have hw := ha.user_lt hl' hU'
    exact frames_inj (Multiset.nodup_add.mp hs.apart).2.1 ⟨Nat.zero_le v, by omega⟩
      ⟨Nat.zero_le w, by omega⟩ hl hl'
  · exact (hs.frame_page (ha.user_lt hl hU) hl).2 (mem_foot.mpr (.inr hm))

/-- What is stored to user addresses is stored to the frames of the address space. -/
theorem Owned.stored (h : Owned img s fs ({.space pt n tf} + R))
    (hst : Stored s.mem s'.mem pt va src k) (hfree : s'.freelist = s.freelist) :
    Owned img s' fs ({.space pt n tf} + R) ∧ Untouched R s.mem s'.mem := by
  have hf : Frame (frames (look s.mem pt) 0 n) s.mem s'.mem := by
    intro p hp hn i hi
    refine hst.frame _ fun j _ hj => hn ?_
    obtain ⟨pa, fl, hl, hU, he⟩ := trans_eq_some.mp hj
    have hpa := look_aligned hl
    have hpage : pa = p := by
      simp only [PGSIZE] at he hi hpa hp
      omega
    have hv := h.space.2.user_lt hl hU
    exact mem_frames.mpr ⟨_, fl, Nat.zero_le _, by omega, hpage ▸ hl⟩
  refine ⟨(h.write_user _ hf hfree).1, h.untouched_space (hf.mono fun p hp => ?_)⟩
  exact Multiset.mem_add.mpr (.inr hp)

/-- A copy to the user changes what is in the pages, but not whose they are. -/
theorem copyout_kept (h : Owned img s fs ({.space pt n tf} + R)) :
    (copyout pt va src len).Runs s E fun _ s' => Owned img s' fs ({.space pt n tf} + R) ∧
      PagesKept ({.space pt n tf} + R) s.mem s'.mem := by
  refine (copyout_stored h.noNull h.distinct).mono ?_
  rintro _ s' ⟨hfree, -, k, hst, -⟩
  obtain ⟨ho, hrest⟩ := h.stored hst hfree
  exact ⟨ho, h.kept_of_rest ho hrest.kept⟩

/-- In an address space of two pages, copies of two pages succeed. -/
theorem copy_is_translation_space : ∃ s pt, NoNull s.mem pt ∧ Distinct s.mem pt ∧
    (∃ bs, (copyin pt 0 8192).run s = .ok (some bs) s) ∧
    ∃ s', (copyout pt 0 (fun _ => 7) 8192).run s = .ok true s' ∧
      ∀ i < 8192, ∃ a, trans s.mem pt i = some a ∧ s'.mem a = 7 := by
  obtain ⟨s, fs, pt, tf, h, -, hpages⟩ := exists_owned (n := 2) Image.built (by decide)
  have hmapped : ∀ i < 8192, UserMapped s.mem pt (0 + i) := by
    intro i hi
    obtain ⟨p, hl, -⟩ := hpages (i / PGSIZE) (by simp only [PGSIZE]; omega)
    rw [zero_add]
    exact ⟨by simp only [MAXVA]; omega, p, _, hl, by decide⟩
  obtain ⟨hin, hout⟩ := copy_is_translation h.noNull
  refine ⟨s, pt, h.noNull, h.distinct, ?_, ?_⟩
  · obtain ⟨r, s', hrun, rfl, hr, -⟩ := (hin 0 8192).ends fun _ => id
    obtain ⟨bs, rfl⟩ := Option.ne_none_iff_exists'.mp (hr.mpr hmapped)
    exact ⟨bs, hrun⟩
  · obtain ⟨r, s', hrun, hr, hbytes, -⟩ := (hout h.distinct 0 8192 fun _ => 7).ends fun _ => id
    obtain rfl := hr.mpr hmapped
    refine ⟨s', hrun, fun i hi => ?_⟩
    have := hbytes rfl i hi
    rwa [zero_add] at this

/-- A page table at `0x1000` with four user pages. The first is the page of its leaf entries, the
    next two are the same page, and the last one is at physical address 0. -/
def oddTable : Bytes :=
  lePut 8 (lePut 8 (lePut 8 (lePut 8 (lePut 8 (lePut 8 (fun _ => 0)
    0x1000 (pa2pte 0x2000 ||| PTE_V)) 0x2000 (pa2pte 0x3000 ||| PTE_V))
    0x3000 (pa2pte 0x3000 ||| 23)) 0x3008 (pa2pte 0x4000 ||| 23))
    0x3010 (pa2pte 0x4000 ||| 23)) 0x3018 23

theorem look_oddTable : look oddTable 0x1000 0 = some (0x3000, 23) ∧
    look oddTable 0x1000 1 = some (0x4000, 23) ∧ look oddTable 0x1000 2 = some (0x4000, 23) ∧
    look oddTable 0x1000 3 = some (0, 23) := by decide +kernel

theorem oddTable_mapped (h : va < 0x4000) : UserMapped oddTable 0x1000 va := by
  obtain ⟨h0, h1, h2, h3⟩ := look_oddTable
  refine ⟨by simp only [MAXVA]; omega, ?_⟩
  have : va / PGSIZE = 0 ∨ va / PGSIZE = 1 ∨ va / PGSIZE = 2 ∨ va / PGSIZE = 3 := by
    simp only [PGSIZE]
    omega
  rcases this with he | he | he | he
  all_goals rw [he]
  · exact ⟨_, _, h0, by decide⟩
  · exact ⟨_, _, h1, by decide⟩
  · exact ⟨_, _, h2, by decide⟩
  · exact ⟨_, _, h3, by decide⟩

/-- One round of `copyout`. -/
theorem copyout_round {Q : Bool → Phys → Prop} (hlen : len ≠ 0)
    (hp : userPage s.mem pt (pgrounddown va) = p) (h0 : p ≠ 0)
    (next : (copyout pt (pgrounddown va + PGSIZE) (fun i => src (i + chunk va len))
      (len - chunk va len)).Runs ⟨putBytes s.mem (p + (va - pgrounddown va)) src (chunk va len),
        s.freelist⟩ E Q) : (copyout pt va src len).Runs s E Q := by
  rw [copyout, if_neg hlen]
  refine .bind walkaddr_runs ?_
  rintro _ s ⟨rfl, rfl⟩
  rw [hp, if_neg h0]
  refine .seq (.modify ?_)
  exact next

/-- The page at address 0 cannot be read although it is mapped. A byte that was copied to a page is
    overwritten if the page is there twice. And what is copied to a page of the page table can
    unmap the next page. -/
theorem copy_oddTable :
    (UserMapped oddTable 0x1000 0x3000 ∧
      (copyin 0x1000 0x3000 1).run ⟨oddTable, 0⟩ = .ok none ⟨oddTable, 0⟩) ∧
    ((∀ i < 4097, UserMapped oddTable 0x1000 (0x1000 + i)) ∧ ∃ src s',
      (copyout 0x1000 0x1000 src 4097).run ⟨oddTable, 0⟩ = .ok true s' ∧
      ∃ a, trans oddTable 0x1000 0x1000 = some a ∧ s'.mem a ≠ src 0) ∧
    (∀ i < 4097, UserMapped oddTable 0x1000 i) ∧ ∃ src s',
      (copyout 0x1000 0 src 4097).run ⟨oddTable, 0⟩ = .ok false s' := by
  refine ⟨⟨oddTable_mapped (by decide), ?_⟩, ⟨fun i hi => oddTable_mapped (by omega), ?_⟩,
    fun i hi => oddTable_mapped (by omega), ?_⟩
  · have hruns : (copyin 0x1000 0x3000 1).Runs ⟨oddTable, 0⟩ (fun _ => False) fun r s' =>
        r = none ∧ s' = ⟨oddTable, 0⟩ := by
      rw [copyin, if_neg (by decide)]
      refine .bind walkaddr_runs ?_
      rintro _ s ⟨rfl, rfl⟩
      have hpage : userPage oddTable 0x1000 (pgrounddown 0x3000) = 0 := by decide +kernel
      rw [if_pos hpage]
      exact .ret ⟨rfl, rfl⟩
    obtain ⟨r, s', hrun, rfl, rfl⟩ := hruns.ends fun _ => id
    exact hrun
  · refine ⟨fun i => if i < 4096 then 1 else 2, ?_⟩
    have hruns : (copyout 0x1000 0x1000 (fun i => if i < 4096 then 1 else 2) 4097).Runs
        ⟨oddTable, 0⟩ (fun _ => False) fun r s' => r = true ∧ s'.mem 0x4000 = 2 := by
      refine copyout_round (p := 0x4000) (by decide) (by decide +kernel) (by decide) ?_
      refine copyout_round (p := 0x4000) (by decide) (by decide +kernel) (by decide) ?_
      rw [copyout, if_pos (by decide)]
      exact .ret ⟨rfl, by decide +kernel⟩
    obtain ⟨r, s', hrun, rfl, hbyte⟩ := hruns.ends fun _ => id
    refine ⟨s', hrun, 0x4000, by decide +kernel, ?_⟩
    rw [hbyte]
    decide
  · refine ⟨fun _ => 0, ?_⟩
    have hruns : (copyout 0x1000 0 (fun _ => 0) 4097).Runs ⟨oddTable, 0⟩ (fun _ => False)
        fun r _ => r = false := by
      refine copyout_round (p := 0x3000) (by decide) (by decide +kernel) (by decide) ?_
      rw [copyout, if_neg (by decide)]
      refine .bind walkaddr_runs ?_
      rintro _ s ⟨rfl, rfl⟩
      rw [if_pos (by decide +kernel)]
      exact .ret rfl
    obtain ⟨r, s', hrun, rfl⟩ := hruns.ends fun _ => id
    exact ⟨s', hrun⟩

/-! ## `copyinstr` -/

/-- There is a string of length `k` at `va`: `k` bytes that are not NUL, and then a NUL. -/
def IsString (m : Bytes) (pt va k : Nat) : Prop :=
  userByte m pt (va + k) = some 0 ∧ ∀ i < k, ∃ b, userByte m pt (va + i) = some b ∧ b ≠ 0

/-- The string of length `k` at `va`, with its NUL. -/
def stringAt (m : Bytes) (pt va k : Nat) : List UInt8 :=
  (range (k + 1)).map fun i => (userByte m pt (va + i)).getD 0

/-- `copyinstr` with another function in the place of `walkaddr`. -/
def copyinstrBy (walkaddr : Nat → Prog Phys Nat) (srcva max : Nat) : Prog Phys (List UInt8 × Bool) :=
  if max = 0 then return ([], false)
  else do
    let va0 := pgrounddown srcva
    let pa0 ← walkaddr va0
    if pa0 = 0 then return ([], false)
    else
      let n := chunk srcva max
      let s ← Prog.get
      let (bs, gotNull) := scan s.mem (pa0 + (srcva - va0)) n
      if gotNull then return (bs, true)
      else do
        let (bs', gotNull') ← copyinstrBy walkaddr (va0 + PGSIZE) (max - n)
        return (bs ++ bs', gotNull')
termination_by max
decreasing_by
  have := chunk_pos srcva ‹max ≠ 0›
  omega

theorem copyinstr_eq (va : Nat) : copyinstr pt va len = copyinstrBy (walkaddr pt) va len := by
  revert va
  induction len using Nat.strong_induction_on with
  | _ len ih =>
  intro va
  rw [copyinstr, copyinstrBy]
  by_cases hlen : len = 0
  · rw [if_pos hlen, if_pos hlen]
  · have hrest := ih (len - chunk va len) (by have := chunk_pos va hlen; omega)
      (pgrounddown va + PGSIZE)
    simp only [if_neg hlen, hrest]

/-- The inner loop stops at the first NUL. -/
theorem scan_cases (m : Bytes) (p n : Nat) :
    (∃ k < n, m (p + k) = 0 ∧ (∀ i < k, m (p + i) ≠ 0) ∧
      scan m p n = ((range (k + 1)).map fun i => m (p + i), true)) ∨
    ((∀ i < n, m (p + i) ≠ 0) ∧ scan m p n = ((range n).map fun i => m (p + i), false)) := by
  induction n generalizing p with
  | zero => exact .inr ⟨fun i hi => absurd hi (Nat.not_lt_zero i), rfl⟩
  | succ n ih =>
    rw [scan]
    split
    · next h0 =>
      refine .inl ⟨0, Nat.succ_pos n, h0, fun i hi => absurd hi (Nat.not_lt_zero i), ?_⟩
      simp [h0]
    · next h0 =>
      have hshift : ∀ i, m (p + 1 + i) = m (p + (i + 1)) := fun i => by
        rw [add_assoc, add_comm 1 i]
      have hrest := ih (p + 1)
      simp only [hshift] at hrest
      have hcons : ∀ l, (range (l + 1)).map (fun i => m (p + i)) =
          m p :: (range l).map fun i => m (p + (i + 1)) := by
        intro l
        rw [range_succ_eq_map, map_cons, map_map]
        rfl
      have hbefore : ∀ {l}, (∀ i < l, m (p + (i + 1)) ≠ 0) → ∀ i < l + 1, m (p + i) ≠ 0 := by
        intro l hl i hi
        cases i with
        | zero => exact h0
        | succ i => exact hl i (by omega)
      rcases hrest with ⟨k, hk, hz, hb, hscan⟩ | ⟨hb, hscan⟩
      · exact .inl ⟨k + 1, by omega, hz, hbefore hb, by rw [hscan, hcons]⟩
      · exact .inr ⟨hbefore hb, by rw [hscan, hcons]⟩

/-- The bytes of a chunk, read from its page. -/
theorem chunk_bytes (h : ∀ i, (va + i) / PGSIZE = va / PGSIZE →
    trans m pt (va + i) = some (p + (va + i) % PGSIZE)) (hi : i < chunk va len) :
    userByte m pt (va + i) = some (m (p + (va - pgrounddown va) + i)) := by
  obtain ⟨hpage, hoff⟩ := chunk_page hi
  rw [userByte, h i hpage, Option.map_some, hoff, sub_pgrounddown, add_assoc]

theorem stringAt_append (h : c ≤ k) : stringAt m pt va k =
    ((range c).map fun i => (userByte m pt (va + i)).getD 0) ++
      stringAt m pt (va + c) (k - c) := by
  rw [stringAt, show k + 1 = c + (k - c + 1) by omega, range_add, map_append, map_map,
    stringAt]
  simp only [Function.comp_def, add_assoc]

/-- A string is copied, and no page after the one with its NUL is looked at. -/
theorem copyinstrBy_string {walk : Nat → Prog Phys Nat} (hnull : NoNull s.mem pt) (hk : k < len)
    (hstr : IsString s.mem pt va k)
    (hw : ∀ a, a / PGSIZE ≤ (va + k) / PGSIZE → walk a = walkaddr pt a) :
    (copyinstrBy walk va len).Runs s E fun r s' => s' = s ∧ r = (stringAt s.mem pt va k, true) := by
  induction len using Nat.strong_induction_on generalizing va k with
  | _ len ih =>
  have hpos := chunk_pos va (Nat.ne_of_gt (Nat.zero_lt_of_lt hk))
  have hle := chunk_le va len
  obtain ⟨hnul, hbefore⟩ := hstr
  have hwalk : walk (pgrounddown va) = walkaddr pt (pgrounddown va) := by
    refine hw _ ?_
    rw [pgrounddown_div]
    exact Nat.div_le_div_right (Nat.le_add_right ..)
  rw [copyinstrBy, if_neg (by omega)]
  refine .bind (R := fun r s' => r = userPage s.mem pt (pgrounddown va) ∧ s' = s) ?_ ?_
  · rw [hwalk]
    exact walkaddr_runs
  rintro _ s ⟨rfl, rfl⟩
  -- the first byte of the string is there
  have hfirst : trans s.mem pt va ≠ none := by
    cases k with
    | zero =>
      intro hc
      rw [userByte, add_zero, hc] at hnul
      cases hnul
    | succ k =>
      obtain ⟨b, hb, -⟩ := hbefore 0 (Nat.succ_pos k)
      intro hc
      rw [userByte, add_zero, hc] at hb
      cases hb
  rcases userPage_cases hnull va with ⟨h0, hnone⟩ | ⟨h0, hsome⟩
  · exact absurd (hnone 0 rfl) hfirst
  rw [if_neg h0]
  generalize userPage s.mem pt (pgrounddown va) = pa at *
  have hchunk : ∀ i < chunk va len, userByte s.mem pt (va + i) =
      some (s.mem (pa + (va - pgrounddown va) + i)) := fun i hi => chunk_bytes hsome hi
  refine .seq (.get ?_)
  have hlist : ∀ l ≤ chunk va len, (range l).map (fun i =>
      s.mem (pa + (va - pgrounddown va) + i)) =
      (range l).map fun i => (userByte s.mem pt (va + i)).getD 0 := by
    intro l hl
    refine map_congr_left fun i hi => ?_
    rw [hchunk i (by have := mem_range.mp hi; omega), Option.getD_some]
  rcases scan_cases s.mem (pa + (va - pgrounddown va)) (chunk va len) with
    ⟨j, hj, hz, hb, hscan⟩ | ⟨hb, hscan⟩
  · -- the NUL is on this page
    have hjk : j = k := by
      rcases lt_trichotomy j k with hlt | heq | hgt
      · obtain ⟨b, hbyte, hne⟩ := hbefore j hlt
        rw [hchunk j hj, hz] at hbyte
        cases hbyte
        exact absurd rfl hne
      · exact heq
      · rw [hchunk k (by omega)] at hnul
        exact absurd (Option.some_inj.mp hnul) (hb k hgt)
    subst hjk
    simp only [hscan]
    exact .ret ⟨rfl, by rw [stringAt, hlist _ hj]⟩
  · have hck : chunk va len ≤ k := by
      refine Nat.le_of_not_lt fun hlt => ?_
      rw [hchunk k hlt] at hnul
      exact hb k hlt (Option.some_inj.mp hnul)
    have hnext := chunk_next va len (by omega)
    have hadd : ∀ i, va + chunk va len + i = va + (chunk va len + i) := fun i => add_assoc ..
    simp only [hscan, Bool.false_eq_true, if_false]
    rw [hnext]
    refine .bind (ih (len - chunk va len) (by omega) (k := k - chunk va len) (by omega)
      ⟨?_, fun i hi => ?_⟩ fun a ha => hw a ?_) ?_
    · rwa [hadd, Nat.add_sub_cancel' hck]
    · rw [hadd]
      exact hbefore _ (by omega)
    · rwa [hadd, Nat.add_sub_cancel' hck] at ha
    · rintro _ s ⟨rfl, rfl⟩
      exact .ret ⟨rfl, by rw [stringAt_append hck, hlist _ le_rfl]⟩

/-- Without a string that is short enough `copyinstr` fails. -/
theorem copyinstr_no_string (hnull : NoNull s.mem pt) (hno : ∀ k < len, ¬ IsString s.mem pt va k) :
    (copyinstr pt va len).Runs s E fun r _ => r.2 = false := by
  induction len using Nat.strong_induction_on generalizing va with
  | _ len ih =>
  rw [copyinstr]
  by_cases hlen : len = 0
  · rw [if_pos hlen]
    exact .ret rfl
  have hpos := chunk_pos va hlen
  have hle := chunk_le va len
  rw [if_neg hlen]
  refine .bind walkaddr_runs ?_
  rintro _ s ⟨rfl, rfl⟩
  rcases userPage_cases hnull va with ⟨h0, -⟩ | ⟨h0, hsome⟩
  · rw [if_pos h0]
    exact .ret rfl
  rw [if_neg h0]
  generalize userPage s.mem pt (pgrounddown va) = pa at *
  have hchunk : ∀ i < chunk va len, userByte s.mem pt (va + i) =
      some (s.mem (pa + (va - pgrounddown va) + i)) := fun i hi => chunk_bytes hsome hi
  refine .seq (.get ?_)
  rcases scan_cases s.mem (pa + (va - pgrounddown va)) (chunk va len) with
    ⟨j, hj, hz, hb, -⟩ | ⟨hb, hscan⟩
  · refine absurd ⟨?_, fun i hi => ⟨_, hchunk i (by omega), hb i hi⟩⟩ (hno j (by omega))
    rw [hchunk j hj, hz]
  · simp only [hscan, Bool.false_eq_true, if_false]
    refine .bind (ih (len - chunk va len) (by omega) fun k hk hc => ?_) fun r _ hr => .ret hr
    -- a string on later pages goes on from this page
    have hadd : ∀ i, pgrounddown va + PGSIZE + i = va + (chunk va len + i) := fun i => by
      rw [chunk_next va len (by omega), add_assoc]
    refine hno (chunk va len + k) (by omega) ⟨?_, fun i hi => ?_⟩
    · rw [← hadd]
      exact hc.1
    · by_cases hic : i < chunk va len
      · exact ⟨_, hchunk i hic, hb i hic⟩
      · obtain ⟨b, hbyte, hne⟩ := hc.2 (i - chunk va len) (by omega)
        rw [hadd, Nat.add_sub_cancel' (not_lt.mp hic)] at hbyte
        exact ⟨b, hbyte, hne⟩

/-- `copyinstr` succeeds if there is a string of less than `max` characters, and has then stored
    that string. It never stores more than `max` bytes, and it would have done the same with
    anything else in place of the mappings after the page with the NUL. -/
theorem copyinstr_copies_string (va max : Nat) (hnull : NoNull s.mem pt) :
    ((copyinstr pt va max).Runs s (fun _ => False) fun r s' => s' = s ∧ r.1.length ≤ max ∧
      (r.2 = true ↔ ∃ k < max, IsString s.mem pt va k) ∧
      ∀ k < max, IsString s.mem pt va k → r.1.length = k + 1 ∧
        ∀ i ≤ k, r.1[i]? = userByte s.mem pt (va + i)) ∧
    ∀ k < max, IsString s.mem pt va k → ∀ walk : Nat → Prog Phys Nat,
      (∀ a, a / PGSIZE ≤ (va + k) / PGSIZE → walk a = walkaddr pt a) →
      (copyinstrBy walk va max).run s = (copyinstr pt va max).run s := by
  have hstring : ∀ k < max, IsString s.mem pt va k → ∀ walk : Nat → Prog Phys Nat,
      (∀ a, a / PGSIZE ≤ (va + k) / PGSIZE → walk a = walkaddr pt a) →
      (copyinstrBy walk va max).run s = .ok (stringAt s.mem pt va k, true) s := by
    intro k hk hstr walk hw
    obtain ⟨r, s', hrun, rfl, rfl⟩ :=
      (copyinstrBy_string (E := fun _ => False) hnull hk hstr hw).ends fun _ => id
    exact hrun
  have hself : ∀ k < max, IsString s.mem pt va k →
      (copyinstr pt va max).run s = .ok (stringAt s.mem pt va k, true) s := fun k hk hstr => by
    rw [copyinstr_eq]
    exact hstring k hk hstr (walkaddr pt) fun _ _ => rfl
  refine ⟨?_, fun k hk hstr walk hw => ?_⟩
  · by_cases hex : ∃ k < max, IsString s.mem pt va k
    · obtain ⟨k, hk, hstr⟩ := hex
      have hlen : (stringAt s.mem pt va k).length = k + 1 := by
        rw [stringAt, length_map, length_range]
      unfold Prog.Runs
      rw [hself k hk hstr]
      refine ⟨rfl, by simp only [hlen]; omega, iff_of_true rfl ⟨k, hk, hstr⟩, fun j hj hstr' => ?_⟩
      obtain rfl : k = j := by
        have hsame := (hself k hk hstr).symm.trans (hself j hj hstr')
        simp only [Outcome.ok.injEq, Prod.mk.injEq, and_true] at hsame
        have hl := congrArg length hsame
        simp only [stringAt, length_map, length_range] at hl
        omega
      refine ⟨hlen, fun i hi => ?_⟩
      rw [stringAt, getElem?_map, getElem?_range (by omega), Option.map_some]
      rcases lt_or_eq_of_le hi with hlt | rfl
      · obtain ⟨b, hb, -⟩ := hstr.2 i hlt
        rw [hb, Option.getD_some]
      · rw [hstr.1, Option.getD_some]
    · have hno : ∀ k < max, ¬ IsString s.mem pt va k := fun k hk hstr => hex ⟨k, hk, hstr⟩
      refine (copyinstr_runs.and (copyinstr_no_string (E := fun _ => False) hnull hno)).mono ?_
      rintro r s' ⟨⟨hs, hlen⟩, hr⟩
      refine ⟨hs, hlen, iff_of_false (by simp [hr]) hex, fun k hk hstr => absurd hstr (hno k hk)⟩
  · rw [hstring k hk hstr walk hw, hself k hk hstr]

/-- A string of two characters, one at the end of a page and one at the start of the next. -/
theorem copyinstr_copies_string_hi : ∃ s pt, NoNull s.mem pt ∧ IsString s.mem pt 4095 2 ∧
    (copyinstr pt 4095 9).run s = .ok ([104, 105, 0], true) s := by
  obtain ⟨s₀, fs, pt, tf, h, -, hpages⟩ := exists_owned (n := 2) Image.built (by decide)
  have hout : (copyout pt 4095 (fun i => [104, 105, 0].getD i 0) 3).Runs s₀ (fun _ => False) _ :=
    copyout_stored h.noNull h.distinct
  obtain ⟨_, s, -, hfree, hlook, n, hst, hr⟩ := hout.ends fun _ => id
  obtain rfl : n = 3 := by
    rcases hr with ⟨-, hn⟩ | ⟨-, hn, hnone⟩
    · exact hn
    · obtain ⟨p, hl, -⟩ := hpages ((4095 + n) / PGSIZE) (by simp only [PGSIZE]; omega)
      rw [trans_eq_some.mpr ⟨p, _, hl, by decide, rfl⟩] at hnone
      cases hnone
  have hbyte : ∀ i < 3, userByte s.mem pt (4095 + i) = [104, 105, 0][i]? := by
    intro i hi
    obtain ⟨a, ha, hb⟩ := hst.bytes i hi
    rw [userByte, trans_congr hlook, ha, Option.map_some, hb]
    interval_cases i <;> rfl
  have hstr : IsString s.mem pt 4095 2 := by
    refine ⟨hbyte 2 (by decide), fun i hi => ?_⟩
    interval_cases i
    · exact ⟨104, hbyte 0 (by decide), by decide⟩
    · exact ⟨105, hbyte 1 (by decide), by decide⟩
  have hnull := (h.stored hst hfree).1.noNull
  obtain ⟨r, s', hrun, rfl, -, hr, hcopy⟩ :=
    (copyinstr_copies_string 4095 9 hnull).1.ends fun _ => id
  obtain ⟨hlen, hget⟩ := hcopy 2 (by decide) hstr
  obtain ⟨bs, ok⟩ := r
  obtain rfl : ok = true := hr.mpr ⟨2, by decide, hstr⟩
  obtain rfl : bs = [104, 105, 0] := by
    refine ext_getElem? fun i => ?_
    by_cases hi : i < 3
    · rw [hget i (by omega), hbyte i hi]
    · rw [getElem?_eq_none (hlen.le.trans (not_lt.mp hi)), getElem?_eq_none (not_lt.mp hi)]
  exact ⟨s', pt, hnull, hstr, hrun⟩

/-- The empty string at physical address 0 is not found. -/
theorem copyinstr_oddTable : IsString oddTable 0x1000 0x3000 0 ∧
    (copyinstr 0x1000 0x3000 1).run ⟨oddTable, 0⟩ = .ok ([], false) ⟨oddTable, 0⟩ := by
  refine ⟨⟨by decide +kernel, fun i hi => absurd hi (Nat.not_lt_zero i)⟩, ?_⟩
  have hruns : (copyinstr 0x1000 0x3000 1).Runs ⟨oddTable, 0⟩ (fun _ => False) fun r s' =>
      r = ([], false) ∧ s' = ⟨oddTable, 0⟩ := by
    rw [copyinstr, if_neg (by decide)]
    refine .bind walkaddr_runs ?_
    rintro _ s ⟨rfl, rfl⟩
    have hpage : userPage oddTable 0x1000 (pgrounddown 0x3000) = 0 := by decide +kernel
    rw [if_pos hpage]
    exact .ret ⟨rfl, rfl⟩
  obtain ⟨r, s', hrun, rfl, rfl⟩ := hruns.ends fun _ => id
  exact hrun

end

end Xv6.Mem
