import Xv6.Mem.Access

/-!
# What is in an address space

`Shows m pt n perm byte` says that the virtual pages below `n` have the flags `perm` and hold the
bytes `byte`, whatever pages of memory they are in. Each operation on an address space has a rule
that says what becomes of the two functions. To copy bytes to user memory is to put them into the
function `byte`.
-/

namespace Xv6.Mem

open Lib Function

def Shows (m : Bytes) (pt n : Nat) (perm : Nat → Nat) (byte : Bytes) : Prop :=
  ∀ v < n, ∃ p, look m pt v = some (p, perm v) ∧ ∀ i < PGSIZE, m (p + i) = byte (v * PGSIZE + i)

section

variable {img : Image} {s s' : Phys} {fs fs' : List Nat} {R : Multiset Owner}
  {pt va n n' k p v x tf off len fl : Nat} {m m' : Bytes} {perm : Nat → Nat} {byte : Bytes}
  {src : Nat → UInt8} {E : Option String → Prop}

/-- New pages are full of zeroes. -/
theorem Shows.grew (h : Shows s.mem pt n perm byte) (hs : Space img s fs pt n)
    (hg : Grew img s s' fs fs' pt n n' (.zeroed x)) :
    Shows s'.mem pt n' (fun v => if v < n then perm v else x)
      fun a => if a < n * PGSIZE then byte a else 0 := by
  intro v hv
  have hpage : ∀ i < PGSIZE, (v * PGSIZE + i < n * PGSIZE ↔ v < n) := by
    intro i hi
    simp only [PGSIZE] at *
    omega
  by_cases hvn : v < n
  · obtain ⟨p, hl, hb⟩ := h v hvn
    obtain ⟨hp, hn⟩ := hs.frame_page hvn hl
    refine ⟨p, ?_, fun i hi => ?_⟩
    · rw [hg.old v (.inl hvn), hl]
      simp only [if_pos hvn]
    · rw [hg.frame p hp.aligned hn i hi, hb i hi]
      simp only [if_pos ((hpage i hi).mpr hvn)]
  · obtain ⟨p, x', hl, rfl, hz⟩ := hg.new v (not_lt.mp hvn) hv
    refine ⟨p, ?_, fun i hi => ?_⟩
    · rw [hl]
      simp only [if_neg hvn]
    · rw [hz i hi]
      simp only [if_neg fun hc => hvn ((hpage i hi).mp hc)]

/-- Nothing has happened to the pages of the space. -/
theorem Shows.untouched (h : Shows m pt n perm byte) (hu : Untouched R m m')
    (ho : .space pt n tf ∈ R) : Shows m' pt n perm byte := by
  obtain ⟨-, hsame⟩ := hu _ ho
  have hlook : look m' pt = look m pt :=
    (alike fun p hp => hsame p (Multiset.mem_add.mpr (.inl hp))).look
  intro v hv
  obtain ⟨p, hl, hb⟩ := h v hv
  refine ⟨p, by rw [hlook, hl], fun i hi => ?_⟩
  rw [hsame p (Multiset.mem_add.mpr (.inr (mem_frames.mpr ⟨v, _, Nat.zero_le v, by omega, hl⟩))) i hi,
    hb i hi]

/-! ## Bytes -/

/-- Bytes that are put into the pages of a space. -/
theorem Shows.put (h : Shows m pt n perm byte) (hlook : look m' pt = look m pt)
    (hin : ∀ v < n, ∀ p fl, look m pt v = some (p, fl) → ∀ i < PGSIZE,
      m' (p + i) = if va ≤ v * PGSIZE + i ∧ v * PGSIZE + i < va + len then
        src (v * PGSIZE + i - va) else m (p + i)) :
    Shows m' pt n perm (putBytes byte va src len) := by
  intro v hv
  obtain ⟨p, hl, hb⟩ := h v hv
  refine ⟨p, by rw [hlook, hl], fun i hi => ?_⟩
  rw [hin v hv p _ hl i hi, putBytes, hb i hi]

/-- Two different pages of a space have different frames. -/
theorem Space.frame_inj {w fl' : Nat} (h : Space img s fs pt n) (hv : v < n) (hw : w < n)
    (hl : look s.mem pt v = some (p, fl)) (hl' : look s.mem pt w = some (p, fl')) : v = w :=
  frames_inj (Multiset.nodup_add.mp h.apart).2.1 ⟨Nat.zero_le v, by omega⟩
    ⟨Nat.zero_le w, by omega⟩ hl hl'

/-- Bytes that the kernel puts into a page of an address space. -/
theorem putAt_shows (off : Nat) (h : Owned img s fs ({.space pt n tf} + R)) (hv : v < n)
    (hl : look s.mem pt v = some (p, fl)) (hlen : off + len ≤ PGSIZE) :
    (putAt (p + off) src len).Runs s E fun _ s' => Owned img s' fs ({.space pt n tf} + R) ∧
      Untouched R s.mem s'.mem ∧ look s'.mem pt = look s.mem pt ∧
      ∀ perm byte, Shows s.mem pt n perm byte →
        Shows s'.mem pt n perm (putBytes byte (v * PGSIZE + off) src len) := by
  obtain ⟨hs, -⟩ := h.space
  have hp := (hs.frame_page hv hl).1.aligned
  have hf : Frame (frames (look s.mem pt) 0 n) s.mem (putBytes s.mem (p + off) src len) := by
    refine (frame_putBytes hp off hlen).mono fun q hq => ?_
    rw [Multiset.mem_singleton.mp hq]
    exact mem_frames.mpr ⟨v, fl, Nat.zero_le v, by omega, hl⟩
  obtain ⟨h', hlook⟩ := h.write_user ⟨putBytes s.mem (p + off) src len, s.freelist⟩ hf rfl
  refine .modify ⟨h', h.untouched_space (hf.mono fun q hq => Multiset.mem_add.mpr (.inr hq)), hlook,
    fun perm byte hsh => hsh.put hlook fun w hw q fl' hlw i hi => ?_⟩
  show putBytes s.mem (p + off) src len (q + i) = _
  rw [putBytes]
  by_cases hwv : w = v
  · subst hwv
    obtain rfl : q = p := by
      rw [hl] at hlw
      cases hlw
      rfl
    by_cases hin : off ≤ i ∧ i < off + len
    · rw [if_pos (by omega), if_pos (by omega)]
      congr 1
      omega
    · rw [if_neg (by omega), if_neg (by omega)]
  · have hne : q ≠ p := fun hc => hwv (hs.frame_inj hw hv (hc ▸ hlw) hl)
    have hdis := page_disjoint (hs.frame_page hw hlw).1.aligned hp hne
    rw [if_neg (by omega), if_neg]
    simp only [PGSIZE] at *
    omega

/-- `copyout` puts its bytes into the user memory. It cannot fail where there are user pages. -/
theorem copyout_shows (h : Owned img s fs ({.space pt n tf} + R)) :
    (copyout pt va src len).Runs s E fun r s' => Owned img s' fs ({.space pt n tf} + R) ∧
      Untouched R s.mem s'.mem ∧ (r = true → ∀ i < len, (va + i) / PGSIZE < n) ∧
      ∀ perm byte, Shows s.mem pt n perm byte →
        ((∀ i < len, (va + i) / PGSIZE < n ∧ perm ((va + i) / PGSIZE) &&& PTE_U ≠ 0) → r = true) ∧
        (r = true → Shows s'.mem pt n perm (putBytes byte va src len)) := by
  obtain ⟨hs, ha⟩ := h.space
  refine (copyout_stored h.noNull h.distinct).mono ?_
  rintro r s' ⟨hfree, hlook, k, hst, hr⟩
  obtain ⟨h', hrest⟩ := h.stored hst hfree
  refine ⟨h', hrest, fun hok i hi => ?_, fun perm byte hsh => ⟨fun hall => ?_, fun hok => ?_⟩⟩
  · obtain ⟨-, rfl⟩ | ⟨hc, -⟩ := hr
    · obtain ⟨a, ht, -⟩ := hst.bytes i hi
      obtain ⟨p, fl, hl, hU, -⟩ := trans_eq_some.mp ht
      exact ha.user_lt hl hU
    · rw [hok] at hc
      cases hc
  · rcases hr with ⟨hr, -⟩ | ⟨-, hk, hnone⟩
    · exact hr
    · obtain ⟨hv, hU⟩ := hall k hk
      obtain ⟨p, hl, -⟩ := hsh _ hv
      rw [trans_eq_some.mpr ⟨p, _, hl, hU, rfl⟩] at hnone
      cases hnone
  obtain ⟨-, rfl⟩ | ⟨hc, -⟩ := hr
  swap
  · rw [hok] at hc
    cases hc
  refine hsh.put hlook fun v hv p fl hl i hi => ?_
  -- an address that is translated to this byte is the address of the byte
  have haddr : ∀ j, trans s.mem pt (va + j) = some (p + i) → va + j = v * PGSIZE + i := by
    intro j hj
    obtain ⟨q, fl', hlq, hU, heq⟩ := trans_eq_some.mp hj
    have hw := ha.user_lt hlq hU
    have hpal := (hs.frame_page hv hl).1.aligned
    have hqal := (hs.frame_page hw hlq).1.aligned
    have hsplit : q = p ∧ (va + j) % PGSIZE = i := by
      simp only [PGSIZE] at *
      omega
    have hpage := hs.frame_inj hw hv (hsplit.1 ▸ hlq) hl
    rw [← hpage, ← hsplit.2, Nat.div_add_mod']
  split
  · next hin =>
    obtain ⟨a, ht, hb⟩ := hst.bytes (v * PGSIZE + i - va) (by omega)
    rw [Nat.add_sub_cancel' hin.1] at ht
    obtain ⟨q, fl', hlq, -, rfl⟩ := trans_eq_some.mp ht
    have hdiv : (v * PGSIZE + i) / PGSIZE = v := by
      simp only [PGSIZE] at *
      omega
    rw [hdiv, hl] at hlq
    cases hlq
    have hmod : (v * PGSIZE + i) % PGSIZE = i := by
      simp only [PGSIZE] at *
      omega
    rwa [hmod] at hb
  · next hin =>
    refine hst.frame _ fun j hj hc => hin ?_
    have := haddr j hc
    omega

/-! ## Flags -/

/-- The user has no access to the page any more. -/
theorem uvmclear_shows (h : Owned img s fs ({.space pt n tf} + R)) (hv : va / PGSIZE < n) :
    (uvmclear pt va).Runs s E fun _ s' => Owned img s' fs ({.space pt n tf} + R) ∧
      Untouched R s.mem s'.mem ∧ ∀ perm byte, Shows s.mem pt n perm byte →
        Shows s'.mem pt n (update perm (va / PGSIZE)
          (perm (va / PGSIZE) &&& (0x3FF - PTE_U))) byte := by
  obtain ⟨hs, -⟩ := h.space
  refine (uvmclear_owned h hv).mono ?_
  rintro _ s' ⟨h', hrest, hf, hlook⟩
  refine ⟨h', hrest, fun perm byte hsh w hw => ?_⟩
  obtain ⟨p, hl, hb⟩ := hsh w hw
  obtain ⟨hp, hn⟩ := hs.frame_page hw hl
  refine ⟨p, ?_, fun i hi => by rw [hf p hp.aligned hn i hi, hb i hi]⟩
  rw [hlook]
  by_cases hwv : w = va / PGSIZE
  · rw [hwv] at hl ⊢
    rw [update_self, update_self, hl, Option.map_some]
  · rw [update_of_ne hwv, update_of_ne hwv, hl]

end

end Xv6.Mem
