import Xv6.Mem.Access

/-!
# `fork` duplicates memory

After `uvmcopy` the parent and the child have the same bytes, in different pages. Every page has one
owner (`Owned`), and what a user program stores goes to pages of its own address space, so that from
then on neither of the two sees what the other does.
-/

namespace Xv6.Mem

open Lib Function Multiset

/-- A user program stores the byte `b` at `va`, if it can. -/
def poke (m : Bytes) (pt va : Nat) (b : UInt8) : Bytes :=
  match trans m pt va with
  | none => m
  | some a => update m a b

/-- One store after the other. -/
def pokes (m : Bytes) (pt : Nat) (l : List (Nat × UInt8)) : Bytes :=
  l.foldl (fun m x => poke m pt x.1 x.2) m

section

variable {img : Image} {s s' : Phys} {fs : List Nat} {pt pt' va n n' p v tf tf' sz old new : Nat}
  {m m' : Bytes} {R : Multiset Owner} {b : UInt8} {l : List (Nat × UInt8)}

/-! ## Stores -/

/-- A store changes a frame of the address space. -/
theorem poke_frame (va : Nat) (b : UInt8) (h : Owned img s fs ({.space pt n tf} + R)) :
    Frame (frames (look s.mem pt) 0 n) s.mem (poke s.mem pt va b) := by
  obtain ⟨hs, ha⟩ := h.space
  rw [poke]
  cases ht : trans s.mem pt va with
  | none => exact .refl _ _
  | some a =>
    obtain ⟨pa, fl, hl, hU, rfl⟩ := trans_eq_some.mp ht
    have hv := ha.user_lt hl hU
    have hpage := (hs.frame_page hv hl).1
    have hone : Frame {pa} s.mem (update s.mem (pa + va % PGSIZE) b) := by
      refine frame_singleton hpage.aligned fun i hi => update_of_ne (fun hc => hi ?_) ..
      have := Nat.mod_lt va (show 0 < PGSIZE by decide)
      omega
    refine hone.mono fun q hq => ?_
    rw [mem_singleton.mp hq]
    exact mem_frames.mpr ⟨_, fl, Nat.zero_le _, by omega, hl⟩

theorem poke_owned (va : Nat) (b : UInt8) (h : Owned img s fs ({.space pt n tf} + R)) :
    Owned img ⟨poke s.mem pt va b, s.freelist⟩ fs ({.space pt n tf} + R) :=
  (h.write_user ⟨poke s.mem pt va b, s.freelist⟩ (poke_frame va b h) rfl).1

/-- What is written to the frames of one address space is not seen in another. -/
theorem Owned.read_other (h : Owned img s fs ({.space pt n tf} + R))
    (ho : .space pt' n' tf' ∈ R) (hf : Frame (frames (look s.mem pt) 0 n) s.mem m') (va : Nat) :
    userByte m' pt' va = userByte s.mem pt' va := by
  have hin : .space pt' n' tf' ∈ {.space pt n tf} + R := mem_add.mpr (.inr ho)
  have ha : Aspace img s.mem pt' n' tf' := h.ok _ hin
  have hsame : ∀ p ∈ (Owner.space pt' n' tf').pages s.mem, Same p s.mem m' := by
    intro p hp
    refine hf p ((h.all p).mp (mem_pages_total hin hp)).aligned fun hm => h.apart ho hp ?_
    rw [total_space, Mem.space, mem_add]
    exact .inr hm
  have hlook : look m' pt' = look s.mem pt' :=
    (alike fun p hp => hsame p (mem_add.mpr (.inl hp))).look
  rw [userByte, userByte, trans_congr hlook]
  cases ht : trans s.mem pt' va with
  | none => rfl
  | some a =>
    obtain ⟨pa, fl, hl, hU, rfl⟩ := trans_eq_some.mp ht
    have hv := ha.user_lt hl hU
    have hpa : pa ∈ (Owner.space pt' n' tf').pages s.mem :=
      mem_add.mpr (.inr (mem_frames.mpr ⟨_, fl, Nat.zero_le _, by omega, hl⟩))
    rw [Option.map_some, Option.map_some, hsame pa hpa _ (Nat.mod_lt va (by decide))]

/-- No sequence of stores through one page table is seen through another. -/
theorem pokes_other (h : Owned img s fs ({.space pt n tf} + R)) (ho : .space pt' n' tf' ∈ R)
    (l : List (Nat × UInt8)) (va : Nat) :
    userByte (pokes s.mem pt l) pt' va = userByte s.mem pt' va := by
  induction l generalizing s with
  | nil => rfl
  | cons x l ih =>
    have hrest := ih (poke_owned x.1 x.2 h)
    have hfirst := h.read_other ho (poke_frame x.1 x.2 h) va
    exact hrest.trans hfirst

/-! ## `uvmcopy` -/

/-- The pages of `old` and `new` below `n` have the same flags and bytes, and those of `new` are
    different pages that were free. -/
structure Duplicate (fs : List Nat) (m m' : Bytes) (old new n : Nat) : Prop where
  page : ∀ v < n, ∃ pa pa' fl, look m old v = some (pa, fl) ∧ look m' new v = some (pa', fl) ∧
    pa' ∈ fs ∧ ∀ i < PGSIZE, m' (pa' + i) = m (pa + i)
  inj : ∀ v < n, ∀ w < n, ∀ pa fl fl', look m' new v = some (pa, fl) →
    look m' new w = some (pa, fl') → v = w

theorem Grew.duplicate {fs' : List Nat}
    (h : Grew img s s' fs fs' new 0 n (.copyOf s.mem old fs)) :
    Duplicate fs s.mem s'.mem old new n := by
  refine ⟨fun v hv => ?_, fun v hv w hw pa fl fl' hl hl' => ?_⟩
  · obtain ⟨p, x, hl, hp, pa, hold, hb⟩ := h.new v (Nat.zero_le v) hv
    exact ⟨pa, p, x, hold, hl, hp, hb⟩
  · exact frames_inj (nodup_add.mp h.space.apart).2.1 ⟨Nat.zero_le v, by omega⟩
      ⟨Nat.zero_le w, by omega⟩ hl hl'

/-- The table `old` and its frames are not changed. -/
theorem Owned.parent_same (h : Owned img s fs ({.space new n tf} + ({.space old n' tf'} + R)))
    (hf : Frame (foot fs s.mem 2 new) s.mem m') :
    ∀ p ∈ spacePages s.mem old n', Same p s.mem m' := by
  intro p hp
  have ho : .space old n' tf' ∈ {.space old n' tf'} + R :=
    mem_add.mpr (.inl (mem_singleton_self _))
  refine hf p ((h.all p).mp (mem_pages_total (mem_add.mpr (.inr ho)) hp)).aligned
    fun hm => h.apart ho hp ?_
  rw [total_space, Mem.space, mem_add]
  exact .inl hm

/-- `uvmcopy` into a fresh page table. If it succeeds, the new address space is a duplicate, and
    from then on neither address space sees what is stored in the other. If it fails, all pages but
    those of the page table are free again, and these are free when the page table has been freed.
    In no case has the parent changed. -/
theorem uvmcopy_duplicates
    (h : Owned img s fs ({.space new 0 tf} + ({.space old (npages sz) tf'} + R)))
    (hsz : sz ≤ 2 ^ 64 - PGSIZE) :
    (uvmcopy img old new sz).Runs s (fun _ => False) fun r s' =>
      (look s'.mem old = look s.mem old ∧
        ∀ p ∈ spacePages s.mem old (npages sz), Same p s.mem s'.mem) ∧
      (r = true → Duplicate fs s.mem s'.mem old new (npages sz) ∧ ∀ l va,
        userByte (pokes s'.mem old l) new va = userByte s'.mem new va ∧
        userByte (pokes s'.mem new l) old va = userByte s'.mem old va) ∧
      (r = false → (∀ v < TF, look s'.mem new v = none) ∧
        (∃ fs', Free img s' fs' ∧ ↑fs' + ptPages s'.mem 2 new = ↑fs + ptPages s.mem 2 new) ∧
        (procFreepagetable img new 0).Runs s' (fun _ => False) fun _ s'' =>
          ∃ fs'', Free img s'' fs'' ∧ (fs'' : Multiset Nat) = ↑fs + ptPages s.mem 2 new) := by
  have hmem : .space old (npages sz) tf' ∈ {.space old (npages sz) tf'} + R :=
    mem_add.mpr (.inl (mem_singleton_self _))
  refine (uvmcopy_owned h hmem hsz).mono ?_
  rintro r s' ⟨fs', n', h', hg, hr⟩
  have hsame := h.parent_same hg.frame
  have hlook : look s'.mem old = look s.mem old :=
    (alike fun p hp => hsame p (mem_add.mpr (.inl hp))).look
  refine ⟨⟨hlook, hsame⟩, ?_, ?_⟩
  · intro hok
    obtain rfl : n' = npages sz := by
      rcases hr with ⟨-, hn⟩ | ⟨hc, -⟩
      · exact hn
      · rw [hok] at hc
        cases hc
    refine ⟨hg.duplicate, fun l va => ⟨?_, pokes_other h' hmem l va⟩⟩
    -- the other way round
    rw [add_left_comm] at h'
    exact pokes_other h' (mem_add.mpr (.inl (mem_singleton_self _))) l va
  · intro hbad
    obtain rfl : n' = 0 := by
      rcases hr with ⟨hc, -⟩ | ⟨-, hn⟩
      · rw [hbad] at hc
        cases hc
      · exact hn.1
    have hpages : ↑fs' + ptPages s'.mem 2 new = ↑fs + ptPages s.mem 2 new := by
      have := hg.pages
      rwa [Mem.space, Mem.space, frames, frames, add_zero, add_zero] at this
    refine ⟨fun v hv => hg.space.gap v (Nat.zero_le v) hv, ⟨fs', h'.free, hpages⟩, ?_⟩
    have hfree : (procFreepagetable img new 0).Runs s' (fun _ => False) _ :=
      procFreepagetable_runs h'.space.1 h'.space.2
    refine hfree.mono ?_
    rintro _ s'' ⟨fs'', hfree'', hk⟩
    refine ⟨fs'', hfree'', ?_⟩
    have hk' := hk.pages
    rw [Mem.space, show npages 0 = 0 from rfl, frames, add_zero] at hk'
    exact hk'.trans hpages

/-- A process of two pages is copied. -/
theorem uvmcopy_duplicates_two : ∃ s fs old new s',
    (uvmcopy Image.built old new 8192).run s = .ok true s' ∧
    Duplicate fs s.mem s'.mem old new 2 := by
  have htwo : npages 8192 = 2 := by decide
  obtain ⟨s, fs, old, tf', h, hlen, -⟩ := exists_owned (n := 2) Image.built (by decide)
  -- a trapframe and a page table for the child
  obtain ⟨r₁, s₁, -, hr₁⟩ := (kalloc_owned (E := fun _ => False) h).ends fun _ => id
  obtain ⟨-, rfl, -⟩ | ⟨tf, fs₁, -, rfl, h₁⟩ := hr₁
  · exact absurd hlen (by decide)
  rw [List.length_cons] at hlen
  obtain ⟨r₂, s₂, -, -, fs₂, hr₂⟩ :=
    (procPagetable_owned (E := fun _ => False) h₁ h₁.page.1).ends fun _ => id
  obtain ⟨-, -, hle⟩ | ⟨new, -, -, h₂, hle⟩ := hr₂
  · omega
  rw [add_left_comm {Owner.page tf}, ← htwo] at h₂
  have hruns := (uvmcopy_duplicates h₂ (by decide)).and (uvmcopy_owned (E := fun _ => False) h₂
    (mem_add.mpr (.inl (mem_singleton_self _))) (by decide))
  obtain ⟨r, s₃, hrun, ⟨-, hdup, -⟩, fs₃, n', -, -, hr⟩ := hruns.ends fun _ => id
  obtain ⟨rfl, -⟩ | ⟨-, -, hfew⟩ := hr
  · exact ⟨s₂, fs₂, old, new, s₃, hrun, htwo ▸ (hdup rfl).1⟩
  · omega

end

end Xv6.Mem
