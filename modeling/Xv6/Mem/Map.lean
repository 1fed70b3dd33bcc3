import Xv6.Mem.Unmap

/-!
# A page table is a finite map

`Built img pt s own` are the states that can arise from `uvmcreate` returning `pt`, by any
sequence of operations on the page table and anything the rest of the kernel does with memory:
`own` are the pages that have been allocated and are not page-table pages of `pt`. The rest of the
kernel takes pages from the allocator, gives its own pages back and writes to them. `uvmunmap` may
free frames only that belong to the rest of the kernel (each once).
-/

namespace Xv6.Mem

open Lib Multiset

/-- The lookup of a virtual address: `walk`, then `PTE_V`. -/
def lookup (pt va : Nat) : Prog Phys (Option (Nat × Nat)) := do
  match ← walk pt va false with
  | none => return none
  | some pte => do
    let e ← load pte
    if Valid e then return some (pte2pa e, pteFlags e) else return none

/-- An operation on the page table. -/
inductive Op where
  | walk (va : Nat)
  | mappages (va size pa perm : Nat)
  | uvmunmap (va npages : Nat) (doFree : Bool)
  | uvmclear (va : Nat)

def Op.run (img : Image) (pt : Nat) : Op → Prog Phys Unit
  | .walk va => do let _ ← Mem.walk pt va true
  | .mappages va size pa perm => do let _ ← Mem.mappages pt va size pa perm
  | .uvmunmap va npages doFree => Mem.uvmunmap img pt va npages doFree
  | .uvmclear va => Mem.uvmclear pt va

/-- The arguments are addresses and flags, and frames that are freed belong to the caller. -/
def Op.Ok (pt : Nat) (s : Phys) (own : Multiset Nat) : Op → Prop
  | .mappages _ _ pa perm => pa < 2 ^ 64 ∧ perm < 1024
  | .uvmunmap va npages doFree => va + npages * PGSIZE < 2 ^ 64 ∧
      freed (look s.mem pt) (va / PGSIZE) npages doFree ≤ own
  | _ => True

/-- The pages an operation frees. -/
def Op.freed (pt : Nat) (s : Phys) : Op → Multiset Nat
  | .uvmunmap va npages doFree => Mem.freed (look s.mem pt) (va / PGSIZE) npages doFree
  | _ => 0

inductive Built (img : Image) (pt : Nat) : Phys → Multiset Nat → Prop where
  | create {s s' : Phys} {fs : List Nat} {own : Multiset Nat} :
      Free img s fs → (↑fs + own).Nodup → (∀ p ∈ own, img.Page p) →
      uvmcreate.run s = .ok (some pt) s' → Built img pt s' own
  | op {s s' : Phys} {own : Multiset Nat} (o : Op) :
      Built img pt s own → o.Ok pt s own → (o.run img pt).run s = .ok () s' →
      Built img pt s' (own - o.freed pt s)
  | kalloc {s s' : Phys} {own : Multiset Nat} {p : Nat} :
      Built img pt s own → kalloc.run s = .ok (some p) s' → Built img pt s' (p ::ₘ own)
  | kfree {s s' : Phys} {own : Multiset Nat} {p : Nat} :
      Built img pt s (p ::ₘ own) → (kfree img p).run s = .ok () s' → Built img pt s' own
  | write {s s' : Phys} {own : Multiset Nat} :
      Built img pt s own → Frame own s.mem s'.mem → s'.freelist = s.freelist →
      Built img pt s' own

section

variable {img : Image} {s s' : Phys} {fs fs' : List Nat} {pt p v va n : Nat}
  {own : Multiset Nat} {E : Option String → Prop}

theorem lookup_runs (hv : v < NPAGES) : (lookup pt (v * PGSIZE)).Runs s E fun r s' =>
    r = look s.mem pt v ∧ s' = s := by
  have hva : v * PGSIZE < MAXVA := by simp only [PGSIZE, MAXVA, NPAGES] at *; omega
  have hdiv : v * PGSIZE / PGSIZE = v := Nat.mul_div_cancel _ (by decide)
  refine .bind (walk_slot hva) ?_
  rintro _ s ⟨rfl, rfl⟩
  rw [hdiv, look, if_pos hv]
  cases hs : slot s.mem 2 pt v with
  | none =>
    rw [entry_of_no_slot hs]
    exact .ret ⟨rfl, rfl⟩
  | some pte =>
    refine .seq (load_runs ?_)
    rw [entry_of_slot hs, decode]
    split
    · exact .ret ⟨rfl, rfl⟩
    · exact .ret ⟨rfl, rfl⟩

/-- What holds throughout: the table and the free list are in order, and nobody else has one of
    their pages. -/
structure Sound (img : Image) (pt : Nat) (s : Phys) (own : Multiset Nat) (fs : List Nat) : Prop
    extends Table img s fs pt where
  apart : (foot fs s.mem 2 pt + own).Nodup
  own : ∀ p ∈ own, img.Page p

/-- A step that moves pages between the free list and the tree. -/
theorem Sound.of_kept (h : Sound img pt s own fs) (ht : Table img s' fs' pt)
    (hk : foot fs' s'.mem 2 pt = foot fs s.mem 2 pt) : Sound img pt s' own fs' :=
  ⟨ht, hk ▸ h.apart, h.own⟩

/-- A table that has just been made. -/
theorem table_of_zero (hfree : Free img s fs) (hp : img.Page p) (hn : p ∉ fs)
    (hz : Zero p s.mem) : Table img s fs p := by
  refine ⟨⟨hfree, hz.wf, ?_, fun q hq => ?_⟩, fun v _ => hz.entry⟩
  · rw [hz.ptPages, add_comm, singleton_add, nodup_cons]
    exact ⟨fun hm => hn (mem_coe.mp hm), coe_nodup.mpr hfree.nodup⟩
  · rw [hz.ptPages] at hq
    rw [mem_singleton.mp hq]
    exact hp

theorem look_of_zero (hz : Zero p s.mem) : look s.mem p = fun _ => none := by
  funext v
  rw [look, hz.entry, decode, if_neg not_valid_zero, ite_self]

theorem uvmcreate_runs (h : Free img s fs) : uvmcreate.Runs s E fun r s' =>
    (r = none ∧ fs = [] ∧ s' = s) ∨
      ∃ p fs', r = some p ∧ fs = p :: fs' ∧ Table img s' fs' p ∧ Zero p s'.mem ∧
        Frame {p} s.mem s'.mem := by
  refine .bind (kalloc_runs h) ?_
  rintro _ s₁ (⟨rfl, rfl, rfl⟩ | ⟨p, fs₁, rfl, rfl, hfree, hf⟩)
  · exact .ret (.inl ⟨rfl, rfl, rfl⟩)
  · have hp := h.page p List.mem_cons_self
    have hn := (List.nodup_cons.mp h.nodup).1
    refine .seq (.modify ?_)
    have hfree' : Free img ⟨fill s₁.mem p 0 PGSIZE, s₁.freelist⟩ fs₁ := by
      refine hfree.frame (frame_fill hp.aligned) (fun q hq hm => ?_) rfl
      rw [mem_singleton.mp hm] at hq
      exact hn hq
    exact .ret (.inr ⟨p, fs₁, rfl, rfl, table_of_zero hfree' hp hn (zero_fill p s₁.mem),
      zero_fill p s₁.mem, hf.trans (frame_fill hp.aligned)⟩)

theorem Sound.op (o : Op) (h : Sound img pt s own fs) (hok : o.Ok pt s own)
    (hrun : (o.run img pt).run s = .ok () s') :
    ∃ fs', Sound img pt s' (own - o.freed pt s) fs' := by
  cases o with
  | walk va =>
    by_cases hva : va < MAXVA
    · have hr : (Op.run img pt (.walk va)).Runs s (fun _ => True) fun _ s' =>
          ∃ fs', Table img s' fs' pt ∧ foot fs' s'.mem 2 pt = foot fs s.mem 2 pt := by
        refine .bind (walk_runs h.toTree hva) ?_
        rintro _ s₁ ⟨fs₁, ht, hg, -⟩
        exact .ret ⟨fs₁, h.grown ht hg, hg.kept.pages⟩
      obtain ⟨fs', ht, hk⟩ := hr.ok hrun
      exact ⟨fs', by simpa only [Op.freed, Multiset.sub_zero] using h.of_kept ht hk⟩
    · have hr : (Op.run img pt (.walk va)).Runs s (fun _ => True) fun _ _ => False := by
        refine .stop ?_
        rw [Mem.walk, if_pos (not_lt.mp hva)]
        exact .panic trivial
      exact (hr.ok hrun).elim
  | mappages va size pa perm =>
    have hr : (Op.run img pt (.mappages va size pa perm)).Runs s (fun _ => True) fun _ s' =>
        ∃ fs', Table img s' fs' pt ∧ foot fs' s'.mem 2 pt = foot fs s.mem 2 pt := by
      refine .bind (R := fun _ s' => ∃ fs', Table img s' fs' pt ∧
        foot fs' s'.mem 2 pt = foot fs s.mem 2 pt) ?_ fun _ _ hq => .ret hq
      rw [Mem.mappages]
      split
      · exact .panic trivial
      · refine (mappagesFrom_runs h.toTable (Nat.mul_mod_left _ _) hok.1
          (or_lt_1024 hok.2 (by decide)) fun _ _ => trivial).mono ?_
        rintro _ s₁ ⟨fs₁, k, hm⟩
        exact ⟨fs₁, hm.table, hm.kept.pages⟩
    obtain ⟨fs', ht, hk⟩ := hr.ok hrun
    exact ⟨fs', by simpa only [Op.freed, Multiset.sub_zero] using h.of_kept ht hk⟩
  | uvmunmap va npages doFree =>
    obtain ⟨hlt, hle⟩ := hok
    by_cases hva : va % PGSIZE = 0
    · have hnd :
          (foot fs s.mem 2 pt + Mem.freed (look s.mem pt) (va / PGSIZE) npages doFree).Nodup :=
        Multiset.nodup_of_le (Multiset.add_le_add_left hle) h.apart
      have hr := uvmunmap_runs (E := fun _ => True) h.toTable hva hlt hnd
        (fun p hp => h.own p (mem_of_le hle hp)) fun _ _ => trivial
      obtain ⟨fs', ht, hk, -⟩ := hr.ok hrun
      refine ⟨fs', ht, ?_, fun p hp => h.own p (Multiset.mem_of_le (Multiset.sub_le_self ..) hp)⟩
      rw [hk.pages, Op.freed, add_assoc, add_tsub_cancel_of_le hle]
      exact h.apart
    · have hr : (Op.run img pt (.uvmunmap va npages doFree)).Runs s (fun _ => True)
          fun _ _ => False := by
        rw [Op.run, Mem.uvmunmap, if_pos hva]
        exact .panic trivial
      exact (hr.ok hrun).elim
  | uvmclear va =>
    have hr : (Mem.uvmclear pt va).Runs s (fun _ => True) _ :=
      uvmclear_runs h.toTable fun _ _ => trivial
    obtain ⟨ht, hk, -⟩ := hr.ok hrun
    exact ⟨fs, by simpa only [Op.freed, Multiset.sub_zero] using h.of_kept ht hk.pages⟩

theorem Built.sound (h : Built img pt s own) : ∃ fs, Sound img pt s own fs := by
  induction h with
  | @create s s' fs own hfree hnd hown hrun =>
    have hr := uvmcreate_runs (E := fun _ => True) hfree
    rcases hr.ok hrun with ⟨hc, -⟩ | ⟨p, fs', hp, rfl, ht, hz, -⟩
    · cases hc
    · cases hp
      refine ⟨fs', ht, ?_, hown⟩
      rw [foot, hz.ptPages, add_right_comm, add_comm, singleton_add,
        ← cons_add, cons_coe]
      exact hnd
  | op o _ hok hrun ih =>
    obtain ⟨fs, h⟩ := ih
    exact h.op o hok hrun
  | @kalloc s s' own p _ hrun ih =>
    obtain ⟨fs, h⟩ := ih
    have hr := kalloc_runs (E := fun _ => True) h.free
    rcases hr.ok hrun with ⟨hc, -⟩ | ⟨p, fs', hp, rfl, hfree, hf⟩
    · cases hc
    · cases hp
      have hal : Alike 2 pt s.mem s'.mem := by
        refine alike_of_frame hf (fun q hq => (h.page q hq).aligned) fun q hq hm => ?_
        rw [mem_singleton.mp hm] at hq
        exact h.not_free hq List.mem_cons_self
      have hfoot : foot fs' s'.mem 2 pt + p ::ₘ own = foot (p :: fs') s.mem 2 pt + own := by
        rw [foot, foot, hal.pages, ← cons_coe, ← singleton_add,
          ← singleton_add]
        abel
      have hnd := h.apart
      rw [← hfoot] at hnd
      refine ⟨fs', ⟨⟨hfree, hal.wf h.wf, ?_, fun q hq => h.page q (hal.pages ▸ hq)⟩,
        fun v hv => (hal.entry v).trans (h.high v hv)⟩, hnd, fun q hq => ?_⟩
      · exact (nodup_add.mp hnd).1
      · rcases mem_cons.mp hq with rfl | hq
        · exact h.free.page q List.mem_cons_self
        · exact h.own q hq
  | @kfree s s' own p _ hrun ih =>
    obtain ⟨fs, h⟩ := ih
    have hnd := h.apart
    rw [add_cons, nodup_cons] at hnd
    have hn : p ∉ foot fs s.mem 2 pt := fun hm => hnd.1 (mem_add.mpr (.inl hm))
    have hr := h.toTable.kfree_runs (E := fun _ => True) (h.own p (mem_cons_self ..)) hn
    obtain ⟨ht, -, hk⟩ := hr.ok hrun
    refine ⟨p :: fs, ht, ?_, fun q hq => h.own q (mem_cons_of_mem hq)⟩
    have hnd := h.apart
    rw [hk.pages, add_assoc, singleton_add]
    exact hnd
  | @write s s' own _ hf hl ih =>
    obtain ⟨fs, h⟩ := ih
    obtain ⟨ht, hal⟩ := h.toTree.frame hf
      (fun p hp => disjoint_left.mp (nodup_add.mp h.apart).2.2 hp) hl
    refine ⟨fs, ⟨ht, fun v hv => (hal.entry v).trans (h.high v hv)⟩, ?_, h.own⟩
    rw [foot, hal.pages]
    exact h.apart

/-- A table without bindings has no valid leaf entry. -/
theorem Table.no_leaf (h : Table img s fs pt) (hnone : ∀ v, look s.mem pt v = none) (v : Nat) :
    ¬ Valid (entry s.mem 2 pt v) := by
  intro hv
  by_cases hhigh : 256 ≤ idx 2 v
  · rw [h.high v hhigh] at hv
    exact not_valid_zero hv
  · -- the page below `NPAGES` with the same indices
    have hlow : v % 512 ^ 3 < NPAGES := by
      simp only [idx, NPAGES] at *
      norm_num at *
      omega
    have hidx : ∀ k ≤ 2, idx k (v % 512 ^ 3) = idx k v := by
      intro k hk
      have : k = 0 ∨ k = 1 ∨ k = 2 := by omega
      rcases this with rfl | rfl | rfl
      all_goals
        simp only [idx]
        norm_num
        try omega
    have hl := hnone (v % 512 ^ 3)
    rw [look, if_pos hlow, entry_congr_idx hidx, decode, if_pos hv] at hl
    cases hl

/-- **A page table is a finite map.** In every state that can arise, the pages of the tree are
    distinct and not free; `walk` and `PTE_V` compute the map `look`; `walk` with allocation
    changes no binding, `mappages` of a page adds exactly its binding unless there is no memory
    left, `uvmunmap` removes exactly the bindings of its range, and `uvmclear` changes one; and
    once there are no bindings `freewalk` frees every page of the tree once. None of them
    panics. -/
theorem page_table_is_map (h : Built img pt s own) :
    (∀ v < NPAGES, (lookup pt (v * PGSIZE)).Runs s (fun _ => False) fun r s' =>
      r = look s.mem pt v ∧ s' = s) ∧
    (∀ va < MAXVA, (walk pt va true).Runs s (fun _ => False) fun _ s' =>
      look s'.mem pt = look s.mem pt) ∧
    (∀ va size pa perm, 0 < size → va % PGSIZE + size ≤ PGSIZE → va < MAXVA →
      look s.mem pt (va / PGSIZE) = none → pa < 2 ^ 64 → perm < 1024 →
      (mappages pt va size pa perm).Runs s (fun _ => False) fun r s' =>
        (r = true ∧ look s'.mem pt = Function.update (look s.mem pt) (va / PGSIZE)
          (some (pgrounddown pa, perm ||| PTE_V))) ∨
        (r = false ∧ s'.freelist = 0 ∧ look s'.mem pt = look s.mem pt)) ∧
    (∀ v n doFree, v + n ≤ NPAGES →
      (∀ w, v ≤ w → w < v + n → ∃ pa fl, look s.mem pt w = some (pa, fl) ∧ fl ≠ PTE_V) →
      freed (look s.mem pt) v n doFree ≤ own →
      (uvmunmap img pt (v * PGSIZE) n doFree).Runs s (fun _ => False) fun _ s' =>
        look s'.mem pt = unmapRange (look s.mem pt) v n) ∧
    (∀ va, look s.mem pt (va / PGSIZE) ≠ none →
      (uvmclear pt va).Runs s (fun _ => False) fun _ s' =>
        look s'.mem pt = Function.update (look s.mem pt) (va / PGSIZE)
          ((look s.mem pt (va / PGSIZE)).map fun b => (b.1, b.2 &&& (0x3FF - PTE_U)))) ∧
    ∃ fs, Free img s fs ∧ (↑fs + ptPages s.mem 2 pt).Nodup ∧
      ((∀ v, look s.mem pt v = none) →
        (freewalk img 3 pt).Runs s (fun _ => False) fun _ s' =>
          ∃ fs', Free img s' fs' ∧ (fs' : Multiset Nat) = ↑fs + ptPages s.mem 2 pt) := by
  obtain ⟨fs, hs⟩ := h.sound
  refine ⟨fun v hv => lookup_runs hv, fun va hva => ?_, ?_, ?_, ?_, fs, hs.free, hs.nodup,
    fun hnone => ?_⟩
  · refine (walk_runs hs.toTree hva).mono ?_
    rintro _ s' ⟨fs', -, hg, -⟩
    exact hg.look
  · intro va size pa perm hsize hin hva hnone hpa hperm
    refine (mappages_page_runs hs.toTable hsize hin hva hnone hpa
      (or_lt_1024 hperm (by decide))).mono ?_
    rintro r s' ⟨fs', ht, -, -, hr | ⟨hr, rfl, hl⟩⟩
    · exact .inl hr
    · exact .inr ⟨hr, ht.free.chain, hl⟩
  · intro v n doFree hvn hall hle
    have hdiv : v * PGSIZE / PGSIZE = v := Nat.mul_div_cancel _ (by decide)
    have hlt : v * PGSIZE + n * PGSIZE < 2 ^ 64 := by
      simp only [PGSIZE, NPAGES] at *
      omega
    refine (uvmunmap_runs hs.toTable (Nat.mul_mod_left _ _) hlt ?_ ?_ ?_).mono ?_
    · rw [hdiv]
      exact Multiset.nodup_of_le (Multiset.add_le_add_left hle) hs.apart
    · rw [hdiv]
      exact fun p hp => hs.own p (mem_of_le hle hp)
    · rw [hdiv]
      rintro ⟨w, hw, hwn, hc⟩
      obtain ⟨pa, fl, hl, hne⟩ := hall w hw hwn
      exact absurd (hc pa fl hl) hne
    · rw [hdiv]
      rintro _ s' ⟨fs', -, -, hl⟩
      exact hl
  · intro va hne
    exact (uvmclear_runs hs.toTable fun hc => absurd hc hne).mono fun _ s' hl => hl.2.2
  · refine (freewalk_runs hs.toTree (hs.no_leaf hnone)).mono ?_
    rintro _ s' ⟨fs', hfree, hk⟩
    exact ⟨fs', hfree, hk.pages⟩

/-- A machine with three free pages. -/
def threePages : Phys :=
  ⟨lePut 8 (lePut 8 (fun _ => 0) 0x80022000 0x80023000) 0x80023000 0x80024000, 0x80022000⟩

/-- The table that `uvmcreate` makes of the first one. -/
def newTable : Phys :=
  ⟨fill (fill threePages.mem 0x80022000 5 PGSIZE) 0x80022000 0 PGSIZE, 0x80023000⟩

/-- A page of the caller's is mapped at virtual page 5, found there, and unmapped. -/
theorem page_table_is_map_page : ∃ s' s'', Built Image.built 0x80022000 newTable {0x80025000} ∧
    (mappages 0x80022000 0x5000 PGSIZE 0x80025000 (PTE_R ||| PTE_U)).run newTable = .ok true s' ∧
    (lookup 0x80022000 0x5000).run s' = .ok (some (0x80025000, 19)) s' ∧
    (uvmunmap Image.built 0x80022000 0x5000 1 false).run s' = .ok () s'' ∧
    look s''.mem 0x80022000 5 = none := by
  have hpage : ∀ p ∈ [0x80022000, 0x80023000, 0x80024000, 0x80025000], Image.built.Page p := by
    simp only [List.forall_mem_cons]
    refine ⟨?_, ?_, ?_, ?_, by simp⟩ <;> exact ⟨by decide, by decide, by decide⟩
  have hfree : Free Image.built threePages [0x80022000, 0x80023000, 0x80024000] :=
    ⟨⟨rfl, by decide +kernel, by decide +kernel, by unfold Chain; decide +kernel⟩,
      fun p hp => hpage p (List.mem_append_left [_] hp), by decide⟩
  have hbuilt : Built Image.built 0x80022000 newTable {0x80025000} := by
    refine .create hfree (by decide) (fun p hp => hpage p ?_) rfl
    rw [Multiset.mem_singleton.mp hp]
    decide
  obtain ⟨r, s', hrun, hmap⟩ := ((page_table_is_map hbuilt).2.2.1 0x5000 PGSIZE 0x80025000
    (PTE_R ||| PTE_U) (by decide) (by decide) (by decide) (by decide +kernel) (by decide)
    (by decide)).ends fun _ => id
  have hr : ((mappages 0x80022000 0x5000 PGSIZE 0x80025000 (PTE_R ||| PTE_U)).run newTable).seen
      (fun r _ => r) = some true := by
    decide +kernel
  rw [hrun] at hr
  obtain rfl : r = true := Option.some.inj hr
  obtain ⟨-, hlook⟩ | ⟨hc, -⟩ := hmap
  · have h5 : look s'.mem 0x80022000 5 = some (0x80025000, 19) := by
      rw [hlook]
      rfl
    have hbuilt' : Built Image.built 0x80022000 s' ({0x80025000} - 0) :=
      .op (.mappages 0x5000 PGSIZE 0x80025000 (PTE_R ||| PTE_U)) hbuilt ⟨by decide, by decide⟩ (by
        rw [Op.run, Prog.run_bind, hrun]
        rfl)
    obtain ⟨hfind, -, -, hunmap, -⟩ := page_table_is_map hbuilt'
    obtain ⟨b, s₁, hfound, hb, hs₁⟩ := (hfind 5 (by decide)).ends fun _ => id
    rw [hb, hs₁, h5] at hfound
    have hthere : ∀ w, 5 ≤ w → w < 5 + 1 → ∃ pa fl, look s'.mem 0x80022000 w = some (pa, fl) ∧
        fl ≠ PTE_V := by
      intro w hw hw'
      obtain rfl : w = 5 := by omega
      exact ⟨_, _, h5, by decide⟩
    obtain ⟨_, s'', hrun', hnone⟩ :=
      (hunmap 5 1 false (by decide) hthere (Multiset.zero_le _)).ends fun _ => id
    refine ⟨s', s'', hbuilt, hrun, hfound, hrun', ?_⟩
    rw [hnone]
    rfl
  · cases hc

end

end Xv6.Mem
