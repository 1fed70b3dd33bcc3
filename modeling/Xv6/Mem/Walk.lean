import Xv6.Mem.Table
import Xv6.Mem.Vm

/-!
# What `walk` does to a page table

`Tree` is what has to hold of a page table and the free list for the code to work: the tree is
well-formed, no page occurs twice in it and the free list together, and all of them are pages of
the allocator. Without allocation `walk` computes `slot` and changes nothing. With allocation it
moves pages from the free list into the tree (`Kept`) and no leaf entry changes (`Grown`), also
when it runs out of memory half-way.
-/

namespace Xv6.Mem

open Lib Multiset

/-- The pages of `A` in the one memory are the pages of `A'` in the other, and no other page has
    changed. -/
structure Kept (A A' : Multiset Nat) (m m' : Bytes) : Prop where
  pages : A' = A
  frame : Frame A m m'

/-- A tree and the free list. -/
structure Tree (img : Image) (s : Phys) (fs : List Nat) (l pt : Nat) : Prop where
  free : Free img s fs
  wf : Wf s.mem l pt
  nodup : ((fs : Multiset Nat) + ptPages s.mem l pt).Nodup
  page : ∀ p ∈ ptPages s.mem l pt, img.Page p

/-- The pages of the free list and of a tree. -/
def foot (fs : List Nat) (m : Bytes) (l pt : Nat) : Multiset Nat := ↑fs + ptPages m l pt

/-- The tree may have got new tables. -/
structure Grown (fs fs' : List Nat) (l pt : Nat) (m m' : Bytes) : Prop where
  kept : Kept (foot fs m l pt) (foot fs' m' l pt) m m'
  entry : ∀ v, entry m' l pt v = entry m l pt v
  slot : ∀ v a, slot m l pt v = some a → slot m' l pt v = some a
  taken : ∀ p ∈ fs', p ∈ fs

section

variable {img : Image} {s s' s'' : Phys} {fs fs' fs'' : List Nat} {l pt p v va i a e x : Nat}
  {m m' m'' : Bytes} {A A' A'' B : Multiset Nat} {E : Option String → Prop}

theorem Kept.refl (A : Multiset Nat) (m : Bytes) : Kept A A m m := ⟨rfl, .refl A m⟩

theorem Kept.trans (h : Kept A A' m m') (h' : Kept A' A'' m' m'') : Kept A A'' m m'' :=
  ⟨h'.pages.trans h.pages, h.frame.trans (h.pages ▸ h'.frame)⟩

/-- Other pages may be counted in. -/
theorem Kept.add (h : Kept A A' m m') (B : Multiset Nat) : Kept (A + B) (A' + B) m m' :=
  ⟨by rw [h.pages], h.frame.mono fun _ hp => mem_add.mpr (.inl hp)⟩

theorem mem_foot : p ∈ foot fs m l pt ↔ p ∈ fs ∨ p ∈ ptPages m l pt := by
  rw [foot, mem_add, mem_coe]

theorem Tree.foot_page (h : Tree img s fs l pt) (hp : p ∈ foot fs s.mem l pt) : img.Page p :=
  (mem_foot.mp hp).elim (h.free.page p) (h.page p)

theorem Tree.foot_nodup (h : Tree img s fs l pt) : (foot fs s.mem l pt).Nodup := h.nodup

theorem Tree.tree_nodup (h : Tree img s fs l pt) : (ptPages s.mem l pt).Nodup :=
  (nodup_add.mp h.nodup).2.1

theorem Tree.not_free (h : Tree img s fs l pt) (hp : p ∈ ptPages s.mem l pt) : p ∉ fs :=
  fun hf => disjoint_left.mp (nodup_add.mp h.nodup).2.2
    (mem_coe.mpr hf) hp

theorem Tree.of_kept (h : Tree img s fs l pt) (hfree : Free img s' fs') (hwf : Wf s'.mem l pt)
    (hk : foot fs' s'.mem l pt = foot fs s.mem l pt) : Tree img s' fs' l pt := by
  refine ⟨hfree, hwf, ?_, fun p hp => h.foot_page (hk ▸ mem_foot.mpr (.inr hp))⟩
  have := h.foot_nodup
  rwa [← hk, foot] at this

/-- A tree and the free list survive changes elsewhere. -/
theorem Tree.frame (h : Tree img s fs l pt) (hf : Frame A s.mem s'.mem)
    (hA : ∀ p ∈ foot fs s.mem l pt, p ∉ A) (hl : s'.freelist = s.freelist) :
    Tree img s' fs l pt ∧ Alike l pt s.mem s'.mem := by
  have hal : Alike l pt s.mem s'.mem := alike_of_frame hf (fun p hp => (h.page p hp).aligned)
    fun p hp => hA p (mem_foot.mpr (.inr hp))
  refine ⟨h.of_kept (h.free.frame hf (fun p hp => hA p (mem_foot.mpr (.inl hp))) hl)
    (hal.wf h.wf) ?_, hal⟩
  rw [foot, foot, hal.pages]

/-! ## Descending -/

/-- The subtree below a valid entry, with the same free list. -/
theorem Tree.kid (h : Tree img s fs (l + 1) pt) (hi : i < 512) (hv : Valid (pte s.mem pt i)) :
    Tree img s fs l (pte2pa (pte s.mem pt i)) := by
  have hk : Mem.kid s.mem l pt i = ptPages s.mem l (pte2pa (pte s.mem pt i)) := if_pos hv
  refine ⟨h.free, (h.wf i hi hv).2, ?_, fun p hp => h.page p (mem_of_mem_kid hi (hk ▸ hp))⟩
  have hnd := h.nodup
  rw [ptPages_split _ _ _ hi, ← add_assoc] at hnd
  rw [← hk]
  exact (nodup_add.mp hnd).1

/-- What happens to a subtree and the free list happens to the tree. -/
theorem Grown.of_kid (h : Tree img s fs (l + 1) pt) (hi : i < 512) (hv : Valid (pte s.mem pt i))
    (h' : Tree img s' fs' l (pte2pa (pte s.mem pt i)))
    (hg : Grown fs fs' l (pte2pa (pte s.mem pt i)) s.mem s'.mem) :
    Tree img s' fs' (l + 1) pt ∧ Grown fs fs' (l + 1) pt s.mem s'.mem ∧
      pte s'.mem pt i = pte s.mem pt i := by
  have hk : kid s.mem l pt i = ptPages s.mem l (pte2pa (pte s.mem pt i)) := if_pos hv
  -- the table itself and the other subtrees are outside of what has changed
  have hout : ∀ p ∈ ptPages s.mem (l + 1) pt, p ∉ kid s.mem l pt i → Same p s.mem s'.mem := by
    intro p hp hn
    refine hg.kept.frame p (h.page p hp).aligned fun hm => ?_
    rcases mem_foot.mp hm with hm | hm
    · exact h.not_free hp hm
    · exact hn (hk ▸ hm)
  have hroot : Same pt s.mem s'.mem := hout pt pt_mem_ptPages (root_not_mem_kid h.tree_nodup hi)
  have hrec : Recomposed l pt i s.mem s'.mem := by
    refine recompose hi (fun j hj _ => hroot.pte hj) fun j hj hji p hp => ?_
    exact hout p (mem_of_mem_kid hj hp) fun hm =>
      kids_disjoint h.tree_nodup hi hj hji.symm hm hp
  have hk' : kid s'.mem l pt i = ptPages s'.mem l (pte2pa (pte s.mem pt i)) := by
    rw [kid, hroot.pte hi, if_pos hv]
  have hpages : foot fs' s'.mem (l + 1) pt = foot fs s.mem (l + 1) pt := by
    have hp := hrec.pages
    have hkept := hg.kept.pages
    rw [foot, foot, ← hk, ← hk'] at hkept
    refine add_right_cancel (b := kid s.mem l pt i) ?_
    rw [foot, foot, add_assoc, hp, add_left_comm, hkept]
    abel
  have hwf : Wf s'.mem (l + 1) pt := by
    refine hrec.wf h.wf fun _ => ?_
    rw [hroot.pte hi]
    exact ⟨(h.wf i hi hv).1, h'.wf⟩
  refine ⟨h.of_kept h'.free hwf hpages, ⟨⟨hpages, ?_⟩, fun v => ?_, fun v a hs => ?_, hg.taken⟩,
    hroot.pte hi⟩
  · refine hg.kept.frame.mono fun p hp => ?_
    rcases mem_foot.mp hp with hp | hp
    · exact mem_foot.mpr (.inl hp)
    · exact mem_foot.mpr (.inr (mem_of_mem_kid hi (hk ▸ hp)))
  · by_cases hvi : idx (l + 1) v = i
    · subst hvi
      rw [Mem.entry, Mem.entry, hroot.pte hi, if_pos hv, if_pos hv, hg.entry]
    · exact hrec.entry v hvi
  · by_cases hvi : idx (l + 1) v = i
    · subst hvi
      rw [Mem.slot, if_pos hv] at hs
      rw [Mem.slot, hroot.pte hi, if_pos hv]
      exact hg.slot v a hs
    · rw [hrec.slot v hvi]
      exact hs

theorem Grown.refl (fs : List Nat) (l pt : Nat) (m : Bytes) : Grown fs fs l pt m m :=
  ⟨.refl _ m, fun _ => rfl, fun _ _ h => h, fun _ h => h⟩

theorem Grown.trans (h : Grown fs fs' l pt m m') (h' : Grown fs' fs'' l pt m' m'') :
    Grown fs fs'' l pt m m'' :=
  ⟨h.kept.trans h'.kept, fun v => (h'.entry v).trans (h.entry v),
    fun v a hs => h'.slot v a (h.slot v a hs), fun p hp => h.taken p (h'.taken p hp)⟩

/-! ## A new table -/

theorem pte_lePut_self (hx : x < 2 ^ 64) : pte (lePut 8 m (pt + 8 * i) x) pt i = x := by
  rw [pte_eq, leGet_lePut_self]
  exact Nat.mod_eq_of_lt hx

theorem pte_lePut_of_ne {j : Nat} (h : j ≠ i) :
    pte (lePut 8 m (pt + 8 * i) x) pt j = pte m pt j := by
  rw [pte_eq, pte_eq, leGet_lePut_of_disjoint]
  omega

/-- A pointer to a table. -/
theorem table_entry (hp : img.Page p) :
    Valid (pa2pte p ||| PTE_V) ∧ pte2pa (pa2pte p ||| PTE_V) = p ∧
      (pa2pte p ||| PTE_V) &&& (PTE_R ||| PTE_W ||| PTE_X) = 0 ∧ pa2pte p ||| PTE_V < 2 ^ 64 := by
  have hp' : p / PGSIZE * PGSIZE = p := Nat.div_mul_cancel (Nat.dvd_of_mod_eq_zero hp.aligned)
  refine ⟨valid_or _, ?_, ?_, pa2pte_or_lt hp.lt (by decide)⟩
  · rw [pte2pa_pa2pte hp.lt (by decide), hp']
  · have hf : pteFlags (pa2pte p ||| PTE_V) = PTE_V := pteFlags_pa2pte (by decide)
    have hm : (PTE_R ||| PTE_W ||| PTE_X) = 0x3FF &&& (PTE_R ||| PTE_W ||| PTE_X) := by decide
    rw [hm, ← Nat.and_assoc, ← pteFlags, hf]
    decide

/-- Hanging an empty table below an entry that was not valid. -/
theorem Grown.attach (h : Tree img s (p :: fs) (l + 1) pt) (hi : i < 512)
    (hv : ¬ Valid (pte s.mem pt i)) (hfree : Free img s' fs) (hf : Frame {p} s.mem s'.mem)
    (hz : Zero p s'.mem) (hs : s''.mem = lePut 8 s'.mem (pt + 8 * i) (pa2pte p ||| PTE_V))
    (hl : s''.freelist = s'.freelist) :
    Tree img s'' fs (l + 1) pt ∧ Grown (p :: fs) fs (l + 1) pt s.mem s''.mem ∧
      pte s''.mem pt i = pa2pte p ||| PTE_V := by
  have hpage := h.free.page p List.mem_cons_self
  obtain ⟨hval, hpa, hint, hlt⟩ := table_entry hpage
  have hptal := (h.page pt pt_mem_ptPages).aligned
  have hn : p ∉ ptPages s.mem (l + 1) pt := fun hp => h.not_free hp List.mem_cons_self
  have hne : p ≠ pt := fun he => hn (he ▸ pt_mem_ptPages)
  have hput : Frame {pt} s'.mem s''.mem := by
    rw [hs]
    refine frame_lePut hptal _ ?_
    simp only [PGSIZE]
    omega
  have hsame : ∀ q ∈ ptPages s.mem (l + 1) pt, q ≠ pt → Same q s.mem s''.mem := fun q hq hqpt =>
    (hf q (h.page q hq).aligned fun hm => hn (mem_singleton.mp hm ▸ hq)).trans
      (hput q (h.page q hq).aligned fun hm => hqpt (mem_singleton.mp hm))
  have hself : pte s''.mem pt i = pa2pte p ||| PTE_V := by rw [hs, pte_lePut_self hlt]
  have hroot : Same pt s.mem s'.mem := by
    refine hf pt hptal fun hm => hne ?_
    exact (mem_singleton.mp hm).symm
  have hz' : Zero p s''.mem := by
    refine hz.same (hput p hpage.aligned fun hm => hne ?_)
    exact mem_singleton.mp hm
  have hrec : Recomposed l pt i s.mem s''.mem := by
    refine recompose hi (fun j hj hji => ?_) fun j hj _ q hq => ?_
    · rw [hs, pte_lePut_of_ne hji, hroot.pte hj]
    · refine hsame q (mem_of_mem_kid hj hq) fun he => ?_
      exact root_not_mem_kid h.tree_nodup hj (he ▸ hq)
  have hpages : foot fs s''.mem (l + 1) pt = foot (p :: fs) s.mem (l + 1) pt := by
    have hp := hrec.pages
    rw [kid, kid, hself, if_neg hv, if_pos hval, hpa, hz'.ptPages, add_zero] at hp
    rw [foot, foot, hp, ← cons_coe, ← singleton_add]
    abel
  have hfree' : Free img s'' fs := by
    refine hfree.frame hput (fun q hq hm => ?_) hl
    rw [mem_singleton.mp hm] at hq
    exact h.not_free pt_mem_ptPages (List.mem_cons_of_mem _ hq)
  have hwf : Wf s''.mem (l + 1) pt := hrec.wf h.wf fun _ => by
    rw [hself, hpa]
    exact ⟨hint, hz'.wf⟩
  refine ⟨h.of_kept hfree' hwf hpages, ⟨⟨hpages, ?_⟩, fun v => ?_, fun v a hsl => ?_,
    fun _ hq => List.mem_cons_of_mem _ hq⟩, hself⟩
  · refine (hf.mono fun q hq => ?_).trans (hput.mono fun q hq => ?_)
    · rw [mem_singleton.mp hq]
      exact mem_foot.mpr (.inl List.mem_cons_self)
    · rw [mem_singleton.mp hq]
      exact mem_foot.mpr (.inr pt_mem_ptPages)
  · by_cases hvi : idx (l + 1) v = i
    · subst hvi
      rw [Mem.entry, Mem.entry, hself, if_pos hval, if_neg hv, hpa, hz'.entry]
    · exact hrec.entry v hvi
  · by_cases hvi : idx (l + 1) v = i
    · subst hvi
      rw [Mem.slot, if_neg hv] at hsl
      cases hsl
    · rw [hrec.slot v hvi]
      exact hsl

/-! ## `walk` -/

theorem load_runs {a : Nat} {Q : Nat → Phys → Prop} (h : Q (leGet 8 s.mem a) s) :
    (load a).Runs s E Q :=
  .seq (.get (.ret h))

/-- Without allocation `walk` finds the leaf entry and changes nothing. -/
theorem walkFrom_slot : (walkFrom va false l pt).Runs s E fun r s' =>
    r = slot s.mem l pt (va / PGSIZE) ∧ s' = s := by
  induction l generalizing pt with
  | zero =>
    refine .ret ⟨?_, rfl⟩
    rw [px_eq, slot]
  | succ l ih =>
    rw [walkFrom]
    refine .seq (load_runs ?_)
    rw [← pte_eq, px_eq, slot]
    split
    · exact ih
    · exact .ret ⟨rfl, rfl⟩

theorem walk_slot (hva : va < MAXVA) : (walk pt va false).Runs s E fun r s' =>
    r = slot s.mem 2 pt (va / PGSIZE) ∧ s' = s := by
  rw [walk, if_neg (not_le.mpr hva)]
  exact walkFrom_slot

/-- With allocation `walk` returns the place of the leaf entry, or has used up the free list. -/
theorem walkFrom_runs (h : Tree img s fs l pt) : (walkFrom va true l pt).Runs s E fun r s' =>
    ∃ fs', Tree img s' fs' l pt ∧ Grown fs fs' l pt s.mem s'.mem ∧ fs.length ≤ fs'.length + l ∧
      (slot s.mem l pt (va / PGSIZE) ≠ none → fs' = fs) ∧
      ((r = none ∧ fs' = []) ∨ ∃ a, r = some a ∧ slot s'.mem l pt (va / PGSIZE) = some a) := by
  induction l generalizing pt s fs with
  | zero =>
    refine .ret ⟨fs, h, .refl .., le_rfl, fun _ => rfl, .inr ⟨_, rfl, ?_⟩⟩
    rw [px_eq, slot]
  | succ l ih =>
    have hi := idx_lt (l + 1) (va / PGSIZE)
    rw [walkFrom]
    refine .seq (load_runs ?_)
    rw [← pte_eq, px_eq]
    by_cases hv : Valid (pte s.mem pt (idx (l + 1) (va / PGSIZE)))
    · rw [if_pos hv]
      refine (ih (h.kid hi hv)).mono ?_
      rintro r s' ⟨fs', h', hg, hlen, hsame, hr⟩
      obtain ⟨ht, hg', hpte⟩ := Grown.of_kid h hi hv h' hg
      refine ⟨fs', ht, hg', by omega, ?_, ?_⟩
      · rw [slot, if_pos hv]
        exact hsame
      · rw [slot, hpte, if_pos hv]
        exact hr
    · rw [if_neg hv, if_neg (by decide)]
      refine .bind (kalloc_runs h.free) ?_
      rintro _ s₁ (⟨rfl, rfl, rfl⟩ | ⟨p, fs₁, rfl, rfl, hfree₁, hf₁⟩)
      · exact .ret ⟨[], h, .refl .., by simp, fun _ => rfl, .inl ⟨rfl, rfl⟩⟩
      · have hp := (h.free.page p List.mem_cons_self).aligned
        have hz : Frame {p} s.mem (fill s₁.mem p 0 PGSIZE) := hf₁.trans (frame_fill hp)
        have hfree : Free img { s₁ with mem := fill s₁.mem p 0 PGSIZE } fs₁ := by
          refine hfree₁.frame (frame_fill hp) (fun q hq hm => ?_) rfl
          rw [mem_singleton.mp hm] at hq
          exact (List.nodup_cons.mp h.free.nodup).1 hq
        have hs₂ : (Phys.mk (lePut 8 (fill s₁.mem p 0 PGSIZE)
            (pt + 8 * idx (l + 1) (va / PGSIZE)) (pa2pte p ||| PTE_V)) s₁.freelist).mem
            = lePut 8 (fill s₁.mem p 0 PGSIZE) _ _ := rfl
        obtain ⟨h₂, hg₂, hpte⟩ := Grown.attach h hi hv hfree hz (zero_fill p s₁.mem) hs₂ rfl
        have hpa := (table_entry (h.free.page p List.mem_cons_self)).2.1
        have hval := (table_entry (h.free.page p List.mem_cons_self)).1
        refine .seq (.modify ?_)
        refine .seq (.modify ?_)
        have hv₂ := hpte.symm ▸ hval
        have hkid := h₂.kid hi hv₂
        rw [hpte, hpa] at hkid
        refine (ih hkid).mono ?_
        rintro r s' ⟨fs', h', hg, hlen, hsame, hr⟩
        obtain ⟨ht, hg', hpte'⟩ := Grown.of_kid h₂ hi hv₂ (by rw [hpte, hpa]; exact h')
          (by rw [hpte, hpa]; exact hg)
        refine ⟨fs', ht, hg₂.trans hg', by simp only [List.length_cons]; omega, ?_, ?_⟩
        · rw [slot, if_neg hv]
          exact fun hc => absurd rfl hc
        · rw [slot, hpte', hpte, if_pos hval, hpa]
          exact hr

theorem walk_runs (h : Tree img s fs 2 pt) (hva : va < MAXVA) :
    (walk pt va true).Runs s E fun r s' =>
    ∃ fs', Tree img s' fs' 2 pt ∧ Grown fs fs' 2 pt s.mem s'.mem ∧ fs.length ≤ fs'.length + 2 ∧
      (slot s.mem 2 pt (va / PGSIZE) ≠ none → fs' = fs) ∧
      ((r = none ∧ fs' = []) ∨ ∃ a, r = some a ∧ slot s'.mem 2 pt (va / PGSIZE) = some a) := by
  rw [walk, if_neg (not_le.mpr hva)]
  exact walkFrom_runs h

end

end Xv6.Mem
