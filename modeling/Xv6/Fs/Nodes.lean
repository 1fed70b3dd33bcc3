import Xv6.Fs.Trunc

/-!
# What the functions of the file system do to nodes

`Sets sb ip i s s' x` says that the node of inode `i` has become `x`, on disk and in the entry `ip`
of the table, and that no other node is different. Each function that changes an inode has a rule
in these terms; what blocks are used for it is no longer seen. `Table` is what holds of the table
of inodes whenever no inode is being changed.
-/

namespace Xv6.Fs

open Lib Function

variable {sb : Superblock} {s s' s'' : State} {E : Option String → Prop} {D D' : Nat → Dinode}
  {disk : Disk} {d : Dinode} {ip e i j k n off : Nat} {src : Src} {x y : Node}

/-- The entries that are referred to are for different inodes, and those that have been read are the
    same as on disk. -/
structure Table (sb : Superblock) (s : State) : Prop where
  copy : ∀ e < NINODE, 0 < (s.inode e).ref → (s.inode e).valid = true →
    Holds sb s e (s.inode e).inum
  lt : ∀ e < NINODE, 0 < (s.inode e).ref → (s.inode e).inum < sb.ninodes
  uniq : ∀ e < NINODE, ∀ e' < NINODE, 0 < (s.inode e).ref → 0 < (s.inode e').ref →
    (s.inode e).inum = (s.inode e').inum → e = e'

/-- An inode that is not in use. -/
def Node.free : Node := ⟨0, 0, 0, 0, []⟩

structure Sets (sb : Superblock) (ip i : Nat) (s s' : State) (x : Node) : Prop where
  consistent : Consistent sb s'.disk
  nodes : files sb s'.disk = update (files sb s.disk) i x
  memory : s'.inode =
    update s.inode ip { s.inode ip with din := dinodeOf sb s'.disk i }
  dinodes : ∀ j < sb.ninodes, j ≠ i → dinodeOf sb s'.disk j = dinodeOf sb s.disk j
  rest : s'.outstanding = s.outstanding ∧ s'.safe = s.safe

/-! ## Writing an inode back -/

theorem live_setDinode_free (hd : d.Fits) (ht : d.type = 0)
    (hs : ∀ j < sb.ninodes, dinodeOf sb disk j = dinodeOf sb s.disk j) :
    live sb (setDinode sb disk i d) = update (live sb s.disk) i Dinode.zero := by
  funext j
  by_cases hj : j = i
  · rw [hj, update_self, live, dinodeOf_setDinode_self hd, if_neg fun hc => hc.2 ht]
  · rw [update_of_ne hj, live, live, dinodeOf_setDinode_ne hj]
    by_cases hlt : j < sb.ninodes
    · rw [hs j hlt]
    · rw [if_neg fun hc => hlt hc.1, if_neg fun hc => hlt hc.1]

/-- An inode is written back on a disk that has the bytes of all other files. -/
theorem consistent_setDinode (hsb : sb.Ok) (hi : i < sb.ninodes) (hc : Consistent sb s.disk)
    (hblocks : Blocks sb disk D') (hD : ∀ j ≠ i, D' j = live sb s.disk j)
    {d₁ : Dinode} (hlive : live sb (setDinode sb disk i d) = update (live sb s.disk) i d₁)
    (ha : d₁.addrs = (D' i).addrs)
    (hother : ∀ j k v, j ≠ i → Has s.disk (live sb s.disk j) k v → Has disk (D' j) k v)
    (hmapped : ∀ bn, bn * BSIZE < d₁.size → blockOf disk (D' i) bn ≠ 0) :
    Consistent sb (setDinode sb disk i d) ∧
      files sb (setDinode sb disk i d) = update (files sb s.disk) i (nodeOf disk d₁) := by
  obtain ⟨hdata, hbit⟩ : SameData sb disk (setDinode sb disk i d) ∧ _ := setDinode_same hsb hi
  have haddrs : ∀ j, (live sb (setDinode sb disk i d) j).addrs = (D' j).addrs := by
    intro j
    rw [hlive]
    by_cases hj : j = i
    · rw [hj, update_self, ha]
    · rw [update_of_ne hj, hD j hj]
  have hslot : ∀ j bn, blockOf (setDinode sb disk i d) (live sb (setDinode sb disk i d) j) bn =
      blockOf disk (D' j) bn := by
    intro j bn
    rw [blockOf_addrs (haddrs j)]
    exact hblocks.same_slot hdata j _
  have hbyte : ∀ j k, blockOf disk (D' j) (k / BSIZE) ≠ 0 →
      contentByte (setDinode sb disk i d) (live sb (setDinode sb disk i d) j) k =
        contentByte disk (D' j) k := by
    intro j k h0
    have hsame := hdata (blockOf disk (D' j) (k / BSIZE))
      (data_le hblocks (i := j) (s := dataSlot (k / BSIZE)) rfl h0).1
    rw [contentByte, contentByte, hslot, hsame]
  have hsize : ∀ j ≠ i, (live sb (setDinode sb disk i d) j).size = (live sb s.disk j).size := by
    intro j hj
    rw [hlive, update_of_ne hj]
  have hold : ∀ j ≠ i, ∀ k < (live sb s.disk j).size, blockOf disk (D' j) (k / BSIZE) ≠ 0 ∧
      contentByte disk (D' j) k = contentByte s.disk (live sb s.disk j) k := by
    intro j hj k hk
    refine hother j k _ hj ⟨hc.mapped j _ ?_, rfl⟩
    have := Nat.div_mul_le_self k BSIZE
    omega
  refine ⟨⟨(hblocks.same hdata hbit).addrs haddrs, fun j bn hbn => ?_⟩, ?_⟩
  · rw [hslot]
    by_cases hj : j = i
    · subst hj
      rw [hlive, update_self] at hbn
      exact hmapped bn hbn
    · rw [hsize j hj] at hbn
      have := (hold j hj _ hbn).1
      rwa [Nat.mul_div_cancel _ (by decide)] at this
  · funext j
    by_cases hj : j = i
    · subst hj
      rw [update_self]
      have hlj : live sb (setDinode sb disk j d) j = d₁ := by rw [hlive, update_self]
      have hcontent : content (setDinode sb disk j d) (live sb (setDinode sb disk j d) j) =
          content disk d₁ := by
        refine List.ext_getElem? fun k => ?_
        rw [content_get, content_get, hlj]
        by_cases hk : k < d₁.size
        · have h0 := hmapped (k / BSIZE) (by have := Nat.div_mul_le_self k BSIZE; omega)
          have := hbyte j k h0
          rw [hlj] at this
          rw [if_pos hk, if_pos hk, this, contentByte, contentByte, blockOf_addrs ha]
        · rw [if_neg hk, if_neg hk]
      rw [files, nodeOf, nodeOf, hcontent, hlj]
    · rw [update_of_ne hj]
      have hlj : live sb (setDinode sb disk i d) j = live sb s.disk j := by
        rw [hlive, update_of_ne hj]
      have hcontent : content (setDinode sb disk i d) (live sb (setDinode sb disk i d) j) =
          content s.disk (live sb s.disk j) := by
        refine List.ext_getElem? fun k => ?_
        rw [content_get, content_get, hsize j hj]
        by_cases hk : k < (live sb s.disk j).size
        · obtain ⟨h0, hv⟩ := hold j hj k hk
          rw [if_pos hk, if_pos hk, hbyte j k h0, hv]
        · rw [if_neg hk, if_neg hk]
      rw [files, files, nodeOf, nodeOf, hcontent, hlj]

/-- The inode `ip`, with `d` for what is on disk, is written back. -/
theorem updated_sets (hsb : sb.Ok) (hc : Consistent sb s.disk) (hh : Holds sb s ip i)
    {σ : State} (hblocks : Blocks sb σ.disk D') (hD : ∀ j ≠ i, D' j = live sb s.disk j)
    (hmem : σ.inode = update s.inode ip { s.inode ip with din := D' i })
    (hdin : ∀ j < sb.ninodes, dinodeOf sb σ.disk j = dinodeOf sb s.disk j)
    (hd : d.Fits) {d₁ : Dinode} (hd₁ : d.type ≠ 0 ∧ d₁ = d ∨ d.type = 0 ∧ d₁ = Dinode.zero)
    (ha : d₁.addrs = (D' i).addrs)
    (hother : ∀ j k v, j ≠ i → Has s.disk (live sb s.disk j) k v → Has σ.disk (D' j) k v)
    (hmapped : ∀ bn, bn * BSIZE < d₁.size → blockOf σ.disk (D' i) bn ≠ 0)
    (hrest : σ.outstanding = s.outstanding ∧ σ.safe = s.safe) :
    Sets sb ip i s ((σ.setDin ip d).updated sb ip) (nodeOf σ.disk d₁) := by
  have hinum : ((σ.setDin ip d).inode ip).inum = i := by
    rw [State.setDin, setInode_self, hmem, update_self]
    exact hh.inum
  have hdisk : ((σ.setDin ip d).updated sb ip).disk = setDinode sb σ.disk i d := by
    rw [updated_disk, hinum, State.setDin, setInode_self]
    rfl
  have hlive : live sb (setDinode sb σ.disk i d) = update (live sb s.disk) i d₁ := by
    rcases hd₁ with ⟨ht, rfl⟩ | ⟨ht, rfl⟩
    · exact live_setDinode hh.lt hd ht fun j hj _ => hdin j hj
    · exact live_setDinode_free hd ht hdin
  obtain ⟨hcons, hfiles⟩ :=
    consistent_setDinode hsb hh.lt hc hblocks hD hlive ha hother hmapped
  refine ⟨by rwa [hdisk], by rwa [hdisk], ?_, fun j hj hne => ?_, hrest⟩
  · rw [hdisk, dinodeOf_setDinode_self hd]
    show update σ.inode ip { σ.inode ip with din := d } = _
    rw [hmem, update_self, update_idem]
  · rw [hdisk, dinodeOf_setDinode_ne hne, hdin j hj]

theorem Sets.trans {σ : State} (h : Sets sb ip i s s' x) (h' : Sets sb ip i s' σ y) :
    Sets sb ip i s σ y := by
  refine ⟨h'.consistent, ?_, ?_, fun j hj hne => (h'.dinodes j hj hne).trans (h.dinodes j hj hne),
    h'.rest.1.trans h.rest.1, h'.rest.2.trans h.rest.2⟩
  · rw [h'.nodes, h.nodes, update_idem]
  · rw [h'.memory, h.memory, update_self, update_idem]

/-- A node is in use if the inode on disk is. -/
theorem files_type : (files sb disk i).type ≠ 0 ↔
    i < sb.ninodes ∧ (dinodeOf sb disk i).type ≠ 0 := by
  show (live sb disk i).type ≠ 0 ↔ _
  rw [live]
  split
  · next h => exact iff_of_true h.2 h
  · next h => exact iff_of_false (fun hc => hc rfl) h

theorem Holds.type_ne (h : Holds sb s ip i) : (files sb s.disk i).type ≠ 0 :=
  files_type.mpr ⟨h.lt, h.type⟩

theorem Holds.node (h : Holds sb s ip i) : files sb s.disk i = nodeOf s.disk (s.inode ip).din := by
  rw [files, h.live]

theorem Sets.file (h : Sets sb ip i s s' x) : files sb s'.disk i = x := by
  rw [h.nodes, update_self]

theorem Sets.holds (h : Sets sb ip i s s' x) (hh : Holds sb s ip i) (hx : x.type ≠ 0) :
    Holds sb s' ip i := by
  have hself : s'.inode ip = { s.inode ip with din := dinodeOf sb s'.disk i } := by
    rw [h.memory, update_self]
  have htype : i < sb.ninodes ∧ (dinodeOf sb s'.disk i).type ≠ 0 :=
    files_type.mp (by rw [h.file]; exact hx)
  exact ⟨by rw [hself]; exact hh.inum, htype.1, by rw [hself], htype.2⟩

/-! ## The table -/

/-- An entry of the table is changed. -/
theorem Table.setInode {y : Inode} (ht : Table sb s)
    (hcopy : 0 < y.ref → y.valid = true → y.din = dinodeOf sb s.disk y.inum ∧
      (dinodeOf sb s.disk y.inum).type ≠ 0)
    (hlt : 0 < y.ref → y.inum < sb.ninodes)
    (huniq : 0 < y.ref → ∀ e < NINODE, e ≠ ip → 0 < (s.inode e).ref → (s.inode e).inum ≠ y.inum) :
    Table sb (s.setInode ip y) := by
  refine ⟨fun e he hr hv => ?_, fun e he hr => ?_, fun e he e' he' hr hr' heq => ?_⟩
  · by_cases hip : e = ip
    · subst hip
      rw [setInode_self] at hr hv ⊢
      exact ⟨by rw [setInode_self], hlt hr, by rw [setInode_self]; exact (hcopy hr hv).1,
        (hcopy hr hv).2⟩
    · rw [setInode_ne _ hip] at hr hv ⊢
      obtain ⟨h1, h2, h3, h4⟩ := ht.copy e he hr hv
      exact ⟨by rw [setInode_ne _ hip], h2, by rw [setInode_ne _ hip]; exact h3, h4⟩
  · by_cases hip : e = ip
    · subst hip
      rw [setInode_self] at hr ⊢
      exact hlt hr
    · rw [setInode_ne _ hip] at hr ⊢
      exact ht.lt e he hr
  · by_cases hip : e = ip <;> by_cases hip' : e' = ip
    · rw [hip, hip']
    · subst hip
      rw [setInode_self] at hr heq
      rw [setInode_ne _ hip'] at hr' heq
      exact absurd heq.symm (huniq hr e' he' hip' hr')
    · subst hip'
      rw [setInode_self] at hr' heq
      rw [setInode_ne _ hip] at hr heq
      exact absurd heq (huniq hr' e he hip hr)
    · rw [setInode_ne _ hip] at hr heq
      rw [setInode_ne _ hip'] at hr' heq
      exact ht.uniq e he e' he' hr hr' heq

/-- The entry `ip` is for inode `i` and is referred to. -/
structure Refs (s : State) (ip i : Nat) : Prop where
  lt : ip < NINODE
  ref : 0 < (s.inode ip).ref
  inum : (s.inode ip).inum = i

/-- An entry that stays for the same inode. -/
theorem Table.same {y : Inode} (ht : Table sb s) (hr : Refs s ip i) (hi : y.inum = i)
    (hcopy : y.valid = true → y.din = dinodeOf sb s.disk i ∧ (dinodeOf sb s.disk i).type ≠ 0) :
    Table sb (s.setInode ip y) := by
  refine ht.setInode (fun _ hv => by rw [hi]; exact hcopy hv) (fun _ => ?_) fun _ e he hne hr' => ?_
  · rw [hi, ← hr.inum]
    exact ht.lt ip hr.lt hr.ref
  · rw [hi, ← hr.inum]
    exact fun hc => hne (ht.uniq e he ip hr.lt hr' hr.ref hc)

theorem Table.holds (ht : Table sb s) (hr : Refs s ip i) (hv : (s.inode ip).valid = true) :
    Holds sb s ip i := hr.inum ▸ ht.copy ip hr.lt hr.ref hv

/-- The log does not matter. -/
theorem Table.congr (ht : Table sb s) (hd : s'.disk = s.disk) (hi : s'.inode = s.inode) :
    Table sb s' := by
  refine ⟨fun e he hr hv => ?_, by rw [hi]; exact ht.lt, by rw [hi]; exact ht.uniq⟩
  rw [hi] at hr hv ⊢
  have hh := ht.copy e he hr hv
  exact ⟨by rw [hi], hh.lt, by rw [hi, hd]; exact hh.din, by rw [hd]; exact hh.type⟩

end Xv6.Fs
