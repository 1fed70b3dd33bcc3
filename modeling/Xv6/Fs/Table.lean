import Xv6.Fs.Code

/-!
# The table of inodes, one call at a time

What the functions on the inode table do when they are executed alone: one rule for each of them,
which says what has to hold of the state it leaves.
-/

namespace Xv6.Fs

open Lib Function

variable {sb : Superblock} {s : State} {E : Option String → Prop} {t ip i b : Nat}

@[simp] theorem setInode_disk (x : Inode) : (s.setInode ip x).disk = s.disk := rfl

@[simp] theorem setInode_self (x : Inode) : (s.setInode ip x).inode ip = x :=
  update_self ..

theorem setInode_ne (x : Inode) {e : Nat} (h : e ≠ ip) :
    (s.setInode ip x).inode e = s.inode e := update_of_ne h ..

@[simp] theorem setInode_setInode (x y : Inode) :
    (s.setInode ip x).setInode ip y = s.setInode ip y := by
  simp only [State.setInode, update_idem]

theorem setInode_inode : s.setInode ip (s.inode ip) = s := by
  simp only [State.setInode, update_eq_self]

theorem inodeAt_runs {Q : Inode → State → Prop} (h : Q (s.inode ip) s) :
    (inodeAt ip).Runs s E Q := .seq (.get (.ret h))

theorem onInode_runs {f : Inode → Inode} {Q : Unit → State → Prop}
    (h : Q () (s.setInode ip (f (s.inode ip)))) : (onInode ip f).Runs s E Q :=
  .modify h

theorem onDin_runs {f : Dinode → Dinode} {Q : Unit → State → Prop}
    (h : Q () (s.setInode ip { s.inode ip with din := f (s.inode ip).din })) :
    (onDin ip f).Runs s E Q := .modify h

theorem bread_runs {Q : Block → State → Prop} (h : Q (s.disk b) s) : (bread b).Runs s E Q :=
  .seq (.get (.ret h))

theorem idup_runs {Q : Nat → State → Prop}
    (h : Q ip (s.setInode ip { s.inode ip with ref := (s.inode ip).ref + 1 })) :
    (idup ip).Runs s E Q := .seq (.modify (.ret h))

/-- An element of a list that is searched for from the front. -/
theorem find_range {m e : Nat} {p : Nat → Bool} (h : (List.range m).find? p = some e) :
    e < m ∧ p e = true :=
  ⟨List.mem_range.mp (List.mem_of_find?_eq_some h), List.find?_some h⟩

theorem find_range_none {m : Nat} {p : Nat → Bool} (h : (List.range m).find? p = none) (e : Nat)
    (he : e < m) : p e = false := by
  have := List.find?_eq_none.mp h e (List.mem_range.mpr he)
  simpa using this

theorem iget_runs {Q : Nat → State → Prop}
    (found : ∀ e < NINODE, 0 < (s.inode e).ref → (s.inode e).inum = i →
      Q e (s.setInode e { s.inode e with ref := (s.inode e).ref + 1 }))
    (fresh : (∀ e < NINODE, 0 < (s.inode e).ref → (s.inode e).inum ≠ i) →
      ∀ e < NINODE, (s.inode e).ref = 0 →
        Q e (s.setInode e { s.inode e with inum := i, ref := 1, valid := false }))
    (full : (∀ e < NINODE, 0 < (s.inode e).ref) → E (some "iget: no inodes")) :
    (iget i).Runs s E Q := by
  unfold Prog.Runs iget Prog.atomic
  rw [Prog.run_step]
  cases h1 : (List.range NINODE).find? fun e => 0 < (s.inode e).ref ∧ (s.inode e).inum = i with
  | some e =>
    obtain ⟨he, hp⟩ := find_range h1
    rw [decide_eq_true_eq] at hp
    exact found e he hp.1 hp.2
  | none =>
    have hno : ∀ e < NINODE, 0 < (s.inode e).ref → (s.inode e).inum ≠ i := by
      intro e he hr hi
      have := find_range_none h1 e he
      rw [decide_eq_false_iff_not] at this
      exact this ⟨hr, hi⟩
    cases h2 : (List.range NINODE).find? fun e => (s.inode e).ref = 0 with
    | some e =>
      obtain ⟨he, hp⟩ := find_range h2
      rw [decide_eq_true_eq] at hp
      exact fresh hno e he hp
    | none =>
      refine full fun e he => pos_of_ne_zero fun h0 => ?_
      have := find_range_none h2 e he
      rw [decide_eq_false_iff_not] at this
      exact this h0

/-- An inode in memory after it was locked by `t`, with what the disk has of it. -/
def Inode.locked (x : Inode) (t : Nat) (home : Dinode) : Inode :=
  { x with lock := some t, din := if x.valid then x.din else home, valid := true }

theorem iload_runs {Q : Unit → State → Prop} (hlock : (s.inode ip).lock = some t)
    (htype : (s.inode ip).valid = false → (dinodeOf sb s.disk (s.inode ip).inum).type = 0 →
      E (some "ilock: no type"))
    (h : ((s.inode ip).valid = false → (dinodeOf sb s.disk (s.inode ip).inum).type ≠ 0) →
      Q () (s.setInode ip ((s.inode ip).locked t (dinodeOf sb s.disk (s.inode ip).inum)))) :
    (iload sb ip).Runs s E Q := by
  unfold Prog.Runs iload Prog.atomic
  rw [Prog.run_step]
  rw [Inode.locked, ← hlock] at h
  cases hv : (s.inode ip).valid with
  | true =>
    simp only [hv, if_true] at h ⊢
    have h := h fun hc => absurd hc (by simp)
    rw [← hv] at h
    exact (show s.setInode ip (s.inode ip) = s from setInode_inode) ▸ h
  | false =>
    simp only [hv, Bool.false_eq_true, if_false] at h ⊢
    by_cases h0 : (dinodeOf sb s.disk (s.inode ip).inum).type = 0
    · rw [if_pos h0]
      exact htype hv h0
    · rw [if_neg h0]
      exact h fun _ => h0

theorem sleepLock_waits {Q : Unit → State → Prop} (hlock : (s.inode ip).lock ≠ none)
    (h : E none) : (sleepLock t ip).Runs s E Q := by
  unfold Prog.Runs sleepLock Prog.atomic
  rw [Prog.run_step, if_neg hlock]
  exact h

/-- An inode whose lock is taken is waited for, and one that is not in use cannot be read. -/
theorem ilock_cases {Q : Unit → State → Prop} (href : 1 ≤ (s.inode ip).ref)
    (hwait : (s.inode ip).lock ≠ none → E none)
    (htype : (s.inode ip).valid = false → (dinodeOf sb s.disk (s.inode ip).inum).type = 0 →
      E (some "ilock: no type"))
    (h : (s.inode ip).lock = none →
      ((s.inode ip).valid = false → (dinodeOf sb s.disk (s.inode ip).inum).type ≠ 0) →
      Q () (s.setInode ip ((s.inode ip).locked t (dinodeOf sb s.disk (s.inode ip).inum)))) :
    (ilock sb t ip).Runs s E Q := by
  refine .seq (inodeAt_runs ?_)
  rw [if_neg (by omega)]
  by_cases hlock : (s.inode ip).lock = none
  · have htry : s.tryLock t ip = (true, s.setInode ip { s.inode ip with lock := some t }) := by
      rw [State.tryLock, if_pos hlock]
    refine .seq (.seq (.atomic rfl ?_))
    rw [htry]
    refine .ret (iload_runs (t := t) (by simp) ?_ fun hne => ?_)
    · simpa only [setInode_self, setInode_disk] using htype
    · simp only [setInode_self, setInode_disk, setInode_setInode] at hne ⊢
      exact h hlock hne
  · refine .stop (.seq (.atomic rfl ?_))
    rw [State.tryLock, if_neg hlock]
    exact sleepLock_waits hlock (hwait hlock)

theorem ilock_runs {Q : Unit → State → Prop} (href : 1 ≤ (s.inode ip).ref)
    (hlock : (s.inode ip).lock = none)
    (htype : (s.inode ip).valid = false → (dinodeOf sb s.disk (s.inode ip).inum).type = 0 →
      E (some "ilock: no type"))
    (h : Q () (s.setInode ip
      ((s.inode ip).locked t (dinodeOf sb s.disk (s.inode ip).inum)))) :
    (ilock sb t ip).Runs s E Q :=
  ilock_cases href (fun hc => absurd hlock hc) htype fun _ _ => h

theorem iunlock_runs {Q : Unit → State → Prop} (hlock : (s.inode ip).lock = some t)
    (href : 1 ≤ (s.inode ip).ref) (h : Q () (s.setInode ip { s.inode ip with lock := none })) :
    (iunlock t ip).Runs s E Q := by
  refine Prog.Runs.atomic (if_neg ?_) h
  rw [hlock]
  rintro (hc | hc)
  · exact hc rfl
  · omega

/-- A reference that is not the last one of an inode without links is only counted. -/
theorem iput_runs {Q : Unit → State → Prop}
    (hkeep : ¬ ((s.inode ip).ref = 1 ∧ (s.inode ip).valid ∧ (s.inode ip).din.nlink = 0))
    (h : Q () (s.setInode ip { s.inode ip with ref := (s.inode ip).ref - 1 })) :
    (iput sb t ip).Runs s E Q := by
  exact .seq (.atomic (if_neg hkeep) (.ret h))

end Xv6.Fs
