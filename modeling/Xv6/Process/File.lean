import Xv6.Fs.Lookup
import Xv6.Process.Load

/-!
# The file that is executed

`exec` looks its path up and keeps the inode locked while it reads. When it has read what it needs,
or has given up, it unlocks the inode, gives the reference back and ends the transaction, so that
the file system is left as it was found.
-/

namespace Xv6.Process

open Lib Function

/-- The file system is sound, no inode is locked, and there is room in the log and in the table of
    inodes. -/
structure Ready (sb : Fs.Superblock) (s : Fs.State) (cwd c : Nat) : Prop where
  ok : sb.Ok
  consistent : Fs.Consistent sb s.disk
  table : Fs.Table sb s
  tree : Fs.Tree (Fs.files sb s.disk)
  unlocked : ∀ e, (s.inode e).lock = none
  cwd : Fs.Refs s cwd c
  used : (Fs.files sb s.disk c).type ≠ 0
  spare : ∃ e < NINODE, ∃ e' < NINODE, (s.inode e).ref = 0 ∧ (s.inode e').ref = 0 ∧ e ≠ e'
  room : s.logged.length + (s.outstanding + 1) * MAXOPBLOCKS ≤ LOGSIZE

/-- No inode has a reference or a lock that it did not have before, and no transaction is open that
    was not. -/
structure Settled (sb : Fs.Superblock) (s s' : Fs.State) : Prop where
  consistent : Fs.Consistent sb s'.disk
  table : Fs.Table sb s'
  returns : Fs.Returns s s' none
  outstanding : s'.outstanding = s.outstanding

/-- A transaction has begun. -/
def begun (s : Fs.State) : Fs.State := { s with outstanding := s.outstanding + 1 }

/-- The inode number of the file that a path names. -/
def fileAt (sb : Fs.Superblock) (s : Fs.State) (c : Nat) (path : List UInt8) : Option Nat :=
  Fs.walk (Fs.files sb s.disk) (Fs.startOf c path) (Fs.components path)

/-- The entry `ip` has one more reference than before, and is locked by `l`. -/
structure Taken (sb : Fs.Superblock) (s σ : Fs.State) (c ip j : Nat) (l : Option Nat) : Prop where
  since : Fs.Since sb (begun s) σ (Fs.files sb s.disk) (Fs.bump (fun e => (s.inode e).ref) ip)
    (update (fun _ => none) ip l)
  refs : Fs.Refs σ ip j
  used : (Fs.files sb s.disk j).type ≠ 0
  linked : (Fs.files sb s.disk j).nlink ≠ 0 ∨ j = c

section

variable {sb : Fs.Superblock} {s σ : Fs.State} {cwd c ip j t : Nat} {path : List UInt8}
  {junk : Bytes} {E : Option String → Prop}

theorem beginOp_runs (h : s.logged.length + (s.outstanding + 1) * MAXOPBLOCKS ≤ LOGSIZE) :
    Fs.beginOp.Runs s E fun _ σ => σ = begun s :=
  .atomic (if_neg (by omega)) rfl

theorem endOp_runs (h : Fs.Since sb (begun s) σ (Fs.files sb s.disk) (fun e => (s.inode e).ref)
      fun _ => none) : Fs.endOp.Runs σ E fun _ σ' => Settled sb s σ' := by
  have hreturns : Fs.Returns s σ none :=
    ⟨fun e => h.ref e, h.lock, fun e he => (h.stays e he).1⟩
  have hout : σ.outstanding = s.outstanding + 1 := h.rest.1
  refine .modify ?_
  split
  · exact ⟨h.consistent, h.table.congr rfl rfl, ⟨hreturns.ref, hreturns.lock, hreturns.inum⟩,
      show 0 = s.outstanding by omega⟩
  · exact ⟨h.consistent, h.table.congr rfl rfl, ⟨hreturns.ref, hreturns.lock, hreturns.inum⟩,
      show σ.outstanding - 1 = s.outstanding by omega⟩

theorem Ready.begun (h : Ready sb s cwd c) : Fs.Table sb (begun s) ∧ Fs.Refs (begun s) cwd c :=
  ⟨h.table.congr rfl rfl, h.cwd.lt, h.cwd.ref, h.cwd.inum⟩

theorem namei_runs (h : Ready sb s cwd c) (h0 : 0 ∉ path) :
    (Fs.namei sb t cwd path junk).Runs (begun s) E fun r σ =>
      (r = none ∧ fileAt sb s c path = none ∧ Fs.Since sb (begun s) σ (Fs.files sb s.disk)
        (fun e => (s.inode e).ref) fun _ => none) ∨
      ∃ ip j, r = some ip ∧ fileAt sb s c path = some j ∧ Taken sb s σ c ip j none := by
  obtain ⟨ht, hcwd⟩ := h.begun
  have hlocks : (fun e => ((Process.begun s).inode e).lock) = fun _ => none := funext h.unlocked
  have hw := h.tree.walkable (s := Process.begun s) (E := E) h.unlocked hcwd (fun hall => ?_)
    (Nat.le_add_left 1 _)
  swap
  · obtain ⟨e, he, e', he', hz, hz', hne⟩ := h.spare
    exact absurd (hall e he e' he' hz hz') hne
  refine .seq (Fs.namex_since h.ok hw h.consistent ht hcwd ⟨h.used, .inr rfl⟩
    (Fs.files_type.mp h.tree.root.1).1 ⟨h.tree.root.1, .inl h.tree.root.2⟩ h0
    (fun hn name σ hσ => .ret (.inl ⟨rfl, ?_, ?_⟩))
    fun j n hn ip name σ hσ hr hP _ => .ret (.inr ⟨ip, j, rfl, ?_, ?_⟩))
  · rw [fileAt, ← Fs.resolve_walk]
    exact congrArg _ hn
  · rwa [hlocks] at hσ
  · rw [fileAt, ← Fs.resolve_walk]
    exact congrArg _ hn
  · refine ⟨?_, hr, hP.1, hP.2⟩
    rw [hlocks] at hσ
    rwa [update_eq_self_iff.mpr rfl]

/-- The inode is not one that is freed with its last reference. -/
theorem Ready.not_reaped (hr : Ready sb s cwd c) {l : Option Nat} (h : Taken sb s σ c ip j l)
    (hidle : Fs.Idle (Process.begun s) j) : (Fs.files sb s.disk j).nlink ≠ 0 := by
  rcases h.linked with hl | rfl
  · exact hl
  · exact absurd hr.cwd.inum (hidle cwd hr.cwd.lt hr.cwd.ref)

theorem ilock_runs (hr : Ready sb s cwd c) (h : Taken sb s σ c ip j none) :
    (Fs.ilock sb t ip).Runs σ E fun _ σ' => Taken sb s σ' c ip j (some t) ∧
      Opened sb σ' ip (Fs.files sb s.disk j).data := by
  have hfree : update (fun _ => none) ip none ip = (none : Option Nat) :=
    update_self ..
  have hnode : Fs.files sb σ.disk j = Fs.files sb s.disk j :=
    (h.since.nodes j).resolve_right fun hc => hr.not_reaped h hc.1 hc.2.1
  refine Fs.ilock_since h.since h.refs (fun hc => absurd hfree hc) (fun hz => ?_)
    fun σ' _ hσ' hr' hd hv _ => ⟨⟨?_, hr', h.used, h.linked⟩, hσ'.consistent, j, ?_, ?_⟩
  · rw [hnode] at hz
    exact absurd hz h.used
  · rwa [update_idem] at hσ'
  · exact hσ'.table.holds hr' hv
  · rw [hσ'.node hr' hv]

/-- The inode is unlocked, the reference is given back, and the transaction ends. -/
theorem putInode_runs (h : Ready sb s cwd c) (hk : Taken sb s σ c ip j (some t)) :
    (do Fs.iunlockput sb t ip; Fs.endOp : Prog Fs.State Unit).Runs σ E fun _ σ' =>
      Settled sb s σ' := by
  refine .seq (Fs.iunlockput_since h.ok hk.since hk.refs (update_self ..) (Nat.le_add_left 1 _) ?_
    (fun hidle hnl => absurd hnl (h.not_reaped hk hidle)) fun σ' hσ' _ => endOp_runs ?_)
  · show (s.inode ip).ref < Fs.bump _ ip ip
    rw [Fs.bump, update_self]
    exact Nat.lt_succ_self _
  · rw [Fs.bump_put, update_idem] at hσ'
    rwa [update_eq_self_iff.mpr rfl] at hσ'

end

end Xv6.Process
