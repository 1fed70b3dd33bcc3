import Xv6.Mem.Kalloc

/-!
# `kernel/vm.c`

Page tables are built, changed and freed by programs on physical memory. A null pointer is `none`;
the functions that return 0 or -1 return `true` or `false`.

A loop over addresses advances by `PGSIZE` only after `walk` has accepted the address, which is
then below `MAXVA`, so that none of these additions wraps around.
-/

namespace Xv6.Mem

open Lib

/-- The rest of `walk` from a page table of a level on. -/
def walkFrom (va : Nat) (alloc : Bool) : (level pagetable : Nat) → Prog Phys (Option Nat)
  | 0, pagetable => return some (pagetable + 8 * px 0 va)
  | level + 1, pagetable => do
    let pte := pagetable + 8 * px (level + 1) va
    let e ← load pte
    if Valid e then walkFrom va alloc level (pte2pa e)
    else if alloc = false then return none
    else
      match ← kalloc with
      | none => return none
      | some p => do
        memset p 0 PGSIZE
        store pte (pa2pte p ||| PTE_V)
        walkFrom va alloc level p

/-- Return the address of the PTE in page table `pagetable` that corresponds to virtual address
    `va`. If `alloc`, create any required page-table pages. -/
def walk (pagetable va : Nat) (alloc : Bool) : Prog Phys (Option Nat) :=
  if MAXVA ≤ va then Prog.panic "walk" else walkFrom va alloc 2 pagetable

/-- Look up a virtual address, return the physical address, or 0 if not mapped. Can only be used
    to look up user pages. -/
def walkaddr (pagetable va : Nat) : Prog Phys Nat :=
  if MAXVA ≤ va then return 0
  else do
    match ← walk pagetable va false with
    | none => return 0
    | some pte => do
      let e ← load pte
      if ¬ Valid e then return 0
      else if e &&& PTE_U = 0 then return 0
      else return pte2pa e

/-- The loop of `mappages`, from virtual address `a` and physical address `pa` on. -/
def mappagesFrom (pagetable last perm : Nat) (a pa : Nat) : Prog Phys Bool :=
  if a < MAXVA then do
    match ← walk pagetable a true with
    | none => return false
    | some pte => do
      if Valid (← load pte) then Prog.panic "mappages: remap"
      else
        store pte (pa2pte pa ||| (perm ||| PTE_V))
        if a = last then return true
        else mappagesFrom pagetable last perm (a + PGSIZE) ((pa + PGSIZE) % 2 ^ 64)
  else Prog.panic "walk"
termination_by MAXVA - a
decreasing_by simp only [PGSIZE] at *; omega

/-- Create PTEs for virtual addresses starting at `va` that refer to physical addresses starting
    at `pa`. Fails if `walk` could not allocate a needed page-table page. -/
def mappages (pagetable va size pa perm : Nat) : Prog Phys Bool :=
  if size = 0 then Prog.panic "mappages: size"
  else mappagesFrom pagetable (pgrounddown ((va + size - 1) % 2 ^ 64)) perm (pgrounddown va) pa

section

variable (img : Image)

/-- The loop of `uvmunmap`, from virtual address `a` on. -/
def uvmunmapFrom (pagetable : Nat) (doFree : Bool) (stop a : Nat) : Prog Phys Unit :=
  if a < stop then do
    match ← walk pagetable a false with
    | none => Prog.panic "uvmunmap: walk"
    | some pte => do
      let e ← load pte
      if ¬ Valid e then Prog.panic "uvmunmap: not mapped"
      else if pteFlags e = PTE_V then Prog.panic "uvmunmap: not a leaf"
      else
        Prog.when doFree (kfree img (pte2pa e))
        store pte 0
        uvmunmapFrom pagetable doFree stop (a + PGSIZE)
  else return ()
termination_by stop - a
decreasing_by simp only [PGSIZE] at *; omega

/-- Remove `npages` of mappings starting from `va`, and optionally free the physical memory. -/
def uvmunmap (pagetable va npages : Nat) (doFree : Bool) : Prog Phys Unit :=
  if va % PGSIZE ≠ 0 then Prog.panic "uvmunmap: not aligned"
  else uvmunmapFrom img pagetable doFree ((va + npages * PGSIZE) % 2 ^ 64) va

/-- create an empty user page table -/
def uvmcreate : Prog Phys (Option Nat) := do
  match ← kalloc with
  | none => return none
  | some pagetable => do
    memset pagetable 0 PGSIZE
    return some pagetable

/-- Deallocate user pages to bring the process size from `oldsz` to `newsz`. Returns the new
    process size. -/
def uvmdealloc (pagetable oldsz newsz : Nat) : Prog Phys Nat := do
  if oldsz ≤ newsz then return oldsz
  else
    Prog.when (pgroundup newsz < pgroundup oldsz) (
      let npages := asInt ((pgroundup oldsz - pgroundup newsz) / PGSIZE)
      uvmunmap img pagetable (pgroundup newsz) npages true)
    return newsz

/-- The loop of `uvmalloc`, from address `a` on. -/
def uvmallocFrom (pagetable oldsz newsz xperm : Nat) (a : Nat) : Prog Phys Nat :=
  if a < newsz then do
    match ← kalloc with
    | none => do
      let _ ← uvmdealloc img pagetable a oldsz
      return 0
    | some mem => do
      memset mem 0 PGSIZE
      if ← mappages pagetable a PGSIZE mem (PTE_R ||| PTE_U ||| xperm) then
        uvmallocFrom pagetable oldsz newsz xperm (a + PGSIZE)
      else do
        kfree img mem
        let _ ← uvmdealloc img pagetable a oldsz
        return 0
  else return newsz
termination_by newsz - a
decreasing_by simp only [PGSIZE] at *; omega

/-- Allocate PTEs and physical memory to grow process from `oldsz` to `newsz`, which need not be
    page aligned. Returns new size or 0 on error. -/
def uvmalloc (pagetable oldsz newsz xperm : Nat) : Prog Phys Nat :=
  if newsz < oldsz then return oldsz
  else uvmallocFrom img pagetable (pgroundup oldsz) newsz xperm (pgroundup oldsz)

/-- Recursively free page-table pages. The C function recurses as deep as the tree goes; here it
    gives up below `depth` levels, which no tree that `walk` has built gets to. -/
def freewalk : (depth pagetable : Nat) → Prog Phys Unit
  | 0, _ => Prog.panic "freewalk: too deep"
  | depth + 1, pagetable => do
    Prog.loop (fun i => do
      let e ← load (pagetable + 8 * i)
      if Valid e ∧ e &&& (PTE_R ||| PTE_W ||| PTE_X) = 0 then
        -- this PTE points to a lower-level page table
        freewalk depth (pte2pa e)
        store (pagetable + 8 * i) 0
      else if Valid e then Prog.panic "freewalk: leaf"
      else return ()) 0 512
    kfree img pagetable

/-- Free user memory pages, then free page-table pages. -/
def uvmfree (pagetable sz : Nat) : Prog Phys Unit := do
  Prog.when (sz > 0) (uvmunmap img pagetable 0 (pgroundup sz / PGSIZE) true)
  freewalk img 3 pagetable

/-- The loop of `uvmcopy`, from address `i` on. -/
def uvmcopyFrom (old new sz : Nat) (i : Nat) : Prog Phys Bool :=
  if i < sz then do
    match ← walk old i false with
    | none => Prog.panic "uvmcopy: pte should exist"
    | some pte => do
      let e ← load pte
      if ¬ Valid e then Prog.panic "uvmcopy: page not present"
      else
        match ← kalloc with
        | none => do
          uvmunmap img new 0 (i / PGSIZE) true
          return false
        | some mem => do
          memmove mem (pte2pa e) PGSIZE
          if ← mappages new i PGSIZE mem (pteFlags e) then
            uvmcopyFrom old new sz (i + PGSIZE)
          else do
            kfree img mem
            uvmunmap img new 0 (i / PGSIZE) true
            return false
  else return true
termination_by sz - i
decreasing_by simp only [PGSIZE] at *; omega

/-- Given a parent process's page table, copy its memory into a child's page table. Frees any
    allocated pages on failure. -/
def uvmcopy (old new sz : Nat) : Prog Phys Bool := uvmcopyFrom img old new sz 0

end

/-- mark a PTE invalid for user access -/
def uvmclear (pagetable va : Nat) : Prog Phys Unit := do
  match ← walk pagetable va false with
  | none => Prog.panic "uvmclear"
  | some pte => do store pte (clearU (← load pte))

/-! ## Page tables of processes (`kernel/proc.c`) -/

/-- Create a user page table for a given process, with no user memory, but with trampoline and
    trapframe pages. -/
def procPagetable (img : Image) (trapframe : Nat) : Prog Phys (Option Nat) := do
  match ← uvmcreate with
  | none => return none
  | some pagetable => do
    if ← mappages pagetable TRAMPOLINE PGSIZE img.trampoline (PTE_R ||| PTE_X) then
      if ← mappages pagetable TRAPFRAME PGSIZE trapframe (PTE_R ||| PTE_W) then
        return some pagetable
      else do
        uvmunmap img pagetable TRAMPOLINE 1 false
        uvmfree img pagetable 0
        return none
    else do
      uvmfree img pagetable 0
      return none

/-- Free a process's page table, and free the physical memory it refers to. -/
def procFreepagetable (img : Image) (pagetable sz : Nat) : Prog Phys Unit := do
  uvmunmap img pagetable TRAMPOLINE 1 false
  uvmunmap img pagetable TRAPFRAME 1 false
  uvmfree img pagetable sz

end Xv6.Mem
