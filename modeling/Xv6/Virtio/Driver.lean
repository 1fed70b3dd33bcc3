import Xv6.Lib.Ring
import Xv6.Param

/-!
# The disk driver and the disk

`virtio_disk_rw` and `virtio_disk_intr` of `kernel/virtio_disk.c`, called by any number of threads,
and the device they talk to through the descriptors and the two rings.

The driver's steps are the stretches of code between operations on `vdisk_lock` and accesses to
what the device also sees: the available ring, its index, and the used ring. A thread that sleeps
may wake up at any time. The device takes a published chain off the available ring, serves it and
reports it on the used ring; it works on any number of chains at once and reports them in any order.

The state also has some history that no step reads: a number for each request, which request last
had a descriptor as its head or a buffer as its data, the requests published, reported, cleared and
returned so far, and how many published chains the device has taken.
-/

namespace Xv6.Virtio

open Function

/-- this many virtio descriptors. -/
abbrev NUM : Nat := 8

abbrev VRING_DESC_F_NEXT : Nat := 1
abbrev VRING_DESC_F_WRITE : Nat := 2
abbrev VIRTIO_BLK_T_IN : Nat := 0
abbrev VIRTIO_BLK_T_OUT : Nat := 1

/-- What an address in a descriptor can name. -/
inductive Addr where
  | null
  /-- `&disk.ops[i]` -/
  | op (i : Nat)
  /-- `b->data` -/
  | data (b : Nat)
  /-- `&disk.info[i].status` -/
  | status (i : Nat)
  deriving DecidableEq

/-- a single descriptor, from the spec. -/
structure Desc where
  addr : Addr
  len : Nat
  flags : Nat
  next : Nat
  deriving DecidableEq

/-- The available ring, or the used ring without its lengths. The index is a 16-bit integer. -/
structure Queue where
  idx : Nat
  ring : Nat → Nat

structure BlkReq where
  type : Nat
  reserved : Nat
  sector : Nat

/-- What is tracked for an operation in flight, indexed by the first descriptor of its chain. -/
structure Info where
  b : Option Nat
  status : Nat

/-- `struct disk` -/
structure Disk where
  desc : Nat → Desc
  avail : Queue
  used : Queue
  free : Nat → Bool
  used_idx : Nat
  info : Nat → Info
  ops : Nat → BlkReq

/-! ## Descriptors -/

/-- `disk.free[i] = 0` -/
def Disk.claim (d : Disk) (i : Nat) : Disk := { d with free := update d.free i false }

/-- The assignments of `free_desc`. -/
def Disk.clear (d : Disk) (i : Nat) : Disk :=
  { d with
    desc := update d.desc i ⟨.null, 0, 0, 0⟩
    free := update d.free i true }

def allocDescFrom (d : Disk) : (i m : Nat) → Disk × Option Nat
  | _, 0 => (d, none)
  | i, m + 1 =>
    if d.free i then (d.claim i, some i)
    else allocDescFrom d (i + 1) m

/-- find a free descriptor, mark it non-free, return its index. -/
def allocDesc (d : Disk) : Disk × Option Nat := allocDescFrom d 0 NUM

/-- mark a descriptor as free. -/
def freeDesc (i : Nat) (d : Disk) : Except String Disk :=
  if NUM ≤ i then .error "free_desc 1"
  else if d.free i then .error "free_desc 2"
  else .ok (d.clear i)

/-- free a chain of descriptors, of at most `m`. -/
def freeChainFrom : (m i : Nat) → Disk → Except String Disk
  | 0, _, _ => .error "free_chain"
  | m + 1, i, d => do
    let flag := (d.desc i).flags
    let nxt := (d.desc i).next
    let d ← freeDesc i d
    if flag &&& VRING_DESC_F_NEXT ≠ 0 then freeChainFrom m nxt d else .ok d

/-- free a chain of descriptors. No more than `NUM` can be freed before `free_desc` panics. -/
def freeChain (i : Nat) (d : Disk) : Except String Disk := freeChainFrom (NUM + 1) i d

/-- allocate three descriptors (they need not be contiguous). -/
def alloc3Desc (d : Disk) : Except String (Disk × Option (Nat × Nat × Nat)) :=
  match allocDesc d with
  | (d, none) => .ok (d, none)
  | (d, some i) =>
    match allocDesc d with
    | (d, none) => do
      let d ← freeDesc i d
      .ok (d, none)
    | (d, some j) =>
      match allocDesc d with
      | (d, none) => do
        let d ← freeDesc i d
        let d ← freeDesc j d
        .ok (d, none)
      | (d, some k) => .ok (d, some (i, j, k))

/-! ## Requests -/

/-- A request in flight: its buffer, the block it is about, its descriptors, and its number. -/
structure Req where
  b : Nat
  blockno : Nat
  write : Bool
  i : Nat
  j : Nat
  k : Nat
  id : Nat
  deriving DecidableEq

/-- The descriptors of a request. -/
def Req.idx (r : Req) : List Nat := [r.i, r.j, r.k]

/-- format the three descriptors, and record struct buf for `virtio_disk_intr`. -/
def Disk.format (d : Disk) (r : Req) : Disk :=
  { d with
    ops := update d.ops r.i
      ⟨if r.write then VIRTIO_BLK_T_OUT else VIRTIO_BLK_T_IN, 0,
        r.blockno * (BSIZE / 512) % 2 ^ 32⟩
    desc := update (update (update d.desc
      r.i ⟨.op r.i, 16, VRING_DESC_F_NEXT, r.j⟩)
      r.j ⟨.data r.b, BSIZE,
        (if r.write then 0 else VRING_DESC_F_WRITE) ||| VRING_DESC_F_NEXT, r.k⟩)
      r.k ⟨.status r.i, 1, VRING_DESC_F_WRITE, 0⟩
    info := update d.info r.i ⟨some r.b, 0xff⟩ }

/-- `disk.avail->ring[disk.avail->idx % NUM] = idx[0]` -/
def Disk.offer (d : Disk) (i : Nat) : Disk :=
  { d with avail :=
    { d.avail with ring := update d.avail.ring (d.avail.idx % NUM) i } }

/-- `disk.avail->idx += 1` -/
def Disk.publish (d : Disk) : Disk :=
  { d with avail := { d.avail with idx := (d.avail.idx + 1) % 2 ^ 16 } }

/-- `disk.info[idx[0]].b = 0` -/
def Disk.forget (d : Disk) (i : Nat) : Disk :=
  { d with info := update d.info i { d.info i with b := none } }

/-- The device writes a zero to where the third descriptor of a chain points. -/
def Disk.done (d : Disk) (i : Nat) : Disk :=
  match (d.desc (d.desc (d.desc i).next).next).addr with
  | .status h => { d with info := update d.info h { d.info h with status := 0 } }
  | _ => d

/-! ## Threads and the device -/

/-- Where a thread is. -/
inductive Call where
  | idle
  /-- in `virtio_disk_rw`, before `acquire` or in the first `sleep` -/
  | enter (b blockno : Nat) (write : Bool)
  /-- has the lock and will look for descriptors -/
  | alloc (b blockno : Nat) (write : Bool)
  /-- has formatted its descriptors -/
  | formatted (r : Req)
  /-- has put the first of them on the available ring -/
  | offered (r : Req)
  /-- has published them and will look at `b->disk` -/
  | check (r : Req)
  /-- in the second `sleep` -/
  | asleep (r : Req)
  /-- in `virtio_disk_intr`, before `acquire` -/
  | interrupted
  /-- in the loop of `virtio_disk_intr` -/
  | intr

/-- The device: how far it is in the available ring (a 16-bit integer), the chains it has taken, and
    those it has served but not yet reported. -/
structure Device where
  seen : Nat
  active : List Nat
  served : List Nat

structure Sys where
  disk : Disk
  /-- `b->disk` -/
  owned : Nat → Bool
  /-- who has the sleep-lock of a buffer -/
  holder : Nat → Option Nat
  vdisk_lock : Option Nat
  call : Nat → Call
  device : Device
  requests : Nat
  head : Nat → Nat
  data : Nat → Nat
  published : List (Nat × Nat)
  taken : Nat
  reported : List (Nat × Nat)
  cleared : List Nat
  returned : List Nat

inductive Action where
  /-- a thread takes the sleep-lock of a buffer -/
  | acquiresleep (t b : Nat)
  | releasesleep (t b : Nat)
  /-- a thread calls `virtio_disk_rw` with a buffer whose sleep-lock it holds -/
  | rw (t b blockno : Nat) (write : Bool)
  /-- an interrupt -/
  | interrupt (t : Nat)
  /-- the next step of a thread -/
  | run (t : Nat)
  | fetch
  | serve (i : Nat)
  | report (i : Nat)

namespace Sys

def setCall (s : Sys) (t : Nat) (c : Call) : Sys := { s with call := update s.call t c }

/-- `acquire(&disk.vdisk_lock)` -/
def acquire (s : Sys) (t : Nat) (c : Call) : Option (Except String Sys) :=
  if s.vdisk_lock = none then some (.ok ({ s with vdisk_lock := some t }.setCall t c)) else none

/-- `alloc3_desc` and, if there are three descriptors, what follows up to the available ring;
    otherwise `sleep(&disk.free[0], &disk.vdisk_lock)` -/
def alloc (s : Sys) (t b blockno : Nat) (write : Bool) : Except String Sys := do
  let (d, idx) ← alloc3Desc s.disk
  match idx with
  | none => .ok ({ s with disk := d, vdisk_lock := none }.setCall t (.enter b blockno write))
  | some (i, j, k) =>
    let r : Req := ⟨b, blockno, write, i, j, k, s.requests⟩
    .ok ({ s with
      disk := d.format r
      owned := update s.owned b true
      requests := s.requests + 1
      head := update s.head i s.requests
      data := update s.data b s.requests }.setCall t (.formatted r))

/-- `b->disk` is 0: free the descriptors, release the lock and return. -/
def finish (s : Sys) (t : Nat) (r : Req) : Except String Sys := do
  let d ← freeChain r.i (s.disk.forget r.i)
  .ok ({ s with
    disk := d, vdisk_lock := none, returned := s.returned ++ [r.id] }.setCall t .idle)

/-- One round of the loop of `virtio_disk_intr`. -/
def intr (s : Sys) (t : Nat) : Except String Sys :=
  let d := s.disk
  if d.used_idx = d.used.idx then .ok ({ s with vdisk_lock := none }.setCall t .idle)
  else
    let id := d.used.ring (d.used_idx % NUM)
    if (d.info id).status ≠ 0 then .error "virtio_disk_intr status"
    else
      match (d.info id).b with
      | none => .error "kerneltrap"
      | some b => .ok { s with
          disk := { d with used_idx := (d.used_idx + 1) % 2 ^ 16 }
          owned := update s.owned b false
          cleared := s.cleared ++ [s.data b] }

/-- The next step of a thread. -/
def run (s : Sys) (t : Nat) : Option (Except String Sys) :=
  match s.call t with
  | .idle => none
  | .enter b blockno write => s.acquire t (.alloc b blockno write)
  | .alloc b blockno write => some (s.alloc t b blockno write)
  | .formatted r => some (.ok ({ s with disk := s.disk.offer r.i }.setCall t (.offered r)))
  | .offered r => some (.ok ({ s with
      disk := s.disk.publish
      published := s.published ++ [(r.i, r.id)] }.setCall t (.check r)))
  | .check r => some (
      if s.owned r.b then .ok ({ s with vdisk_lock := none }.setCall t (.asleep r))
      else s.finish t r)
  | .asleep r => s.acquire t (.check r)
  | .interrupted => s.acquire t .intr
  | .intr => some (s.intr t)

/-- The device takes a chain off the available ring. -/
def fetch (s : Sys) : Option (Except String Sys) :=
  if s.device.seen = s.disk.avail.idx then none
  else some (.ok { s with
    device := { s.device with
      seen := (s.device.seen + 1) % 2 ^ 16
      active := s.device.active ++ [s.disk.avail.ring (s.device.seen % NUM)] }
    taken := s.taken + 1 })

/-- The device serves a chain it has taken. -/
def serve (s : Sys) (i : Nat) : Option (Except String Sys) :=
  if i ∈ s.device.active then some (.ok { s with
    disk := s.disk.done i
    device := { s.device with
      active := s.device.active.erase i
      served := s.device.served ++ [i] } })
  else none

/-- The device reports a chain it has served. -/
def report (s : Sys) (i : Nat) : Option (Except String Sys) :=
  if i ∈ s.device.served then some (.ok { s with
    disk := { s.disk with used := {
      idx := (s.disk.used.idx + 1) % 2 ^ 16
      ring := update s.disk.used.ring (s.disk.used.idx % NUM) i } }
    device := { s.device with served := s.device.served.erase i }
    reported := s.reported ++ [(i, s.head i)] })
  else none

/-- What an action leads to: nothing if it is not possible, an error if the kernel panics. -/
def step (s : Sys) : Action → Option (Except String Sys)
  | .acquiresleep t b =>
    if s.holder b = none then some (.ok { s with holder := update s.holder b (some t) })
    else none
  | .releasesleep t b =>
    match s.call t with
    | .idle =>
      if s.holder b = some t then some (.ok { s with holder := update s.holder b none })
      else none
    | _ => none
  | .rw t b blockno write =>
    match s.call t with
    | .idle =>
      if s.holder b = some t then some (.ok (s.setCall t (.enter b blockno write))) else none
    | _ => none
  | .interrupt t =>
    match s.call t with
    | .idle => some (.ok (s.setCall t .interrupted))
    | _ => none
  | .run t => s.run t
  | .fetch => s.fetch
  | .serve i => s.serve i
  | .report i => s.report i

/-- The states of a run. -/
inductive Reach (s₀ : Sys) : Sys → Prop where
  | refl : Reach s₀ s₀
  | step {s s' : Sys} (a : Action) : Reach s₀ s → s.step a = some (.ok s') → Reach s₀ s'

/-- The state that a list of actions leads to. -/
def runs (s : Sys) : List Action → Option Sys
  | [] => some s
  | a :: l =>
    match s.step a with
    | some (.ok p) => p.runs l
    | _ => none

theorem Reach.of_runs_from {s₀ p : Sys} {l : List Action} :
    ∀ {s : Sys}, Reach s₀ s → s.runs l = some p → Reach s₀ p := by
  induction l with
  | nil =>
    intro s hs h
    cases h
    exact hs
  | cons a l ih =>
    intro s hs h
    rw [runs] at h
    split at h
    · next hstep => exact ih (hs.step a hstep) h
    · cases h

theorem Reach.of_runs {s p : Sys} {l : List Action} (h : s.runs l = some p) : Reach s p :=
  Reach.refl.of_runs_from h

end Sys

/-- After `virtio_disk_init`. -/
def init : Sys where
  disk :=
    { desc := fun _ => ⟨.null, 0, 0, 0⟩
      avail := ⟨0, fun _ => 0⟩
      used := ⟨0, fun _ => 0⟩
      free := fun i => i < NUM
      used_idx := 0
      info := fun _ => ⟨none, 0⟩
      ops := fun _ => ⟨0, 0, 0⟩ }
  owned := fun _ => false
  holder := fun _ => none
  vdisk_lock := none
  call := fun _ => .idle
  device := ⟨0, [], []⟩
  requests := 0
  head := fun _ => 0
  data := fun _ => 0
  published := []
  taken := 0
  reported := []
  cleared := []
  returned := []

end Xv6.Virtio
