import Xv6Lab.Lib.Count

/-!
The driver of the virtio disk (virtio_disk.c), its callers and its device. A step of
a caller or of a handler is one piece of driver code between two accesses the device
could tell apart; the device moves between any two of them.
-/

namespace Xv6Lab.Virtio
open Function (update)

def NUM : Nat := 8
def BSIZE : Nat := 1024
def VRING_DESC_F_NEXT : Nat := 1
def VRING_DESC_F_WRITE : Nat := 2
def VIRTIO_BLK_T_IN : Nat := 0
def VIRTIO_BLK_T_OUT : Nat := 1

inductive Addr
  | null
  | op (i : Nat)  -- &disk.ops[i]
  | data (b : Nat)  -- b->data
  | status (i : Nat)  -- &disk.info[i].status
deriving DecidableEq, Repr

structure Desc where
  addr : Addr
  len : Nat
  flags : Nat
  next : Nat
deriving DecidableEq, Repr

structure BlkReq where
  type : Nat
  reserved : Nat
  sector : Nat
deriving DecidableEq, Repr

structure Info where
  b : Option Nat
  status : Nat
deriving DecidableEq, Repr

/-- One of the two rings shared with the device; idx is a uint16. -/
structure Ring where
  ring : Nat → Nat
  idx : Nat

def Ring.push (r : Ring) (id : Nat) : Ring :=
  { r with ring := update r.ring (r.idx % NUM) id }

def Ring.bump (r : Ring) : Ring := { r with idx := (r.idx + 1) % 2 ^ 16 }

structure Disk where
  desc : Nat → Desc
  avail : Ring
  used : Ring
  free : Nat → Bool
  usedIdx : Nat
  info : Nat → Info
  ops : Nat → BlkReq

structure Buf where
  blockno : Nat
  disk : Nat
deriving DecidableEq, Repr

/-- The array idx of virtio_disk_rw once alloc3_desc has filled it. -/
structure Chain where
  head : Nat
  data : Nat
  status : Nat
deriving DecidableEq, Repr

def Chain.toList (idx : Chain) : List Nat := [idx.head, idx.data, idx.status]

/-- Where a caller is in virtio_disk_rw. A ticket is the number of requests
submitted before this one. -/
inductive Phase
  | alloc
  | format (idx : Chain)
  | post (idx : Chain)
  | bump (idx : Chain)
  | poll (idx : Chain) (ticket : Nat)
  | finish (idx : Chain) (ticket : Nat)
deriving DecidableEq, Repr

inductive Chan
  | free  -- &disk.free[0]
  | buf (b : Nat)
deriving DecidableEq, Repr

inductive Mode
  | wants  -- spinning in acquire(&disk.vdisk_lock), on entry or at the end of sleep
  | holds
  | asleep (chan : Chan)
deriving DecidableEq, Repr

structure Request where
  b : Nat
  write : Bool
  phase : Phase
deriving DecidableEq, Repr

structure Call extends Request where
  mode : Mode
deriving DecidableEq, Repr

inductive Handler
  | idle
  | wants
  | loops
deriving DecidableEq, Repr

inductive Holder
  | caller (c : Nat)
  | handler (i : Nat)
deriving DecidableEq, Repr

/-- What the device did for one request, as it read it from the chain. -/
structure Transfer where
  ticket : Nat
  head : Nat
  type : Nat
  sector : Nat
  buf : Nat
deriving DecidableEq, Repr

/-- taken counts the avail-ring entries the device has taken; outstanding has their number and
head, served the requests carried out, completed those put in the used ring. -/
structure Device where
  taken : Nat
  outstanding : List (Nat × Nat)
  served : List Transfer
  completed : List Transfer

inductive Panic
  | freeDesc1
  | freeDesc2
  | intrStatus
  | nullBuf
deriving DecidableEq, Repr

/-- sleeplock is the process holding b->lock, as bread and bwrite do around virtio_disk_rw.
submitted and consumed are history. -/
structure World where
  disk : Disk
  bufs : Nat → Buf
  lock : Option Holder
  sleeplock : Nat → Option Nat
  callers : Nat → Option Call
  handlers : Nat → Handler
  device : Device
  submitted : List Nat
  consumed : Nat
  panicked : Option Panic

def World.setCall (w : World) (c : Nat) (call : Call) : World :=
  { w with callers := update w.callers c (some call) }

def Call.wake (chan : Chan) (call : Call) : Call :=
  if call.mode = .asleep chan then { call with mode := .wants } else call

def wakeup (chan : Chan) (w : World) : World :=
  { w with callers := fun c => (w.callers c).map (Call.wake chan) }

/-- sleep releases vdisk_lock and blocks in one step: wakeup needs p->lock, which is held
meanwhile. -/
def sleep (c : Nat) (call : Call) (chan : Chan) (w : World) : World :=
  { w.setCall c { call with mode := .asleep chan } with lock := none }

def allocDesc (w : World) : Option (Nat × World) :=
  match (List.range NUM).find? w.disk.free with
  | some i => some (i, { w with disk := { w.disk with free := update w.disk.free i false } })
  | none => none

def freeDesc (i : Nat) (w : World) : Except Panic World :=
  if NUM ≤ i then .error .freeDesc1
  else if w.disk.free i then .error .freeDesc2
  else .ok (wakeup .free { w with disk := { w.disk with
    desc := update w.disk.desc i ⟨.null, 0, 0, 0⟩
    free := update w.disk.free i true } })

def busyCount (free : Nat → Bool) : Nat := count NUM (fun i => !free i)

theorem busyCount_update {free : Nat → Bool} {i : Nat} (inside : i < NUM) (busy : free i = false) :
    busyCount (update free i true) < busyCount free := by
  have negated : (fun j => !update free i true j) =
      update (fun j => !free j) i false := by
    funext j
    by_cases same : j = i
    · subst same
      simp
    · simp [same]
  have one := Count.set_false (P := fun j => !free j) inside (by simp [busy])
  rw [busyCount, negated, busyCount]
  omega

/-- Freeing uses up one busy descriptor, so that free_chain ends on any links. -/
theorem busyCount_freeDesc {i : Nat} {w w' : World} (freed : freeDesc i w = .ok w') :
    busyCount w'.disk.free < busyCount w.disk.free := by
  unfold freeDesc at freed
  split_ifs at freed with outside free
  rw [← Except.ok.inj freed]
  exact busyCount_update (by omega) (by simpa using free)

def freeChain (i : Nat) (w : World) : Except Panic World :=
  let flag := (w.disk.desc i).flags
  let nxt := (w.disk.desc i).next
  match _freed : freeDesc i w with
  | .error p => .error p
  | .ok w' => if flag &&& VRING_DESC_F_NEXT ≠ 0 then freeChain nxt w' else .ok w'
termination_by busyCount w.disk.free
decreasing_by exact busyCount_freeDesc _freed

/-- The loop over idx[0..2], with the undo of what was allocated before a
failure. -/
def alloc3Desc (w : World) : Except Panic (Option Chain × World) :=
  match allocDesc w with
  | none => .ok (none, w)
  | some (i, w1) =>
    match allocDesc w1 with
    | none => do
        let w ← freeDesc i w1
        pure (none, w)
    | some (j, w2) =>
      match allocDesc w2 with
      | none => do
          let w ← freeDesc i w2
          let w ← freeDesc j w
          pure (none, w)
      | some (k, w3) => .ok (some ⟨i, j, k⟩, w3)

/-- The product with BSIZE / 512 is taken in a uint. -/
def sectorOf (blockno : Nat) : Nat := blockno * (BSIZE / 512) % 2 ^ 32

def requestType (write : Bool) : Nat := if write then VIRTIO_BLK_T_OUT else VIRTIO_BLK_T_IN

def opDesc (idx : Chain) : Desc := ⟨.op idx.head, 16, VRING_DESC_F_NEXT, idx.data⟩

def dataDesc (idx : Chain) (b : Nat) (write : Bool) : Desc :=
  ⟨.data b, BSIZE, (if write then 0 else VRING_DESC_F_WRITE) ||| VRING_DESC_F_NEXT, idx.status⟩

def statusDesc (idx : Chain) : Desc := ⟨.status idx.head, 1, VRING_DESC_F_WRITE, 0⟩

/-- From "format the three descriptors" to the two bookkeeping writes before
the avail ring. -/
def formatDesc (r : Request) (idx : Chain) (w : World) : World :=
  { w with
    disk := { w.disk with
      ops := update w.disk.ops idx.head
        ⟨requestType r.write, 0, sectorOf (w.bufs r.b).blockno⟩
      desc := update (update (update w.disk.desc
        idx.head (opDesc idx)) idx.data (dataDesc idx r.b r.write)) idx.status (statusDesc idx)
      info := update w.disk.info idx.head ⟨some r.b, 0xff⟩ }
    bufs := update w.bufs r.b { w.bufs r.b with disk := 1 } }

/-- disk.avail->ring[disk.avail->idx % NUM] = idx[0]. -/
def postHead (idx : Chain) (w : World) : World :=
  { w with disk := { w.disk with avail := w.disk.avail.push idx.head } }

/-- disk.avail->idx += 1. -/
def submit (idx : Chain) (w : World) : World :=
  { w with
    disk := { w.disk with avail := w.disk.avail.bump }
    submitted := w.submitted ++ [idx.head] }

def release (c b : Nat) (w : World) : World :=
  { w with
    lock := none
    callers := update w.callers c none
    sleeplock := update w.sleeplock b none }

def clearInfo (idx : Chain) (w : World) : World :=
  { w with disk := { w.disk with
    info := update w.disk.info idx.head { w.disk.info idx.head with b := none } } }

/-- virtio_disk_rw from where a caller holding vdisk_lock stands. -/
def rwStep (c : Nat) (call : Call) (w : World) : Except Panic World :=
  match call.phase with
  | .alloc => do
      let (idx, w) ← alloc3Desc w
      match idx with
      | some idx => pure (w.setCall c { call with phase := .format idx })
      | none => pure (sleep c call .free w)
  | .format idx =>
    .ok ((formatDesc call.toRequest idx w).setCall c { call with phase := .post idx })
  | .post idx => .ok ((postHead idx w).setCall c { call with phase := .bump idx })
  | .bump idx =>
    .ok ((submit idx w).setCall c { call with phase := .poll idx w.submitted.length })
  | .poll idx ticket =>
    if (w.bufs call.b).disk = 1 then .ok (sleep c call (.buf call.b) w)
    else .ok (w.setCall c { call with phase := .finish idx ticket })
  | .finish idx _ => do
      let w ← freeChain idx.head (clearInfo idx w)
      pure (release c call.b w)

def callerStep (c : Nat) (w : World) : Except Panic World :=
  match w.callers c with
  | none => .ok w
  | some call =>
    match call.mode with
    | .asleep _ => .ok w
    | .wants =>
      if w.lock = none then
        .ok { w.setCall c { call with mode := .holds } with lock := some (.caller c) }
      else .ok w
    | .holds => rwStep c call w

def clearFlag (b : Nat) (w : World) : World :=
  { w with bufs := update w.bufs b { w.bufs b with disk := 0 } }

def bumpUsed (w : World) : World :=
  { w with
    disk := { w.disk with usedIdx := (w.disk.usedIdx + 1) % 2 ^ 16 }
    consumed := w.consumed + 1 }

def intrLoop (w : World) : Except Panic World :=
  let id := w.disk.used.ring (w.disk.usedIdx % NUM)
  if (w.disk.info id).status ≠ 0 then .error .intrStatus
  else match (w.disk.info id).b with
    | none => .error .nullBuf
    | some b => .ok (bumpUsed (wakeup (.buf b) (clearFlag b w)))

def handlerStep (i : Nat) (w : World) : Except Panic World :=
  match w.handlers i with
  | .idle => .ok w
  | .wants =>
    if w.lock = none then
      .ok { w with lock := some (.handler i), handlers := update w.handlers i .loops }
    else .ok w
  | .loops =>
    if w.disk.usedIdx ≠ w.disk.used.idx then intrLoop w
    else .ok { w with lock := none, handlers := update w.handlers i .idle }

/-- What a device reads by following a chain: the transfer and the index whose
status byte it writes. none is a chain no device accepts. -/
def readChain (d : Disk) (ticket head : Nat) : Option (Transfer × Nat) :=
  let first := d.desc head
  let second := d.desc first.next
  let third := d.desc second.next
  if first.flags &&& VRING_DESC_F_NEXT = 0 ∨ second.flags &&& VRING_DESC_F_NEXT = 0 ∨
      third.flags &&& VRING_DESC_F_NEXT ≠ 0 ∨ third.flags &&& VRING_DESC_F_WRITE = 0 then none
  else match first.addr, second.addr, third.addr with
    | .op i, .data b, .status j =>
      -- the device writes b->data exactly for a read of the disk
      if (second.flags &&& VRING_DESC_F_WRITE ≠ 0) = ((d.ops i).type = VIRTIO_BLK_T_IN) then
        some (⟨ticket, head, (d.ops i).type, (d.ops i).sector, b⟩, j)
      else none
    | _, _, _ => none

def take (w : World) : World :=
  if w.device.taken % 2 ^ 16 ≠ w.disk.avail.idx then
    { w with device := { w.device with
      taken := w.device.taken + 1
      outstanding := (w.device.taken, w.disk.avail.ring (w.device.taken % NUM)) ::
        w.device.outstanding } }
  else w

/-- The device carries out an outstanding request and writes status 0. -/
def serve (ticket : Nat) (w : World) : World :=
  match w.device.outstanding.find? (fun entry => entry.1 = ticket) with
  | none => w
  | some entry =>
    match readChain w.disk entry.1 entry.2 with
    | none => w
    | some (transfer, j) => { w with
        disk := { w.disk with
          info := update w.disk.info j { w.disk.info j with status := 0 } }
        device := { w.device with
          outstanding := w.device.outstanding.erase entry
          served := transfer :: w.device.served } }

def complete (ticket : Nat) (w : World) : World :=
  match w.device.served.find? (fun transfer => transfer.ticket = ticket) with
  | none => w
  | some transfer => { w with
      disk := { w.disk with used := (w.disk.used.push transfer.head).bump }
      device := { w.device with
        served := w.device.served.erase transfer
        completed := w.device.completed ++ [transfer] } }

inductive Event
  | call (c b blockno : Nat) (write : Bool)  -- virtio_disk_rw(b, write) with b for blockno
  | run (c : Nat)  -- the caller takes its next step
  | kill (c : Nat)  -- kkill makes a sleeping caller runnable
  | interrupt (i : Nat)  -- virtio_disk_intr is called
  | handle (i : Nat)  -- the handler takes its next step
  | take
  | serve (ticket : Nat)
  | complete (ticket : Nat)
deriving DecidableEq, Repr

def Call.interrupted (call : Call) : Call :=
  match call.mode with
  | .asleep _ => { call with mode := .wants }
  | _ => call

/-- An event that is not possible in w changes nothing. -/
def apply (w : World) : Event → Except Panic World
  | .call c b blockno write =>
    -- the caller holds b->lock, and b may have been recycled since its last use
    if w.callers c = none ∧ w.sleeplock b = none then
      .ok { w.setCall c ⟨⟨b, write, .alloc⟩, .wants⟩ with
        bufs := update w.bufs b { w.bufs b with blockno := blockno }
        sleeplock := update w.sleeplock b (some c) }
    else .ok w
  | .run c => callerStep c w
  | .kill c =>
    let calls := update w.callers c ((w.callers c).map Call.interrupted)
    .ok { w with callers := calls }
  | .interrupt i =>
    if w.handlers i = .idle then
      .ok { w with handlers := update w.handlers i .wants }
    else .ok w
  | .handle i => handlerStep i w
  | .take => .ok (take w)
  | .serve ticket => .ok (serve ticket w)
  | .complete ticket => .ok (complete ticket w)

def step (w : World) (e : Event) : World :=
  if w.panicked.isSome then w
  else match apply w e with
    | .ok w' => w'
    | .error p => { w with panicked := some p }

def init : World where
  disk :=
    { desc := fun _ => ⟨.null, 0, 0, 0⟩
      avail := ⟨fun _ => 0, 0⟩
      used := ⟨fun _ => 0, 0⟩
      free := fun _ => true
      usedIdx := 0
      info := fun _ => ⟨none, 0⟩
      ops := fun _ => ⟨0, 0, 0⟩ }
  bufs := fun _ => ⟨0, 0⟩
  lock := none
  sleeplock := fun _ => none
  callers := fun _ => none
  handlers := fun _ => .idle
  device := ⟨0, [], [], []⟩
  submitted := []
  consumed := 0
  panicked := none

end Xv6Lab.Virtio
