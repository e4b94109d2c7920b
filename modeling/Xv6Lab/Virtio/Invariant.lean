import Xv6Lab.Virtio.Model

/-!
The invariant of the driver, in groups that each depend on a few parts of the state.
-/

namespace Xv6Lab.Virtio

def World.req (w : World) (c : Nat) : Option Request := (w.callers c).map Call.toRequest

def Phase.chain : Phase → Option Chain
  | .alloc => none
  | .format idx | .post idx | .bump idx | .poll idx _ | .finish idx _ => some idx

def Phase.formatted : Phase → Option Chain
  | .alloc | .format _ => none
  | .post idx | .bump idx | .poll idx _ | .finish idx _ => some idx

def Phase.ticket : Phase → Option (Chain × Nat)
  | .alloc | .format _ | .post _ | .bump _ => none
  | .poll idx t | .finish idx t => some (idx, t)

def Phase.critical : Phase → Bool
  | .alloc | .poll _ _ => false
  | .format _ | .post _ | .bump _ | .finish _ _ => true

def chainOf (req : Nat → Option Request) (c : Nat) : Option Chain :=
  (req c).bind (fun r => r.phase.chain)

def liveOf (req : Nat → Option Request) (c : Nat) : Option Request :=
  (req c).filter (fun r => r.phase.ticket.isSome)

def Owns (chains : Nat → Option Chain) (c i : Nat) : Prop :=
  ∃ idx, chains c = some idx ∧ i ∈ idx.toList

structure Chains (free : Nat → Bool) (chains : Nat → Option Chain) : Prop where
  nodup : ∀ c idx, chains c = some idx → idx.toList.Nodup
  inside : ∀ c i, Owns chains c i → i < NUM
  unique : ∀ c c' i, Owns chains c i → Owns chains c' i → c = c'
  busy_iff : ∀ i, i < NUM → (free i = false ↔ ∃ c, Owns chains c i)

structure Formatted (desc : Nat → Desc) (info : Nat → Info) (ops : Nat → BlkReq)
    (blockno : Nat → Nat) (b : Nat) (write : Bool) (idx : Chain) : Prop where
  head : desc idx.head = opDesc idx
  data : desc idx.data = dataDesc idx b write
  status : desc idx.status = statusDesc idx
  info : (info idx.head).b = some b
  op : ops idx.head = ⟨requestType write, 0, sectorOf (blockno b)⟩

structure Written (desc : Nat → Desc) (info : Nat → Info) (ops : Nat → BlkReq)
    (bufs : Nat → Buf) (req : Nat → Option Request) : Prop where
  buf_unique : ∀ c c' r r', req c = some r → req c' = some r' → r.b = r'.b → c = c'
  formatted : ∀ c r idx, req c = some r → r.phase.formatted = some idx →
    Formatted desc info ops (fun b => (bufs b).blockno) r.b r.write idx
  flag_set : ∀ c r idx, req c = some r → r.phase = .post idx ∨ r.phase = .bump idx →
    (bufs r.b).disk = 1

structure AvailRing (avail : Ring) (req : Nat → Option Request) (submitted : List Nat)
    (taken : Nat) : Prop where
  idx : avail.idx = submitted.length % 2 ^ 16
  taken_le : taken ≤ submitted.length
  posted : ∀ c r chain, req c = some r → r.phase = .bump chain →
    avail.ring (submitted.length % NUM) = chain.head
  window : ∀ t head, taken ≤ t → submitted[t]? = some head → avail.ring (t % NUM) = head

structure UsedRing (used : Ring) (usedIdx : Nat) (completed : List Transfer) (consumed : Nat) :
    Prop where
  idx : used.idx = completed.length % 2 ^ 16
  usedIdx : usedIdx = consumed % 2 ^ 16
  consumed_le : consumed ≤ completed.length
  window : ∀ k transfer, consumed ≤ k → completed[k]? = some transfer →
    used.ring (k % NUM) = transfer.head

def Pending (dev : Device) (submitted : List Nat) (consumed t : Nat) : Prop :=
  (dev.taken ≤ t ∧ t < submitted.length) ∨ t ∈ dev.outstanding.map Prod.fst ∨
    t ∈ dev.served.map Transfer.ticket ∨ t ∈ (dev.completed.drop consumed).map Transfer.ticket

def Device.tickets (dev : Device) : List Nat :=
  dev.outstanding.map Prod.fst ++ dev.served.map Transfer.ticket ++
    dev.completed.map Transfer.ticket

structure Tickets (flag : Nat → Nat) (live : Nat → Option Request) (dev : Device)
    (submitted : List Nat) (consumed : Nat) : Prop where
  head : ∀ c r idx t, live c = some r → r.phase.ticket = some (idx, t) →
    submitted[t]? = some idx.head
  unique : ∀ c c' r r' idx idx' t, live c = some r → r.phase.ticket = some (idx, t) →
    live c' = some r' → r'.phase.ticket = some (idx', t) → c = c'
  owner : ∀ t, Pending dev submitted consumed t →
    ∃ c r idx, live c = some r ∧ r.phase = .poll idx t ∧ flag r.b = 1
  polled : ∀ c r idx t, live c = some r → r.phase = .poll idx t → flag r.b ≠ 1 →
    t ∈ dev.completed.map Transfer.ticket
  finished : ∀ c r idx t, live c = some r → r.phase = .finish idx t →
    t ∈ dev.completed.map Transfer.ticket
  once : dev.tickets.Nodup
  below : ∀ t ∈ dev.tickets, t < dev.taken
  outstanding_head : ∀ t head, (t, head) ∈ dev.outstanding → submitted[t]? = some head
  transfer_head : ∀ transfer, transfer ∈ dev.served ∨ transfer ∈ dev.completed →
    submitted[transfer.ticket]? = some transfer.head

def Transfer.For (transfer : Transfer) (r : Request) (blockno : Nat) : Prop :=
  transfer.type = requestType r.write ∧ transfer.sector = sectorOf blockno ∧ transfer.buf = r.b

structure Served (info : Nat → Info) (blockno : Nat → Nat) (live : Nat → Option Request)
    (dev : Device) (consumed : Nat) : Prop where
  status : ∀ transfer, transfer ∈ dev.served ∨ transfer ∈ dev.completed.drop consumed →
    (info transfer.head).status = 0
  carried : ∀ transfer, transfer ∈ dev.served ∨ transfer ∈ dev.completed →
    ∀ c r idx, live c = some r → r.phase.ticket = some (idx, transfer.ticket) →
      transfer.For r (blockno r.b)

structure Wire (d : Disk) (bufs : Nat → Buf) (req : Nat → Option Request) (dev : Device)
    (submitted : List Nat) (consumed : Nat) : Prop where
  chains : Chains d.free (chainOf req)
  written : Written d.desc d.info d.ops bufs req
  avail : AvailRing d.avail req submitted dev.taken
  used : UsedRing d.used d.usedIdx dev.completed consumed
  tickets : Tickets (fun b => (bufs b).disk) (liveOf req) dev submitted consumed
  served : Served d.info (fun b => (bufs b).blockno) (liveOf req) dev consumed

def freeCount (free : Nat → Bool) : Nat := count NUM free

inductive Waits (w : World) (call : Call) : Chan → Prop
  | free : call.phase = .alloc → freeCount w.disk.free < 3 → Waits w call .free
  | buf (idx t) : call.phase = .poll idx t → (w.bufs call.b).disk = 1 → Waits w call (.buf call.b)

structure Locks (w : World) : Prop where
  sleeplock : ∀ c call, w.callers c = some call → w.sleeplock call.b = some c
  holds : ∀ c call, w.callers c = some call → (call.mode = .holds ↔ w.lock = some (.caller c))
  holder : ∀ c, w.lock = some (.caller c) → (w.callers c).isSome
  critical : ∀ c call, w.callers c = some call → call.phase.critical → call.mode = .holds
  loops : ∀ i, w.handlers i = .loops ↔ w.lock = some (.handler i)
  waits : ∀ c call chan, w.callers c = some call → call.mode = .asleep chan → Waits w call chan

structure Inv (w : World) : Prop where
  wire : Wire w.disk w.bufs w.req w.device w.submitted w.consumed
  locks : Locks w
  running : w.panicked = none

end Xv6Lab.Virtio
