import Xv6Lab.Lib.DoublyLinked
import Xv6Lab.Lib.Count

/-!
The buffer cache (bio.c) with the sleep-lock of each buf (sleeplock.c). One
step is one section under bcache.lock or under a sleep-lock's spinlock, one
transfer of the disk, or one access of the holder between them.
-/

namespace Xv6Lab.Bio
open Function (update)

open DoublyLinked (walk)

def MAXOPBLOCKS : Nat := 10
def NBUF : Nat := MAXOPBLOCKS * 3

def PIDS : Nat := 2 ^ 31

inductive Op
  | idle
  | bget (dev blockno : Nat)
  | acquire (b dev blockno : Nat)  -- in acquiresleep(&b->lock)
  | check (b dev blockno : Nat)  -- bget has returned b
  | fill (b dev blockno : Nat)  -- virtio_disk_rw(b, 0)
  | mark (b dev blockno : Nat)  -- b->valid = 1
  | ret (b dev blockno : Nat)  -- bread returns b
  | bwrite (b : Nat)
  | store (b : Nat)  -- virtio_disk_rw(b, 1)
  | brelse (b : Nat)
  | release (b : Nat)  -- releasesleep(&b->lock)
  | drop (b : Nat)  -- the section under bcache.lock
deriving DecidableEq, Repr

/-- A buf bread has returned: for which block, and whether the holder has
changed the data since the last bwrite. -/
structure Hold where
  dev : Nat
  blockno : Nat
  dirty : Bool
deriving DecidableEq, Repr

def Hold.written (hold : Hold) : Hold := { hold with dirty := false }

inductive Panic
  | bget
  | bwrite
  | brelse
deriving DecidableEq, Repr

structure BWrite (Data : Type) where
  dev : Nat
  blockno : Nat
  data : Data

/-- The fields of struct buf, by index into bcache.buf; index NBUF is bcache.head. writes is the
history of bwrite, latest first. -/
structure World (Data : Type) where
  valid : Nat → Bool
  dev : Nat → Nat
  blockno : Nat → Nat
  locked : Nat → Bool
  pid : Nat → Nat
  refcnt : Nat → Nat
  prev : Nat → Nat
  next : Nat → Nat
  data : Nat → Data
  disk : Nat → Nat → Data
  op : Nat → Op
  held : Nat → Nat → Option Hold
  writes : List (BWrite Data)
  panicked : Option Panic

variable {Data : Type}

def head : Nat := NBUF

def World.setOp (w : World Data) (p : Nat) (op : Op) : World Data :=
  { w with op := update w.op p op }

def setHold (held : Nat → Nat → Option Hold) (p b : Nat) (hold : Option Hold) :
    Nat → Nat → Option Hold := update held p (update (held p) b hold)

def World.setHeld (w : World Data) (p b : Nat) (hold : Option Hold) : World Data :=
  { w with held := setHold w.held p b hold }

def World.pushFront (w : World Data) (b : Nat) : World Data :=
  { w with
    next := update (update w.next b (w.next head)) head b
    prev := update (update w.prev b head) (w.next head) b }

def World.unlink (w : World Data) (b : Nat) : World Data :=
  { w with
    prev := update w.prev (w.next b) (w.prev b)
    next := update w.next (w.prev b) (w.next b) }

def binit (w : World Data) : World Data :=
  (List.range NBUF).foldl World.pushFront { w with
    next := update w.next head head
    prev := update w.prev head head }

/-- The first loop of bget. -/
def cached (w : World Data) (dev blockno : Nat) : Option Nat :=
  walk w.next (fun b => w.dev b = dev ∧ w.blockno b = blockno) head (NBUF + 1) (w.next head)

/-- The second loop of bget. -/
def unused (w : World Data) : Option Nat :=
  walk w.prev (fun b => w.refcnt b = 0) head (NBUF + 1) (w.prev head)

/-- The block is cached; refcnt is a uint. -/
def refer (b : Nat) (w : World Data) : World Data :=
  { w with refcnt := update w.refcnt b ((w.refcnt b + 1) % 2 ^ 32) }

/-- The least recently used buf without references gets a new identity. -/
def recycle (b dev blockno : Nat) (w : World Data) : World Data :=
  { w with
    dev := update w.dev b dev
    blockno := update w.blockno b blockno
    valid := update w.valid b false
    refcnt := update w.refcnt b 1 }

def bgetSection (p dev blockno : Nat) (w : World Data) : Except Panic (World Data) :=
  match cached w dev blockno with
  | some b => .ok ((refer b w).setOp p (.acquire b dev blockno))
  | none =>
    match unused w with
    | some b => .ok ((recycle b dev blockno w).setOp p (.acquire b dev blockno))
    | none => .error .bget

def lock (p b : Nat) (w : World Data) : World Data :=
  { w with
    locked := update w.locked b true
    pid := update w.pid b p }

def unlock (b : Nat) (w : World Data) : World Data :=
  { w with
    locked := update w.locked b false
    pid := update w.pid b 0 }

def holdingsleep (w : World Data) (p b : Nat) : Bool := w.locked b && decide (w.pid b = p)

/-- virtio_disk_rw(b, 0), for a disk that is an array of blocks. -/
def diskRead (b : Nat) (w : World Data) : World Data :=
  { w with data := update w.data b (w.disk (w.dev b) (w.blockno b)) }

/-- virtio_disk_rw(b, 1), recorded in the history. -/
def diskWrite (b : Nat) (w : World Data) : World Data :=
  { w with
    disk := fun dev n => if w.dev b = dev ∧ w.blockno b = n then w.data b else w.disk dev n
    writes := ⟨w.dev b, w.blockno b, w.data b⟩ :: w.writes }

/-- refcnt-- on a uint. -/
def decrement (refcnt : Nat) : Nat := (refcnt + (2 ^ 32 - 1)) % 2 ^ 32

def unrefer (b : Nat) (w : World Data) : World Data :=
  { w with refcnt := update w.refcnt b (decrement (w.refcnt b)) }

def dropSection (b : Nat) (w : World Data) : World Data :=
  if (unrefer b w).refcnt b = 0 then ((unrefer b w).unlink b).pushFront b else unrefer b w

/-- The next step of process p; a process in acquiresleep waits while the lock
is taken. -/
def run (p : Nat) (w : World Data) : Except Panic (World Data) :=
  match w.op p with
  | .idle => .ok w
  | .bget dev blockno => bgetSection p dev blockno w
  | .acquire b dev blockno =>
    if w.locked b then .ok w else .ok ((lock p b w).setOp p (.check b dev blockno))
  | .check b dev blockno =>
    .ok (w.setOp p (if w.valid b then .ret b dev blockno else .fill b dev blockno))
  | .fill b dev blockno => .ok ((diskRead b w).setOp p (.mark b dev blockno))
  | .mark b dev blockno =>
    .ok ({ w with valid := update w.valid b true }.setOp p (.ret b dev blockno))
  | .ret b dev blockno => .ok ((w.setHeld p b (some ⟨dev, blockno, false⟩)).setOp p .idle)
  | .bwrite b => if holdingsleep w p b then .ok (w.setOp p (.store b)) else .error .bwrite
  | .store b =>
    .ok (((diskWrite b w).setHeld p b ((w.held p b).map Hold.written)).setOp p .idle)
  | .brelse b => if holdingsleep w p b then .ok (w.setOp p (.release b)) else .error .brelse
  | .release b => .ok (((unlock b w).setHeld p b none).setOp p (.drop b))
  | .drop b => .ok ((dropSection b w).setOp p .idle)

inductive Event (Data : Type)
  | bread (p dev blockno : Nat)
  | modify (p b : Nat) (data : Data)
  | bwrite (p b : Nat)
  | brelse (p b : Nat)
  | run (p : Nat)

def Event.pid : Event Data → Nat
  | .bread p _ _ | .modify p _ _ | .bwrite p _ | .brelse p _ | .run p => p

/-- uses says which blocks processes ask for. A holder changes the data of
bufs it holds only, and calls brelse only when its changes are written. -/
def apply (uses : Nat → Nat → Bool) (w : World Data) : Event Data → Except Panic (World Data)
  | .bread p dev blockno =>
    if w.op p = .idle ∧ uses dev blockno then .ok (w.setOp p (.bget dev blockno)) else .ok w
  | .modify p b data =>
    match w.op p, w.held p b with
    | .idle, some hold =>
      .ok ({ w with data := update w.data b data }.setHeld p b
        (some { hold with dirty := true }))
    | _, _ => .ok w
  | .bwrite p b => if w.op p = .idle then .ok (w.setOp p (.bwrite b)) else .ok w
  | .brelse p b =>
    if w.op p = .idle ∧ (w.held p b).all (fun hold => !hold.dirty) then
      .ok (w.setOp p (.brelse b))
    else .ok w
  | .run p => run p w

def step (uses : Nat → Nat → Bool) (w : World Data) (e : Event Data) : World Data :=
  if w.panicked.isSome ∨ e.pid = 0 ∨ PIDS ≤ e.pid then w
  else match apply uses w e with
    | .ok w' => w'
    | .error p => { w with panicked := some p }

def init (blank : Data) (image : Nat → Nat → Data) : World Data :=
  binit
    { valid := fun _ => false
      dev := fun _ => 0
      blockno := fun _ => 0
      locked := fun _ => false
      pid := fun _ => 0
      refcnt := fun _ => 0
      prev := fun _ => 0
      next := fun _ => 0
      data := fun _ => blank
      disk := image
      op := fun _ => .idle
      held := fun _ _ => none
      writes := []
      panicked := none }

end Xv6Lab.Bio
