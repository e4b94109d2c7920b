import Xv6Lab.Proc.Model

/-!
Sleep-locks (sleeplock.c) over sleep, wakeup and kkill (proc.c). One step is one
section between an acquire and a release; sleep has two, since it gives up lk->lk
while it holds p->lock.
-/

namespace Xv6Lab.Sync
open Function (update)

open Proc (ProcState)

inductive Pc
  | user
  | acquire (l : Nat)  -- acquiresleep, before acquire(&lk->lk)
  | test (l : Nat)  -- at while (lk->locked)
  | sleep (l : Nat)  -- in sleep, before acquire(&p->lock)
  | doze (l : Nat)  -- p->lock is held, lk->lk is given up
  | asleep (l : Nat)  -- switched out in sched
  | release (l : Nat)  -- releasesleep, before acquire(&lk->lk)
  | wake (l k : Nat)  -- wakeup(lk) at slot k
  | kill (pid : BitVec 32) (k : Nat)  -- kkill at slot k
deriving DecidableEq, Repr

/-- The fields of the locks by lock, those of struct proc by slot. spin l is the process in a
section of lk->lk; plock i is set while sleep holds p->lock. -/
structure World where
  locked : Nat → Bool
  lkPid : Nat → BitVec 32
  spin : Nat → Option Nat
  state : Nat → ProcState
  chan : Nat → Option Nat
  killed : Nat → Bool
  plock : Nat → Bool
  pc : Nat → Pc
  held : Nat → Nat → Bool

inductive Choice
  | go
  | acquiresleep (l : Nat)
  | releasesleep (l : Nat)
  | kkill (pid : BitVec 32)
deriving DecidableEq, Repr

inductive Event
  | run (i : Nat) (choice : Choice)
  | dispatch (i : Nat)
  | preempt (i : Nat)
deriving DecidableEq, Repr

def World.setPc (w : World) (i : Nat) (pc : Pc) : World :=
  { w with pc := update w.pc i pc }

def World.setState (w : World) (i : Nat) (state : ProcState) : World :=
  { w with state := update w.state i state }

def World.setSpin (w : World) (l : Nat) (owner : Option Nat) : World :=
  { w with spin := update w.spin l owner }

/-- The lock whose lk->lk a process holds. -/
def Pc.section : Pc → Option Nat
  | .test l | .sleep l | .wake l _ => some l
  | _ => none

/-- Whether interrupts are on: no spinlock is held. -/
def Pc.interruptible : Pc → Bool
  | .user | .acquire _ | .release _ | .kill _ _ => true
  | _ => false

def take (pid : Nat → BitVec 32) (i l : Nat) (w : World) : World :=
  { w with
    locked := update w.locked l true
    lkPid := update w.lkPid l (pid i)
    held := update w.held i (update (w.held i) l true) }

def drop (i l : Nat) (w : World) : World :=
  { w with
    locked := update w.locked l false
    lkPid := update w.lkPid l 0
    held := update w.held i (update (w.held i) l false) }

def wakeOne (l k : Nat) (w : World) : World :=
  if w.state k = .sleeping ∧ w.chan k = some l then w.setState k .runnable else w

def killOne (k : Nat) (w : World) : World :=
  let w := { w with killed := update w.killed k true }
  if w.state k = .sleeping then w.setState k .runnable else w

section
variable (nproc : Nat) (pid : Nat → BitVec 32)

def userStep (i : Nat) (choice : Choice) (w : World) : World :=
  match choice with
  | .go => w
  | .acquiresleep l => w.setPc i (.acquire l)
  | .releasesleep l => if w.held i l then w.setPc i (.release l) else w
  | .kkill q => w.setPc i (.kill q 0)

def threadStep (i : Nat) (choice : Choice) (w : World) : World :=
  match w.pc i with
  | .user => userStep i choice w
  | .acquire l =>
    if w.spin l ≠ none then w else (w.setSpin l (some i)).setPc i (.test l)
  | .test l =>
    if w.locked l then w.setPc i (.sleep l)
    else ((take pid i l w).setSpin l none).setPc i .user
  | .sleep l =>
    ({ w with plock := update w.plock i true }.setSpin l none).setPc i (.doze l)
  | .doze l =>
    -- sched; the scheduler releases p->lock
    ({ w with
      chan := update w.chan i (some l)
      plock := update w.plock i false }.setState i .sleeping).setPc i (.asleep l)
  | .asleep _ => w
  | .release l =>
    if w.spin l ≠ none then w else ((drop i l w).setSpin l (some i)).setPc i (.wake l 0)
  | .wake l k =>
    if nproc ≤ k then (w.setSpin l none).setPc i .user
    else if k = i then w.setPc i (.wake l (k + 1))
    else if w.plock k then w
    else (wakeOne l k w).setPc i (.wake l (k + 1))
  | .kill q k =>
    if nproc ≤ k then w.setPc i .user
    else if w.plock k then w
    else if pid k = q then (killOne k w).setPc i .user
    else w.setPc i (.kill q (k + 1))

/-- The scheduler picks process i, and sleep goes on to its last acquire. -/
def dispatchStep (i : Nat) (w : World) : World :=
  match w.pc i with
  | .asleep l =>
    ({ w with chan := update w.chan i none }.setState i .running).setPc i (.acquire l)
  | _ => w.setState i .running

def step (w : World) : Event → World
  | .run i choice =>
    if i < nproc ∧ w.state i = .running then threadStep nproc pid i choice w else w
  | .dispatch i =>
    if i < nproc ∧ w.state i = .runnable ∧ w.plock i = false then dispatchStep i w else w
  | .preempt i =>
    if i < nproc ∧ w.state i = .running ∧ (w.pc i).interruptible then w.setState i .runnable
    else w

end

def init : World where
  locked := fun _ => false
  lkPid := fun _ => 0
  spin := fun _ => none
  state := fun _ => .runnable
  chan := fun _ => none
  killed := fun _ => false
  plock := fun _ => false
  pc := fun _ => .user
  held := fun _ _ => false

end Xv6Lab.Sync
