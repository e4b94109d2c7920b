import Mathlib.Tactic
import Xv6Lab.Lib.Machine

/-!
The process table under concurrency (proc.c): any number of CPUs run the
scheduler and the kernel threads of the NPROC slots. One step is one section
between an acquire and a release, or one swtch. A CPU that would spin in acquire
does not move. proc[i] is named by its index i.
-/

namespace Xv6Lab.Proc
open Function (update)

def NPROC : Nat := 64

/-- userinit allocates proc[0] before any other process exists. -/
def initproc : Nat := 0

inductive ProcState
  | unused
  | used
  | sleeping
  | runnable
  | running
  | zombie
deriving DecidableEq, Repr

/-- What a thread sleeps on: a proc (kwait only) or any other address. -/
inductive Chan
  | proc (i : Nat)
  | other (n : Nat)
deriving DecidableEq, Repr

/-- Where a thread that holds no lock continues. -/
inductive Code
  | user  -- outside the functions below
  | alloc (i : Nat)  -- kfork, in the loop of allocproc at slot i
  | publish (np : Nat)  -- kfork, before acquire(&wait_lock)
  | start (np : Nat)  -- kfork, before the second acquire(&np->lock)
  | exit (status : Int)  -- kexit, before acquire(&wait_lock)
  | wait (addr : Bool)  -- kwait, before acquire(&wait_lock); addr != 0
  | wake (n : Nat) (i : Nat)  -- wakeup on another address, at slot i
  | kill (pid : BitVec 32) (i : Nat)
  | dead  -- after the sched() of kexit
deriving DecidableEq, Repr

inductive Pc
  | free (code : Code)
  /-- In sched with p->lock held and p->state changed, before swtch. -/
  | leave (slept : Bool) (code : Code)
  /-- Switched out, or switched in again and not yet past release(&p->lock). -/
  | saved (slept : Bool) (code : Code)
  /-- In allocproc and kfork with np->lock held. -/
  | found (np : Nat)
  -- from here on wait_lock is held
  | reparent (status : Int) (i : Nat)
  | wakeInit (status : Int) (i k : Nat)  -- wakeup(initproc) in reparent
  | wakeParent (status : Int) (parent : Option Nat) (k : Nat)
  | zombie (status : Int)  -- kexit, before acquire(&p->lock)
  | scan (addr : Bool) (i : Nat) (havekids : Bool)
  | killed (addr : Bool)  -- kwait calls killed(p)
  | doze (addr : Bool)  -- kwait calls sleep(p, &wait_lock)
deriving DecidableEq, Repr

inductive Exec
  | scan (i : Nat)  -- scheduler, before acquire(&proc[i].lock)
  | into (i : Nat)  -- scheduler, before swtch to proc[i]
  | thread (i : Nat)  -- on the kernel stack of proc[i]
  | back (i : Nat)  -- scheduler, after swtch from proc[i]
deriving DecidableEq, Repr

/-- An exit of one incarnation of a slot. Each allocproc stamps its process with
a number of its own. -/
structure Exit where
  stamp : Nat
  pid : BitVec 32
  status : Int
deriving DecidableEq, Repr

/-- A kwait that returned pid, and the xstate it copied out if addr != 0. -/
structure Reap where
  stamp : Nat
  pid : BitVec 32
  status : Option Int
deriving DecidableEq, Repr

/-- The fields of struct proc by slot, the locks with the CPU that holds them,
and the state of the CPUs and threads. stamp, births, exits and reaps are
history. -/
structure World where
  state : Nat → ProcState
  pid : Nat → BitVec 32
  parent : Nat → Option Nat
  killed : Nat → Bool
  xstate : Nat → Int
  chan : Nat → Option Chan
  plock : Nat → Option Nat
  waitLock : Option Nat
  nextpid : BitVec 32
  cpuProc : Nat → Option Nat
  exec : Nat → Exec
  pc : Nat → Pc
  stamp : Nat → Nat
  births : Nat
  exits : List Exit
  reaps : List Reap
  panicked : Bool

inductive Choice
  | go
  /-- kalloc returns 0 in allocproc or uvmcopy; copyout fails in kwait. -/
  | fail
  | preempt
  | fork
  | exit (status : Int)
  | wait (addr : Bool)
  | sleep (n : Nat)
  | wakeup (n : Nat)
  | kill (pid : BitVec 32)
  | setkilled
deriving DecidableEq, Repr

inductive Event
  | cpu (c : Nat) (choice : Choice)
  /-- The section of wakeup at slot i in an interrupt handler. -/
  | interrupt (n i : Nat)
deriving DecidableEq, Repr

def World.setPc (w : World) (i : Nat) (pc : Pc) : World :=
  { w with pc := update w.pc i pc }

def World.setExec (w : World) (c : Nat) (exec : Exec) : World :=
  { w with exec := update w.exec c exec }

def World.panic (w : World) : World := { w with panicked := true }

def World.acquire (w : World) (i c : Nat) : World :=
  { w with plock := update w.plock i (some c) }

def World.release (w : World) (i : Nat) : World :=
  { w with plock := update w.plock i none }

def World.acquireWait (w : World) (c : Nat) : World := { w with waitLock := some c }

def World.releaseWait (w : World) : World := { w with waitLock := none }

def freeproc (i : Nat) (w : World) : World :=
  { w with
    pid := update w.pid i 0
    parent := update w.parent i none
    chan := update w.chan i none
    killed := update w.killed i false
    xstate := update w.xstate i 0
    state := update w.state i .unused }

/-- allocpid and the state change of allocproc, for an unused slot. -/
def claim (i : Nat) (w : World) : World :=
  { w with
    pid := update w.pid i w.nextpid
    nextpid := w.nextpid + 1
    state := update w.state i .used
    stamp := update w.stamp i w.births
    births := w.births + 1 }

/-- A thread gives up the CPU: p->lock is held from here to the scheduler. -/
def park (c i : Nat) (state : ProcState) (slept : Bool) (code : Code) (w : World) : World :=
  ({ w with state := update w.state i state }.acquire i c).setPc i (.leave slept code)

def wakeOne (chan : Option Chan) (i : Nat) (w : World) : World :=
  if w.state i = .sleeping ∧ w.chan i = chan
  then { w with state := update w.state i .runnable } else w

def killOne (i : Nat) (w : World) : World :=
  { w with
    killed := update w.killed i true
    state := if w.state i = .sleeping then update w.state i .runnable else w.state }

def schedulerStep (c i : Nat) (w : World) : World :=
  if NPROC ≤ i then w.setExec c (.scan 0)
  else if w.plock i ≠ none then w
  else if w.state i = .runnable then
    ({ w with
      state := update w.state i .running
      cpuProc := update w.cpuProc c (some i) }.acquire i c).setExec c (.into i)
  else w.setExec c (.scan (i + 1))

def resume (j : Nat) (slept : Bool) (code : Code) (w : World) : World :=
  if code = .dead then w.panic
  else
    ({ w with chan := if slept then update w.chan j none else w.chan }.release j).setPc j
      (.free code)

def callStep (c j : Nat) (choice : Choice) (w : World) : World :=
  match choice with
  | .fork => w.setPc j (.free (.alloc 0))
  | .exit status => if j = initproc then w.panic else w.setPc j (.free (.exit status))
  | .wait addr => w.setPc j (.free (.wait addr))
  | .sleep n =>
    if w.plock j ≠ none then w
    else park c j .sleeping true .user
      { w with chan := update w.chan j (some (.other n)) }
  | .wakeup n => w.setPc j (.free (.wake n 0))
  | .kill pid => w.setPc j (.free (.kill pid 0))
  | .setkilled =>
    if w.plock j ≠ none then w else { w with killed := update w.killed j true }
  | .go | .fail | .preempt => w

def allocStep (c j i : Nat) (w : World) : World :=
  if NPROC ≤ i then w.setPc j (.free .user)
  else if w.plock i ≠ none then w
  else if w.state i = .unused then ((claim i w).acquire i c).setPc j (.found i)
  else w.setPc j (.free (.alloc (i + 1)))

/-- kalloc, proc_pagetable and uvmcopy with np->lock held. The context of the new
process is that of forkret. -/
def foundStep (j np : Nat) (choice : Choice) (w : World) : World :=
  if choice = .fail then ((freeproc np w).release np).setPc j (.free .user)
  else ((w.setPc np (.saved false .user)).release np).setPc j (.free (.publish np))

def killStep (j : Nat) (pid : BitVec 32) (i : Nat) (w : World) : World :=
  if NPROC ≤ i then w.setPc j (.free .user)
  else if w.plock i ≠ none then w
  else if w.pid i = pid then (killOne i w).setPc j (.free .user)
  else w.setPc j (.free (.kill pid (i + 1)))

/-- wakeup(chan) at slot k; it passes over myproc(). -/
def wakeStep (j : Nat) (chan : Option Chan) (k : Nat) (next done : Pc) (w : World) : World :=
  if NPROC ≤ k then w.setPc j done
  else if k = j then w.setPc j next
  else if w.plock k ≠ none then w
  else (wakeOne chan k w).setPc j next

def codeStep (c j : Nat) (code : Code) (choice : Choice) (w : World) : World :=
  match code with
  | .user => callStep c j choice w
  | .alloc i => allocStep c j i w
  | .publish np =>
    if w.waitLock ≠ none then w
    else { w with parent := update w.parent np (some j) }.setPc j (.free (.start np))
  | .start np =>
    if w.plock np ≠ none then w
    else { w with state := update w.state np .runnable }.setPc j (.free .user)
  | .exit status =>
    if w.waitLock ≠ none then w else (w.acquireWait c).setPc j (.reparent status 0)
  | .wait addr =>
    if w.waitLock ≠ none then w else (w.acquireWait c).setPc j (.scan addr 0 false)
  | .wake n i => wakeStep j (some (.other n)) i (.free (.wake n (i + 1))) (.free .user) w
  | .kill pid i => killStep j pid i w
  | .dead => w

def reparentStep (j : Nat) (status : Int) (i : Nat) (w : World) : World :=
  if NPROC ≤ i then w.setPc j (.wakeParent status (w.parent j) 0)
  else if w.parent i = some j then
    { w with parent := update w.parent i (some initproc) }.setPc j (.wakeInit status i 0)
  else w.setPc j (.reparent status (i + 1))

/-- kexit from acquire(&p->lock) to sched(). -/
def zombieStep (c j : Nat) (status : Int) (w : World) : World :=
  if w.plock j ≠ none then w
  else park c j .zombie false .dead
    { w with
      xstate := update w.xstate j status
      waitLock := none
      exits := ⟨w.stamp j, w.pid j, status⟩ :: w.exits }

def reap (addr : Bool) (i : Nat) (w : World) : World :=
  { freeproc i w with
    reaps := ⟨w.stamp i, w.pid i, if addr then some (w.xstate i) else none⟩ :: w.reaps }

def scanStep (j : Nat) (addr : Bool) (i : Nat) (havekids : Bool) (choice : Choice) (w : World) :
    World :=
  if NPROC ≤ i then
    if havekids then w.setPc j (.killed addr) else w.releaseWait.setPc j (.free .user)
  else if w.parent i ≠ some j then w.setPc j (.scan addr (i + 1) havekids)
  else if w.plock i ≠ none then w
  else if w.state i ≠ .zombie then w.setPc j (.scan addr (i + 1) true)
  else if addr ∧ choice = .fail then w.releaseWait.setPc j (.free .user)
  else (reap addr i w).releaseWait.setPc j (.free .user)

def killedStep (j : Nat) (addr : Bool) (w : World) : World :=
  if w.plock j ≠ none then w
  else if w.killed j then w.releaseWait.setPc j (.free .user)
  else w.setPc j (.doze addr)

/-- sleep(p, &wait_lock): p->lock is taken before wait_lock is given up. -/
def dozeStep (c j : Nat) (addr : Bool) (w : World) : World :=
  if w.plock j ≠ none then w
  else park c j .sleeping true (.wait addr)
    { w with waitLock := none, chan := update w.chan j (some (.proc j)) }

def threadStep (c j : Nat) (choice : Choice) (w : World) : World :=
  match w.pc j with
  | .free code =>
    if choice = .preempt then
      if w.plock j ≠ none then w else park c j .runnable false code w
    else codeStep c j code choice w
  | .leave slept code => (w.setPc j (.saved slept code)).setExec c (.back j)
  | .saved slept code => resume j slept code w
  | .found np => foundStep j np choice w
  | .reparent status i => reparentStep j status i w
  | .wakeInit status i k =>
    wakeStep j (some (.proc initproc)) k (.wakeInit status i (k + 1)) (.reparent status (i + 1)) w
  | .wakeParent status parent k =>
    wakeStep j (parent.map .proc) k (.wakeParent status parent (k + 1)) (.zombie status) w
  | .zombie status => zombieStep c j status w
  | .scan addr i havekids => scanStep j addr i havekids choice w
  | .killed addr => killedStep j addr w
  | .doze addr => dozeStep c j addr w

def cpuStep (c : Nat) (choice : Choice) (w : World) : World :=
  match w.exec c with
  | .scan i => schedulerStep c i w
  | .into i => w.setExec c (.thread i)
  | .thread j => threadStep c j choice w
  | .back i =>
    ({ w with cpuProc := update w.cpuProc c none }.release i).setExec c (.scan (i + 1))

def step (w : World) : Event → World
  | .cpu c choice => if w.panicked then w else cpuStep c choice w
  | .interrupt n i => if w.panicked ∨ w.plock i ≠ none then w else wakeOne (some (.other n)) i w

/-- After userinit: the first process has pid 1 and every CPU enters scheduler. -/
def init : World where
  state := update (fun _ => .unused) initproc .runnable
  pid := update (fun _ => 0) initproc 1
  parent := fun _ => none
  killed := fun _ => false
  xstate := fun _ => 0
  chan := fun _ => none
  plock := fun _ => none
  waitLock := none
  nextpid := 2
  cpuProc := fun _ => none
  exec := fun _ => .scan 0
  pc := update (fun _ => .saved false .dead) initproc (.saved false .user)
  stamp := fun _ => 0
  births := 1
  exits := []
  reaps := []
  panicked := false

end Xv6Lab.Proc
