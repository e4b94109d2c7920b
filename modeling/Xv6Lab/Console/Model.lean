import Xv6Lab.Proc.Model

/-!
The console (console.c): readers in consoleread, the interrupt handler consoleintr
and kkill, under concurrency. One step is one section between an acquire and a
release; while cons.lock is held, it is one section of p->lock or the code between
two of them.
-/

namespace Xv6Lab.Console
open Function (update)

open Proc (ProcState)

def INPUT_BUF_SIZE : Nat := 128

/-- C(x) -/
def ctrl (x : Char) : UInt8 := UInt8.ofNat (x.toNat - '@'.toNat)

def newline : UInt8 := 10
def carriageReturn : UInt8 := 13
def delete : UInt8 := 0x7f

def BACKSPACE : Nat := 0x100

/-- The fields of cons without the lock. tty has what consputc was given, the last
first. -/
structure Ring where
  buf : Nat → UInt8
  r : BitVec 32
  w : BitVec 32
  e : BitVec 32
  raw : Bool
  tty : List Nat

/-- cons.buf[i % INPUT_BUF_SIZE] -/
def Ring.byte (ring : Ring) (i : BitVec 32) : UInt8 := ring.buf (i.toNat % INPUT_BUF_SIZE)

def consputc (c : Nat) (ring : Ring) : Ring := { ring with tty := c :: ring.tty }

def continuation (c : UInt8) : Bool := c &&& 0xC0 = 0x80

/-- The loop of utf8_char_len from idx on. -/
def utf8CharBack (ring : Ring) : Nat → Nat → Nat
  | 0, n => n
  | idx + 1, n =>
    if ring.w.toNat < idx + 1 ∧ continuation (ring.buf ((idx + 1) % INPUT_BUF_SIZE)) then
      utf8CharBack ring idx (n + 1)
    else n

def utf8CharLen (ring : Ring) (last : BitVec 32) : Nat :=
  if last ≤ ring.w then 0 else utf8CharBack ring (last - 1).toNat 1

/-- The loop of utf8_decode; none if a byte is not a continuation. -/
def utf8Gather (ring : Ring) (start : BitVec 32) (r : Nat) : List Nat → Option Nat
  | [] => some r
  | i :: rest =>
    let c := ring.byte (start + BitVec.ofNat 32 i)
    if continuation c then utf8Gather ring start (r <<< 6 ||| (c &&& 0x3F).toNat) rest else none

def utf8Decode (ring : Ring) (last : BitVec 32) (len : Nat) : Nat :=
  let start := last - BitVec.ofNat 32 len
  let c0 := ring.byte start
  let gather := fun (mask : UInt8) =>
    (utf8Gather ring start (c0 &&& mask).toNat (List.range' 1 (len - 1))).getD c0.toNat
  if len = 2 then gather 0x1F
  else if len = 3 then gather 0x0F
  else if len = 4 then gather 0x07
  else c0.toNat

def wide : List (Nat × Nat) :=
  [(0x1100, 0x115F), (0x2329, 0x232A), (0x2E80, 0xA4CF), (0xAC00, 0xD7A3), (0xF900, 0xFAFF),
    (0xFE10, 0xFE19), (0xFE30, 0xFE6F), (0xFF00, 0xFF60), (0xFFE0, 0xFFE6), (0x20000, 0x3FFFD)]

def utf8DisplayWidth (rune : Nat) : Nat :=
  if rune < 0x80 then 1
  else if wide.any fun (low, high) => low ≤ rune ∧ rune ≤ high then 2
  else 1

def erase (ring : Ring) : Ring :=
  let len := utf8CharLen ring ring.e
  let width := utf8DisplayWidth (utf8Decode ring ring.e len)
  (consputc BACKSPACE)^[width] { ring with e := ring.e - BitVec.ofNat 32 len }

/-- cons.e - cons.r < INPUT_BUF_SIZE -/
def Ring.room (ring : Ring) : Bool := (ring.e - ring.r).toNat < INPUT_BUF_SIZE

def Ring.put (ring : Ring) (c : UInt8) : Ring :=
  { ring with
    buf := update ring.buf (ring.e.toNat % INPUT_BUF_SIZE) c
    e := ring.e + 1 }

def Ring.commit (ring : Ring) : Ring := { ring with w := ring.e }

inductive Rest
  | done
  | killLine
  | wakeup
deriving DecidableEq, Repr

def asLine (c : UInt8) : UInt8 := if c = carriageReturn then newline else c

/-- consoleintr from acquire on, up to the loop of ^U or to wakeup. procdump prints
only. -/
def input (c : UInt8) (ring : Ring) : Ring × Rest :=
  if c = ctrl 'P' then (ring, .done)
  else if ring.raw then
    if c ≠ 0 ∧ ring.room then ((ring.put (asLine c)).commit, .wakeup) else (ring, .done)
  else if c = ctrl 'U' then (ring, .killLine)
  else if c = ctrl 'H' ∨ c = delete then
    (if ring.e ≠ ring.w then erase ring else ring, .done)
  else if c ≠ 0 ∧ ring.room then
    let c := asLine c
    let ring := (consputc c.toNat ring).put c
    if c = newline ∨ c = ctrl 'D' ∨ (ring.e - ring.r).toNat = INPUT_BUF_SIZE then
      (ring.commit, .wakeup)
    else (ring, .done)
  else (ring, .done)

def Ring.kills (ring : Ring) : Bool := ring.e ≠ ring.w ∧ ring.byte (ring.e - 1) ≠ newline

/-- The variables of consoleread; dst is a user or kernel address. -/
structure Read where
  target : Int
  n : Int
  dst : BitVec 64
deriving DecidableEq, Repr

inductive Stage
  | enter  -- before acquire(&cons.lock), at the start or at the end of sleep
  | loop  -- at while (n > 0), or at while (cons.r == cons.w) after sleep
  | killed  -- calls killed(myproc())
  | sleep  -- in sleep, before acquire(&p->lock)
  | doze  -- p->lock is held, cons.lock is given up
  | asleep  -- switched out in sched
deriving DecidableEq, Repr

inductive Pc
  | user
  | read (stage : Stage) (rd : Read)
  | setraw (raw : Bool)  -- consolesetraw, before acquire(&cons.lock)
  | kill (pid : BitVec 32) (k : Nat)  -- kkill at slot k
deriving DecidableEq, Repr

inductive HandlerPc
  | acquire (c : UInt8)  -- consoleintr, before acquire(&cons.lock)
  | input (c : UInt8)
  | killLine
  | wake (k : Nat)  -- wakeup(&cons.r) at slot k
deriving DecidableEq, Repr

/-- The handler with the process it has interrupted, if there is one. The PLIC gives
the interrupt to one CPU at a time. -/
structure Handler where
  proc : Option Nat
  pc : HandlerPc
deriving DecidableEq, Repr

inductive Owner
  | proc (i : Nat)
  | handler
deriving DecidableEq, Repr

/-- The fields of struct proc by slot. lock is who holds cons.lock; plock i is set while sleep
holds p->lock; chan i while process i sleeps on &cons.r. -/
structure World where
  ring : Ring
  lock : Option Owner
  handler : Option Handler
  state : Nat → ProcState
  chan : Nat → Bool
  killed : Nat → Bool
  plock : Nat → Bool
  pc : Nat → Pc
  a0 : Nat → Int

inductive Choice
  | go
  | fault
  | consoleread (n : Int) (dst : BitVec 64)
  | consolesetraw (raw : Int)
  | kkill (pid : BitVec 32)
deriving DecidableEq, Repr

inductive Event
  | run (i : Nat) (choice : Choice)
  | dispatch (i : Nat)
  | preempt (i : Nat)
  /-- The UART has a byte. The CPU runs process i, or none. -/
  | uart (i : Option Nat) (c : UInt8)
  | handler
deriving DecidableEq, Repr

def World.setPc (w : World) (i : Nat) (pc : Pc) : World :=
  { w with pc := update w.pc i pc }

def World.setState (w : World) (i : Nat) (state : ProcState) : World :=
  { w with state := update w.state i state }

def World.ret (w : World) (i : Nat) (value : Int) : World :=
  { w with a0 := update w.a0 i value }.setPc i .user

/-- Whether interrupts are on: no spinlock is held. -/
def Pc.interruptible : Pc → Bool
  | .user | .read .enter _ | .setraw _ | .kill _ _ => true
  | .read _ _ => false

def wakeOne (k : Nat) (w : World) : World :=
  if w.state k = .sleeping ∧ w.chan k then w.setState k .runnable else w

def killOne (k : Nat) (w : World) : World :=
  let w := { w with killed := update w.killed k true }
  if w.state k = .sleeping then w.setState k .runnable else w

def leave (i : Nat) (value : Int) (w : World) : World := { w with lock := none }.ret i value

def takeByte (i : Nat) (rd : Read) (copied : Bool) (w : World) : World :=
  let c := w.ring.byte w.ring.r
  let next := { w with ring := { w.ring with r := w.ring.r + 1 } }
  if c = ctrl 'D' then
    if rd.n < rd.target then leave i (rd.target - rd.n) w  -- ^D is kept for the next read
    else leave i (rd.target - rd.n) next
  else if copied then
    let rd := { rd with dst := rd.dst + 1, n := rd.n - 1 }
    if c = newline then leave i (rd.target - rd.n) next else next.setPc i (.read .loop rd)
  else leave i (rd.target - rd.n) next

def readStep (i : Nat) (stage : Stage) (rd : Read) (choice : Choice) (w : World) : World :=
  match stage with
  | .enter =>
    if w.lock ≠ none then w else { w with lock := some (.proc i) }.setPc i (.read .loop rd)
  | .loop =>
    if rd.n ≤ 0 then leave i (rd.target - rd.n) w
    else if w.ring.r = w.ring.w then w.setPc i (.read .killed rd)
    else takeByte i rd (choice ≠ .fault) w
  | .killed => if w.killed i then leave i (-1) w else w.setPc i (.read .sleep rd)
  | .sleep =>
    { w with lock := none, plock := update w.plock i true }.setPc i (.read .doze rd)
  | .doze =>
    -- sched; the scheduler releases p->lock
    ({ w with
      chan := update w.chan i true
      plock := update w.plock i false }.setState i .sleeping).setPc i (.read .asleep rd)
  | .asleep => w

def userStep (i : Nat) (choice : Choice) (w : World) : World :=
  match choice with
  | .go | .fault => w
  | .consoleread n dst => w.setPc i (.read .enter ⟨n, n, dst⟩)
  | .consolesetraw raw => w.setPc i (.setraw (raw ≠ 0))
  | .kkill q => w.setPc i (.kill q 0)

section
variable (nproc : Nat) (pid : Nat → BitVec 32)

def threadStep (i : Nat) (choice : Choice) (w : World) : World :=
  match w.pc i with
  | .user => userStep i choice w
  | .read stage rd => readStep i stage rd choice w
  | .setraw raw =>
    if w.lock ≠ none then w else { w with ring := { w.ring with raw } }.setPc i .user
  | .kill q k =>
    if nproc ≤ k then w.ret i (-1)
    else if w.plock k then w
    else if pid k = q then (killOne k w).ret i 0
    else w.setPc i (.kill q (k + 1))

def World.setHandler (w : World) (h : Handler) : Option HandlerPc → World
  | some pc => { w with handler := some { h with pc } }
  | none => { w with handler := none, lock := none }

def Rest.next : Rest → Option HandlerPc
  | .done => none
  | .killLine => some .killLine
  | .wakeup => some (.wake 0)

def handlerStep (h : Handler) (w : World) : World :=
  match h.pc with
  | .acquire c =>
    if w.lock ≠ none then w else { w with lock := some .handler }.setHandler h (some (.input c))
  | .input c => { w with ring := (input c w.ring).1 }.setHandler h (input c w.ring).2.next
  | .killLine =>
    if w.ring.kills then { w with ring := erase w.ring } else w.setHandler h none
  | .wake k =>
    if nproc ≤ k then w.setHandler h none
    else if h.proc = some k then w.setHandler h (some (.wake (k + 1)))
    else if w.plock k then w
    else (wakeOne k w).setHandler h (some (.wake (k + 1)))

/-- The scheduler picks process i, and sleep goes on to its last acquire. -/
def dispatchStep (i : Nat) (w : World) : World :=
  match w.pc i with
  | .read .asleep rd =>
    ({ w with chan := update w.chan i false }.setState i .running).setPc i
      (.read .enter rd)
  | _ => w.setState i .running

/-- Process i has a CPU, and the CPU is not in the handler. -/
def World.runs (w : World) (i : Nat) : Prop :=
  i < nproc ∧ w.state i = .running ∧ ∀ h ∈ w.handler, h.proc ≠ some i

instance (w : World) (i : Nat) : Decidable (w.runs nproc i) :=
  inferInstanceAs (Decidable (_ ∧ _ ∧ ∀ h ∈ w.handler, h.proc ≠ some i))

def step (w : World) : Event → World
  | .run i choice => if w.runs nproc i then threadStep nproc pid i choice w else w
  | .dispatch i =>
    if i < nproc ∧ w.state i = .runnable ∧ w.plock i = false then dispatchStep i w else w
  | .preempt i => if w.runs nproc i ∧ (w.pc i).interruptible then w.setState i .runnable else w
  | .uart i c =>
    if w.handler = none ∧ ∀ k ∈ i, w.runs nproc k ∧ (w.pc k).interruptible then
      { w with handler := some ⟨i, .acquire c⟩ }
    else w
  | .handler =>
    match w.handler with
    | none => w
    | some h => handlerStep nproc h w

end

def init : World where
  ring := ⟨fun _ => 0, 0, 0, 0, false, []⟩
  lock := none
  handler := none
  state := fun _ => .runnable
  chan := fun _ => false
  killed := fun _ => false
  plock := fun _ => false
  pc := fun _ => .user
  a0 := fun _ => 0

end Xv6Lab.Console
