import Xv6Lab.Proc.Model

/-!
Lazy switching of the floating-point registers (fpu.c, and its callers in trap.c and
proc.c) on any number of harts. One step is one stretch of code with interrupts off.
-/

namespace Xv6Lab.Fpu
open Proc (ProcState)

structure FpuState where
  f : Fin 32 → BitVec 64
  fcsr : BitVec 32
deriving DecidableEq

def FpuState.zero : FpuState := ⟨fun _ => 0, 0⟩

inductive Fs
  | off
  | initial
  | clean
  | dirty
deriving DecidableEq, Repr

/-- A floating-point instruction at the user pc: the word there, if copyin can read it, and what
it does, unless it is illegal. -/
structure Inst where
  word : Option (BitVec 32)
  run : Option (FpuState → FpuState)

inductive Place
  | user
  | illegal (word : Option (BitVec 32))  -- usertrap with scause 2, interrupts off
  | kernel  -- usertrap or forkret, up to prepare_return
  | kerneltrap (fs : Fs)  -- kerneltrap on top of that; fs is in its sstatus
  | killed  -- usertrap after setkilled, will call kexit
deriving DecidableEq, Repr

structure Process where
  state : ProcState
  place : Place
  fpu : FpuState
  fpuUsed : Bool
  fpuActive : Bool

structure Hart where
  proc : Option Nat
  regs : FpuState
  fs : Fs

structure World where
  hart : Nat → Hart
  proc : Nat → Process

inductive Event
  /-- The scheduler of hart h switches to process i. -/
  | dispatch (h i : Nat)
  /-- User code on hart h meets a floating-point instruction. -/
  | instr (h : Nat) (inst : Inst)
  /-- usertrap goes on after an illegal instruction. -/
  | handle (h : Nat)
  | trap (h : Nat)
  /-- prepare_return and sret. -/
  | ret (h : Nat)
  /-- An interrupt in kernel code. -/
  | interrupt (h : Nat)
  | kret (h : Nat)
  /-- yield, sleep or kexit up to the switch to the scheduler. -/
  | sched (h : Nat) (state : ProcState)
  | wakeup (i : Nat)
  /-- kfork creates np and gives up np->lock. -/
  | fork (h np : Nat)
  | start (np : Nat)
  /-- kwait frees a zombie. -/
  | reap (i : Nat)

def Event.legal : Event → Bool
  | .instr _ inst => inst.run.isSome
  | .dispatch _ _ | .handle _ | .trap _ | .ret _ | .interrupt _ | .kret _ | .sched _ _ | .wakeup _
  | .fork _ _ | .start _ | .reap _ => true

def World.setHart (w : World) (h : Nat) (hart : Hart) : World :=
  { w with hart := Function.update w.hart h hart }

def World.setProc (w : World) (i : Nat) (p : Process) : World :=
  { w with proc := Function.update w.proc i p }

def fpuOpcodes : List (BitVec 32) := [0x07, 0x27, 0x43, 0x47, 0x4b, 0x4f, 0x53]

def userFpuInstruction (word : Option (BitVec 32)) : Bool :=
  match word with
  | none => false
  | some inst => inst &&& 0x7f ∈ fpuOpcodes

def fpuSaveProc (hart : Hart) (p : Process) : Hart × Process :=
  ({ hart with fs := .off },
    if p.fpuActive then { p with fpu := hart.regs, fpuActive := false } else p)

/-- The process with its first, zero registers, if it has none yet. -/
def firstUse (p : Process) : Process :=
  if p.fpuUsed then p else { p with fpu := .zero, fpuUsed := true }

def fpuHandleTrap (hart : Hart) (p : Process) : Hart × Process :=
  ({ hart with fs := .dirty, regs := (firstUse p).fpu }, { firstUse p with fpuActive := true })

def prepareReturn (hart : Hart) (p : Process) : Hart :=
  { hart with fs := if p.fpuActive then .dirty else .off }

def freeproc (p : Process) : Process :=
  { p with fpu := .zero, fpuUsed := false, fpuActive := false, state := .unused }

def handle (hart : Hart) (p : Process) (word : Option (BitVec 32)) : Hart × Process :=
  if userFpuInstruction word then
    ((fpuHandleTrap hart p).1, { (fpuHandleTrap hart p).2 with place := .kernel })
  else (hart, { p with place := .killed })

def execute (hart : Hart) (p : Process) (inst : Inst) : Hart × Process :=
  match inst.run with
  | some run =>
    if hart.fs = .off then (hart, { p with place := .illegal inst.word })
    else ({ hart with regs := run hart.regs, fs := .dirty }, p)
  | none => (hart, { p with place := .illegal inst.word })

def threadStep (hart : Hart) (p : Process) : Event → Hart × Process
  | .instr _ inst => if p.place = .user then execute hart p inst else (hart, p)
  | .handle _ =>
    match p.place with
    | .illegal word => handle hart p word
    | .user | .kernel | .kerneltrap _ | .killed => (hart, p)
  | .trap _ => (hart, if p.place = .user then { p with place := .kernel } else p)
  | .ret _ =>
    if p.place = .kernel then (prepareReturn hart p, { p with place := .user }) else (hart, p)
  | .interrupt _ => (hart, if p.place = .kernel then { p with place := .kerneltrap hart.fs } else p)
  | .kret _ =>
    match p.place with
    | .kerneltrap fs => ({ hart with fs }, { p with place := .kernel })
    | .user | .illegal _ | .kernel | .killed => (hart, p)
  | .dispatch _ _ | .sched _ _ | .wakeup _ | .fork _ _ | .start _ | .reap _ => (hart, p)

def Place.inKernel : Place → Bool
  | .kernel | .kerneltrap _ | .killed => true
  | .user | .illegal _ => false

def forkChild (parent : Process) (np : Process) : Process :=
  { np with
    state := .used
    place := .kernel
    fpu := parent.fpu
    fpuUsed := parent.fpuUsed
    fpuActive := false }

def World.forks (w : World) (h np : Nat) : Option Nat :=
  (w.hart h).proc.filter fun i => (w.proc i).place = .kernel ∧ (w.proc np).state = .unused

def World.act (w : World) (h : Nat) (e : Event) : World :=
  match (w.hart h).proc with
  | none => w
  | some i =>
    let next := threadStep (w.hart h) (w.proc i) e
    (w.setHart h next.1).setProc i next.2

def World.setState (w : World) (i : Nat) (state : ProcState) : World :=
  w.setProc i { w.proc i with state }

def step (w : World) : Event → World
  | .dispatch h i =>
    if (w.hart h).proc = none ∧ (w.proc i).state = .runnable then
      (w.setHart h { w.hart h with proc := some i }).setState i .running
    else w
  | .sched h state =>
    match (w.hart h).proc with
    | none => w
    | some i =>
      if (w.proc i).place.inKernel ∧ state ∈ [.runnable, .sleeping, .zombie] then
        let saved := fpuSaveProc (w.hart h) (w.proc i)
        (w.setHart h { saved.1 with proc := none }).setProc i { saved.2 with state }
      else w
  | .wakeup i => if (w.proc i).state = .sleeping then w.setState i .runnable else w
  | .fork h np =>
    match w.forks h np with
    | none => w
    | some i =>
      let saved := fpuSaveProc (w.hart h) (w.proc i)
      ((w.setHart h saved.1).setProc i saved.2).setProc np (forkChild saved.2 (w.proc np))
  | .start np => if (w.proc np).state = .used then w.setState np .runnable else w
  | .reap i => if (w.proc i).state = .zombie then w.setProc i (freeproc (w.proc i)) else w
  | .instr h inst => w.act h (.instr h inst)
  | .handle h => w.act h (.handle h)
  | .trap h => w.act h (.trap h)
  | .ret h => w.act h (.ret h)
  | .interrupt h => w.act h (.interrupt h)
  | .kret h => w.act h (.kret h)

/-- After userinit: the first process will enter forkret. What the harts have in their
registers and in FS is arbitrary. -/
def init (regs : Nat → FpuState) (fs : Nat → Fs) : World where
  hart h := ⟨none, regs h, fs h⟩
  proc := Function.update (fun _ => ⟨.unused, .kernel, .zero, false, false⟩) Proc.initproc
    ⟨.runnable, .kernel, .zero, false, false⟩

end Xv6Lab.Fpu
