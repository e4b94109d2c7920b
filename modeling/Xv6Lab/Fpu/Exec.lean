import Xv6Lab.Fpu.Illegal

/-!
Which values the first floating-point instruction of a new program sees.
-/

namespace Xv6Lab.Fpu
open List
open Machine (run run_cons)
variable {p : Process} {hart : Hart} {events : List Event}

inductive Act
  | event (e : Event)
  | exec (h : Nat)

/-- fresh i says that process i has a new program, which has not come past its first
floating-point instruction. -/
structure Programs where
  world : World
  fresh : Nat → Bool

def kexec (hart : Hart) (p : Process) : Hart × Process := (hart, p)

/-- The process whose floating-point registers or program an event replaces, or that uses the
registers. A process whose instruction is illegal for good stays at that instruction, since
usertrap returns to it, and comes to no other. -/
def Event.uses (w : World) : Event → Option Nat
  | .instr h inst =>
    if inst.run.isNone ∨ (w.hart h).fs ≠ .off then
      (w.hart h).proc.filter fun i => (w.proc i).place = .user
    else none
  | .fork h np => (w.forks h np).map fun _ => np
  | .reap i => some i
  | _ => none

def execStep (s : Programs) : Act → Programs
  | .event e =>
    { world := step s.world e
      fresh := fun i => if e.uses s.world = some i then false else s.fresh i }
  | .exec h =>
    match (s.world.hart h).proc with
    | none => s
    | some i =>
      if (s.world.proc i).place = .kernel then
        { world := (s.world.setHart h (kexec (s.world.hart h) (s.world.proc i)).1).setProc i
            (kexec (s.world.hart h) (s.world.proc i)).2
          fresh := Function.update s.fresh i true }
      else s

def boot (regs : Nat → FpuState) (fs : Nat → Fs) : Programs := ⟨init regs fs, fun _ => false⟩

/-- However long the program of process i executes no floating-point instruction, the first one
sees zeros. -/
def SeesZero (s : Programs) (i : Nat) : Prop :=
  ∀ acts, (∀ n, (run execStep s (acts.take n)).fresh i = true) →
    ∀ h, (run execStep s acts).world.runsUser h i →
      ((run execStep s acts).world.hart h).fs ≠ .off →
      ((run execStep s acts).world.hart h).regs = .zero

def Blank (hart : Hart) (p : Process) : Prop :=
  p.fpuUsed = true → (if p.fpuActive then hart.regs else p.fpu) = .zero

section Steps
variable {w : World} {own : Nat → FpuState} {e : Event} {i : Nat}

theorem setProc_setHart_self (w : World) {h : Nat} :
    (w.setHart h (w.hart h)).setProc i (w.proc i) = w := by
  simp [World.setHart, World.setProc]

theorem execStep_exec_world (s : Programs) (h : Nat) : (execStep s (.exec h)).world = s.world := by
  simp only [execStep]
  split
  · rfl
  · split_ifs
    · exact setProc_setHart_self s.world
    · rfl

theorem view_zero (zero : own i = .zero) (calm : (w.proc i).Calm)
    (other : e.uses w ≠ some i) : viewStep w own e i = .zero := by
  have update : ∀ {k : Nat} {v : FpuState}, (k = i → v = .zero) → Function.update own k v i = .zero := by
    intro k v here
    by_cases same : i = k
    · subst same
      rw [Function.update_self]
      exact here rfl
    · rw [Function.update_of_ne same]
      exact zero
  cases e with
  | instr h inst =>
    simp only [viewStep, ownStep]
    cases on : (w.hart h).proc with
    | none => exact zero
    | some k =>
      refine update fun same => ?_
      subst same
      simp only [ownThread]
      split_ifs with runs
      · refine absurd ?_ other
        simp [Event.uses, runs.2, on, runs.1, Option.filter]
      · exact zero
  | handle h =>
    simp only [viewStep]
    cases on : (w.hart h).proc with
    | none => exact zero
    | some k =>
      refine update fun same => ?_
      subst same
      cases here : (w.proc k).place with
      | illegal word =>
        have same : reloaded (w.proc k) word (own k) = own k :=
          if_neg fun stale => by simp [calm word here stale.2] at stale
        simpa [viewThread, here, same] using zero
      | user | kernel | kerneltrap fs | killed => simpa [viewThread, ownThread, here] using zero
  | fork h np =>
    simp only [viewStep, ownStep]
    cases forks : w.forks h np with
    | none => exact zero
    | some k =>
      refine update fun same => ?_
      exact absurd (by rw [Event.uses, forks, same]; rfl) other
  | reap k =>
    simp only [viewStep, ownStep]
    split_ifs
    · exact update fun _ => rfl
    · exact zero
  | _ => exact zero

end Steps

def viewAct (s : Programs × (Nat → FpuState)) (a : Act) : Programs × (Nat → FpuState) :=
  (execStep s.1 a, match a with
    | .event e => viewStep s.1.world s.2 e
    | .exec _ => s.2)

theorem run_viewAct (s : Programs × (Nat → FpuState)) (acts : List Act) :
    (run viewAct s acts).1 = run execStep s.1 acts := by
  induction acts generalizing s with
  | nil => rfl
  | cons a rest ih =>
    rw [run_cons, run_cons, ih]
    rfl

theorem inv_viewAct {s : Programs × (Nat → FpuState)} (inv : Inv s.1.world s.2) (a : Act) :
    Inv (viewAct s a).1.world (viewAct s a).2 := by
  cases a with
  | event e => exact inv.step e
  | exec h =>
    simp only [viewAct, execStep_exec_world]
    exact inv

theorem exists_view (regs : Nat → FpuState) (fs : Nat → Fs) (acts : List Act) :
    ∃ own, Inv (run execStep (boot regs fs) acts).world own := by
  have inv := Machine.run_invariant viewAct (P := fun s => Inv s.1.world s.2)
    (fun _ a inv => inv_viewAct inv a) (s := (boot regs fs, fun _ => .zero)) (inv_init regs fs) acts
  rw [run_viewAct] at inv
  exact ⟨_, inv⟩

section Exec
variable {s : Programs} {own : Nat → FpuState} {h i : Nat}

structure Clean (i : Nat) (s : Programs × (Nat → FpuState)) : Prop where
  inv : Inv s.1.world s.2
  zero : s.2 i = .zero
  calm : (s.1.world.proc i).Calm

theorem Clean.step {s : Programs × (Nat → FpuState)} (clean : Clean i s) (a : Act)
    (fresh : (execStep s.1 a).fresh i = true) : Clean i (viewAct s a) := by
  refine ⟨inv_viewAct clean.inv a, ?_, ?_⟩
  · cases a with
    | exec h => exact clean.zero
    | event e =>
      refine view_zero clean.zero clean.calm fun uses => ?_
      simp [execStep, uses] at fresh
  · cases a with
    | exec h =>
      simp only [viewAct, execStep_exec_world]
      exact clean.calm
    | event e =>
      refine calm_step clean.calm clean.inv fun h inst same illegal here _ => ?_
      subst same
      simp [execStep, Event.uses, illegal, here.1, here.2, Option.filter] at fresh

theorem Clean.run {s : Programs × (Nat → FpuState)} (clean : Clean i s) (acts : List Act)
    (fresh : ∀ n, (run execStep s.1 (acts.take n)).fresh i = true) :
    Clean i (run viewAct s acts) := by
  induction acts generalizing s with
  | nil => exact clean
  | cons a rest ih =>
    rw [run_cons]
    refine ih (clean.step a ?_) fun n => ?_
    · simpa using fresh 1
    · simpa [viewAct] using fresh (n + 1)

theorem Clean.seesZero {s : Programs × (Nat → FpuState)} (clean : Clean i s) : SeesZero s.1 i := by
  intro acts fresh h here on
  have later := clean.run acts fresh
  have regs := later.inv.transparent.executes h i
  rw [run_viewAct] at regs
  exact (regs here on).trans later.zero

theorem run_events (s : Programs) (events : List Event) :
    (run execStep s (events.map .event)).world = run step s.world events := by
  induction events generalizing s with
  | nil => rfl
  | cons e rest ih =>
    rw [map_cons, run_cons, run_cons, ih]
    rfl

theorem fresh_along (fresh : s.fresh i = true)
    (quiet : Machine.Along step (fun w e => e.uses w ≠ some i) s.world events) :
    ∀ n, (run execStep s ((events.map .event).take n)).fresh i = true := by
  induction events generalizing s with
  | nil => simpa using fresh
  | cons e rest ih =>
    obtain ⟨first, later⟩ := quiet
    intro n
    cases n with
    | zero => exact fresh
    | succ n => exact ih (s := execStep s (.event e)) (by simp [execStep, first, fresh]) later n

theorem SeesZero.regs (sees : SeesZero s i) (fresh : s.fresh i = true) (events : List Event)
    (quiet : Machine.Along step (fun w e => e.uses w ≠ some i) s.world events)
    (here : (run step s.world events).runsUser h i)
    (on : ((run step s.world events).hart h).fs ≠ .off) :
    ((run step s.world events).hart h).regs = .zero := by
  have regs := sees (events.map .event) (fresh_along fresh quiet) h
  rw [run_events] at regs
  exact regs here on

theorem step_ret {w : World} (on : (w.hart h).proc = some i) (kernel : (w.proc i).place = .kernel) :
    step w (.ret h) =
      (w.setHart h (prepareReturn (w.hart h) (w.proc i))).setProc i { w.proc i with place := .user } := by
  simp [step, World.act, on, threadStep, kernel]

theorem execStep_exec (on : (s.world.hart h).proc = some i) (kernel : (s.world.proc i).place = .kernel) :
    (execStep s (.exec h)).fresh i = true := by
  simp [execStep, on, kernel]

theorem SeesZero.blank (on : (s.world.hart h).proc = some i) (kernel : (s.world.proc i).place = .kernel)
    (sees : SeesZero (execStep s (.exec h)) i) : Blank (s.world.hart h) (s.world.proc i) := by
  have fresh := execStep_exec on kernel
  have next := step_ret on kernel
  have regs := sees.regs (h := h) fresh
  rw [execStep_exec_world] at regs
  intro used
  split_ifs with active
  · have regs := regs [.ret h] ⟨by simp [Event.uses], trivial⟩
    rw [run_cons, next] at regs
    simpa [World.runsUser, World.setProc, World.setHart, on, prepareReturn, active] using regs
  · -- the instruction traps, and usertrap loads p->fpu
    have regs := regs (.ret h :: [.instr h (setF0 0), .handle h, .ret h])
    rw [run_cons, Machine.Along, next] at regs
    have off : ((prepareReturn (s.world.hart h) (s.world.proc i))).fs = .off := if_neg active
    have first := run_first_use (h := h) (i := i)
      (w := (s.world.setHart h (prepareReturn (s.world.hart h) (s.world.proc i))).setProc i
        { s.world.proc i with place := .user })
      ⟨by simp [World.setProc, World.setHart, prepareReturn, on], by simp [World.setProc]⟩
      (by simpa [World.setProc, World.setHart] using off) (rfl : (setF0 0).run.isSome) (by decide)
    rw [first] at regs
    have blank := regs ⟨by simp [Event.uses], by
      simp [Event.uses, World.setProc, World.setHart, off, setF0], by simp [Event.uses],
      by simp [Event.uses], trivial⟩
    simpa [World.runsUser, World.setProc, World.setHart, on, firstUse, used, prepareReturn] using blank

theorem Blank.seesZero (inv : Inv s.world own) (on : (s.world.hart h).proc = some i)
    (kernel : (s.world.proc i).place = .kernel) (blank : Blank (s.world.hart h) (s.world.proc i)) :
    SeesZero (execStep s (.exec h)) i := by
  have good := inv.on h i on
  have clean : Clean i (execStep s (.exec h), own) := by
    refine ⟨?_, ?_, ?_⟩
    · rw [execStep_exec_world]
      exact inv
    · cases used : (s.world.proc i).fpuUsed with
      | false => exact (good.fresh used).1
      | true =>
        have zero := blank used
        split_ifs at zero with active
        · exact (good.loaded active).symm.trans zero
        · exact (good.saved used (by simpa using active)).symm.trans zero
    · rw [execStep_exec_world]
      exact calm_kernel (by rw [kernel, Place.inKernel])
  exact clean.seesZero

/-- The first floating-point instruction after an exec sees zeros exactly if the old program
left zeros. -/
theorem exec_clean_iff (regs : Nat → FpuState) (fs : Nat → Fs) (acts : List Act)
    (on : ((run execStep (boot regs fs) acts).world.hart h).proc = some i)
    (kernel : ((run execStep (boot regs fs) acts).world.proc i).place = .kernel) :
    SeesZero (execStep (run execStep (boot regs fs) acts) (.exec h)) i ↔
      Blank ((run execStep (boot regs fs) acts).world.hart h)
        ((run execStep (boot regs fs) acts).world.proc i) := by
  obtain ⟨own, inv⟩ := exists_view regs fs acts
  exact ⟨fun sees => sees.blank on kernel, fun blank => blank.seesZero inv on kernel⟩

def clearF0 : List Event :=
  [.sched 0 .runnable, .dispatch 0 0, .ret 0, .instr 0 (setF0 0), .handle 0, .ret 0,
    .instr 0 (setF0 0), .trap 0]

/-- The program computes 5, is preempted, and leaves zeros on the hart and 5 in p->fpu. -/
theorem exec_clean_zeroed :
    let s := run execStep (boot (fun _ => .zero) fun _ => .off) ((compute ++ clearF0).map .event)
    (s.world.proc 0).fpuActive = true ∧ (s.world.proc 0).fpu.f 0 = 5 ∧ SeesZero (execStep s (.exec 0)) 0 :=
  ⟨by decide +kernel, by decide +kernel,
    (exec_clean_iff (fun _ => .zero) (fun _ => .off) _ (by decide +kernel) (by decide +kernel)).mpr
      fun _ => congrArg₂ FpuState.mk (funext (by decide +kernel)) (by decide +kernel)⟩

/-- A program computes 5, and the program that it executes finds it in f0. -/
theorem exec_keeps_registers :
    let s := run execStep (boot (fun _ => .zero) fun _ => .off) (compute.map .event ++ [.exec 0])
    let s1 := run execStep s [.event (.ret 0)]
    s.fresh 0 = true ∧ s1.fresh 0 = true ∧ (s1.world.hart 0).proc = some 0 ∧
      (s1.world.proc 0).place = .user ∧ (s1.world.hart 0).fs ≠ .off ∧ (s1.world.hart 0).regs.f 0 = 5 := by
  decide +kernel

end Exec
end Xv6Lab.Fpu
