import Xv6Lab.Console.Model
import Xv6Lab.Proc.Alert

/-!
A kill is not slept through in the wait loops of kwait and consoleread, unless
kkill finds the process between its test of killed and its sleep.
-/

namespace Xv6Lab.Console
open Proc (ProcState)
open Machine (run Along along_invariant)

def Pc.stage : Pc → Option Stage
  | .read stage _ => some stage
  | .user | .setraw _ | .kill _ _ => none

section
variable (nproc : Nat) (pid : Nat → BitVec 32)

def victim (w : World) : Event → Option Nat
  | .run i _ =>
    match w.pc i with
    | .kill q k =>
      if w.runs nproc i ∧ k < nproc ∧ w.plock k = false ∧ pid k = q then some k else none
    | .user | .read _ _ | .setraw _ => none
  | .dispatch _ | .preempt _ | .uart _ _ | .handler => none

/-- No kkill finds a process that has passed its test of killed and is about to sleep. -/
def SparesDozing (w : World) (e : Event) : Prop :=
  ∀ k ∈ victim nproc pid w e, (w.pc k).stage ≠ some .sleep

instance (w : World) (e : Event) : Decidable (SparesDozing nproc pid w e) :=
  inferInstanceAs (Decidable (∀ k ∈ victim nproc pid w e, (w.pc k).stage ≠ some .sleep))

end

def World.waits (w : World) (i : Nat) : Prop := w.state i = .sleeping ∧ w.chan i = true

structure Awake (killed plock : Bool) (state : ProcState) (p : Pc) : Prop where
  locked : p.stage = some .doze → plock = true
  alive : p.stage = some .sleep ∨ p.stage = some .doze ∨ state = .sleeping → killed = false

def Alert (w : World) : Prop := ∀ i, Awake (w.killed i) (w.plock i) (w.state i) (w.pc i)

section Step
variable {w w' : World} {i k : Nat} {p : Pc}

section
variable (alert : Alert w)
include alert

theorem Alert.change (others : ∀ k, k ≠ i → w'.killed k = w.killed k ∧ w'.plock k = w.plock k ∧
      w'.state k = w.state k ∧ w'.pc k = w.pc k)
    (mine : Awake (w'.killed i) (w'.plock i) (w'.state i) (w'.pc i)) : Alert w' := by
  intro k
  by_cases same : k = i
  · rw [same]
    exact mine
  · obtain ⟨killed, plock, state, pc⟩ := others k same
    rw [killed, plock, state, pc]
    exact alert k

theorem Alert.moves (killed : w'.killed = w.killed) (plock : w'.plock = w.plock)
    (state : w'.state = w.state) (pc : w'.pc = Function.update w.pc i p)
    (running : w.state i = .running) (plain : p.stage ≠ some .sleep ∧ p.stage ≠ some .doze) :
    Alert w' := by
  refine alert.change (i := i) (fun k other => ?_) ?_
  · simp [killed, plock, state, pc, other]
  · constructor <;> simp [pc, state, running, plain.1, plain.2]

theorem Alert.wakes {s : ProcState} (awake : s ≠ .sleeping) : Alert (w.setState k s) := by
  refine alert.change (i := k) (fun j other => ?_) ?_
  · simp [World.setState, other]
  · have before := alert k
    constructor
    · exact before.locked
    · intro ready
      have stage : (w.pc k).stage = some .sleep ∨ (w.pc k).stage = some .doze := by
        simpa [World.setState, awake] using ready
      rcases stage with sleeps | dozes
      · exact before.alive (.inl sleeps)
      · exact before.alive (.inr (.inl dozes))

theorem Alert.wakeOne (k : Nat) : Alert (wakeOne k w) := by
  unfold Console.wakeOne
  split
  · exact alert.wakes (by simp)
  · exact alert

end

theorem killOne_eq (k : Nat) (w : World) :
    killOne k w =
      { w with
        killed := Function.update w.killed k true
        state := Function.update w.state k
          (if w.state k = .sleeping then .runnable else w.state k) } := by
  unfold killOne World.setState
  dsimp only
  split_ifs <;> simp

section
variable (alert : Alert w)
include alert

theorem Alert.killOne (unlocked : w.plock k = false)
    (spares : (w.pc k).stage ≠ some .sleep) : Alert (killOne k w) := by
  have doze : (w.pc k).stage ≠ some .doze := by
    intro dozes
    have locked := (alert k).locked dozes
    rw [unlocked] at locked
    cases locked
  rw [killOne_eq]
  refine alert.change (i := k) (fun j other => ?_) ?_
  · simp [other]
  · constructor
    · exact (alert k).locked
    · intro ready
      rcases ready with sleeps | dozes | asleep
      · exact absurd sleeps spares
      · exact absurd dozes doze
      · -- kkill has woken it
        simp only [Function.update_self] at asleep
        split_ifs at asleep with slept
        exact absurd asleep slept

theorem Alert.leave (running : w.state i = .running) (value : Int) : Alert (leave i value w) :=
  alert.moves rfl rfl rfl rfl running (by simp [Pc.stage])

theorem Alert.takeByte (running : w.state i = .running) (rd : Read)
    (copied : Bool) : Alert (takeByte i rd copied w) := by
  unfold Console.takeByte
  dsimp only
  split_ifs
  all_goals first
    | exact alert.leave running _
    | exact alert.moves rfl rfl rfl rfl running (by simp [Pc.stage])

theorem Alert.readStep (running : w.state i = .running) {stage : Stage} {rd : Read}
    (here : w.pc i = .read stage rd) (choice : Choice) : Alert (readStep i stage rd choice w) := by
  have mine := alert i
  rw [here] at mine
  cases stage <;> simp only [Console.readStep]
  case enter =>
      split_ifs
      · exact alert
      · exact alert.moves rfl rfl rfl rfl running (by simp [Pc.stage])
  case loop =>
      split_ifs
      · exact alert.leave running _
      · exact alert.moves rfl rfl rfl rfl running (by simp [Pc.stage])
      · exact alert.takeByte running rd _
  case killed =>
      split_ifs with killed
      · exact alert.leave running _
      · refine alert.change (i := i) (fun k other => ?_) ?_
        · simp [World.setPc, other]
        · constructor <;> simp_all [World.setPc, Pc.stage]
  case sleep =>
      -- the test has found no kill, and kkill has spared the process since
      have alive := mine.alive (.inl rfl)
      refine alert.change (i := i) (fun k other => ?_) ?_
      · simp [World.setPc, other]
      · constructor <;> simp [World.setPc, alive]
  case doze =>
      have alive := mine.alive (.inr (.inl rfl))
      refine alert.change (i := i) (fun k other => ?_) ?_
      · simp [World.setPc, World.setState, other]
      · constructor <;> simp [World.setPc, World.setState, alive, Pc.stage]
  case asleep => exact alert

end

variable {nproc : Nat} {pid : Nat → BitVec 32}

section
variable (alert : Alert w)
include alert

theorem Alert.threadStep {choice : Choice} (runs : w.runs nproc i)
    (spares : SparesDozing nproc pid w (.run i choice)) :
    Alert (threadStep nproc pid i choice w) := by
  have running := runs.2.1
  unfold Console.threadStep
  cases here : w.pc i with
  | user =>
    cases choice with
    | go => exact alert
    | fault => exact alert
    | consoleread n dst | consolesetraw raw | kkill q =>
      exact alert.moves rfl rfl rfl rfl running (by simp [Pc.stage])
  | read stage rd => exact alert.readStep running here choice
  | setraw raw =>
    dsimp only
    split_ifs
    · exact alert
    · exact alert.moves rfl rfl rfl rfl running (by simp [Pc.stage])
  | kill q k =>
    dsimp only
    split_ifs with outside locked found
    · exact alert.moves rfl rfl rfl rfl running (by simp [Pc.stage])
    · exact alert
    · have unlocked : w.plock k = false := by simpa using locked
      have hit : (w.pc k).stage ≠ some .sleep :=
        spares k (by simp [victim, here, runs, unlocked, found, Nat.lt_of_not_le outside])
      have killed := alert.killOne unlocked hit
      have awake : (Console.killOne k w).state i = .running := by
        rw [killOne_eq]
        by_cases same : i = k
        · simp [← same, running]
        · simp [same, running]
      exact killed.moves rfl rfl rfl rfl awake (by simp [Pc.stage])
    · exact alert.moves rfl rfl rfl rfl running (by simp [Pc.stage])

theorem Alert.handlerStep (h : Handler) : Alert (handlerStep nproc h w) := by
  have moves : ∀ (w : World) pc, Alert w → Alert (w.setHandler h pc) := by
    intro w pc alert
    cases pc <;> exact alert
  unfold Console.handlerStep
  cases h.pc with
  | acquire c | killLine =>
    dsimp only
    split_ifs
    · exact alert
    · exact alert
  | input c => exact moves _ _ alert
  | wake k =>
    dsimp only
    split_ifs
    · exact alert
    · exact alert
    · exact alert
    · exact moves _ _ (alert.wakeOne k)

theorem Alert.dispatchStep : Alert (dispatchStep i w) := by
  unfold Console.dispatchStep
  split
  · refine alert.change (i := i) (fun k other => ?_) ?_
    · simp [World.setPc, World.setState, other]
    · constructor <;> simp [World.setPc, World.setState, Pc.stage]
  · exact alert.wakes (by simp)

theorem Alert.step {e : Event} (spares : SparesDozing nproc pid w e) :
    Alert (step nproc pid w e) := by
  cases e with
  | run i choice =>
    simp only [Console.step]
    split_ifs with runs
    · exact alert.threadStep runs spares
    · exact alert
  | dispatch i =>
    simp only [Console.step]
    split_ifs
    · exact alert.dispatchStep
    · exact alert
  | preempt i =>
    simp only [Console.step]
    split_ifs
    · exact alert.wakes (by simp)
    · exact alert
  | uart i c =>
    simp only [Console.step]
    split_ifs
    · exact alert
    · exact alert
  | handler =>
    simp only [Console.step]
    split
    · exact alert
    · exact alert.handlerStep _

end

theorem alert_init : Alert init := fun _ => ⟨(nomatch ·), fun _ => rfl⟩

theorem alert_run {events : List Event}
    (spares : Along (step nproc pid) (SparesDozing nproc pid) init events) :
    Alert (run (step nproc pid) init events) :=
  along_invariant _ (fun _ _ ok alert => alert.step ok) alert_init spares

end Step

/-- No process sleeps in kwait or consoleread with a kill, as long as kkill spares those between
their test of killed and their sleep. -/
theorem kill_not_slept_through (nproc : Nat) (pid : Nat → BitVec 32) (waits : List Proc.Event)
    (reads : List Event) :
    (Along Proc.step Proc.SparesDozing Proc.init waits →
      ∀ j, (run Proc.step Proc.init waits).waits j →
        (run Proc.step Proc.init waits).killed j = false) ∧
    (Along (step nproc pid) (SparesDozing nproc pid) init reads →
      ∀ i, (run (step nproc pid) init reads).waits i →
        (run (step nproc pid) init reads).killed i = false) := by
  constructor
  · intro spares j asleep
    exact (Proc.alert_run spares).waits j asleep
  · intro spares i asleep
    exact (alert_run spares i).alive (.inr (.inr asleep.1))

def waiter : List Proc.Event :=
  List.replicate 3 (.cpu 0 .go) ++ .cpu 0 .fork :: List.replicate 5 (.cpu 0 .go) ++
    .cpu 0 (.wait true) :: List.replicate 67 (.cpu 0 .go)

def reader : List Event :=
  [.dispatch 0, .run 0 (.consoleread 1 0), .run 0 .go, .run 0 .go, .run 0 .go]

def killedWaiter : List Proc.Event :=
  waiter ++ List.replicate 3 (.cpu 0 .go) ++ List.replicate 4 (.cpu 1 .go) ++
    [.cpu 1 (.kill 1), .cpu 1 .go]

def killedReader : List Event :=
  reader ++ [.run 0 .go, .run 0 .go, .dispatch 1, .run 1 (.kkill 1), .run 1 .go]

/-- A child on CPU 1 kills the first process where it sleeps in kwait, and it does not sleep on;
in consoleread likewise. -/
theorem kill_not_slept_through_woken :
    (let w := run Proc.step Proc.init killedWaiter
    w.pc 1 = .free .user ∧ w.pid 0 = 1 ∧ w.killed 0 = true ∧ ¬ w.waits 0) ∧
    let w := run (step 2 fun i => BitVec.ofNat 32 (i + 1)) init killedReader
    w.pc 1 = .user ∧ w.a0 1 = 0 ∧ w.killed 0 = true ∧ ¬ w.waits 0 := by
  have both := kill_not_slept_through 2 (fun i => BitVec.ofNat 32 (i + 1)) killedWaiter killedReader
  constructor
  · obtain ⟨returned, pid, killed⟩ :
        (run Proc.step Proc.init killedWaiter).pc 1 = .free .user ∧
        (run Proc.step Proc.init killedWaiter).pid 0 = 1 ∧
        (run Proc.step Proc.init killedWaiter).killed 0 = true := by decide +kernel
    refine ⟨returned, pid, killed, fun waits => ?_⟩
    have alive := both.1 (by decide +kernel) 0 waits
    rw [killed] at alive
    cases alive
  · refine ⟨by decide +kernel, by decide +kernel, by decide +kernel, fun waits => ?_⟩
    have alive := both.2 (by decide +kernel) 0 waits
    revert alive
    decide +kernel

/-- A child on CPU 1 kills the first process after its test of killed, and it goes to sleep in
kwait with the kill; in consoleread likewise. -/
theorem kill_slept_through :
    (let w := run Proc.step Proc.init
      (waiter ++ List.replicate 4 (.cpu 1 .go) ++
        [.cpu 1 (.kill 1), .cpu 1 .go, .cpu 0 .go])
    w.pc 1 = .free .user ∧ w.pid 0 = 1 ∧ w.state 0 = .sleeping ∧ w.chan 0 = some (.proc 0) ∧
      w.killed 0 = true) ∧
    let w := run (step 2 fun i => BitVec.ofNat 32 (i + 1)) init
      (reader ++ [.dispatch 1, .run 1 (.kkill 1), .run 1 .go, .run 0 .go, .run 0 .go])
    w.pc 1 = .user ∧ w.a0 1 = 0 ∧ w.state 0 = .sleeping ∧ w.chan 0 = true ∧
      w.killed 0 = true := by
  decide +kernel

end Xv6Lab.Console
