import Xv6Lab.Proc.Exclusive

/-!
A kill is not slept through by a process that waits in kwait.
-/

namespace Xv6Lab.Proc
open Function (update update_of_ne update_self)
variable {i k c : Nat} {addr : Bool}

/-- No kkill finds a process that has passed its test of killed and is about to sleep. -/
def SparesDozing (w : World) (e : Event) : Prop :=
  ∀ i ∈ victim w e, ∀ addr, w.pc i ≠ .doze addr

instance (w : World) (e : Event) : Decidable (SparesDozing w e) :=
  inferInstanceAs (Decidable (∀ i ∈ victim w e, ∀ addr, w.pc i ≠ .doze addr))

def World.waits (w : World) (j : Nat) : Prop := w.state j = .sleeping ∧ w.chan j = some (.proc j)

structure Alert (w : World) : Prop where
  doze : ∀ j addr, w.pc j = .doze addr → w.killed j = false
  waits : ∀ j, w.waits j → w.killed j = false

theorem alert_init : Alert init where
  doze _ _ _ := rfl
  waits _ _ := rfl

section Step
variable {w w' : World} {j : Nat} {p : Pc}

theorem sleeping_of_update {s : ProcState} {state : Nat → ProcState}
    (awake : s ≠ .sleeping) (sleeps : update state i s k = .sleeping) : state k = .sleeping := by
  by_cases here : k = i
  · rw [here, update_self] at sleeps
    exact absurd sleeps awake
  · rwa [update_of_ne here] at sleeps

theorem dozing_of_update {pc : Nat → Pc} (plain : ∀ addr, p ≠ .doze addr)
    (dozes : update pc j p k = .doze addr) : pc k = .doze addr := by
  by_cases mine : k = j
  · rw [mine, update_self] at dozes
    exact absurd dozes (plain addr)
  · rwa [update_of_ne mine] at dozes

theorem sleeping_of_wakeOne {chan : Option Chan}
    (sleeps : (wakeOne chan i w).state k = .sleeping) : w.state k = .sleeping := by
  rw [wakeOne_state] at sleeps
  split at sleeps
  · exact sleeping_of_update (by simp) sleeps
  · exact sleeps

section
variable (alert : Alert w)
include alert

theorem Alert.moves (killed : w'.killed = w.killed)
    (sleeps : ∀ k, w'.state k = .sleeping → w.state k = .sleeping) (chan : w'.chan = w.chan)
    (pc : w'.pc = update w.pc j p) (plain : ∀ addr, p ≠ .doze addr) : Alert w' where
  doze k addr here := by
    rw [killed]
    rw [pc] at here
    exact alert.doze k addr (dozing_of_update plain here)
  waits k asleep := by
    rw [killed]
    exact alert.waits k ⟨sleeps k asleep.1, chan ▸ asleep.2⟩

theorem Alert.rests (killed : w'.killed = w.killed)
    (sleeps : ∀ k, w'.state k = .sleeping → w.state k = .sleeping) (chan : w'.chan = w.chan)
    (pc : w'.pc = w.pc) : Alert w' where
  doze := by
    rw [pc, killed]
    exact alert.doze
  waits k asleep := by
    rw [killed]
    exact alert.waits k ⟨sleeps k asleep.1, chan ▸ asleep.2⟩

theorem Alert.wakeOne (chan : Option Chan) (i : Nat) : Alert (wakeOne chan i w) := by
  rw [wakeOne_eq]
  exact alert.rests rfl (fun _ => sleeping_of_wakeOne) rfl rfl

theorem Alert.freeproc (i : Nat) : Alert (freeproc i w) := by
  have cleared : ∀ k, w.killed k = false → (Proc.freeproc i w).killed k = false := by
    intro k alive
    by_cases here : k = i
    · rw [here]
      exact update_self ..
    · exact (update_of_ne here ..).trans alive
  refine ⟨fun k addr here => cleared k (alert.doze k addr here), fun k asleep => ?_⟩
  obtain ⟨sleeps, on⟩ := asleep
  have other : k ≠ i := by
    intro same
    rw [same] at sleeps
    exact absurd ((update_self ..).symm.trans sleeps) (by simp)
  exact cleared k (alert.waits k ⟨sleeping_of_update (by simp) sleeps,
    (update_of_ne other ..).symm.trans on⟩)

theorem Alert.kill (spares : ∀ addr, w.pc i ≠ .doze addr) :
    Alert ((killOne i w).setPc j (.free .user)) := by
  have other : ∀ k, k ≠ i → w.killed k = false → (killOne i w).killed k = false :=
    fun k apart alive => (update_of_ne apart ..).trans alive
  refine ⟨fun k addr here => ?_, fun k asleep => ?_⟩
  · have before : w.pc k = .doze addr := dozing_of_update (by simp) here
    exact other k (fun same => spares addr (same ▸ before)) (alert.doze k addr before)
  · obtain ⟨sleeps, on⟩ := asleep
    have woken : k ≠ i ∧ w.state k = .sleeping := by
      have state : (killOne i w).state k = .sleeping := sleeps
      simp only [killOne] at state
      split at state
      · next was =>
          by_cases same : k = i
          · rw [same, update_self] at state
            cases state
          · rw [update_of_ne same] at state
            exact ⟨same, state⟩
      · next awake => exact ⟨fun same => awake (same ▸ state), state⟩
    exact other k woken.1 (alert.waits k ⟨woken.2, on⟩)

theorem Alert.setkilled (user : w.pc j = .free .user)
    (running : w.state j = .running) : Alert { w with killed := update w.killed j true } := by
  have other : ∀ k, k ≠ j → w.killed k = false → update w.killed j true k = false :=
    fun k apart alive => (update_of_ne apart ..).trans alive
  refine ⟨fun k addr here => ?_, fun k asleep => ?_⟩
  · have before : w.pc k = .doze addr := here
    refine other k (fun same => ?_) (alert.doze k addr before)
    rw [same, user] at before
    cases before
  · have before : w.waits k := asleep
    refine other k (fun same => ?_) (alert.waits k before)
    rw [same] at before
    exact nomatch running.symm.trans before.1

theorem Alert.unkilled (alive : w.killed j = false) (addr : Bool) :
    Alert (w.setPc j (.doze addr)) := by
  refine ⟨fun k addr' here => ?_, alert.waits⟩
  by_cases mine : k = j
  · rw [mine]
    exact alive
  · exact alert.doze k addr' ((update_of_ne mine ..).symm.trans here)

theorem Alert.resume (slept : Bool) (code : Code) : Alert (({ w with
      chan := if slept then update w.chan j none else w.chan }.release j).setPc j (.free code)) := by
  refine ⟨fun k addr dozes => alert.doze k addr (dozing_of_update (by simp) dozes),
    fun k asleep => alert.waits k ⟨asleep.1, ?_⟩⟩
  have chan := asleep.2
  cases slept with
  | false => exact chan
  | true =>
    by_cases mine : k = j
    · rw [mine] at chan
      exact nomatch (update_self ..).symm.trans chan
    · exact (update_of_ne mine ..).symm.trans chan

theorem Alert.sleep (n : Nat) : Alert (park c j .sleeping true .user
      { w with chan := update w.chan j (some (.other n)) }) := by
  refine ⟨fun k addr dozes => alert.doze k addr (dozing_of_update (by simp) dozes),
    fun k asleep => alert.waits k ?_⟩
  by_cases mine : k = j
  · have other := asleep.2
    rw [mine] at other
    exact nomatch (update_self ..).symm.trans other
  · exact ⟨(update_of_ne mine ..).symm.trans asleep.1,
      (update_of_ne mine ..).symm.trans asleep.2⟩

theorem Alert.park (here : w.pc j = .doze addr) : Alert (park c j .sleeping true (.wait addr)
      { w with waitLock := none, chan := update w.chan j (some (.proc j)) }) := by
  refine ⟨fun k addr dozes => alert.doze k addr (dozing_of_update (by simp) dozes),
    fun k asleep => ?_⟩
  by_cases mine : k = j
  · rw [mine]
    exact alert.doze j addr here
  · exact alert.waits k ⟨(update_of_ne mine ..).symm.trans asleep.1,
      (update_of_ne mine ..).symm.trans asleep.2⟩

theorem Alert.step (sched : w.scheduled) {v : Option Nat}
    (spares : ∀ i, v = some i → ∀ addr, w.pc i ≠ .doze addr) (h : Step w v w') : Alert w' := by
  cases h with
  | kill on here unlocked found hit => exact alert.kill (spares _ hit)
  | setkilled on here => exact alert.setkilled here (sched.state_of_working on here rfl)
  | unkilled on here alive => exact alert.unkilled alive _
  | doze on here unlocked => exact alert.park here
  | idle => exact alert
  | panic | search next here | enter here | drop here =>
    exact alert.rests rfl (fun _ sleeps => sleeps) rfl rfl
  | dispatch here unlocked runnable =>
    exact alert.rests rfl (fun _ => sleeping_of_update (by simp)) rfl rfl
  | resume on here alive => exact alert.resume _ _
  | yield on here unlocked | claim on here inside unlocked unused | start on here unlocked
  | zombie on here unlocked =>
    exact alert.moves rfl (fun _ => sleeping_of_update (by simp)) rfl rfl (by simp)
  | sleep n on here plain unlocked => exact alert.sleep n
  | abandon on here | reap on here mine unlocked dead =>
    exact (alert.freeproc _).moves rfl (fun _ sleeps => sleeps) rfl rfl (by simp)
  | @allocated c j np on here =>
    have idle : Alert (w.setPc np (.saved false .user)) :=
      alert.moves rfl (fun _ sleeps => sleeps) rfl rfl (by simp)
    exact idle.moves rfl (fun _ sleeps => sleeps) rfl rfl (by simp)
  | wake on here unlocked | wakeInit on here unlocked | wakeParent on here unlocked =>
    exact (alert.wakeOne _ _).moves rfl (fun _ sleeps => sleeps) rfl rfl (by simp)
  | interrupt n unlocked => exact alert.wakeOne _ _
  | _ => exact alert.moves rfl (fun _ sleeps => sleeps) rfl rfl (by simp)

end
end Step

/-- In every run in which kkill spares the processes that are about to sleep. -/
theorem alert_run {events : List Event} (spares : Machine.Along step SparesDozing init events) :
    Alert (Machine.run step init events) := by
  have inv := Machine.along_invariant step (P := fun w => w.scheduled ∧ Alert w)
    (fun w e ok inv => by
      have cases := step_cases w e
      exact ⟨inv.1.step cases, inv.2.step inv.1 (fun i hit => ok i (by simp [hit])) cases⟩)
    ⟨scheduled_init, alert_init⟩ spares
  exact inv.2

end Xv6Lab.Proc
