import Xv6Lab.Proc.Scheduling

/-!
Every step keeps the scheduling invariant.
-/

namespace Xv6Lab.Proc

variable {w w' : World} {i c j : Nat} {q : Pc} {v : Option Nat}

theorem wakeOne_state (chan : Option Chan) (i : Nat) (w : World) :
    (wakeOne chan i w).state = if w.state i = .sleeping ∧ w.chan i = chan
      then Function.update w.state i .runnable else w.state := by
  unfold wakeOne
  split_ifs <;> rfl

theorem wakeOne_eq (chan : Option Chan) (i : Nat) (w : World) :
    wakeOne chan i w = { w with state := (wakeOne chan i w).state } := by
  unfold wakeOne
  split_ifs <;> rfl

theorem wakeOne_pc (chan : Option Chan) (i : Nat) (w : World) : (wakeOne chan i w).pc = w.pc := by
  rw [wakeOne_eq]

section
variable (inv : w.scheduled)
include inv

section
variable (unlocked : w.plock i = none)
include unlocked

theorem World.scheduled.wakes (asleep : w.state i = .sleeping) :
    Scheduled (Function.update w.state i .runnable) w.plock w.cpuProc w.exec w.pc :=
  inv.setState (inv.off (by simp [asleep]) (.inl unlocked)) (by simp)
    (inv.settled (by simp [asleep]))

theorem World.scheduled.wakeOne (chan : Option Chan) : (Proc.wakeOne chan i w).scheduled := by
  rw [wakeOne_eq, wakeOne_state]
  split_ifs with asleep
  · exact inv.wakes unlocked asleep.1
  · exact inv

theorem World.scheduled.killOne : (Proc.killOne i w).scheduled := by
  unfold World.scheduled Proc.killOne
  split_ifs with asleep
  · exact inv.wakes unlocked asleep
  · exact inv

end

theorem World.scheduled.moves {p : Pc}
    (on : w.exec c = .thread j) (here : w.pc j = q) (before : q.working) (after : p.working)
    (plain : p.child = none) : (w.setPc j p).scheduled := by
  refine Scheduled.setPc inv on (here ▸ before) after (by simp [plain]) ?_
  rintro np rfl
  simp [Pc.child] at plain

theorem World.scheduled.step (h : Step w v w') : w'.scheduled := by
  cases h with
  | idle => exact inv
  | panic => exact inv
  | search next here => exact Scheduled.search inv here
  | dispatch here unlocked runnable => exact Scheduled.dispatch inv here unlocked runnable
  | enter here => exact Scheduled.enter inv here
  | drop here => exact Scheduled.drop inv here
  | swtch on here => exact Scheduled.swtch inv on here
  | resume on here alive => exact Scheduled.resume inv on here
  | yield on here unlocked => exact Scheduled.park inv on rfl (by simp [World.acquire, here, Pc.child])
  | sleep n on here plain unlocked | zombie on here unlocked | doze on here unlocked =>
    exact Scheduled.park inv on rfl (by simp [Code.child])
  | walk next on here before after init => exact inv.moves on here rfl rfl after
  | claim on here inside unlocked unused =>
    exact Scheduled.claim inv on (here ▸ rfl) unused
  | abandon on here => exact Scheduled.abandon inv on here
  | allocated on here => exact Scheduled.allocated inv on here
  | publish on here unlocked =>
    exact Scheduled.setPc inv on (here ▸ rfl) rfl (by simp [here, Pc.child, Code.child]) (by simp)
  | start on here unlocked => exact Scheduled.start inv on here
  | @wake c j k n on here unlocked =>
    have woken := inv.wakeOne unlocked (some (.other n))
    rw [wakeOne_eq] at woken ⊢
    exact World.scheduled.moves woken on here rfl rfl rfl
  | interrupt n unlocked => exact inv.wakeOne unlocked _
  | kill on here unlocked found hit =>
    exact (inv.killOne unlocked).moves on here rfl rfl rfl
  | setkilled on here => exact inv
  | exit on here unlocked | pass on here other | adopt on here inside mine
  | reparented on here done | passInit on here mine | wokenInit on here done
  | passParent on here mine | wokenParent on here done | wait on here unlocked
  | scan next on here alive | scanned on here done | unkilled on here alive =>
    exact inv.moves on here rfl rfl rfl
  | wakeInit on here unlocked =>
    have woken := inv.wakeOne unlocked (some (.proc initproc))
    rw [wakeOne_eq] at woken ⊢
    exact World.scheduled.moves woken on here rfl rfl rfl
  | @wakeParent c j k status parent on here unlocked =>
    have woken := inv.wakeOne unlocked (parent.map .proc)
    rw [wakeOne_eq] at woken ⊢
    exact World.scheduled.moves woken on here rfl rfl rfl
  | giveUp on here =>
    rcases here with ⟨i, havekids, here⟩ | here
    · exact inv.moves on here rfl rfl rfl
    · exact inv.moves on here rfl rfl rfl
  | @reap c j i addr havekids on here mine unlocked dead =>
    have freed : (Proc.reap addr i w).scheduled :=
      Scheduled.setState inv (inv.off (by simp [dead]) (.inl unlocked)) (by simp)
        (inv.settled (by simp [dead]))
    exact freed.moves on here rfl rfl rfl

end

def lawful : ProcState → ProcState → Bool
  | .runnable, .running => true
  | .running, .runnable | .running, .sleeping | .running, .zombie => true
  | .sleeping, .runnable => true
  | .unused, .used | .used, .runnable | .used, .unused => true
  | .zombie, .unused => true
  | _, _ => false

/-- The state of slot j stays, or changes in a lawful way; a slot that is freed is on no CPU. -/
def Changed (w w' : World) (j : Nat) : Prop :=
  w'.state j = w.state j ∨
    (lawful (w.state j) (w'.state j) ∧ (w'.state j = .unused → ∀ c, (w.exec c).proc ≠ some j))

theorem changed_update {s : ProcState} (state : w'.state = Function.update w.state i s)
    (legal : lawful (w.state i) s) (off : s = .unused → ∀ c, (w.exec c).proc ≠ some i) (j : Nat) :
    Changed w w' j := by
  by_cases same : j = i
  · subst same
    exact .inr ⟨by simpa [state] using legal, fun freed => off (by simpa [state] using freed)⟩
  · exact .inl (by simp [state, same])

theorem changed_wakeOne (chan : Option Chan) (i j : Nat) : Changed w (wakeOne chan i w) j := by
  have state := wakeOne_state chan i w
  by_cases asleep : w.state i = .sleeping ∧ w.chan i = chan
  · rw [if_pos asleep] at state
    exact changed_update state (by simp [asleep.1, lawful]) (by simp) j
  · rw [if_neg asleep] at state
    exact .inl (by rw [state])

theorem World.scheduled.state_of_working (inv : w.scheduled)
    (on : w.exec c = .thread j) (here : w.pc j = q) (working : q.working) : w.state j = .running :=
  inv.running_of_working on (here ▸ working)

theorem World.scheduled.changed (inv : w.scheduled) (h : Step w v w') (j : Nat) :
    Changed w w' j := by
  cases h with
  | dispatch here unlocked runnable =>
    exact changed_update rfl (by simp [runnable, lawful]) (by simp) j
  | yield on here unlocked | sleep n on here plain unlocked | zombie on here unlocked
  | doze on here unlocked =>
    exact changed_update rfl (by simp [inv.state_of_working on here rfl, lawful]) (by simp) j
  | claim on here inside unlocked unused =>
    exact changed_update rfl (by simp [unused, lawful]) (by simp) j
  | @abandon c i np on here =>
    have used := inv.child i np (by simp [here, Pc.child])
    exact changed_update rfl (by simp [used, lawful])
      (fun _ => inv.off (by simp [used]) (.inr (by simp [used, ProcState.parked]))) j
  | @start c i np on here unlocked =>
    have used := inv.child i np (by simp [here, Pc.child, Code.child])
    exact changed_update rfl (by simp [used, lawful]) (by simp) j
  | wake on here unlocked | interrupt n unlocked | wakeInit on here unlocked
  | wakeParent on here unlocked =>
    exact changed_wakeOne _ _ j
  | @kill c k i pid on here unlocked found =>
    by_cases asleep : w.state i = .sleeping
    · exact changed_update (i := i) (s := .runnable) (by simp [World.setPc, Proc.killOne, asleep])
        (by simp [asleep, lawful]) (by simp) j
    · exact .inl (by simp [World.setPc, Proc.killOne, asleep])
  | reap on here mine unlocked dead =>
    exact changed_update rfl (by simp [dead, lawful])
      (fun _ => inv.off (by simp [dead]) (.inl unlocked)) j
  | _ => exact .inl rfl

/-- What the scheduler guarantees in a world and for the step after it. freeproc
is what makes a slot unused. -/
structure Exclusive (w : World) : Prop where
  unique : ∀ c c' j, w.cpuProc c = some j → w.cpuProc c' = some j → c = c'
  running : ∀ j, w.state j = .running → ∃ c, w.cpuProc c = some j
  transition : ∀ e j, (step w e).state j = w.state j ∨ lawful (w.state j) ((step w e).state j)
  freed : ∀ e j, w.state j ≠ .unused → (step w e).state j = .unused →
    ∀ c, w.exec c ≠ .thread j ∧ w.cpuProc c ≠ some j

theorem World.scheduled.exclusive (inv : w.scheduled) : Exclusive w where
  unique c c' j on on' := inv.one c c' j (inv.cpu c ▸ on) (inv.cpu c' ▸ on')
  running j runs := by
    obtain ⟨c, on⟩ := inv.running j runs
    exact ⟨c, by rw [inv.cpu, on]⟩
  transition e j := (inv.changed (step_cases w e) j).imp_right And.left
  freed e j busy freed c := by
    rcases inv.changed (step_cases w e) j with same | ⟨-, off⟩
    · exact absurd (same ▸ freed) busy
    · refine ⟨?_, inv.cpu c ▸ off freed c⟩
      intro on
      exact off freed c (by simp [on, Exec.proc])

theorem scheduling_exclusive (events : List Event) : Exclusive (Machine.run step init events) := by
  have inv := Machine.run_invariant step (P := World.scheduled)
    (fun w e inv => inv.step (step_cases w e)) scheduled_init events
  exact inv.exclusive

-- the first process is switched in and forks
example : (Machine.run step init (List.replicate 3 (.cpu 0 .go) ++ [.cpu 0 .fork] ++
    List.replicate 5 (.cpu 0 .go))).state 1 = .runnable := by decide +kernel

end Xv6Lab.Proc
