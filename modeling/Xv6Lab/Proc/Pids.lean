import Xv6Lab.Proc.Ledger

/-!
The numbers allocpid hands out. nextpid is an int that only grows.
-/

namespace Xv6Lab.Proc
open Function (update update_self)
variable {n : Nat} {s : ProcState} {v : Option Nat} {e : Event}

def pidOf (stamp : Nat) : BitVec 32 := BitVec.ofNat 32 (stamp + 1)

theorem pidOf_succ (stamp : Nat) : pidOf (stamp + 1) = pidOf stamp + 1 := BitVec.ofNat_add _ 1

theorem pidOf_pos_iff (below : n < 2 ^ 31) : 0 < (pidOf n).toInt ↔ n + 1 < 2 ^ 31 := by
  rw [pidOf, BitVec.toInt_eq_toNat_cond, BitVec.toNat_ofNat]
  split_ifs <;> omega

theorem pidOf_inj {m : Nat} (small : m + 1 < 2 ^ 31) (small' : n + 1 < 2 ^ 31)
    (same : pidOf m = pidOf n) : m = n := by
  have values := congrArg BitVec.toNat same
  rw [pidOf, pidOf, BitVec.toNat_ofNat, BitVec.toNat_ofNat] at values
  omega

structure Numbered (state : Nat → ProcState) (pid : Nat → BitVec 32) (stamp : Nat → Nat) : Prop where
  own : ∀ j, state j ≠ .unused → pid j = pidOf (stamp j)

def World.numbered (w : World) : Prop :=
  w.nextpid = pidOf w.births ∧ Numbered w.state w.pid w.stamp

theorem numbered_init : init.numbered := by
  refine ⟨rfl, ⟨fun j used => ?_⟩⟩
  by_cases first : j = initproc
  · simp [init, first, pidOf]
  · simp [init, first] at used

section Moves
variable {state : Nat → ProcState} {pid : Nat → BitVec 32} {stamp : Nat → Nat} {i : Nat}

section
variable (inv : Numbered state pid stamp)
include inv

theorem Numbered.setState (before : state i ≠ .unused) : Numbered (update state i s) pid stamp := by
  refine ⟨fun j used => inv.own j ?_⟩
  by_cases same : j = i
  · exact same ▸ before
  · simpa [same] using used

theorem Numbered.claim {births : Nat} {n : BitVec 32} (next : n = pidOf births) :
    Numbered (update state i .used) (update pid i n) (update stamp i births) := by
  refine ⟨fun j used => ?_⟩
  by_cases same : j = i
  · simp [same, next]
  · simpa [same] using inv.own j (by simpa [same] using used)

theorem Numbered.free {n : BitVec 32} :
    Numbered (update state i .unused) (update pid i n) stamp := by
  refine ⟨fun j used => ?_⟩
  have other : j ≠ i := by
    rintro rfl
    simp at used
  simpa [other] using inv.own j (by simpa [other] using used)

end
end Moves

variable {w w' : World}

section
variable (inv : w.numbered)
include inv

theorem World.numbered.parks (sched : w.scheduled) {c j : Nat} {q : Pc} (on : w.exec c = .thread j)
    (here : w.pc j = q) (working : q.working) : Numbered (update w.state j s) w.pid w.stamp := by
  have running := sched.state_of_working on here working
  exact inv.2.setState (by simp [running])

theorem World.numbered.wakeOne (chan : Option Chan) (i : Nat) :
    (Proc.wakeOne chan i w).numbered := by
  rw [wakeOne_eq, wakeOne_state]
  split_ifs with asleep
  · exact ⟨inv.1, inv.2.setState (by simp [asleep.1])⟩
  · exact inv

theorem World.numbered.killOne (i : Nat) : (Proc.killOne i w).numbered := by
  unfold World.numbered Proc.killOne
  split_ifs with asleep
  · exact ⟨inv.1, inv.2.setState (by simp [asleep])⟩
  · exact inv

theorem World.numbered.step (sched : w.scheduled) (h : Step w v w') : w'.numbered := by
  cases h with
  | dispatch here unlocked runnable => exact ⟨inv.1, inv.2.setState (by simp [runnable])⟩
  | yield on here unlocked | sleep n on here plain unlocked | zombie on here unlocked
  | doze on here unlocked =>
    exact ⟨inv.1, inv.parks sched on here rfl⟩
  | claim on here inside unlocked unused =>
    refine ⟨?_, inv.2.claim inv.1⟩
    change w.nextpid + 1 = pidOf (w.births + 1)
    rw [inv.1, pidOf_succ]
  | abandon on here => exact ⟨inv.1, inv.2.free⟩
  | @start c j np on here unlocked =>
    have used := sched.child j np (by simp [here, Pc.child, Code.child])
    exact ⟨inv.1, inv.2.setState (by simp [used])⟩
  | wake on here unlocked | interrupt n unlocked | wakeInit on here unlocked
  | wakeParent on here unlocked =>
    exact inv.wakeOne _ _
  | kill on here unlocked found hit => exact inv.killOne _
  | reap on here mine unlocked dead => exact ⟨inv.1, inv.2.free⟩
  | _ => exact inv

end

theorem Step.nextpid (h : Step w v w') : (w'.nextpid = w.nextpid ∧ w'.births = w.births) ∨
      (w'.nextpid = w.nextpid + 1 ∧ w'.births = w.births + 1) ∧
        ∃ i, w'.state i = .used ∧ w'.pid i = w.nextpid := by
  cases h with
  | @claim c j i on here inside unlocked unused =>
    exact .inr ⟨⟨rfl, rfl⟩, i, update_self .., update_self ..⟩
  | wake on here unlocked | interrupt n unlocked | wakeInit on here unlocked
  | wakeParent on here unlocked =>
    exact .inl (by rw [wakeOne_eq]; exact ⟨rfl, rfl⟩)
  | _ => exact .inl ⟨rfl, rfl⟩

structure PidsUnique (w : World) : Prop where
  positive : ∀ i, w.state i ≠ .unused → 0 < (w.pid i).toInt
  distinct : ∀ i j, w.state i ≠ .unused → w.state j ≠ .unused → w.pid i = w.pid j → i = j
  /-- A thread in kfork, at the process whose pid it will return. -/
  returned : ∀ j np, (w.pc j).child = some np → w.pid np ≠ 0 ∧ w.pid np ≠ -1

def PidLeft (w : World) (e : Event) : Prop :=
  (step w e).nextpid = w.nextpid ∨ 0 < w.nextpid.toInt

structure Counting (w : World) : Prop where
  family : Family w
  numbered : w.numbered
  below : w.births < 2 ^ 31

section
variable (inv : Counting w)
include inv

theorem Counting.stamp_lt (i : Nat) : w.stamp i + 1 < 2 ^ 31 := by
  have fresh := inv.family.ledger.fresh i
  have below := inv.below
  omega

theorem Counting.positive {i : Nat} (used : w.state i ≠ .unused) : 0 < (w.pid i).toInt := by
  have small := inv.stamp_lt i
  rw [inv.numbered.2.own i used]
  exact (pidOf_pos_iff (by omega)).mpr small

theorem Counting.unique : PidsUnique w where
  positive _ used := inv.positive used
  distinct i j used used' same := by
    rw [inv.numbered.2.own i used, inv.numbered.2.own j used'] at same
    exact inv.family.ledger.distinct i j used used'
      (pidOf_inj (inv.stamp_lt i) (inv.stamp_lt j) same)
  returned j np creating := by
    have used := inv.family.scheduled.child j np creating
    have positive := inv.positive (i := np) (by simp [used])
    constructor <;> rintro value <;> simp [value] at positive

theorem Counting.step (left : PidLeft w e) : Counting (Proc.step w e) := by
  refine ⟨inv.family.step e, inv.numbered.step inv.family.scheduled (step_cases w e), ?_⟩
  rcases (step_cases w e).nextpid with ⟨-, births⟩ | ⟨⟨next, births⟩, -⟩
  · rw [births]
    exact inv.below
  · have positive := left.resolve_left (by rw [next]; simp)
    rw [inv.numbered.1, pidOf_pos_iff inv.below] at positive
    rw [births]
    exact positive

end

theorem not_unique_of_not_left (spent : ¬PidLeft w e) : ¬PidsUnique (Proc.step w e) := by
  intro unique
  rcases (step_cases w e).nextpid with ⟨next, -⟩ | ⟨-, i, used, given⟩
  · exact spent (.inl next)
  · have positive := unique.positive i (by simp [used])
    rw [given] at positive
    exact spent (.inr positive)

theorem counting_init : Counting init := ⟨family_init, numbered_init, by decide⟩

/-- The pids are unique in all states of a run exactly if allocpid never runs after nextpid has
passed the greatest int. -/
theorem pids_unique_iff (events : List Event) :
    (∀ n, PidsUnique (Machine.run step init (events.take n))) ↔
      Machine.Along step PidLeft init events :=
  Machine.always_iff_along step (fun _ inv => inv.unique) (fun _ _ inv left => inv.step left)
    (fun _ _ _ spent => not_unique_of_not_left spent) counting_init events

section Wraparound

/-- The first process calls fork when kalloc has no page: proc[0] is in use, proc[1]
is taken and given back. -/
def failedFork : List Event := [.cpu 0 .fork, .cpu 0 .go, .cpu 0 .go, .cpu 0 .fail]

def failedForks : Nat → List Event
  | 0 => List.replicate 3 (.cpu 0 .go)
  | n + 1 => failedForks n ++ failedFork

structure Alone (n : Nat) (w : World) : Prop where
  going : w.panicked = false
  on : w.exec 0 = .thread 0
  here : w.pc 0 = .free .user
  busy : w.state 0 ≠ .unused
  free : w.state 1 = .unused
  unlocked : w.plock 0 = none ∧ w.plock 1 = none
  next : w.nextpid = pidOf (n + 1)

theorem Alone.fork (alone : Alone n w) : Machine.run step w [.cpu 0 .fork, .cpu 0 .go, .cpu 0 .go] =
      ((claim 1 w).acquire 1 0).setPc 0 (.found 1) := by
  have inside : ¬NPROC ≤ 0 := by decide
  have inside' : ¬NPROC ≤ 1 := by decide
  simp [step, cpuStep, threadStep, codeStep, callStep, allocStep, World.setPc, claim,
    World.acquire, alone.going, alone.on, alone.here, alone.busy, alone.free, alone.unlocked.1,
    alone.unlocked.2, inside, inside']

theorem Alone.failedFork (alone : Alone n w) : Alone (n + 1) (Machine.run step w failedFork) := by
  have ended : Machine.run step w Proc.failedFork =
      step (((claim 1 w).acquire 1 0).setPc 0 (.found 1)) (.cpu 0 .fail) := by
    rw [← alone.fork]
    rfl
  have freed : Machine.run step w Proc.failedFork =
      ((freeproc 1 (((claim 1 w).acquire 1 0).setPc 0 (.found 1))).release 1).setPc 0
        (.free .user) := by
    rw [ended]
    simp [step, cpuStep, threadStep, foundStep, World.setPc, claim, World.acquire, alone.going,
      alone.on]
  rw [freed]
  refine ⟨alone.going, alone.on, rfl, ?_, rfl, ?_, ?_⟩
  · simpa [freeproc, claim, World.acquire, World.release, World.setPc] using alone.busy
  · simpa [freeproc, claim, World.acquire, World.release, World.setPc] using alone.unlocked.1
  · change w.nextpid + 1 = pidOf (n + 1 + 1)
    rw [alone.next, pidOf_succ (n + 1)]

theorem alone_failedForks (n : Nat) : Alone n (Machine.run step init (failedForks n)) := by
  induction n with
  | zero => constructor <;> decide
  | succ n ih =>
    rw [failedForks, Machine.run_append]
    exact ih.failedFork

theorem child_after_failedForks (n : Nat) :
    let w := Machine.run step init (failedForks n ++ [.cpu 0 .fork, .cpu 0 .go, .cpu 0 .go])
    w.pc 0 = .found 1 ∧ w.state 1 = .used ∧ w.pid 1 = pidOf (n + 1) := by
  have alone := alone_failedForks n
  rw [Machine.run_append, alone.fork]
  exact ⟨rfl, rfl, alone.next⟩

/-- After 2^31 - 2 failed forks the next child has a negative pid. -/
theorem pid_wraps_negative :
    ∃ events, let w := Machine.run step init events
      w.pc 0 = .found 1 ∧ w.state 1 = .used ∧ (w.pid 1).toInt = -2 ^ 31 ∧ ¬PidsUnique w := by
  -- n stays a variable: a run of that length is not to be computed
  obtain ⟨n, spent⟩ : ∃ n, n + 2 = 2 ^ 31 := ⟨2 ^ 31 - 2, rfl⟩
  obtain ⟨here, used, given⟩ := child_after_failedForks n
  refine ⟨_, here, used, ?_, ?_⟩
  · rw [given, pidOf, spent]
    decide
  · intro unique
    have positive := unique.positive 1 (by simp [used])
    rw [given, pidOf, spent] at positive
    exact absurd positive (by decide)

end Wraparound
end Xv6Lab.Proc
