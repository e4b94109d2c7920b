import Xv6Lab.Proc.Model

/-!
What one step can do: every section of the model with what it has checked.
-/

namespace Xv6Lab.Proc
open Function (update)
variable {i : Nat}

def Code.child : Code → Option Nat
  | .publish np | .start np => some np
  | _ => none

def Pc.child : Pc → Option Nat
  | .free code | .leave _ code | .saved _ code => code.child
  | .found np => some np
  | _ => none

def Code.target : Code → Option (BitVec 32 × Nat)
  | .kill pid i => some (pid, i)
  | _ => none

def Pc.target : Pc → Option (BitVec 32 × Nat)
  | .free code => code.target
  | _ => none

def victim (w : World) : Event → Option Nat
  | .cpu c choice =>
    match w.exec c with
    | .thread j =>
      (w.pc j).target.bind fun (pid, i) =>
        if w.panicked = false ∧ choice ≠ .preempt ∧ i < NPROC ∧ w.plock i = none ∧ w.pid i = pid
        then some i else none
    | .scan _ | .into _ | .back _ => none
  | .interrupt _ _ => none

inductive Step (w : World) (v : Option Nat) : World → Prop
  | idle : Step w v w
  | panic : Step w v w.panic
  -- the scheduler
  | search {c i : Nat} (next : Nat) (here : w.exec c = .scan i) : Step w v (w.setExec c (.scan next))
  | dispatch {c i : Nat} (here : w.exec c = .scan i) (unlocked : w.plock i = none)
      (runnable : w.state i = .runnable) :
      Step w v (({ w with
        state := update w.state i .running
        cpuProc := update w.cpuProc c (some i) }.acquire i c).setExec c (.into i))
  | enter {c i : Nat} (here : w.exec c = .into i) : Step w v (w.setExec c (.thread i))
  | drop {c i : Nat} (here : w.exec c = .back i) :
      Step w v (({ w with cpuProc := update w.cpuProc c none }.release i).setExec c
        (.scan (i + 1)))
  -- sched and what follows it
  | swtch {c j : Nat} {slept : Bool} {code : Code} (on : w.exec c = .thread j)
      (here : w.pc j = .leave slept code) :
      Step w v ((w.setPc j (.saved slept code)).setExec c (.back j))
  | resume {c j : Nat} {slept : Bool} {code : Code} (on : w.exec c = .thread j)
      (here : w.pc j = .saved slept code) (alive : code ≠ .dead) :
      Step w v (({ w with
        chan := if slept then update w.chan j none else w.chan }.release j).setPc j
          (.free code))
  | yield {c j : Nat} {code : Code} (on : w.exec c = .thread j) (here : w.pc j = .free code)
      (unlocked : w.plock j = none) : Step w v (park c j .runnable false code w)
  | sleep {c j : Nat} {code : Code} (n : Nat) (on : w.exec c = .thread j)
      (here : w.pc j = .free code) (plain : code = .user) (unlocked : w.plock j = none) :
      Step w v (park c j .sleeping true .user
        { w with chan := update w.chan j (some (.other n)) })
  -- moves of a thread without a lock that change nothing else
  | walk {c j : Nat} {code : Code} (next : Code) (on : w.exec c = .thread j)
      (here : w.pc j = .free code) (before : code.child = none) (after : next.child = none)
      (init : ∀ status, next = .exit status → j ≠ initproc) : Step w v (w.setPc j (.free next))
  -- kfork
  | claim {c j i : Nat} (on : w.exec c = .thread j) (here : w.pc j = .free (.alloc i))
      (inside : i < NPROC) (unlocked : w.plock i = none) (unused : w.state i = .unused) :
      Step w v (((claim i w).acquire i c).setPc j (.found i))
  | abandon {c j np : Nat} (on : w.exec c = .thread j) (here : w.pc j = .found np) :
      Step w v (((freeproc np w).release np).setPc j (.free .user))
  | allocated {c j np : Nat} (on : w.exec c = .thread j) (here : w.pc j = .found np) :
      Step w v (((w.setPc np (.saved false .user)).release np).setPc j (.free (.publish np)))
  | publish {c j np : Nat} (on : w.exec c = .thread j) (here : w.pc j = .free (.publish np))
      (unlocked : w.waitLock = none) :
      Step w v ({ w with parent := update w.parent np (some j) }.setPc j
        (.free (.start np)))
  | start {c j np : Nat} (on : w.exec c = .thread j) (here : w.pc j = .free (.start np))
      (unlocked : w.plock np = none) :
      Step w v ({ w with state := update w.state np .runnable }.setPc j (.free .user))
  -- wakeup, kkill and setkilled
  | wake {c j k : Nat} {n : Nat} (on : w.exec c = .thread j) (here : w.pc j = .free (.wake n k))
      (unlocked : w.plock k = none) :
      Step w v ((wakeOne (some (.other n)) k w).setPc j (.free (.wake n (k + 1))))
  | interrupt (n : Nat) {i : Nat} (unlocked : w.plock i = none) :
      Step w v (wakeOne (some (.other n)) i w)
  | kill {c j i : Nat} {pid : BitVec 32} (on : w.exec c = .thread j)
      (here : w.pc j = .free (.kill pid i)) (unlocked : w.plock i = none)
      (found : w.pid i = pid) (hit : v = some i) :
      Step w v ((killOne i w).setPc j (.free .user))
  | setkilled {c j : Nat} (on : w.exec c = .thread j) (here : w.pc j = .free .user) :
      Step w v { w with killed := update w.killed j true }
  -- kexit
  | exit {c j : Nat} {status : Int} (on : w.exec c = .thread j)
      (here : w.pc j = .free (.exit status)) (unlocked : w.waitLock = none) :
      Step w v ((w.acquireWait c).setPc j (.reparent status 0))
  | pass {c j i : Nat} {status : Int} (on : w.exec c = .thread j)
      (here : w.pc j = .reparent status i) (other : w.parent i ≠ some j) :
      Step w v (w.setPc j (.reparent status (i + 1)))
  | adopt {c j i : Nat} {status : Int} (on : w.exec c = .thread j)
      (here : w.pc j = .reparent status i) (inside : i < NPROC) (mine : w.parent i = some j) :
      Step w v ({ w with parent := update w.parent i (some initproc) }.setPc j
        (.wakeInit status i 0))
  | reparented {c j i : Nat} {status : Int} (on : w.exec c = .thread j)
      (here : w.pc j = .reparent status i) (done : NPROC ≤ i) :
      Step w v (w.setPc j (.wakeParent status (w.parent j) 0))
  | passInit {c j i k : Nat} {status : Int} (on : w.exec c = .thread j)
      (here : w.pc j = .wakeInit status i k) (mine : k = j) :
      Step w v (w.setPc j (.wakeInit status i (k + 1)))
  | wakeInit {c j i k : Nat} {status : Int} (on : w.exec c = .thread j)
      (here : w.pc j = .wakeInit status i k) (unlocked : w.plock k = none) :
      Step w v ((wakeOne (some (.proc initproc)) k w).setPc j (.wakeInit status i (k + 1)))
  | wokenInit {c j i k : Nat} {status : Int} (on : w.exec c = .thread j)
      (here : w.pc j = .wakeInit status i k) (done : NPROC ≤ k) :
      Step w v (w.setPc j (.reparent status (i + 1)))
  | passParent {c j k : Nat} {status : Int} {parent : Option Nat} (on : w.exec c = .thread j)
      (here : w.pc j = .wakeParent status parent k) (mine : k = j) :
      Step w v (w.setPc j (.wakeParent status parent (k + 1)))
  | wakeParent {c j k : Nat} {status : Int} {parent : Option Nat} (on : w.exec c = .thread j)
      (here : w.pc j = .wakeParent status parent k) (unlocked : w.plock k = none) :
      Step w v ((wakeOne (parent.map .proc) k w).setPc j (.wakeParent status parent (k + 1)))
  | wokenParent {c j k : Nat} {status : Int} {parent : Option Nat} (on : w.exec c = .thread j)
      (here : w.pc j = .wakeParent status parent k) (done : NPROC ≤ k) :
      Step w v (w.setPc j (.zombie status))
  | zombie {c j : Nat} {status : Int} (on : w.exec c = .thread j) (here : w.pc j = .zombie status)
      (unlocked : w.plock j = none) :
      Step w v (park c j .zombie false .dead
        { w with
          xstate := update w.xstate j status
          waitLock := none
          exits := ⟨w.stamp j, w.pid j, status⟩ :: w.exits })
  -- kwait
  | wait {c j : Nat} {addr : Bool} (on : w.exec c = .thread j) (here : w.pc j = .free (.wait addr))
      (unlocked : w.waitLock = none) :
      Step w v ((w.acquireWait c).setPc j (.scan addr 0 false))
  | scan {c j i : Nat} {addr havekids : Bool} (next : Bool) (on : w.exec c = .thread j)
      (here : w.pc j = .scan addr i havekids) (alive : w.parent i = some j → w.state i ≠ .zombie) :
      Step w v (w.setPc j (.scan addr (i + 1) next))
  | scanned {c j i : Nat} {addr havekids : Bool} (on : w.exec c = .thread j)
      (here : w.pc j = .scan addr i havekids) (done : NPROC ≤ i) :
      Step w v (w.setPc j (.killed addr))
  | giveUp {c j : Nat} {addr : Bool} (on : w.exec c = .thread j)
      (here : (∃ i havekids, w.pc j = .scan addr i havekids) ∨ w.pc j = .killed addr) :
      Step w v (w.releaseWait.setPc j (.free .user))
  | reap {c j i : Nat} {addr havekids : Bool} (on : w.exec c = .thread j)
      (here : w.pc j = .scan addr i havekids) (mine : w.parent i = some j)
      (unlocked : w.plock i = none) (dead : w.state i = .zombie) :
      Step w v ((reap addr i w).releaseWait.setPc j (.free .user))
  | unkilled {c j : Nat} {addr : Bool} (on : w.exec c = .thread j) (here : w.pc j = .killed addr)
      (alive : w.killed j = false) :
      Step w v (w.setPc j (.doze addr))
  | doze {c j : Nat} {addr : Bool} (on : w.exec c = .thread j) (here : w.pc j = .doze addr)
      (unlocked : w.plock j = none) :
      Step w v (park c j .sleeping true (.wait addr)
        { w with waitLock := none, chan := update w.chan j (some (.proc j)) })

section Cases
variable {w : World} {v : Option Nat} {c j : Nat}

theorem schedulerStep_cases (here : w.exec c = .scan i) : Step w v (schedulerStep c i w) := by
  unfold schedulerStep
  split_ifs with outside locked runnable
  · exact .search 0 here
  · exact .idle
  · exact .dispatch here (by simpa using locked) runnable
  · exact .search (i + 1) here

theorem callStep_cases (choice : Choice) (on : w.exec c = .thread j)
    (here : w.pc j = .free .user) : Step w v (callStep c j choice w) := by
  cases choice <;> simp only [callStep]
  case fork => exact .walk _ on here rfl rfl (by simp)
  case exit status =>
      split_ifs with first
      · exact .panic
      · exact .walk _ on here rfl rfl fun _ _ => first
  case wait addr => exact .walk _ on here rfl rfl (by simp)
  case sleep n =>
      split_ifs with locked
      · exact .idle
      · exact .sleep n on here rfl (by simpa using locked)
  case wakeup n => exact .walk _ on here rfl rfl (by simp)
  case kill pid => exact .walk _ on here rfl rfl (by simp)
  case setkilled =>
      split_ifs
      · exact .idle
      · exact .setkilled on here
  all_goals exact .idle

theorem allocStep_cases (on : w.exec c = .thread j)
    (here : w.pc j = .free (.alloc i)) : Step w v (allocStep c j i w) := by
  unfold allocStep
  split_ifs with outside locked unused
  · exact .walk _ on here rfl rfl (by simp)
  · exact .idle
  · exact .claim on here (by omega) (by simpa using locked) unused
  · exact .walk _ on here rfl rfl (by simp)

theorem killStep_cases {pid : BitVec 32} (on : w.exec c = .thread j)
    (here : w.pc j = .free (.kill pid i))
    (hit : i < NPROC → w.plock i = none → w.pid i = pid → v = some i) :
    Step w v (killStep j pid i w) := by
  unfold killStep
  split_ifs with outside locked found
  · exact .walk _ on here rfl rfl (by simp)
  · exact .idle
  · have unlocked : w.plock i = none := by simpa using locked
    exact .kill on here unlocked found (hit (by omega) unlocked found)
  · exact .walk _ on here rfl rfl (by simp)

theorem wakeStep_cases {chan : Option Chan} {k : Nat} {next done : Pc}
    (finish : NPROC ≤ k → Step w v (w.setPc j done)) (mine : k = j → Step w v (w.setPc j next))
    (other : w.plock k = none → Step w v ((wakeOne chan k w).setPc j next)) :
    Step w v (wakeStep j chan k next done w) := by
  unfold wakeStep
  split_ifs with outside self locked
  · exact finish outside
  · exact mine self
  · exact .idle
  · exact other (by simpa using locked)

theorem codeStep_cases {code : Code} (choice : Choice) (on : w.exec c = .thread j)
    (here : w.pc j = .free code)
    (hit : ∀ pid i, code = .kill pid i → i < NPROC → w.plock i = none → w.pid i = pid →
      v = some i) : Step w v (codeStep c j code choice w) := by
  cases code with
  | user => exact callStep_cases choice on here
  | alloc i => exact allocStep_cases on here
  | publish np =>
    simp only [codeStep]
    split_ifs with locked
    · exact .idle
    · exact .publish on here (by simpa using locked)
  | start np =>
    simp only [codeStep]
    split_ifs with locked
    · exact .idle
    · exact .start on here (by simpa using locked)
  | exit status =>
    simp only [codeStep]
    split_ifs with locked
    · exact .idle
    · exact .exit on here (by simpa using locked)
  | wait addr =>
    simp only [codeStep]
    split_ifs with locked
    · exact .idle
    · exact .wait on here (by simpa using locked)
  | wake n i =>
    exact wakeStep_cases (fun _ => .walk _ on here rfl rfl (by simp))
      (fun _ => .walk _ on here rfl rfl (by simp)) (fun unlocked => .wake on here unlocked)
  | kill pid i => exact killStep_cases on here (hit pid i rfl)
  | dead => exact .idle

theorem reparentStep_cases {status : Int} (on : w.exec c = .thread j)
    (here : w.pc j = .reparent status i) : Step w v (reparentStep j status i w) := by
  unfold reparentStep
  split_ifs with outside mine
  · exact .reparented on here outside
  · exact .adopt on here (by omega) mine
  · exact .pass on here mine

theorem scanStep_cases {addr havekids : Bool} (choice : Choice) (on : w.exec c = .thread j)
    (here : w.pc j = .scan addr i havekids) : Step w v (scanStep j addr i havekids choice w) := by
  unfold scanStep
  split_ifs with outside kids stranger locked alive failed
  · exact .scanned on here outside
  · exact .giveUp on (.inl ⟨_, _, here⟩)
  · exact .scan _ on here fun mine => absurd mine stranger
  · exact .idle
  · exact .scan _ on here fun _ => alive
  · exact .giveUp on (.inl ⟨_, _, here⟩)
  · exact .reap on here (by simpa using stranger) (by simpa using locked) (by simpa using alive)

theorem threadStep_cases (choice : Choice) (on : w.exec c = .thread j)
    (hit : ∀ pid i, w.pc j = .free (.kill pid i) → choice ≠ .preempt → i < NPROC →
      w.plock i = none → w.pid i = pid → v = some i) : Step w v (threadStep c j choice w) := by
  cases here : w.pc j with
  | free code =>
    simp only [threadStep, here]
    split_ifs with preempt locked
    · exact .idle
    · exact .yield on here (by simpa using locked)
    · exact codeStep_cases choice on here fun pid i kills => hit pid i (by rw [here, kills]) preempt
  | leave slept code =>
    simp only [threadStep, here]
    exact .swtch on here
  | saved slept code =>
    simp only [threadStep, here, resume]
    by_cases dead : code = .dead
    · rw [if_pos dead]
      exact .panic
    · rw [if_neg dead]
      exact .resume on here dead
  | found np =>
    simp only [threadStep, here, foundStep]
    split_ifs
    · exact .abandon on here
    · exact .allocated on here
  | reparent status i =>
    simp only [threadStep, here]
    exact reparentStep_cases on here
  | wakeInit status i k =>
    simp only [threadStep, here]
    exact wakeStep_cases (.wokenInit on here) (.passInit on here) (.wakeInit on here)
  | wakeParent status parent k =>
    simp only [threadStep, here]
    exact wakeStep_cases (.wokenParent on here) (.passParent on here) (.wakeParent on here)
  | zombie status =>
    simp only [threadStep, here, zombieStep]
    split_ifs with locked
    · exact .idle
    · exact .zombie on here (by simpa using locked)
  | scan addr i havekids =>
    simp only [threadStep, here]
    exact scanStep_cases choice on here
  | killed addr =>
    simp only [threadStep, here, killedStep]
    split_ifs
    · exact .idle
    · exact .giveUp on (.inr here)
    · next alive => exact .unkilled on here (by simpa using alive)
  | doze addr =>
    simp only [threadStep, here, dozeStep]
    split_ifs with locked
    · exact .idle
    · exact .doze on here (by simpa using locked)

end Cases

theorem step_cases (w : World) (e : Event) : Step w (victim w e) (step w e) := by
  cases e with
  | cpu c choice =>
    simp only [step]
    split_ifs with panicked
    · exact .idle
    · cases here : w.exec c with
      | scan i =>
        simp only [cpuStep, here]
        exact schedulerStep_cases here
      | into i =>
        simp only [cpuStep, here]
        exact .enter here
      | thread j =>
        simp only [cpuStep, here]
        refine threadStep_cases choice here fun pid i kills going inside unlocked found => ?_
        simp [victim, here, kills, Pc.target, Code.target, panicked, going, inside, unlocked, found]
      | back i =>
        simp only [cpuStep, here]
        exact .drop here
  | interrupt n i =>
    simp only [step]
    split_ifs with blocked
    · exact .idle
    · exact .interrupt n (by simpa using (not_or.mp blocked).2)

end Xv6Lab.Proc
