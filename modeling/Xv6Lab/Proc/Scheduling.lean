import Xv6Lab.Proc.Steps

/-!
Scheduling exclusivity: a process is on at most one CPU.
-/

namespace Xv6Lab.Proc
open Function (update update_apply update_comm update_eq_self update_of_ne update_self)
variable {lock : Option Nat} {k np : Nat} {p : Pc} {s : ProcState} {slept : Bool} {code : Code}
  {l : Option Nat}

def Exec.proc : Exec → Option Nat
  | .scan _ => none
  | .into i | .thread i | .back i => some i

def Pc.isSaved : Pc → Bool
  | .saved _ _ => true
  | _ => false

def ProcState.parked : ProcState → Bool
  | .sleeping | .runnable | .zombie => true
  | _ => false

/-- A thread on the stack of CPU c. p->lock belongs to the CPU from the change of the state to
the scheduler, and from there to the release after sched. -/
def OnStack (c : Nat) (state : ProcState) (lock : Option Nat) : Pc → Prop
  | .leave _ _ => lock = some c ∧ state.parked
  | .saved _ _ => lock = some c ∧ state = .running
  | _ => state = .running

def Placed (c : Nat) (state : ProcState) (lock : Option Nat) (pc : Pc) : Exec → Prop
  | .scan _ => True
  | .into _ => lock = some c ∧ state = .running ∧ pc.isSaved
  | .thread _ => OnStack c state lock pc
  | .back _ => lock = some c ∧ state.parked ∧ pc.isSaved

structure Scheduled (state : Nat → ProcState) (plock cpuProc : Nat → Option Nat)
    (exec : Nat → Exec) (pc : Nat → Pc) : Prop where
  cpu : ∀ c, cpuProc c = (exec c).proc
  one : ∀ c c' j, (exec c).proc = some j → (exec c').proc = some j → c = c'
  placed : ∀ c j, (exec c).proc = some j → Placed c (state j) (plock j) (pc j) (exec c)
  running : ∀ j, state j = .running → ∃ c, (exec c).proc = some j
  active : ∀ j, ¬(pc j).isSaved → ∃ c, exec c = .thread j
  child : ∀ i np, (pc i).child = some np → state np = .used
  only : ∀ i i' np, (pc i).child = some np → (pc i').child = some np → i = i'
  locked : ∀ c i np, exec c = .thread i → pc i = .found np → plock np = some c

def World.scheduled (w : World) : Prop := Scheduled w.state w.plock w.cpuProc w.exec w.pc

theorem scheduled_init : init.scheduled where
  cpu _ := rfl
  one := by simp [init, Exec.proc]
  placed := by simp [init, Exec.proc]
  running j := by
    simp only [init, update_apply]
    split_ifs <;> simp
  active j := by
    simp only [init, update_apply]
    split_ifs <;> simp [Pc.isSaved]
  child i np := by
    simp only [init, update_apply]
    split_ifs <;> simp [Pc.child, Code.child]
  only i i' np := by
    simp only [init, update_apply]
    split_ifs <;> simp [Pc.child, Code.child]
  locked := by simp [init]

theorem OnStack.live {c : Nat} {state : ProcState} {pc : Pc} (stack : OnStack c state lock pc) :
    state = .running ∨ (lock = some c ∧ state.parked) := by
  cases pc with
  | leave slept code => exact .inr stack
  | saved slept code => exact .inl stack.2
  | _ => exact .inl stack

theorem Placed.live {c j : Nat} {state : ProcState} {pc : Pc} {exec : Exec}
    (on : exec.proc = some j) (placed : Placed c state lock pc exec) :
    state = .running ∨ (lock = some c ∧ state.parked) := by
  cases exec with
  | scan i => simp [Exec.proc] at on
  | into i => exact .inl placed.2.1
  | thread i => exact OnStack.live placed
  | back i => exact .inr ⟨placed.1, placed.2.1⟩

section Moves
variable {state : Nat → ProcState} {plock cpuProc : Nat → Option Nat} {exec : Nat → Exec}
  {pc : Nat → Pc} {c i j : Nat}

section
variable (inv : Scheduled state plock cpuProc exec pc)
include inv

theorem Scheduled.off (idle : state i ≠ .running)
    (unlocked : plock i = none ∨ ¬(state i).parked) (c : Nat) : (exec c).proc ≠ some i := by
  intro on
  rcases (inv.placed c i on).live on with running | ⟨locked, parked⟩
  · exact idle running
  · rcases unlocked with free | busy
    · simp [locked] at free
    · exact busy parked

section
variable (on : (exec c).proc = some j)
include on

theorem Scheduled.not_child (creates : (pc k).child = some np) : np ≠ j := by
  rintro rfl
  have used := inv.child k np creates
  rcases (inv.placed c np on).live on with running | ⟨-, parked⟩
  · simp [used] at running
  · simp [used, ProcState.parked] at parked

theorem Scheduled.inherits (child : ∀ np, p.child = some np → (pc j).child = some np) :
    ∀ np, p.child = some np → np ≠ j ∧ state np = .used ∧ ∀ k, k ≠ j → (pc k).child ≠ some np :=
  fun np creates => ⟨inv.not_child on (child np creates), inv.child j np (child np creates),
    fun k other creates' => other (inv.only k j np creates' (child np creates))⟩

theorem Scheduled.onCpu {e : Exec} (stays : e.proc = some j)
    (placed : Placed c s l p e) (active : ¬p.isSaved → e = .thread j)
    (child : ∀ np, p.child = some np →
      np ≠ j ∧ state np = .used ∧ ∀ k, k ≠ j → (pc k).child ≠ some np)
    (found : ∀ np, p = .found np → plock np = some c) :
    Scheduled (update state j s) (update plock j l) cpuProc (update exec c e) (update pc j p) := by
  have same_proc : ∀ c', (update exec c e c').proc = (exec c').proc := by
    intro c'
    by_cases same : c' = c
    · simp [same, on, stays]
    · simp [same]
  have elsewhere : ∀ c' k, c' ≠ c → (exec c').proc = some k → k ≠ j :=
    fun c' k other at_k same => other (inv.one c' c j (same ▸ at_k) on)
  refine ⟨?_, ?_, ?_, ?_, ?_, ?_, ?_, ?_⟩
  · intro c'
    rw [same_proc, inv.cpu]
  · intro c' c'' k here here'
    rw [same_proc] at here here'
    exact inv.one c' c'' k here here'
  · intro c' k here
    rw [same_proc] at here
    by_cases same : c' = c
    · subst same
      obtain rfl : j = k := by simpa [on] using here
      simpa using placed
    · simpa [same, elsewhere c' k same here] using inv.placed c' k here
  · intro k runs
    by_cases same : k = j
    · exact ⟨c, by simp [same, stays]⟩
    · obtain ⟨c', here⟩ := inv.running k (by simpa [same] using runs)
      exact ⟨c', by rw [same_proc, here]⟩
  · intro k working
    by_cases same : k = j
    · subst same
      exact ⟨c, by simpa using active (by simpa using working)⟩
    · obtain ⟨c', here⟩ := inv.active k (by simpa [same] using working)
      have away : c' ≠ c := by
        rintro rfl
        rw [here] at on
        exact same (Option.some.inj on)
      exact ⟨c', by simp [away, here]⟩
  · intro k np creates
    by_cases same : k = j
    · subst same
      obtain ⟨other, used, -⟩ := child np (by simpa using creates)
      rwa [update_of_ne other]
    · rw [update_of_ne same] at creates
      rw [update_of_ne (inv.not_child on creates)]
      exact inv.child k np creates
  · intro k k' np creates creates'
    by_cases same : k = j <;> by_cases same' : k' = j
    · rw [same, same']
    · rw [same, update_self] at creates
      rw [update_of_ne same'] at creates'
      exact absurd creates' ((child np creates).2.2 k' same')
    · rw [same', update_self] at creates'
      rw [update_of_ne same] at creates
      exact absurd creates ((child np creates').2.2 k same)
    · rw [update_of_ne same] at creates
      rw [update_of_ne same'] at creates'
      exact inv.only k k' np creates creates'
  · intro c' k np here at_found
    by_cases same : k = j
    · subst same
      rw [update_self] at at_found
      have mine : c' = c := by
        refine inv.one c' c k ?_ on
        rw [← same_proc, here]
        rfl
      rw [update_of_ne (child np (by rw [at_found]; rfl)).1, mine]
      exact found np at_found
    · rw [update_of_ne same] at at_found
      have away : c' ≠ c := by
        rintro rfl
        rw [update_self] at here
        rw [here] at stays
        exact same (Option.some.inj stays)
      rw [update_of_ne away] at here
      rw [update_of_ne (inv.not_child on (k := k) (by rw [at_found]; rfl))]
      exact inv.locked c' k np here at_found

end

section
variable (off : ∀ c, (exec c).proc ≠ some i)
include off

theorem Scheduled.offCpu (idle : s ≠ .running)
    (saved : p.isSaved) (inherits : ∀ np, p.child = some np → (pc i).child = some np)
    (creator : ∀ k, (pc k).child = some i → s = .used ∧
      ∀ c, exec c = .thread k → pc k = .found i → l = some c) :
    Scheduled (update state i s) (update plock i l) cpuProc exec (update pc i p) := by
  have other : ∀ c k, (exec c).proc = some k → k ≠ i := fun c k here same => off c (same ▸ here)
  have unchanged : ∀ k np, (update pc i p k).child = some np →
      (pc k).child = some np := by
    intro k np here
    by_cases same : k = i
    · subst same
      exact inherits np (by simpa using here)
    · rwa [update_of_ne same] at here
  refine ⟨inv.cpu, inv.one, ?_, ?_, ?_, ?_, ?_, ?_⟩
  · intro c k here
    simpa [other c k here] using inv.placed c k here
  · intro k runs
    by_cases same : k = i
    · subst same
      simp [idle] at runs
    · exact inv.running k (by simpa [same] using runs)
  · intro k working
    by_cases same : k = i
    · subst same
      simp [saved] at working
    · exact inv.active k (by simpa [same] using working)
  · intro k np creates
    have before := unchanged k np creates
    by_cases same : np = i
    · subst same
      simpa using (creator k before).1
    · simpa [same] using inv.child k np before
  · exact fun k k' np here here' => inv.only k k' np (unchanged k np here) (unchanged k' np here')
  · intro c k np here found
    have before := unchanged k np (by rw [found]; rfl)
    rw [update_of_ne (other c k (by simp [here, Exec.proc]))] at found
    by_cases same : np = i
    · subst same
      simpa using (creator k before).2 c here found
    · simpa [same] using inv.locked c k np here found

theorem Scheduled.saved_of_off : (pc i).isSaved := by
  by_contra working
  obtain ⟨c, on⟩ := inv.active i working
  exact off c (by simp [on, Exec.proc])

theorem Scheduled.setState (idle : s ≠ .running)
    (settled : ∀ k, (pc k).child ≠ some i) : Scheduled (update state i s) plock cpuProc exec pc := by
  have moved := inv.offCpu (s := s) (l := plock i) (p := pc i) off idle (inv.saved_of_off off)
    (fun _ same => same) fun k creates => absurd creates (settled k)
  simpa only [update_eq_self] using moved

end

theorem Scheduled.dispatch
    (here : exec c = .scan k) (unlocked : plock i = none) (runnable : state i = .runnable) :
    Scheduled (update state i .running) (update plock i (some c))
      (update cpuProc c (some i)) (update exec c (.into i)) pc := by
  have off := inv.off (i := i) (by simp [runnable]) (.inl unlocked)
  have saved := inv.saved_of_off off
  have away : ∀ c' k, exec c' = .thread k → c' ≠ c := by
    rintro c' k on rfl
    simp [here] at on
  have created : ∀ k np, (pc k).child = some np → np ≠ i := by
    rintro k np creates rfl
    simpa [runnable] using inv.child k np creates
  refine ⟨?_, ?_, ?_, ?_, ?_, ?_, inv.only, ?_⟩
  · intro c'
    by_cases same : c' = c
    · simp [same, Exec.proc]
    · simpa [same] using inv.cpu c'
  · intro c' c'' j at_j at_j'
    by_cases same : c' = c <;> by_cases same' : c'' = c
    · rw [same, same']
    · simp only [same, update_self, Exec.proc, Option.some.injEq] at at_j
      subst at_j
      exact absurd (by simpa [same'] using at_j') (off c'')
    · simp only [same', update_self, Exec.proc, Option.some.injEq] at at_j'
      subst at_j'
      exact absurd (by simpa [same] using at_j) (off c')
    · exact inv.one c' c'' j (by simpa [same] using at_j) (by simpa [same'] using at_j')
  · intro c' j at_j
    by_cases same : c' = c
    · subst same
      obtain rfl : i = j := by simpa [Exec.proc] using at_j
      simpa [Placed] using saved
    · rw [update_of_ne same] at at_j ⊢
      have other : j ≠ i := fun equal => off c' (equal ▸ at_j)
      simpa [other] using inv.placed c' j at_j
  · intro j runs
    by_cases same : j = i
    · exact ⟨c, by simp [same, Exec.proc]⟩
    · obtain ⟨c', at_j⟩ := inv.running j (by simpa [same] using runs)
      have apart : c' ≠ c := by
        rintro rfl
        simp [here, Exec.proc] at at_j
      exact ⟨c', by simpa [apart] using at_j⟩
  · intro j working
    obtain ⟨c', on⟩ := inv.active j working
    exact ⟨c', by simpa [away c' j on] using on⟩
  · intro k np creates
    simpa [created k np creates] using inv.child k np creates
  · intro c' k np on found
    have apart : c' ≠ c := by
      rintro rfl
      simp at on
    rw [update_of_ne apart] at on
    simpa [created k np (by rw [found]; rfl)] using inv.locked c' k np on found

theorem Scheduled.drop (here : exec c = .back i) :
    Scheduled state (update plock i none) (update cpuProc c none) (update exec c (.scan k)) pc := by
  have on : (exec c).proc = some i := by simp [here, Exec.proc]
  have elsewhere : ∀ c' j, c' ≠ c → (exec c').proc = some j → j ≠ i :=
    fun c' j other at_j same => other (inv.one c' c i (same ▸ at_j) on)
  have kept : ∀ c' j, (update exec c (.scan k) c').proc = some j →
      c' ≠ c ∧ (exec c').proc = some j := by
    intro c' j at_j
    by_cases same : c' = c
    · simp [same, Exec.proc] at at_j
    · exact ⟨same, by simpa [same] using at_j⟩
  obtain ⟨-, parked, saved⟩ : plock i = some c ∧ (state i).parked ∧ (pc i).isSaved := by
    have placed := inv.placed c i on
    rwa [here] at placed
  refine ⟨?_, ?_, ?_, ?_, ?_, inv.child, inv.only, ?_⟩
  · intro c'
    by_cases same : c' = c
    · simp [same, Exec.proc]
    · simpa [same] using inv.cpu c'
  · exact fun c' c'' j at_j at_j' => inv.one c' c'' j (kept c' j at_j).2 (kept c'' j at_j').2
  · intro c' j at_j
    obtain ⟨apart, before⟩ := kept c' j at_j
    simpa [apart, elsewhere c' j apart before] using inv.placed c' j before
  · intro j runs
    obtain ⟨c', at_j⟩ := inv.running j runs
    have apart : c' ≠ c := by
      rintro rfl
      obtain rfl : i = j := by simpa [on] using at_j
      simp [runs, ProcState.parked] at parked
    exact ⟨c', by simpa [apart] using at_j⟩
  · intro j working
    obtain ⟨c', at_j⟩ := inv.active j working
    have apart : c' ≠ c := by
      rintro rfl
      simp [here] at at_j
    exact ⟨c', by simpa [apart] using at_j⟩
  · intro c' j np at_j found
    have apart : c' ≠ c := by
      rintro rfl
      simp at at_j
    rw [update_of_ne apart] at at_j
    have other : np ≠ i := inv.not_child on (k := j) (by rw [found]; rfl)
    simpa [other] using inv.locked c' j np at_j found

theorem Scheduled.search {next : Nat}
    (here : exec c = .scan k) : Scheduled state plock cpuProc (update exec c (.scan next)) pc := by
  have same_proc : ∀ c', (update exec c (.scan next) c').proc = (exec c').proc := by
    intro c'
    by_cases same : c' = c
    · simp [same, here, Exec.proc]
    · simp [same]
  have kept : ∀ c' j, update exec c (.scan next) c' = .thread j ↔ exec c' = .thread j := by
    intro c' j
    by_cases same : c' = c
    · simp [same, here]
    · simp [same]
  refine ⟨?_, ?_, ?_, ?_, ?_, inv.child, inv.only, ?_⟩
  · intro c'
    rw [same_proc, inv.cpu]
  · intro c' c'' j at_j at_j'
    rw [same_proc] at at_j at_j'
    exact inv.one c' c'' j at_j at_j'
  · intro c' j at_j
    rw [same_proc] at at_j
    have apart : c' ≠ c := by
      rintro rfl
      simp [here, Exec.proc] at at_j
    simpa [apart] using inv.placed c' j at_j
  · intro j runs
    simpa [same_proc] using inv.running j runs
  · intro j working
    simpa [kept] using inv.active j working
  · intro c' j np at_j
    rw [kept] at at_j
    exact inv.locked c' j np at_j

end

def Pc.working : Pc → Bool
  | .leave _ _ | .saved _ _ => false
  | _ => true

theorem OnStack.of_working {state : ProcState} (working : p.working) :
    OnStack c state lock p ↔ state = .running := by
  cases p <;> simp_all [OnStack, Pc.working]

section
variable (inv : Scheduled state plock cpuProc exec pc)
include inv

section
variable (on : exec c = .thread j)
include on

theorem Scheduled.running_of_working (working : (pc j).working) : state j = .running := by
  have placed := inv.placed c j (by simp [on, Exec.proc])
  rw [on] at placed
  exact (OnStack.of_working working).mp placed

theorem Scheduled.setPc (before : (pc j).working) (after : p.working)
    (child : ∀ np, p.child = some np → (pc j).child = some np) (found : ∀ np, p ≠ .found np) :
    Scheduled state plock cpuProc exec (update pc j p) := by
  have here : (exec c).proc = some j := by simp [on, Exec.proc]
  have moved := inv.onCpu (e := .thread j) (s := state j) (l := plock j) (p := p) here rfl
    ((OnStack.of_working after).mpr (inv.running_of_working on before)) (fun _ => rfl) (inv.inherits here child)
    (fun np equal => absurd equal (found np))
  simpa only [update_eq_self, ← on] using moved

theorem Scheduled.park (parked : s.parked)
    (child : ∀ np, code.child = some np → (pc j).child = some np) :
    Scheduled (update state j s) (update plock j (some c)) cpuProc exec
      (update pc j (.leave slept code)) := by
  have here : (exec c).proc = some j := by simp [on, Exec.proc]
  have moved := inv.onCpu (e := .thread j) (s := s) (l := some c) (p := .leave slept code) here
    rfl ⟨rfl, parked⟩ (fun _ => rfl) (inv.inherits here child) (by simp)
  simpa only [update_eq_self, ← on] using moved

theorem Scheduled.swtch (at_pc : pc j = .leave slept code) :
    Scheduled state plock cpuProc (update exec c (.back j)) (update pc j (.saved slept code)) := by
  have here : (exec c).proc = some j := by simp [on, Exec.proc]
  obtain ⟨locked, parked⟩ : plock j = some c ∧ (state j).parked := by
    have placed := inv.placed c j here
    rwa [on, at_pc] at placed
  have child : ∀ np, code.child = some np → (pc j).child = some np := by
    intro np creates
    rwa [at_pc]
  have moved := inv.onCpu (e := .back j) (s := state j) (l := plock j) (p := .saved slept code)
    here rfl ⟨locked, parked, rfl⟩ (by simp [Pc.isSaved]) (inv.inherits here child) (by simp)
  simpa only [update_eq_self] using moved

end

theorem Scheduled.enter (at_into : exec c = .into j) :
    Scheduled state plock cpuProc (update exec c (.thread j)) pc := by
  have here : (exec c).proc = some j := by simp [at_into, Exec.proc]
  obtain ⟨locked, running, saved⟩ : plock j = some c ∧ state j = .running ∧ (pc j).isSaved := by
    have placed := inv.placed c j here
    rwa [at_into] at placed
  have moved := inv.onCpu (e := .thread j) (s := state j) (l := plock j) (p := pc j) here rfl
    (by cases at_pc : pc j <;> simp_all [Placed, OnStack, Pc.isSaved]) (fun _ => rfl) (inv.inherits here fun _ same => same)
    (fun np found => by simp [found, Pc.isSaved] at saved)
  simpa only [update_eq_self] using moved

theorem Scheduled.resume (on : exec c = .thread j) (at_pc : pc j = .saved slept code) :
    Scheduled state (update plock j none) cpuProc exec (update pc j (.free code)) := by
  have here : (exec c).proc = some j := by simp [on, Exec.proc]
  have running : state j = .running := by
    have placed := inv.placed c j here
    rw [on, at_pc] at placed
    exact placed.2
  have child : ∀ np, code.child = some np → (pc j).child = some np := by
    intro np creates
    rwa [at_pc]
  have moved := inv.onCpu (e := .thread j) (s := state j) (l := none) (p := .free code) here rfl
    running (fun _ => rfl) (inv.inherits here child) (by simp)
  simpa only [update_eq_self, ← on] using moved

theorem Scheduled.settled (other : state i ≠ .used) (k : Nat) : (pc k).child ≠ some i :=
  fun creates => other (inv.child k i creates)

theorem Scheduled.claim (on : exec c = .thread j)
    (before : (pc j).working) (unused : state i = .unused) :
    Scheduled (update state i .used) (update plock i (some c)) cpuProc exec
      (update pc j (.found i)) := by
  have here : (exec c).proc = some j := by simp [on, Exec.proc]
  have off := inv.off (i := i) (by simp [unused]) (.inr (by simp [unused, ProcState.parked]))
  have settled := inv.settled (i := i) (by simp [unused])
  have apart : i ≠ j := fun same => off c (same ▸ here)
  have taken := inv.offCpu (s := .used) (l := some c) (p := pc i) off (by simp)
    (inv.saved_of_off off) (fun _ same => same) fun k creates => absurd creates (settled k)
  rw [update_eq_self] at taken
  have running := taken.running_of_working on before
  have moved := taken.onCpu (e := .thread j) (s := .running)
    (l := update plock i (some c) j) (p := .found i) here rfl rfl (fun _ => rfl)
    (fun np creates => by
      obtain rfl : i = np := by simpa [Pc.child] using creates
      exact ⟨apart, by simp, fun k _ => settled k⟩)
    (fun np same => by
      obtain rfl : i = np := by simpa using same
      simp)
  rw [← running, ← on] at moved
  simpa only [update_eq_self] using moved

theorem Scheduled.uncreate (np : Nat)
    (on : exec c = .thread j) (before : (pc j).working) (child : (pc j).child = some np) :
    Scheduled state plock cpuProc exec (update pc j (.free .user)) ∧
      (∀ c, (exec c).proc ≠ some np) ∧
      ∀ k, (update pc j (.free .user) k).child ≠ some np := by
  have used := inv.child j np child
  refine ⟨inv.setPc on before rfl (by simp [Pc.child, Code.child]) (by simp),
    inv.off (by simp [used]) (.inr (by simp [used, ProcState.parked])), ?_⟩
  intro k creates
  by_cases same : k = j
  · simp [same, Pc.child, Code.child] at creates
  · rw [update_of_ne same] at creates
    exact same (inv.only k j np creates child)

section
variable (on : exec c = .thread j)
include on

theorem Scheduled.abandon (found : pc j = .found np) :
    Scheduled (update state np .unused) (update plock np none) cpuProc exec
      (update pc j (.free .user)) := by
  obtain ⟨moved, off, settled⟩ := inv.uncreate np on (by simp [found, Pc.working])
    (by simp [found, Pc.child])
  have freed := moved.offCpu (s := .unused) (l := none) off (by simp) (moved.saved_of_off off)
    (fun _ same => same) fun k creates => absurd creates (settled k)
  rwa [update_eq_self] at freed

theorem Scheduled.start (at_pc : pc j = .free (.start np)) :
    Scheduled (update state np .runnable) plock cpuProc exec (update pc j (.free .user)) := by
  obtain ⟨moved, off, settled⟩ := inv.uncreate np on (by simp [at_pc, Pc.working])
    (by simp [at_pc, Pc.child, Code.child])
  exact moved.setState off (by simp) settled

theorem Scheduled.allocated (found : pc j = .found np) :
    Scheduled state (update plock np none) cpuProc exec
      (update (update pc np (.saved false .user)) j (.free (.publish np))) := by
  have child : (pc j).child = some np := by simp [found, Pc.child]
  have used := inv.child j np child
  have off := inv.off (i := np) (by simp [used]) (.inr (by simp [used, ProcState.parked]))
  have apart : j ≠ np := by
    rintro rfl
    exact off c (by simp [on, Exec.proc])
  have moved := inv.setPc (p := .free (.publish np)) on (by simp [found, Pc.working]) rfl
    (by simp [Pc.child, Code.child, found]) (by simp)
  have ready := moved.offCpu (s := state np) (l := none) (p := .saved false .user) off
    (by simp [used]) rfl (by simp [Pc.child, Code.child]) fun k creates => by
      refine ⟨used, fun c' _ at_found => ?_⟩
      have same : k = j := moved.only k j np creates (by simp [Pc.child, Code.child])
      simp [same] at at_found
  rwa [update_eq_self, update_comm apart] at ready

end
end
end Moves
end Xv6Lab.Proc
