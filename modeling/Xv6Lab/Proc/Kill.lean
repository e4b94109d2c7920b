import Xv6Lab.Proc.Exclusive

/-!
kkill: whom it hits. An unused slot has pid 0, so that kkill(0) finds it.
-/

namespace Xv6Lab.Proc
open List
open Function (update update_apply update_eq_self update_idem update_of_ne update_self)
open Machine (run run_cons Along along_invariant)

def kkill (pid : BitVec 32) (w : World) : World × Int :=
  match (List.range NPROC).find? fun i => w.pid i = pid with
  | some i => (killOne i w, 0)
  | none => (w, -1)

def logStep (s : World × List Nat) (e : Event) : World × List Nat :=
  (step s.1 e, ((victim s.1 e).map s.1.stamp).toList ++ s.2)

def SparesUnused (s : World × List Nat) (e : Event) : Prop :=
  ∀ i ∈ victim s.1 e, s.1.state i ≠ .unused

instance (s : World × List Nat) (e : Event) : Decidable (SparesUnused s e) :=
  inferInstanceAs (Decidable (∀ i ∈ victim s.1 e, s.1.state i ≠ .unused))

structure Clean (w : World) (hits : List Nat) : Prop where
  pid : ∀ i, w.state i = .unused → w.pid i = 0
  killed : ∀ i, w.state i = .unused → w.killed i = false
  found : ∀ j np, w.pc j = .found np → w.killed np = false
  child : ∀ j np, (w.pc j).child = some np → w.killed np = true → w.stamp np ∈ hits

theorem clean_init : Clean init [] where
  pid i := by
    simp only [init, update_apply]
    split_ifs <;> simp
  killed i _ := rfl
  found j np := by
    simp only [init, update_apply]
    split_ifs <;> simp
  child j np := by
    simp only [init, update_apply]
    split_ifs <;> simp [Pc.child, Code.child]

section Moves
variable {w w' : World} {hits : List Nat} {j : Nat} {p : Pc}

theorem Clean.moves (clean : Clean w hits) (pid : w'.pid = w.pid) (killed : w'.killed = w.killed)
    (stamp : w'.stamp = w.stamp) (unused : ∀ i, w'.state i = .unused → w.state i = .unused)
    (pc : w'.pc = update w.pc j p) (child : ∀ np, p.child = some np → (w.pc j).child = some np)
    (found : ∀ np, p ≠ .found np) : Clean w' hits where
  pid i free := by
    rw [pid]
    exact clean.pid i (unused i free)
  killed i free := by
    rw [killed]
    exact clean.killed i (unused i free)
  found k np here := by
    rw [killed]
    by_cases mine : k = j
    · rw [pc, mine, update_self] at here
      exact absurd here (found np)
    · rw [pc, update_of_ne mine] at here
      exact clean.found k np here
  child k np creates := by
    rw [killed, stamp]
    by_cases mine : k = j
    · rw [pc, mine, update_self] at creates
      exact clean.child j np (child np creates)
    · rw [pc, update_of_ne mine] at creates
      exact clean.child k np creates

theorem Clean.rests (clean : Clean w hits) (pid : w'.pid = w.pid) (killed : w'.killed = w.killed)
    (stamp : w'.stamp = w.stamp) (pc : w'.pc = w.pc)
    (unused : ∀ i, w'.state i = .unused → w.state i = .unused) : Clean w' hits where
  pid i free := by
    rw [pid]
    exact clean.pid i (unused i free)
  killed i free := by
    rw [killed]
    exact clean.killed i (unused i free)
  found := by
    rw [pc, killed]
    exact clean.found
  child := by
    rw [pc, killed, stamp]
    exact clean.child

theorem Clean.more (clean : Clean w hits) (new : List Nat) : Clean w (new ++ hits) :=
  { clean with
    child := fun j np creates hit => mem_append_right _ (clean.child j np creates hit) }

theorem unused_of_update {i k : Nat} {s : ProcState} {state : Nat → ProcState} (busy : s ≠ .unused)
    (free : update state i s k = .unused) : state k = .unused := by
  by_cases here : k = i
  · rw [here, update_self] at free
    exact absurd free busy
  · rwa [update_of_ne here] at free

theorem unused_of_wakeOne {chan : Option Chan} {i k : Nat}
    (free : (wakeOne chan i w).state k = .unused) : w.state k = .unused := by
  rw [wakeOne_state] at free
  split at free
  · exact unused_of_update (by simp) free
  · exact free

theorem Clean.wakeOne (clean : Clean w hits) (chan : Option Chan) (i : Nat) :
    Clean (wakeOne chan i w) hits := by
  rw [wakeOne_eq]
  exact clean.rests rfl rfl rfl rfl fun _ free => unused_of_wakeOne free

theorem Clean.freeproc (clean : Clean w hits) {i : Nat}
    (others : ∀ k np, k ≠ j → (w.pc k).child = some np → np ≠ i) (plain : p.child = none)
    (pc : w'.pc = update w.pc j p) (pid : w'.pid = update w.pid i 0)
    (killed : w'.killed = update w.killed i false) (stamp : w'.stamp = w.stamp)
    (state : w'.state = update w.state i .unused) : Clean w' hits where
  pid k free := by
    rw [pid]
    by_cases here : k = i
    · rw [here, update_self]
    · rw [update_of_ne here]
      rw [state, update_of_ne here] at free
      exact clean.pid k free
  killed k free := by
    rw [killed]
    by_cases here : k = i
    · rw [here, update_self]
    · rw [update_of_ne here]
      rw [state, update_of_ne here] at free
      exact clean.killed k free
  found k np here := by
    by_cases mine : k = j
    · rw [pc, mine, update_self] at here
      simp [here, Pc.child] at plain
    · rw [pc, update_of_ne mine] at here
      rw [killed, update_of_ne (others k np mine (by simp [here, Pc.child]))]
      exact clean.found k np here
  child k np creates := by
    by_cases mine : k = j
    · rw [pc, mine, update_self, plain] at creates
      cases creates
    · rw [pc, update_of_ne mine] at creates
      rw [killed, stamp, update_of_ne (others k np mine creates)]
      exact clean.child k np creates

end Moves

section Step
variable {w w' : World} {hits : List Nat}

section
variable (clean : Clean w hits)
include clean

theorem Clean.kill (sched : w.scheduled) {j i : Nat}
    (unlocked : w.plock i = none) (used : w.state i ≠ .unused) :
    Clean ((killOne i w).setPc j (.free .user)) (w.stamp i :: hits) := by
  have unused : ∀ k, (killOne i w).state k = .unused → w.state k = .unused := by
    intro k free
    unfold killOne at free
    simp only at free
    split at free
    · exact unused_of_update (by simp) free
    · exact free
  have pc : ∀ k p, ((killOne i w).setPc j (.free .user)).pc k = p →
      p = .free .user ∨ w.pc k = p := by
    intro k p here
    by_cases mine : k = j
    · rw [mine] at here
      exact .inl (here.symm.trans (update_self ..))
    · exact .inr ((update_of_ne mine ..).symm.trans here)
  refine ⟨fun k free => clean.pid k (unused k free), fun k free => ?_, fun k np here => ?_,
    fun k np creates killed => ?_⟩
  · have other : k ≠ i := by
      intro same
      exact used (same ▸ unused k free)
    exact (update_of_ne other ..).trans (clean.killed k (unused k free))
  · rcases pc k _ here with user | before
    · cases user
    · -- a process that allocproc has just found is locked
      obtain ⟨c, on⟩ := sched.active k (by simp [before, Pc.isSaved])
      have locked := sched.locked c k np on before
      have other : np ≠ i := by
        intro same
        rw [same, unlocked] at locked
        cases locked
      exact (update_of_ne other ..).trans (clean.found k np before)
  · rcases pc k _ rfl with user | before
    · rw [user] at creates
      cases creates
    · by_cases same : np = i
      · rw [same]
        exact mem_cons_self
      · refine mem_cons_of_mem _ (clean.child k np (before ▸ creates) ?_)
        exact (update_of_ne same ..).symm.trans killed

theorem Clean.setkilled (sched : w.scheduled) {c j : Nat} (on : w.exec c = .thread j)
    (here : w.pc j = .free .user) : Clean { w with killed := update w.killed j true } hits := by
  have running := sched.state_of_working on here rfl
  have apart : ∀ k np, (w.pc k).child = some np → np ≠ j := fun k np creates =>
    sched.not_child (c := c) (by simp [on, Exec.proc]) creates
  refine ⟨clean.pid, fun k free => ?_, fun k np found => ?_, fun k np creates killed => ?_⟩
  · have other : k ≠ j := by
      intro same
      rw [same] at free
      simp [running] at free
    exact (update_of_ne other ..).trans (clean.killed k free)
  · have before : w.pc k = .found np := found
    have other := apart k np (by simp [before, Pc.child])
    exact (update_of_ne other ..).trans (clean.found k np before)
  · have other := apart k np creates
    exact clean.child k np creates ((update_of_ne other ..).symm.trans killed)

theorem Clean.claim (sched : w.scheduled) {c j i : Nat} (unused : w.state i = .unused) :
    Clean (((claim i w).acquire i c).setPc j (.found i)) hits := by
  have apart : ∀ k np, (w.pc k).child = some np → np ≠ i := by
    intro k np creates same
    have used := sched.child k np creates
    rw [same, unused] at used
    cases used
  have alive := clean.killed i unused
  refine ⟨fun k free => ?_, fun k free => ?_, fun k np here => ?_, fun k np creates killed => ?_⟩
  · have other : k ≠ i := by
      intro same
      rw [same] at free
      exact absurd ((update_self ..).symm.trans free) (by simp)
    have before : w.state k = .unused := (update_of_ne other ..).symm.trans free
    exact (update_of_ne other ..).trans (clean.pid k before)
  · exact clean.killed k (unused_of_update (by simp) free)
  · by_cases mine : k = j
    · rw [mine] at here
      have same := (update_self ..).symm.trans here
      rw [← Pc.found.inj same]
      exact alive
    · exact clean.found k np ((update_of_ne mine ..).symm.trans here)
  · have before : (w.pc k).child = some np := by
      by_cases mine : k = j
      · rw [mine] at creates
        simp only [World.setPc, update_self, Pc.child, Option.some.injEq] at creates
        rw [← creates] at killed
        exact absurd (alive.symm.trans killed) (by simp)
      · simpa [World.setPc, mine, World.acquire, Proc.claim] using creates
    have other := apart k np before
    have stamp : (((Proc.claim i w).acquire i c).setPc j (.found i)).stamp np = w.stamp np :=
      update_of_ne other ..
    rw [stamp]
    exact clean.child k np before killed

theorem Clean.step (sched : w.scheduled) {v : Option Nat}
    (spares : ∀ i, v = some i → w.state i ≠ .unused) (h : Step w v w') :
    Clean w' ((v.map w.stamp).toList ++ hits) := by
  have keep : Clean w' hits → Clean w' ((v.map w.stamp).toList ++ hits) := fun same => same.more _
  cases h with
  | kill on here unlocked found hit =>
    subst hit
    exact clean.kill sched unlocked (spares _ rfl)
  | idle => exact keep clean
  | panic | search next here | enter here | drop here =>
    exact keep (clean.rests rfl rfl rfl rfl fun _ free => free)
  | dispatch here unlocked runnable =>
    exact keep (clean.rests rfl rfl rfl rfl fun _ free => unused_of_update (by simp) free)
  | swtch on here | resume on here alive =>
    exact keep (clean.moves rfl rfl rfl (fun _ free => free) rfl (by simp [here, Pc.child])
      (by simp))
  | yield on here unlocked =>
    exact keep (clean.moves rfl rfl rfl (fun _ free => unused_of_update (by simp) free) rfl
      (by simp [here, Pc.child]) (by simp))
  | sleep n on here plain unlocked | start on here unlocked | zombie on here unlocked
  | doze on here unlocked =>
    exact keep (clean.moves rfl rfl rfl (fun _ free => unused_of_update (by simp) free) rfl
      (by simp [Pc.child, Code.child]) (by simp))
  | walk next on here before after init =>
    exact keep (clean.moves rfl rfl rfl (fun _ free => free) rfl (by simp [Pc.child, after])
      (by simp))
  | claim on here inside unlocked unused => exact keep (clean.claim sched unused)
  | @abandon c j np on here =>
    refine keep (clean.freeproc (i := np) (fun k np' other creates same => ?_) rfl rfl rfl rfl rfl rfl)
    exact other (sched.only k j np (same ▸ creates) (by simp [here, Pc.child]))
  | @allocated c j np on here =>
    refine keep ?_
    have idle : Clean (w.setPc np (.saved false .user)) hits :=
      clean.moves rfl rfl rfl (fun _ free => free) rfl (by simp [Pc.child, Code.child]) (by simp)
    have apart : j ≠ np := by
      intro same
      exact sched.not_child (c := c) (by simp [on, Exec.proc]) (k := j) (by simp [here, Pc.child]) same.symm
    refine idle.moves (j := j) rfl rfl rfl (fun _ free => free) rfl ?_ (by simp)
    simp [World.setPc, apart, here, Pc.child, Code.child]
  | publish on here unlocked =>
    exact keep (clean.moves rfl rfl rfl (fun _ free => free) rfl (by simp [here, Pc.child, Code.child])
      (by simp))
  | wake on here unlocked =>
    exact keep ((clean.wakeOne _ _).moves rfl rfl rfl (fun _ free => free) rfl
      (by simp [Pc.child, Code.child]) (by simp))
  | interrupt n unlocked =>
    exact keep (clean.wakeOne _ _)
  | setkilled on here => exact keep (clean.setkilled sched on here)
  | wakeInit on here unlocked | wakeParent on here unlocked =>
    exact keep ((clean.wakeOne _ _).moves rfl rfl rfl (fun _ free => free) rfl
      (by simp [Pc.child]) (by simp))
  | @reap c j i addr havekids on here mine unlocked dead =>
    refine keep (clean.freeproc (i := i) (fun k np other creates same => ?_) rfl rfl rfl rfl rfl rfl)
    have used := sched.child k np creates
    rw [same, dead] at used
    cases used
  | _ =>
    exact keep (clean.moves rfl rfl rfl (fun _ free => free) rfl (by simp [Pc.child, Code.child])
      (by simp))

end
end Step

section Uninterrupted
variable {w : World} {c j i : Nat} {pid : BitVec 32}

theorem setPc_setPc (w : World) (j : Nat) (p q : Pc) : (w.setPc j p).setPc j q = w.setPc j q := by
  simp [World.setPc]

theorem step_kill (on : w.exec c = .thread j) (here : w.pc j = .free (.kill pid i))
    (going : w.panicked = false) : step w (.cpu c .go) = killStep j pid i w := by
  simp [step, going, cpuStep, on, threadStep, here, codeStep]

theorem kill_passes (n i : Nat) (on : w.exec c = .thread j) (going : w.panicked = false)
    (unlocked : ∀ k, w.plock k = none) (inside : i + n ≤ NPROC)
    (others : ∀ k, i ≤ k → k < i + n → w.pid k ≠ pid) :
    run step (w.setPc j (.free (.kill pid i))) (List.replicate n (.cpu c .go)) =
      w.setPc j (.free (.kill pid (i + n))) := by
  induction n generalizing i with
  | zero => rfl
  | succ n ih =>
    have next : step (w.setPc j (.free (.kill pid i))) (.cpu c .go) =
        w.setPc j (.free (.kill pid (i + 1))) := by
      have here : (w.setPc j (.free (.kill pid i))).pc j = .free (.kill pid i) := by
        simp [World.setPc]
      rw [step_kill (w := w.setPc j (.free (.kill pid i))) on here going, killStep,
        if_neg (by omega), if_neg (by simp [World.setPc, unlocked]),
        if_neg (by exact others i le_rfl (by omega)), setPc_setPc]
    rw [replicate_succ, run_cons, next,
      ih (i + 1) (by omega) fun k low high => others k (by omega) (by omega),
      Nat.add_right_comm, Nat.add_assoc]

theorem kkill_run (on : w.exec c = .thread j) (here : w.pc j = .free (.kill pid 0))
    (going : w.panicked = false) (unlocked : ∀ k, w.plock k = none) :
    ∃ n, run step w (List.replicate n (.cpu c .go)) =
      (kkill pid w).1.setPc j (.free .user) := by
  have start : w = w.setPc j (.free (.kill pid 0)) := by
    rw [World.setPc, ← here, update_eq_self]
  have last : ∀ m, (∀ k, k < m → w.pid k ≠ pid) → m ≤ NPROC →
      run step w (List.replicate (m + 1) (.cpu c .go)) =
        killStep j pid m (w.setPc j (.free (.kill pid m))) := by
    intro m others inside
    have before : ∀ k, 0 ≤ k → k < 0 + m → w.pid k ≠ pid := fun k _ low => others k (by omega)
    have passes := kill_passes m 0 on going unlocked (by omega) before
    rw [← start, Nat.zero_add] at passes
    rw [replicate_succ', run, foldl_append]
    change step (run step w (List.replicate m (.cpu c .go))) (.cpu c .go) = _
    rw [passes]
    exact step_kill (w := w.setPc j (.free (.kill pid m))) on (by simp [World.setPc]) going
  unfold kkill
  cases search : (List.range NPROC).find? fun i => w.pid i = pid with
  | none =>
    rw [find?_eq_none] at search
    refine ⟨NPROC + 1, ?_⟩
    rw [last NPROC (fun k low => by simpa using search k (mem_range.mpr low)) le_rfl,
      killStep, if_pos le_rfl, setPc_setPc]
  | some m =>
    rw [find?_range_eq_some] at search
    obtain ⟨found, inside, others⟩ := search
    have inside : m < NPROC := by simpa using inside
    refine ⟨m + 1, ?_⟩
    have found : w.pid m = pid := by simpa using found
    rw [last m (fun k low => by simpa using others k low) (by omega), killStep,
      if_neg (by omega), if_neg (by simp [World.setPc, unlocked]), if_pos (by exact found)]
    simp only [killOne, World.setPc, update_idem]
    rfl

end Uninterrupted

def Alters (w w' : World) (i : Nat) : Prop :=
  w' = { w with
    killed := update w.killed i (w'.killed i)
    state := update w.state i (w'.state i) }

/-- kkill returns 0 exactly if there is a process with the pid, and changes only that process. -/
structure KillContract (w : World) (pid : BitVec 32) : Prop where
  returns : (kkill pid w).2 = 0 ↔ ∃ i < NPROC, w.state i ≠ .unused ∧ w.pid i = pid
  only : (kkill pid w).2 = 0 →
    ∃ i < NPROC, w.state i ≠ .unused ∧ w.pid i = pid ∧ Alters w (kkill pid w).1 i

def LivePid (w : World) (pid : BitVec 32) : Prop :=
  pid ≠ 0 ∨ ∀ i < NPROC, w.state i = .unused → ∃ k < i, w.state k ≠ .unused ∧ w.pid k = 0

theorem alters_killOne (i : Nat) (w : World) : Alters w (killOne i w) i := by
  unfold Alters killOne
  split <;> simp

section Contract
variable {w : World} {pid : BitVec 32} {hits : List Nat}

theorem kkill_some {i : Nat} (inside : i < NPROC) (found : w.pid i = pid)
    (first : ∀ k < i, w.pid k ≠ pid) : kkill pid w = (killOne i w, 0) := by
  have search : (List.range NPROC).find? (fun i => w.pid i = pid) = some i := by
    rw [find?_range_eq_some]
    exact ⟨by simpa using found, by simpa using inside, fun k low => by simpa using first k low⟩
  rw [kkill, search]

theorem kkill_cases (pid : BitVec 32) (w : World) :
    (∃ i < NPROC, w.pid i = pid ∧ (∀ k < i, w.pid k ≠ pid) ∧ kkill pid w = (killOne i w, 0)) ∨
      ((∀ i < NPROC, w.pid i ≠ pid) ∧ kkill pid w = (w, -1)) := by
  cases search : (List.range NPROC).find? fun i => w.pid i = pid with
  | none =>
    rw [find?_eq_none] at search
    have nobody : ∀ i < NPROC, w.pid i ≠ pid := fun i inside => by
      simpa using search i (mem_range.mpr inside)
    right
    refine ⟨nobody, ?_⟩
    rw [kkill, find?_eq_none.mpr search]
  | some i =>
    rw [find?_range_eq_some] at search
    obtain ⟨found, inside, others⟩ := search
    have inside : i < NPROC := by simpa using inside
    have found : w.pid i = pid := by simpa using found
    have first : ∀ k < i, w.pid k ≠ pid := fun k low => by simpa using others k low
    left
    exact ⟨i, inside, found, first, kkill_some inside found first⟩

theorem Clean.contract_iff (clean : Clean w hits) : KillContract w pid ↔ LivePid w pid := by
  constructor
  · intro contract
    by_contra dead
    obtain ⟨zero, unused⟩ := not_or.mp dead
    push Not at zero unused
    subst zero
    obtain ⟨i, inside, free, before⟩ := unused
    rcases kkill_cases 0 w with ⟨k, low, found, first, result⟩ | ⟨nobody, -⟩
    · -- the slot that kkill finds is at most i, and so it is unused
      have order : k ≤ i := by
        by_contra later
        exact first i (by omega) (clean.pid i free)
      have unused : w.state k = .unused := by
        by_contra used
        rcases Nat.lt_or_eq_of_le order with less | same
        · exact before k less used found
        · exact used (same ▸ free)
      obtain ⟨i', inside', used, -, only⟩ := contract.only (by rw [result])
      have other : k ≠ i' := by
        intro same
        exact used (same ▸ unused)
      rw [result] at only
      have only : killOne k w = _ := only
      have same : (killOne k w).killed k = w.killed k := by
        rw [only]
        exact update_of_ne other ..
      rw [clean.killed k unused] at same
      simp [killOne] at same
    · exact nobody i inside (clean.pid i free)
  · intro live
    rcases kkill_cases pid w with ⟨i, inside, found, first, result⟩ | ⟨nobody, result⟩
    · have used : w.state i ≠ .unused := by
        intro free
        rcases live with nonzero | covered
        · exact nonzero (found.symm.trans (clean.pid i free))
        · obtain ⟨k, low, -, zero⟩ := covered i inside free
          exact first k low (zero.trans ((clean.pid i free).symm.trans found))
      constructor
      · rw [result]
        exact ⟨fun _ => ⟨i, inside, used, found⟩, fun _ => rfl⟩
      · intro _
        rw [result]
        exact ⟨i, inside, used, found, alters_killOne i w⟩
    · constructor
      · rw [result]
        constructor
        · intro minus
          cases minus
        · rintro ⟨i, inside, _, found⟩
          exact absurd found (nobody i inside)
      · intro minus
        rw [result] at minus
        cases minus

end Contract

/-- What kkill and allocproc guarantee in a world, with the stamps of the processes
that kkill has found so far. -/
structure KillSound (s : World × List Nat) : Prop where
  contract : ∀ pid, KillContract s.1 pid ↔ LivePid s.1 pid
  runs : ∀ c j pid, s.1.exec c = .thread j → s.1.pc j = .free (.kill pid 0) →
    s.1.panicked = false → (∀ k, s.1.plock k = none) →
    ∃ n, run step s.1 (List.replicate n (.cpu c .go)) =
      (kkill pid s.1).1.setPc j (.free .user)
  newborn : ∀ j np, s.1.pc j = .found np → s.1.killed np = false
  child : ∀ j np, s.1.pc j = .free (.start np) → s.1.killed np = true → s.1.stamp np ∈ s.2

/-- Every process is born without a kill, in every run in which no kkill finds an
unused slot. -/
theorem kill_spares_newborn (events : List Event)
    (spares : Along logStep SparesUnused (init, []) events) :
    KillSound (run logStep (init, []) events) := by
  have inv := along_invariant logStep
    (P := fun s => s.1.scheduled ∧ Clean s.1 s.2) (fun s e ok inv => by
      have cases := step_cases s.1 e
      exact ⟨inv.1.step cases, inv.2.step inv.1 (fun i hit => ok i (by simp [hit])) cases⟩)
    ⟨scheduled_init, clean_init⟩ spares
  obtain ⟨-, clean⟩ := inv
  constructor
  · exact fun pid => clean.contract_iff
  · exact fun c j pid on here going unlocked => kkill_run on here going unlocked
  · exact clean.found
  · exact fun j np here => clean.child j np (by simp [here, Pc.child, Code.child])

def firstCall (choice : Choice) (n : Nat) : List Event :=
  List.replicate 3 (.cpu 0 .go) ++ .cpu 0 choice :: List.replicate n (.cpu 0 .go)

theorem kill_spares_newborn_fork :
    let events := firstCall (.kill 1) 1 ++ .cpu 0 .fork :: List.replicate 2 (.cpu 0 .go)
    let s := run logStep (init, []) events
    Along logStep SparesUnused (init, []) events ∧ KillSound s ∧
      s.1.pc 0 = .found 1 ∧ s.1.killed 0 = true ∧ s.1.killed 1 = false := by
  have along : Along logStep SparesUnused (init, [])
      (firstCall (.kill 1) 1 ++ .cpu 0 .fork :: List.replicate 2 (.cpu 0 .go)) := by
    decide +kernel
  have sound := kill_spares_newborn _ along
  exact ⟨along, sound, by decide +kernel, by decide +kernel,
    sound.newborn 0 1 (by decide +kernel)⟩

/-- kill(0) by the first process finds the unused slot 1, and the child that kfork
puts there is killed before it has run. -/
theorem newborn_killed :
    (kkill 0 init).2 = 0 ∧ (∀ i < NPROC, init.state i ≠ .unused → init.pid i ≠ 0) ∧
      ¬KillContract init 0 ∧
      (let w := run step init
        (firstCall (.kill 0) 2 ++ .cpu 0 .fork :: List.replicate 2 (.cpu 0 .go))
      w.pc 0 = .found 1 ∧ w.killed 1 = true) ∧
      (let w := run step init
        (firstCall (.kill 0) 2 ++ .cpu 0 .fork :: List.replicate 5 (.cpu 0 .go))
      w.state 1 = .runnable ∧ w.pid 1 = 2 ∧ w.killed 1 = true) := by
  have zero : (kkill 0 init).2 = 0 := by decide +kernel
  have nobody : ∀ i < NPROC, init.state i ≠ .unused → init.pid i ≠ 0 := by decide +kernel
  refine ⟨zero, nobody, ?_, by decide +kernel, by decide +kernel⟩
  intro contract
  obtain ⟨i, inside, used, found⟩ := contract.returns.mp zero
  exact nobody i inside used found

end Xv6Lab.Proc
