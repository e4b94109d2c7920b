import Xv6Lab.Proc.ExitWait

/-!
The history of exits and of what kwait returned, and the exit and wait protocol.
-/

namespace Xv6Lab.Proc
open List
open Function (update update_apply)
variable {s : ProcState} {n : BitVec 32} {status : Int}

def ProcState.living : ProcState → Bool
  | .unused | .zombie => false
  | _ => true

structure Ledger (state : Nat → ProcState) (pid : Nat → BitVec 32) (xstate : Nat → Int)
    (stamp : Nat → Nat) (births : Nat) (exits : List Exit) (reaps : List Reap) : Prop where
  fresh : ∀ j, stamp j < births
  distinct : ∀ i j, state i ≠ .unused → state j ≠ .unused → stamp i = stamp j → i = j
  bounded : ∀ x ∈ exits, x.stamp < births
  living : ∀ j, (state j).living → ∀ x ∈ exits, x.stamp ≠ stamp j
  zombie : ∀ j, state j = .zombie →
    ⟨stamp j, pid j, xstate j⟩ ∈ exits ∧ ∀ r ∈ reaps, r.stamp ≠ stamp j
  pending : ∀ x ∈ exits, (∃ r ∈ reaps, r.stamp = x.stamp) ∨
    ∃ j, state j = .zombie ∧ x = ⟨stamp j, pid j, xstate j⟩
  exited : exits.Pairwise fun x y => x.stamp ≠ y.stamp
  reaped : reaps.Pairwise fun r s => r.stamp ≠ s.stamp
  faithful : ∀ r ∈ reaps, ∃ x ∈ exits, x.stamp = r.stamp ∧ x.pid = r.pid ∧
    ∀ status, r.status = some status → status = x.status

def World.ledger (w : World) : Prop :=
  Ledger w.state w.pid w.xstate w.stamp w.births w.exits w.reaps

theorem ledger_init : init.ledger where
  fresh := by simp [init]
  distinct i j used used' _ := by
    have only : ∀ k, init.state k ≠ .unused → k = initproc := by
      intro k
      simp only [init, update_apply]
      split_ifs <;> simp_all
    rw [only i used, only j used']
  bounded := by simp [init]
  living := by simp [init]
  zombie j := by
    simp only [init, update_apply]
    split_ifs <;> simp
  pending := by simp [init]
  exited := by simp [init]
  reaped := by simp [init]
  faithful := by simp [init]

section Moves
variable {state : Nat → ProcState} {pid : Nat → BitVec 32} {xstate : Nat → Int}
  {stamp : Nat → Nat} {births : Nat} {exits : List Exit} {reaps : List Reap} {i : Nat}

theorem ProcState.used_of_living (living : s.living) : s ≠ .unused := by
  rintro rfl
  simp [ProcState.living] at living

theorem ProcState.not_zombie (living : s.living) : s ≠ .zombie := by
  rintro rfl
  simp [ProcState.living] at living

section
variable (inv : Ledger state pid xstate stamp births exits reaps)
include inv

theorem Ledger.setState (before : (state i).living) (after : s.living) :
    Ledger (update state i s) pid xstate stamp births exits reaps := by
  have used : ∀ j, update state i s j ≠ .unused → state j ≠ .unused := by
    intro j busy
    by_cases same : j = i
    · exact same ▸ ProcState.used_of_living before
    · simpa [same] using busy
  have dead : ∀ j, update state i s j = .zombie ↔ state j = .zombie := by
    intro j
    by_cases same : j = i
    · simp [same, ProcState.not_zombie before, ProcState.not_zombie after]
    · simp [same]
  refine ⟨inv.fresh, ?_, inv.bounded, ?_, ?_, ?_, inv.exited, inv.reaped, inv.faithful⟩
  · exact fun j k busy busy' => inv.distinct j k (used j busy) (used k busy')
  · intro j living
    by_cases same : j = i
    · exact same ▸ inv.living i before
    · exact inv.living j (by simpa [same] using living)
  · exact fun j here => inv.zombie j ((dead j).mp here)
  · intro x member
    rcases inv.pending x member with reaped | ⟨j, here, same⟩
    · exact .inl reaped
    · exact .inr ⟨j, (dead j).mpr here, same⟩

theorem Ledger.claim
    (unused : state i = .unused) : Ledger (update state i .used) (update pid i n) xstate
      (update stamp i births) (births + 1) exits reaps := by
  have other : ∀ j, state j = .zombie → j ≠ i := by
    rintro j here rfl
    simp [unused] at here
  have new : ∀ j, j ≠ i → stamp j ≠ births := fun j _ => Nat.ne_of_lt (inv.fresh j)
  refine ⟨?_, ?_, fun x member => Nat.lt_succ_of_lt (inv.bounded x member), ?_, ?_, ?_, inv.exited,
    inv.reaped, inv.faithful⟩
  · intro j
    by_cases same : j = i
    · simp [same]
    · simpa [same] using Nat.lt_succ_of_lt (inv.fresh j)
  · intro j k busy busy' equal
    by_cases same : j = i <;> by_cases same' : k = i
    · rw [same, same']
    · exact absurd (by simpa [same, same'] using equal.symm) (new k same')
    · exact absurd (by simpa [same, same'] using equal) (new j same)
    · exact inv.distinct j k (by simpa [same] using busy) (by simpa [same'] using busy')
        (by simpa [same, same'] using equal)
  · intro j living x member
    by_cases same : j = i
    · simpa [same] using Nat.ne_of_lt (inv.bounded x member)
    · simpa [same] using inv.living j (by simpa [same] using living) x member
  · intro j here
    have apart : j ≠ i := by
      rintro rfl
      simp at here
    simpa [apart] using inv.zombie j (by simpa [apart] using here)
  · intro x member
    rcases inv.pending x member with reaped | ⟨j, here, same⟩
    · exact .inl reaped
    · exact .inr ⟨j, by simp [other j here, here], by simpa [other j here] using same⟩

theorem Ledger.abandon (used : state i = .used) : Ledger (update state i .unused) (update pid i n)
      (update xstate i status) stamp births exits reaps := by
  have other : ∀ j, state j = .zombie → j ≠ i := by
    rintro j here rfl
    simp [used] at here
  have kept : ∀ j, update state i .unused j ≠ .unused → j ≠ i := by
    rintro j busy rfl
    simp at busy
  refine ⟨inv.fresh, ?_, inv.bounded, ?_, ?_, ?_, inv.exited, inv.reaped, inv.faithful⟩
  · intro j k busy busy'
    exact inv.distinct j k (by simpa [kept j busy] using busy) (by simpa [kept k busy'] using busy')
  · intro j living
    have apart := kept j (ProcState.used_of_living living)
    exact inv.living j (by simpa [apart] using living)
  · intro j here
    have apart := kept j (by simp [here])
    simpa [apart] using inv.zombie j (by simpa [apart] using here)
  · intro x member
    rcases inv.pending x member with reaped | ⟨j, here, same⟩
    · exact .inl reaped
    · exact .inr ⟨j, by simp [other j here, here], by simpa [other j here] using same⟩

theorem Ledger.exit (before : (state i).living) :
    Ledger (update state i .zombie) pid (update xstate i status) stamp births
      (⟨stamp i, pid i, status⟩ :: exits) reaps := by
  have used := ProcState.used_of_living before
  have busy : ∀ j, update state i .zombie j ≠ .unused → state j ≠ .unused := by
    intro j here
    by_cases same : j = i
    · exact same ▸ used
    · simpa [same] using here
  refine ⟨inv.fresh, ?_, ?_, ?_, ?_, ?_, ?_, inv.reaped, ?_⟩
  · exact fun j k here here' => inv.distinct j k (busy j here) (busy k here')
  · intro x member
    rcases mem_cons.mp member with rfl | old
    · exact inv.fresh i
    · exact inv.bounded x old
  · intro j living x member
    have apart : j ≠ i := by
      rintro rfl
      simp [ProcState.living] at living
    have lives : (state j).living := by simpa [apart] using living
    rcases mem_cons.mp member with rfl | old
    · exact fun equal => apart (inv.distinct i j used (ProcState.used_of_living lives) equal).symm
    · exact inv.living j lives x old
  · intro j here
    by_cases same : j = i
    · subst same
      refine ⟨by simp, fun r member equal => ?_⟩
      obtain ⟨x, exits, stamps, -⟩ := inv.faithful r member
      exact inv.living j before x exits (stamps.trans equal)
    · obtain ⟨member, unreaped⟩ := inv.zombie j (by simpa [same] using here)
      exact ⟨by simp [same, member], unreaped⟩
  · intro x member
    rcases mem_cons.mp member with rfl | old
    · exact .inr ⟨i, by simp, by simp⟩
    · rcases inv.pending x old with reaped | ⟨j, here, same⟩
      · exact .inl reaped
      · have apart : j ≠ i := by
          rintro rfl
          exact ProcState.not_zombie before here
        exact .inr ⟨j, by simp [apart, here], by simpa [apart] using same⟩
  · exact pairwise_cons.mpr ⟨fun x member equal => inv.living i before x member equal.symm,
      inv.exited⟩
  · intro r member
    obtain ⟨x, old, rest⟩ := inv.faithful r member
    exact ⟨x, mem_cons_of_mem _ old, rest⟩

theorem Ledger.reap
    (dead : state i = .zombie) {copied : Option Int} (own : ∀ s, copied = some s → s = xstate i) :
    Ledger (update state i .unused) (update pid i n)
      (update xstate i status) stamp births exits (⟨stamp i, pid i, copied⟩ :: reaps) := by
  obtain ⟨recorded, unreaped⟩ := inv.zombie i dead
  have kept : ∀ j, update state i .unused j ≠ .unused → j ≠ i := by
    rintro j busy rfl
    simp at busy
  refine ⟨inv.fresh, ?_, inv.bounded, ?_, ?_, ?_, inv.exited, ?_, ?_⟩
  · intro j k busy busy'
    exact inv.distinct j k (by simpa [kept j busy] using busy) (by simpa [kept k busy'] using busy')
  · intro j living
    have apart := kept j (ProcState.used_of_living living)
    exact inv.living j (by simpa [apart] using living)
  · intro j here
    have apart := kept j (by simp [here])
    have still : state j = .zombie := by simpa [apart] using here
    obtain ⟨member, fresh⟩ := inv.zombie j still
    refine ⟨by simpa [apart] using member, ?_⟩
    intro r reaped
    rcases mem_cons.mp reaped with rfl | old
    · exact fun equal => apart (inv.distinct i j (by simp [dead]) (by simp [still]) equal).symm
    · exact fresh r old
  · intro x member
    rcases inv.pending x member with ⟨r, old, equal⟩ | ⟨j, here, same⟩
    · exact .inl ⟨r, mem_cons_of_mem _ old, equal⟩
    · by_cases equal : j = i
      · exact .inl ⟨_, mem_cons_self, by simp [same, equal]⟩
      · exact .inr ⟨j, by simp [equal, here], by simpa [equal] using same⟩
  · exact pairwise_cons.mpr ⟨fun r member equal => unreaped r member equal.symm, inv.reaped⟩
  · intro r member
    rcases mem_cons.mp member with rfl | old
    · exact ⟨_, recorded, rfl, rfl, own⟩
    · exact inv.faithful r old

end
end Moves

variable {w w' : World}

theorem World.ledger.wakes (inv : w.ledger) {i : Nat} (asleep : w.state i = .sleeping) :
    Ledger (update w.state i .runnable) w.pid w.xstate w.stamp w.births w.exits w.reaps :=
  Ledger.setState inv (by simp [asleep, ProcState.living]) rfl

theorem World.ledger.wakeOne (inv : w.ledger) (chan : Option Chan) (i : Nat) :
    (Proc.wakeOne chan i w).ledger := by
  rw [wakeOne_eq, wakeOne_state]
  split_ifs with asleep
  · exact inv.wakes asleep.1
  · exact inv

theorem World.ledger.killOne (inv : w.ledger) (i : Nat) : (Proc.killOne i w).ledger := by
  unfold World.ledger Proc.killOne
  split_ifs with asleep
  · exact inv.wakes asleep
  · exact inv

theorem World.ledger.parks (inv : w.ledger) (sched : w.scheduled) {c j : Nat} {q : Pc}
    (on : w.exec c = .thread j) (here : w.pc j = q) (working : q.working) (living : s.living) :
    Ledger (update w.state j s) w.pid w.xstate w.stamp w.births w.exits w.reaps := by
  have running := sched.state_of_working on here working
  exact Ledger.setState inv (by simp [running, ProcState.living]) living

theorem World.ledger.step (inv : w.ledger) (sched : w.scheduled) {v : Option Nat} (h : Step w v w') : w'.ledger := by
  cases h with
  | dispatch here unlocked runnable =>
    exact Ledger.setState inv (by simp [runnable, ProcState.living]) rfl
  | yield on here unlocked | sleep n on here plain unlocked | doze on here unlocked =>
    exact inv.parks sched on here rfl rfl
  | claim on here inside unlocked unused => exact Ledger.claim inv unused
  | @abandon c j np on here => exact Ledger.abandon inv (sched.child j np (by simp [here, Pc.child]))
  | @start c j np on here unlocked =>
    have used := sched.child j np (by simp [here, Pc.child, Code.child])
    exact Ledger.setState inv (by simp [used, ProcState.living]) rfl
  | wake on here unlocked | interrupt n unlocked | wakeInit on here unlocked
  | wakeParent on here unlocked =>
    exact inv.wakeOne _ _
  | kill on here unlocked found hit => exact inv.killOne _
  | zombie on here unlocked =>
    have running := sched.state_of_working on here rfl
    exact Ledger.exit inv (by simp [running, ProcState.living])
  | @reap c j i addr havekids on here mine unlocked dead =>
    refine Ledger.reap inv dead ?_
    cases addr <;> simp
  | _ => exact inv

structure Family (w : World) : Prop where
  scheduled : w.scheduled
  lineage : w.lineage
  waiting : w.waiting
  ledger : w.ledger

theorem family_init : Family init := ⟨scheduled_init, lineage_init, waiting_init, ledger_init⟩

theorem Family.step (inv : Family w) (e : Event) : Family (Proc.step w e) where
  scheduled := inv.scheduled.step (step_cases w e)
  lineage := inv.lineage.step inv.scheduled inv.waiting (step_cases w e)
  waiting := inv.waiting.step inv.scheduled inv.lineage (step_cases w e)
  ledger := inv.ledger.step inv.scheduled (step_cases w e)

/-- The exit and wait protocol in a world. An exit or a reap belongs to the
incarnation of a slot that its stamp names. -/
structure WaitProtocol (w : World) : Prop where
  awake : w.waitLock = none → ∀ i j, w.state i = .sleeping → w.chan i = some (.proc i) →
    w.parent j = some i → w.state j ≠ .zombie
  parent : ∀ j, j ≠ initproc → (w.state j).born →
    ∃ i, w.parent j = some i ∧ w.state i ≠ .unused ∧ w.state i ≠ .zombie
  exited : w.exits.Pairwise fun x y => x.stamp ≠ y.stamp
  reaped : w.reaps.Pairwise fun r s => r.stamp ≠ s.stamp
  own : ∀ r ∈ w.reaps, ∃ x ∈ w.exits, x.stamp = r.stamp ∧ x.pid = r.pid ∧
    ∀ status, r.status = some status → status = x.status
  pending : ∀ x ∈ w.exits, (∃ r ∈ w.reaps, r.stamp = x.stamp) ∨
    ∃ j, w.state j = .zombie ∧ w.stamp j = x.stamp ∧ w.pid j = x.pid ∧ w.xstate j = x.status
  /-- kwait with addr != 0 at a zombie, and copyout fails. -/
  copyout : ∀ c t i havekids, w.panicked = false → w.exec c = .thread t →
    w.pc t = .scan true i havekids → w.parent i = some t → w.state i = .zombie →
    (step w (.cpu c .fail)).reaps = w.reaps ∧ (step w (.cpu c .fail)).state i = .zombie ∧
      (step w (.cpu c .fail)).parent i = some t ∧
      (step w (.cpu c .fail)).pid i = w.pid i ∧ (step w (.cpu c .fail)).xstate i = w.xstate i
  /-- kwait at a zombie child whose switch to the scheduler is complete returns it. -/
  returns : ∀ c t i addr havekids, w.panicked = false → w.exec c = .thread t →
    w.pc t = .scan addr i havekids → w.parent i = some t → w.state i = .zombie →
    w.plock i = none → (step w (.cpu c .go)).reaps =
      ⟨w.stamp i, w.pid i, if addr then some (w.xstate i) else none⟩ :: w.reaps

theorem scanStep_fail {t i : Nat} {havekids : Bool} (inside : i < NPROC)
    (mine : w.parent i = some t) (dead : w.state i = .zombie) : scanStep t true i havekids .fail w =
      if w.plock i ≠ none then w else w.releaseWait.setPc t (.free .user) := by
  simp [scanStep, Nat.not_le.mpr inside, mine, dead]

theorem scanStep_go {t i : Nat} {addr havekids : Bool} (inside : i < NPROC)
    (mine : w.parent i = some t) (dead : w.state i = .zombie) (unlocked : w.plock i = none) :
    scanStep t addr i havekids .go w = (reap addr i w).releaseWait.setPc t (.free .user) := by
  simp [scanStep, Nat.not_le.mpr inside, mine, dead, unlocked]

theorem Family.protocol (inv : Family w) : WaitProtocol w where
  awake unlocked i j asleep channel link := inv.waiting.free unlocked i j ⟨asleep, channel⟩ link
  parent j other born := by
    obtain ⟨i, link⟩ := Option.ne_none_iff_exists'.mp (inv.lineage.has_parent j other born)
    have alive := inv.lineage.parent_alive j i link
    refine ⟨i, link, ?_, ?_⟩ <;> rintro here <;> simp [here, ProcState.alive] at alive
  exited := inv.ledger.exited
  reaped := inv.ledger.reaped
  own := inv.ledger.faithful
  pending x member := by
    rcases inv.ledger.pending x member with reaped | ⟨j, dead, rfl⟩
    · exact .inl reaped
    · exact .inr ⟨j, dead, rfl, rfl, rfl⟩
  copyout c t i havekids running on here mine dead := by
    have inside := (inv.lineage.parent_inside mine).1
    have moved : Proc.step w (.cpu c .fail) =
        if w.plock i ≠ none then w else w.releaseWait.setPc t (.free .user) := by
      simp only [Proc.step, running, cpuStep, on, threadStep, here]
      exact scanStep_fail inside mine dead
    rw [moved]
    split_ifs
    · exact ⟨rfl, dead, mine, rfl, rfl⟩
    · exact ⟨rfl, dead, mine, rfl, rfl⟩
  returns c t i addr havekids running on here mine dead unlocked := by
    have inside := (inv.lineage.parent_inside mine).1
    simp only [Proc.step, running, cpuStep, on, threadStep, here,
      scanStep_go inside mine dead unlocked]
    rfl

theorem exit_wait_protocol (events : List Event) :
    WaitProtocol (Machine.run step init events) :=
  (Machine.run_invariant step (P := Family) (fun _ e inv => inv.step e) family_init events).protocol

end Xv6Lab.Proc
