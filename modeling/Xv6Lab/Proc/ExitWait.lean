import Xv6Lab.Proc.Waiting

/-!
Every step keeps the parent links and the invariant of wait_lock.
-/

namespace Xv6Lab.Proc
open Function (update update_eq_self update_of_ne)
variable {w w' : World} {v : Option Nat} {chan : Option Chan}

theorem Pc.child_of_starting {p : Pc} {np : Nat} (starting : p.starting = some np) :
    p.child = some np := by
  cases p with
  | free code | leave slept code | saved slept code =>
    cases code <;> simp_all [Pc.starting, Pc.child, Code.starting, Code.child]
  | _ => simp [Pc.starting] at starting

theorem Code.starting_of_plain {code : Code} (plain : code.child = none) : code.starting = none := by
  cases code <;> simp_all [Code.child, Code.starting]

theorem Lineage.no_children {state : Nat → ProcState} {parent : Nat → Option Nat} {pc : Nat → Pc}
    (inv : Lineage state parent pc) {i : Nat} (dead : ¬(state i).alive) (k : Nat) :
    parent k ≠ some i := fun link => dead (inv.parent_alive k i link)

theorem Lineage.not_init {state : Nat → ProcState} {parent : Nat → Option Nat} {pc : Nat → Pc}
    (inv : Lineage state parent pc) {i : Nat} (dead : ¬(state i).alive) : i ≠ initproc := by
  rintro rfl
  exact dead inv.init_alive

theorem World.lineage.wakeOne (inv : w.lineage) (chan : Option Chan) (i : Nat) :
    (Proc.wakeOne chan i w).lineage := by
  rw [wakeOne_eq, wakeOne_state]
  split_ifs with asleep
  · exact Lineage.setAlive inv (by simp [asleep.1, ProcState.alive]) rfl
  · exact inv

theorem World.lineage.killOne (inv : w.lineage) (i : Nat) : (Proc.killOne i w).lineage := by
  unfold World.lineage Proc.killOne
  split_ifs with asleep
  · exact Lineage.setAlive inv (by simp [asleep, ProcState.alive]) rfl
  · exact inv

section
variable {state : Nat → ProcState} {parent : Nat → Option Nat} {pc : Nat → Pc} {j : Nat} {p q : Pc}

theorem Lineage.moves (inv : Lineage state parent pc) (stays : p.exiting = false)
    (plain : p.child = none) : Lineage state parent (update pc j p) := by
  refine inv.keepPc (fun leaves => by simp [stays] at leaves) ?_ ?_
  · rintro np rfl
    simp [Pc.child] at plain
  · intro np starting
    simp [Pc.child_of_starting starting] at plain

theorem Lineage.leaves (inv : Lineage state parent pc) (here : pc j = q) (before : q.exiting)
    (plain : p.child = none) : Lineage state parent (update pc j p) := by
  refine inv.keepPc (fun _ => here ▸ before) ?_ ?_
  · rintro np rfl
    simp [Pc.child] at plain
  · intro np starting
    simp [Pc.child_of_starting starting] at plain

theorem Lineage.stays (inv : Lineage state parent pc) (here : pc j = q)
    (exiting : p.exiting = q.exiting) (found : ∀ np, p ≠ .found np)
    (starting : p.starting = q.starting) : Lineage state parent (update pc j p) := by
  refine inv.keepPc ?_ found ?_
  · rw [here, exiting]
    exact id
  · intro np
    rw [here, starting]
    exact id

end

theorem World.lineage.parks (inv : w.lineage) (sched : w.scheduled) {c j : Nat} {q : Pc}
    {s : ProcState} (on : w.exec c = .thread j) (here : w.pc j = q) (working : q.working)
    (alive : s.alive) : Lineage (update w.state j s) w.parent w.pc := by
  have running := sched.state_of_working on here working
  exact Lineage.setAlive inv (by simp [running, ProcState.alive]) alive

theorem World.lineage.step (inv : w.lineage) (sched : w.scheduled) (waits : w.waiting)
    (h : Step w v w') : w'.lineage := by
  cases h with
  | idle | panic | search next here | enter here | drop here | setkilled on here => exact inv
  | dispatch here unlocked runnable =>
    exact Lineage.setAlive inv (by simp [runnable, ProcState.alive]) rfl
  | swtch on here | resume on here alive => exact Lineage.stays inv here rfl (by simp) rfl
  | yield on here unlocked =>
    have parked := inv.parks (s := .runnable) sched on here rfl rfl
    exact Lineage.stays parked here rfl (by simp) rfl
  | sleep n on here plain unlocked | doze on here unlocked =>
    have parked := inv.parks (s := .sleeping) sched on here rfl rfl
    exact Lineage.moves parked rfl rfl
  | walk next on here before after init =>
    refine Lineage.setPc inv ?_ (by simp) ?_
    · intro leaves
      cases next <;> simp_all [Pc.exiting, Code.exiting]
    · simp [Pc.starting, Code.starting_of_plain after]
  | @claim c j i on here inside unlocked unused =>
    have dead : ¬(w.state i).alive := by simp [unused, ProcState.alive]
    have taken := Lineage.setState inv (i := i) (s := .used) (.inr (inv.no_children dead))
      (by simp [ProcState.born]) (by simp) (fun same => absurd same (inv.not_init dead))
      (.inr inside)
    refine Lineage.setPc taken ?_ ?_ ?_
    · simp [Pc.exiting]
    · intro np same
      obtain rfl : i = np := by simpa using same
      exact inv.orphan i unused
    · simp [Pc.starting]
  | @abandon c j np on here =>
    have used := sched.child j np (by simp [here, Pc.child])
    have dead : ¬(w.state np).alive := by simp [used, ProcState.alive]
    have freed := Lineage.free inv (inv.not_init dead) (inv.no_children dead) (by simp [used])
      (fun t starting => by
        have link := inv.starting t np starting
        simp [inv.found j np here] at link)
    exact Lineage.moves freed rfl rfl
  | @allocated c j np on here =>
    have ready := inv.moves (j := np) (p := .saved false .user) rfl rfl
    refine Lineage.keepPc ready ?_ (by simp) ?_
    · simp [Pc.exiting, Code.exiting]
    · simp [Pc.starting, Code.starting]
  | @publish c j np on here unlocked =>
    have child : (w.pc j).child = some np := by simp [here, Pc.child, Code.child]
    have used := sched.child j np child
    have running := sched.state_of_working on here rfl
    have linked := Lineage.setParent inv (i := np) (k := j) (by simp [running, ProcState.alive])
      (inv.not_init (by simp [used, ProcState.alive])) (by simp [used])
      (fun t found => by
        have same := sched.only t j np (by simp [found, Pc.child]) child
        simp [← same, found] at here)
      (fun t starting => sched.only t j np (Pc.child_of_starting starting) child)
    refine Lineage.setPc linked ?_ (by simp) ?_
    · simp [Pc.exiting, Code.exiting]
    · simp [Pc.starting, Code.starting]
  | @start c j np on here unlocked =>
    have used := sched.child j np (by simp [here, Pc.child, Code.child])
    have link := inv.starting j np (by simp [here, Pc.starting, Code.starting])
    have started := Lineage.setState inv (i := np) (s := .runnable) (.inl rfl) (by simp [link])
      (by simp) (fun _ => rfl) (.inl (by simp [used]))
    exact Lineage.moves started rfl rfl
  | wake on here unlocked => exact Lineage.moves (inv.wakeOne _ _) rfl rfl
  | interrupt n unlocked => exact inv.wakeOne _ _
  | kill on here unlocked found hit => exact Lineage.moves (inv.killOne _) rfl rfl
  | exit on here unlocked | pass on here other | reparented on here done | passInit on here mine
  | wokenInit on here done | passParent on here mine | wokenParent on here done =>
    exact Lineage.leaves inv here rfl rfl
  | @adopt c j i status on here inside mine =>
    have other : i ≠ initproc := by
      rintro rfl
      simp [inv.init_orphan] at mine
    have linked := Lineage.setParent inv (i := i) (k := initproc) inv.init_alive other
      (fun unused => by simp [inv.orphan i unused] at mine)
      (fun t found => by simp [inv.found t i found] at mine)
      (fun t starting => by
        have same : j = t := by simpa [mine] using inv.starting t i starting
        simp [← same, here, Pc.starting] at starting)
    exact Lineage.leaves linked here rfl rfl
  | wakeInit on here unlocked | wakeParent on here unlocked =>
    exact Lineage.leaves (inv.wakeOne _ _) ((congrFun (wakeOne_pc _ _ w) _).trans here) rfl rfl
  | @zombie c j status on here unlocked =>
    have running := sched.state_of_working on here rfl
    have other := inv.exiting j (by simp [here, Pc.exiting])
    have watch := waits.watch j (by simp [here, Pc.holdsWait])
    rw [here] at watch
    have dead := Lineage.setState inv (i := j) (s := .zombie) (.inr watch.2.1)
      (fun _ _ => inv.has_parent j other (by simp [running, ProcState.born])) (by simp)
      (fun same => absurd same other) (.inl (by simp [running]))
    exact Lineage.moves dead rfl rfl
  | wait on here unlocked | scan next on here alive | scanned on here done | giveUp on here
  | unkilled on here alive =>
    exact Lineage.moves inv rfl rfl
  | @reap c j i addr havekids on here mine unlocked dead =>
    have gone : ¬(w.state i).alive := by simp [dead, ProcState.alive]
    have freed := Lineage.free inv (inv.not_init gone) (inv.no_children gone) (by simp [dead])
      (fun t starting => by
        have used := sched.child t i (Pc.child_of_starting starting)
        simp [dead] at used)
    exact Lineage.moves freed rfl rfl

theorem wakeOne_dozing {i k : Nat} (dozes : Dozing (wakeOne chan i w).state w.chan k) :
    Dozing w.state w.chan k ∧ (k = i → w.chan i ≠ chan) := by
  rw [wakeOne_state] at dozes
  obtain ⟨asleep, here⟩ := dozes
  split_ifs at asleep with wakes
  · have other : k ≠ i := by
      rintro rfl
      simp at asleep
    exact ⟨⟨by simpa [other] using asleep, here⟩, fun same => absurd same other⟩
  · refine ⟨⟨asleep, here⟩, ?_⟩
    rintro rfl same
    exact wakes ⟨asleep, same⟩

theorem wakeOne_zombie {i k : Nat}
    (dead : (wakeOne chan i w).state k = .zombie) : w.state k = .zombie := by
  rw [wakeOne_state] at dead
  split_ifs at dead with wakes
  · have other : k ≠ i := by
      rintro rfl
      simp at dead
    simpa [other] using dead
  · exact dead

theorem World.waiting.wakeOne (inv : w.waiting) (chan : Option Chan) (i : Nat) :
    (Proc.wakeOne chan i w).waiting := by
  rw [wakeOne_eq]
  exact Waiting.mono inv (fun _ dozes => (wakeOne_dozing dozes).1) fun _ => wakeOne_zombie

theorem World.waiting.killOne (inv : w.waiting) (i : Nat) : (Proc.killOne i w).waiting := by
  unfold World.waiting Proc.killOne
  split_ifs
  · exact Waiting.setState inv (by simp) (by simp)
  · exact inv

theorem Lineage.parent_inside {state : Nat → ProcState} {parent : Nat → Option Nat} {pc : Nat → Pc}
    (inv : Lineage state parent pc) {i j : Nat} (link : parent j = some i) :
    j < NPROC ∧ i < NPROC := by
  constructor
  · by_contra large
    simp [inv.orphan j (inv.outside j (by omega))] at link
  · by_contra large
    have alive := inv.parent_alive j i link
    simp [inv.outside i (by omega), ProcState.alive] at alive

theorem World.waiting.watches (inv : w.waiting) {t : Nat} {q : Pc} (here : w.pc t = q)
    (holds : q.holdsWait) : Watch w.state w.parent w.chan t q := by
  have watch := inv.watch t (here ▸ holds)
  rwa [here] at watch

section Holder
variable {c j i k : Nat} {status : Int} {addr havekids : Bool}

section
variable (inv : w.waiting)
include inv

theorem World.waiting.adopt (lineage : w.lineage)
    (here : w.pc j = .reparent status i) (mine : w.parent i = some j) :
    Waiting w.state (update w.parent i (some initproc)) w.chan w.waitLock w.exec
      (update w.pc j (.wakeInit status i 0)) := by
  obtain ⟨safe, passed⟩ := inv.watches here rfl
  have other : j ≠ initproc := lineage.exiting j (by simp [here, Pc.exiting])
  refine Waiting.advance inv (here ▸ rfl) ⟨?_, ?_⟩
  · intro p k dozes link dead
    by_cases same : k = i
    · subst same
      obtain rfl : initproc = p := by simpa using link
      exact ⟨rfl, by omega⟩
    · exact absurd dead (safe p k dozes (by simpa [same] using link))
  · intro k small
    by_cases same : k = i
    · simpa [same] using other.symm
    · simpa [same] using passed k (by omega)

theorem World.waiting.wakeInit (here : w.pc j = .wakeInit status i k) :
    Waiting (Proc.wakeOne (some (.proc initproc)) k w).state w.parent w.chan w.waitLock w.exec
      (update w.pc j (.wakeInit status i (k + 1))) := by
  obtain ⟨lost, passed⟩ := inv.watches here rfl
  refine Waiting.advance inv (here ▸ rfl) ⟨?_, passed⟩
  intro p n dozes link dead
  obtain ⟨before, woken⟩ := wakeOne_dozing dozes
  obtain ⟨rfl, reached⟩ := lost p n before link (wakeOne_zombie dead)
  have other : initproc ≠ k := fun same => woken same (same ▸ before.2)
  exact ⟨rfl, by omega⟩

theorem World.waiting.passInit (lineage : w.lineage)
    (here : w.pc j = .wakeInit status i k) (mine : k = j) :
    Waiting w.state w.parent w.chan w.waitLock w.exec
      (update w.pc j (.wakeInit status i (k + 1))) := by
  obtain ⟨lost, passed⟩ := inv.watches here rfl
  have other : j ≠ initproc := lineage.exiting j (by simp [here, Pc.exiting])
  refine Waiting.advance inv (here ▸ rfl) ⟨?_, passed⟩
  intro p n dozes link dead
  obtain ⟨rfl, reached⟩ := lost p n dozes link dead
  exact ⟨rfl, by omega⟩

theorem World.waiting.wokenInit (here : w.pc j = .wakeInit status i k) (done : NPROC ≤ k) :
    Waiting w.state w.parent w.chan w.waitLock w.exec
      (update w.pc j (.reparent status (i + 1))) := by
  obtain ⟨lost, passed⟩ := inv.watches here rfl
  refine Waiting.advance inv (here ▸ rfl) ⟨?_, fun n small => passed n (by omega)⟩
  intro p n dozes link dead
  obtain ⟨rfl, reached⟩ := lost p n dozes link dead
  have small : initproc < NPROC := by decide
  omega

theorem World.waiting.reparented (lineage : w.lineage)
    (here : w.pc j = .reparent status i) (done : NPROC ≤ i) :
    Waiting w.state w.parent w.chan w.waitLock w.exec
      (update w.pc j (.wakeParent status (w.parent j) 0)) := by
  obtain ⟨safe, passed⟩ := inv.watches here rfl
  refine Waiting.advance inv (here ▸ rfl) ⟨safe, ?_, rfl, fun _ _ _ => by omega⟩
  intro k link
  exact passed k (by have := (lineage.parent_inside link).1; omega) link

theorem World.waiting.wakeParent {p : Option Nat} (here : w.pc j = .wakeParent status p k) :
    Waiting (Proc.wakeOne (p.map .proc) k w).state w.parent w.chan w.waitLock w.exec
      (update w.pc j (.wakeParent status p (k + 1))) := by
  obtain ⟨safe, childless, parent, reached⟩ := inv.watches here rfl
  have safe' : NoLost (Proc.wakeOne (p.map .proc) k w).state w.parent w.chan :=
    fun a b dozes link dead => safe a b (wakeOne_dozing dozes).1 link (wakeOne_zombie dead)
  refine Waiting.advance inv (here ▸ rfl) ⟨safe', childless, parent, ?_⟩
  intro a same dozes
  obtain ⟨before, woken⟩ := wakeOne_dozing dozes
  have least := reached a same before
  have other : a ≠ k := by
    rintro rfl
    exact woken rfl (by simpa [same] using before.2)
  omega

theorem World.waiting.passParent {p : Option Nat}
    (here : w.pc j = .wakeParent status p k) (mine : k = j) :
    Waiting w.state w.parent w.chan w.waitLock w.exec
      (update w.pc j (.wakeParent status p (k + 1))) := by
  obtain ⟨safe, childless, parent, reached⟩ := inv.watches here rfl
  refine Waiting.advance inv (here ▸ rfl) ⟨safe, childless, parent, ?_⟩
  intro a same dozes
  have least := reached a same dozes
  have other : a ≠ j := by
    rintro rfl
    exact childless a (parent ▸ same)
  omega

theorem World.waiting.wokenParent (lineage : w.lineage) {p : Option Nat}
    (here : w.pc j = .wakeParent status p k) (done : NPROC ≤ k) :
    Waiting w.state w.parent w.chan w.waitLock w.exec (update w.pc j (.zombie status)) := by
  obtain ⟨safe, childless, parent, reached⟩ := inv.watches here rfl
  refine Waiting.advance inv (here ▸ rfl) ⟨safe, childless, ?_⟩
  intro a link dozes
  have least := reached a (parent ▸ link) dozes
  have inside := (lineage.parent_inside link).2
  omega

theorem World.waiting.zombie (here : w.pc j = .zombie status) :
    Waiting (update w.state j .zombie) w.parent w.chan none w.exec
      (update w.pc j (.leave false .dead)) := by
  obtain ⟨safe, childless, awake⟩ := inv.watches here rfl
  refine Waiting.release inv (here ▸ rfl) (by simp [Pc.holdsWait]) ?_
  rintro a b ⟨asleep, channel⟩ link dead
  have other : a ≠ j := by
    rintro rfl
    simp at asleep
  have dozes : Dozing w.state w.chan a := ⟨by simpa [other] using asleep, channel⟩
  by_cases same : b = j
  · exact awake a (same ▸ link) dozes
  · exact safe a b dozes link (by simpa [same] using dead)

theorem World.waiting.scanned (lineage : w.lineage)
    (here : w.pc j = .scan addr i havekids) (done : NPROC ≤ i) :
    Waiting w.state w.parent w.chan w.waitLock w.exec (update w.pc j (.killed addr)) := by
  obtain ⟨safe, seen⟩ := inv.watches here rfl
  refine Waiting.advance inv (here ▸ rfl) ⟨safe, ?_⟩
  intro k link
  exact seen k (by have := (lineage.parent_inside link).1; omega) link

theorem World.waiting.doze (here : w.pc j = .doze addr) :
    Waiting (update w.state j .sleeping) w.parent (update w.chan j (some (.proc j))) none w.exec
      (update w.pc j (.leave true (.wait addr))) := by
  obtain ⟨safe, seen⟩ := inv.watches here rfl
  refine Waiting.release inv (here ▸ rfl) (by simp [Pc.holdsWait]) ?_
  rintro a b ⟨asleep, channel⟩ link dead
  have apart : b ≠ j := by
    rintro rfl
    simp at dead
  rw [update_of_ne apart] at dead
  by_cases same : a = j
  · exact seen b (same ▸ link) dead
  · exact safe a b ⟨by simpa [same] using asleep, by simpa [same] using channel⟩ link dead

end

theorem NoLost.free {state : Nat → ProcState} {parent : Nat → Option Nat}
    {chan : Nat → Option Chan} (safe : NoLost state parent chan) (i : Nat) :
    NoLost (update state i .unused) (update parent i none) (update chan i none) := by
  rintro a b ⟨asleep, channel⟩ link dead
  have other : a ≠ i := by
    rintro rfl
    simp at asleep
  have apart : b ≠ i := by
    rintro rfl
    simp at link
  exact safe a b ⟨by simpa [other] using asleep, by simpa [other] using channel⟩
    (by simpa [apart] using link) (by simpa [apart] using dead)

end Holder

theorem Waiting.moves {state : Nat → ProcState} {parent : Nat → Option Nat}
    {chan : Nat → Option Chan} {waitLock : Option Nat} {exec : Nat → Exec} {pc : Nat → Pc}
    {j : Nat} {p q : Pc} (inv : Waiting state parent chan waitLock exec pc) (here : pc j = q)
    (before : q.holdsWait = false) (after : p.holdsWait = false) :
    Waiting state parent chan waitLock exec (update pc j p) :=
  inv.setPc (by simp [here, before]) (by simp [after])

theorem World.waiting.step (inv : w.waiting) (sched : w.scheduled) (lineage : w.lineage)
    (h : Step w v w') : w'.waiting := by
  cases h with
  | idle => exact inv
  | panic => exact inv
  | search next here | enter here | drop here => exact Waiting.setExec inv (by simp [here])
  | dispatch here unlocked runnable =>
    exact (Waiting.setState inv (by simp) (by simp)).setExec (by simp [here])
  | @swtch c j slept code on here =>
    refine (Waiting.moves inv here rfl rfl).setExec ?_
    intro t on'
    obtain rfl : j = t := by simpa [on] using on'
    simp [Pc.holdsWait]
  | @resume c j slept code on here alive =>
    cases slept with
    | false => exact Waiting.moves inv here rfl rfl
    | true => exact Waiting.moves (Waiting.setChan inv (by simp)) here rfl rfl
  | yield on here unlocked | claim on here inside unlocked unused | start on here unlocked =>
    exact Waiting.moves (Waiting.setState inv (by simp) (by simp)) here rfl rfl
  | @sleep c j code n on here plain unlocked =>
    have awaits := Waiting.setChan inv (i := j) (a := some (.other n)) (by simp)
    exact Waiting.moves (awaits.setState (by simp) (by simp)) here rfl rfl
  | walk next on here before after init => exact Waiting.moves inv here rfl rfl
  | @abandon c j np on here =>
    have orphan : update w.parent np none = w.parent := by
      rw [← lineage.found j np here, update_eq_self]
    have freed : Waiting (update w.state np .unused) w.parent
        (update w.chan np none) w.waitLock w.exec w.pc :=
      (Waiting.setChan inv (by simp)).setState (by simp) (by simp)
    rw [← orphan] at freed
    exact Waiting.moves freed here rfl rfl
  | @allocated c j np on here =>
    have used := sched.child j np (by simp [here, Pc.child])
    have off := sched.off (i := np) (by simp [used]) (.inr (by simp [used, ProcState.parked]))
    have ready : Waiting w.state w.parent w.chan w.waitLock w.exec
        (update w.pc np (.saved false .user)) := by
      refine Waiting.setPc inv ?_ (by simp [Pc.holdsWait])
      intro holds
      obtain ⟨c', on', -⟩ := inv.holder np holds
      exact off c' (by simp [on', Exec.proc])
    have apart : j ≠ np := by
      rintro rfl
      exact off c (by simp [on, Exec.proc])
    have still : update w.pc np (.saved false .user) j = .found np := by
      rw [update_of_ne apart, here]
    exact Waiting.moves ready still rfl rfl
  | @publish c j np on here unlocked =>
    have used := sched.child j np (by simp [here, Pc.child, Code.child])
    unfold World.waiting at inv ⊢
    simp only [World.setPc, unlocked] at inv ⊢
    exact inv.publish (by simp [used]) (by simp [Pc.holdsWait])
  | wake on here unlocked =>
    exact Waiting.moves (inv.wakeOne _ _) ((congrFun (wakeOne_pc _ _ w) _).trans here) rfl rfl
  | interrupt n unlocked => exact inv.wakeOne _ _
  | kill on here unlocked found hit => exact Waiting.moves (inv.killOne _) here rfl rfl
  | setkilled on here => exact inv
  | exit on here unlocked | wait on here unlocked =>
    unfold World.waiting at inv ⊢
    rw [unlocked] at inv
    exact inv.acquire on ⟨inv.free rfl, fun _ small => absurd small (Nat.not_lt_zero _)⟩
  | @pass c j i status on here other =>
    obtain ⟨safe, passed⟩ := inv.watches here rfl
    refine Waiting.advance inv (here ▸ rfl) ⟨safe, ?_⟩
    intro k small
    rcases Nat.lt_succ_iff_lt_or_eq.mp small with before | rfl
    · exact passed k before
    · exact other
  | adopt on here inside mine => exact inv.adopt lineage here mine
  | reparented on here done => exact inv.reparented lineage here done
  | passInit on here mine => exact inv.passInit lineage here mine
  | wakeInit on here unlocked =>
    rw [wakeOne_eq]
    exact inv.wakeInit here
  | wokenInit on here done => exact inv.wokenInit here done
  | passParent on here mine => exact inv.passParent here mine
  | wakeParent on here unlocked =>
    rw [wakeOne_eq]
    exact inv.wakeParent here
  | wokenParent on here done => exact inv.wokenParent lineage here done
  | zombie on here unlocked => exact inv.zombie here
  | @scan c j i addr havekids next on here alive =>
    obtain ⟨safe, seen⟩ := inv.watches here rfl
    refine Waiting.advance inv (here ▸ rfl) ⟨safe, ?_⟩
    intro k small
    rcases Nat.lt_succ_iff_lt_or_eq.mp small with before | rfl
    · exact seen k before
    · exact alive
  | scanned on here done => exact inv.scanned lineage here done
  | giveUp on here =>
    rcases here with ⟨i, havekids, here⟩ | here
    · exact Waiting.release inv (here ▸ rfl) (by simp [Pc.holdsWait]) (inv.watches here rfl).1
    · exact Waiting.release inv (here ▸ rfl) (by simp [Pc.holdsWait]) (inv.watches here rfl).1
  | reap on here mine unlocked dead =>
    exact Waiting.release inv (here ▸ rfl) (by simp [Pc.holdsWait])
      (NoLost.free (inv.watches here rfl).1 _)
  | unkilled on here alive =>
    obtain ⟨safe, seen⟩ := inv.watches here rfl
    exact Waiting.advance inv (here ▸ rfl) ⟨safe, seen⟩
  | doze on here unlocked => exact inv.doze here

end Xv6Lab.Proc
