import Xv6Lab.Proc.Family

/-!
The invariant of wait_lock. While the lock is free no process sleeps in kwait
with a zombie child; while it is held, what its holder has seen so far.
-/

namespace Xv6Lab.Proc
open Function (update update_apply)
variable {p : Pc} {parent' : Nat → Option Nat}

def Pc.holdsWait : Pc → Bool
  | .free _ | .leave _ _ | .saved _ _ | .found _ => false
  | _ => true

section Notions
variable (state : Nat → ProcState) (parent : Nat → Option Nat) (chan : Nat → Option Chan)

def Dozing (i : Nat) : Prop := state i = .sleeping ∧ chan i = some (.proc i)

def NoLost : Prop := ∀ i j, Dozing state chan i → parent j = some i → state j ≠ .zombie

def Watch (t : Nat) : Pc → Prop
  | .reparent _ r => NoLost state parent chan ∧ ∀ j, j < r → parent j ≠ some t
  -- only init may sleep over a zombie, and the loop of wakeup has not passed it
  | .wakeInit _ r k =>
    (∀ i j, Dozing state chan i → parent j = some i → state j = .zombie → i = initproc ∧ k ≤ i) ∧
      ∀ j, j ≤ r → parent j ≠ some t
  | .wakeParent _ p k =>
    NoLost state parent chan ∧ (∀ j, parent j ≠ some t) ∧ p = parent t ∧
      ∀ i, p = some i → Dozing state chan i → k ≤ i
  | .zombie _ =>
    NoLost state parent chan ∧ (∀ j, parent j ≠ some t) ∧
      ∀ i, parent t = some i → ¬Dozing state chan i
  | .scan _ r _ =>
    NoLost state parent chan ∧ ∀ j, j < r → parent j = some t → state j ≠ .zombie
  | .killed _ | .doze _ =>
    NoLost state parent chan ∧ ∀ j, parent j = some t → state j ≠ .zombie
  | _ => True

end Notions

structure Waiting (state : Nat → ProcState) (parent : Nat → Option Nat)
    (chan : Nat → Option Chan) (waitLock : Option Nat) (exec : Nat → Exec) (pc : Nat → Pc) :
    Prop where
  holder : ∀ t, (pc t).holdsWait → ∃ c, exec c = .thread t ∧ waitLock = some c
  free : waitLock = none → NoLost state parent chan
  watch : ∀ t, (pc t).holdsWait → Watch state parent chan t (pc t)

def World.waiting (w : World) : Prop :=
  Waiting w.state w.parent w.chan w.waitLock w.exec w.pc

theorem waiting_init : init.waiting := by
  have nobody : ∀ t, ¬(init.pc t).holdsWait := by
    intro t
    simp only [init, update_apply]
    split_ifs <;> simp [Pc.holdsWait]
  refine ⟨fun t holds => absurd holds (nobody t), ?_, fun t holds => absurd holds (nobody t)⟩
  intro _ i j _ link
  simp [init] at link

section Moves
variable {state state' : Nat → ProcState} {parent : Nat → Option Nat}
  {chan chan' : Nat → Option Chan} {waitLock : Option Nat} {exec : Nat → Exec} {pc : Nat → Pc}
  {c i j t : Nat}

theorem Watch.mono (watch : Watch state parent chan t p)
    (dozing : ∀ i, Dozing state' chan' i → Dozing state chan i)
    (zombie : ∀ j, state' j = .zombie → state j = .zombie) : Watch state' parent chan' t p := by
  have lost : NoLost state parent chan → NoLost state' parent chan' :=
    fun none i j dozes link dead => none i j (dozing i dozes) link (zombie j dead)
  cases p with
  | reparent status r => exact ⟨lost watch.1, watch.2⟩
  | wakeInit status r k =>
    exact ⟨fun i j dozes link dead => watch.1 i j (dozing i dozes) link (zombie j dead), watch.2⟩
  | wakeParent status p k =>
    exact ⟨lost watch.1, watch.2.1, watch.2.2.1,
      fun i here dozes => watch.2.2.2 i here (dozing i dozes)⟩
  | zombie status =>
    exact ⟨lost watch.1, watch.2.1, fun i link dozes => watch.2.2 i link (dozing i dozes)⟩
  | scan addr r havekids =>
    exact ⟨lost watch.1, fun j small link dead => watch.2 j small link (zombie j dead)⟩
  | killed addr | doze addr =>
    exact ⟨lost watch.1, fun j link dead => watch.2 j link (zombie j dead)⟩
  | _ => trivial

section
variable (inv : Waiting state parent chan waitLock exec pc)
include inv

theorem Waiting.mono (dozing : ∀ i, Dozing state' chan' i → Dozing state chan i)
    (zombie : ∀ j, state' j = .zombie → state j = .zombie) :
    Waiting state' parent chan' waitLock exec pc where
  holder := inv.holder
  free unlocked i j dozes link dead :=
    inv.free unlocked i j (dozing i dozes) link (zombie j dead)
  watch t holds := (inv.watch t holds).mono dozing zombie

theorem Waiting.setChan {a : Option Chan} (other : a ≠ some (.proc i)) :
    Waiting state parent (update chan i a) waitLock exec pc := by
  refine inv.mono ?_ fun _ dead => dead
  rintro k ⟨asleep, here⟩
  have apart : k ≠ i := by
    rintro rfl
    exact other (by simpa using here)
  exact ⟨asleep, by simpa [apart] using here⟩

theorem Waiting.setState {s : ProcState} (awake : s = .sleeping → chan i ≠ some (.proc i))
    (alive : s ≠ .zombie) : Waiting (update state i s) parent chan waitLock exec pc := by
  refine inv.mono ?_ ?_
  · rintro k ⟨asleep, here⟩
    have other : k ≠ i := by
      rintro rfl
      exact awake (by simpa using asleep) here
    exact ⟨by simpa [other] using asleep, here⟩
  · intro k dead
    have other : k ≠ i := by
      rintro rfl
      exact alive (by simpa using dead)
    simpa [other] using dead

theorem Waiting.setPc (before : ¬(pc j).holdsWait) (after : ¬p.holdsWait) :
    Waiting state parent chan waitLock exec (update pc j p) := by
  have kept : ∀ t, (update pc j p t).holdsWait ↔ (pc t).holdsWait := by
    intro t
    by_cases same : t = j
    · simp [same, before, after]
    · simp [same]
  have unmoved : ∀ t, (pc t).holdsWait → update pc j p t = pc t := by
    intro t holds
    have other : t ≠ j := by
      rintro rfl
      exact before holds
    simp [other]
  refine ⟨?_, inv.free, ?_⟩
  · intro t holds
    exact inv.holder t ((kept t).mp holds)
  · intro t holds
    have old := (kept t).mp holds
    rw [unmoved t old]
    exact inv.watch t old

theorem Waiting.setExec {e : Exec} (before : ∀ t, exec c = .thread t → ¬(pc t).holdsWait) :
    Waiting state parent chan waitLock (update exec c e) pc := by
  refine ⟨?_, inv.free, inv.watch⟩
  intro t holds
  obtain ⟨c', on, locked⟩ := inv.holder t holds
  have other : c' ≠ c := by
    rintro rfl
    exact before t on holds
  exact ⟨c', by simp [other, on], locked⟩

theorem Waiting.only (first : (pc i).holdsWait) (second : (pc j).holdsWait) : i = j := by
  obtain ⟨c, on, locked⟩ := inv.holder i first
  obtain ⟨c', on', locked'⟩ := inv.holder j second
  obtain rfl : c = c' := by simpa [locked] using locked'
  simpa [on] using on'

theorem Waiting.advance (before : (pc t).holdsWait) (watch : Watch state' parent' chan' t p) :
    Waiting state' parent' chan' waitLock exec (update pc t p) := by
  obtain ⟨c, on, locked⟩ := inv.holder t before
  have nobody : ∀ k, k ≠ t → ¬(pc k).holdsWait := fun k other holds => other (inv.only holds before)
  refine ⟨?_, by simp [locked], ?_⟩
  · intro k holds
    by_cases same : k = t
    · exact ⟨c, same ▸ on, locked⟩
    · exact absurd (by simpa [same] using holds) (nobody k same)
  · intro k holds
    by_cases same : k = t
    · subst same
      simpa using watch
    · exact absurd (by simpa [same] using holds) (nobody k same)

theorem Waiting.release (before : (pc t).holdsWait) (after : ¬p.holdsWait)
    (safe : NoLost state' parent' chan') :
    Waiting state' parent' chan' none exec (update pc t p) := by
  have nobody : ∀ k, ¬(update pc t p k).holdsWait := by
    intro k holds
    by_cases same : k = t
    · subst same
      exact after (by simpa using holds)
    · exact same (inv.only (by simpa [same] using holds) before)
  exact ⟨fun k holds => absurd holds (nobody k), fun _ => safe,
    fun k holds => absurd holds (nobody k)⟩

end

section
variable (inv : Waiting state parent chan none exec pc)
include inv

theorem Waiting.nobody (t : Nat) : ¬(pc t).holdsWait := by
  intro holds
  obtain ⟨c, -, locked⟩ := inv.holder t holds
  simp at locked

theorem Waiting.acquire (on : exec c = .thread t) (watch : Watch state parent chan t p) :
    Waiting state parent chan (some c) exec (update pc t p) := by
  refine ⟨?_, by simp, ?_⟩
  · intro k holds
    by_cases same : k = t
    · exact ⟨c, same ▸ on, rfl⟩
    · exact absurd (by simpa [same] using holds) (inv.nobody k)
  · intro k holds
    by_cases same : k = t
    · subst same
      simpa using watch
    · exact absurd (by simpa [same] using holds) (inv.nobody k)

theorem Waiting.publish {np : Nat} (alive : state np ≠ .zombie) (after : ¬p.holdsWait) :
    Waiting state (update parent np (some t)) chan none exec (update pc t p) := by
  have nobody : ∀ k, ¬(update pc t p k).holdsWait := by
    intro k holds
    by_cases same : k = t
    · subst same
      exact after (by simpa using holds)
    · exact inv.nobody k (by simpa [same] using holds)
  refine ⟨fun k holds => absurd holds (nobody k), ?_, fun k holds => absurd holds (nobody k)⟩
  intro _ i j dozes link dead
  have other : j ≠ np := by
    rintro rfl
    exact alive dead
  exact inv.free rfl i j dozes (by simpa [other] using link) dead

end
end Moves
end Xv6Lab.Proc
