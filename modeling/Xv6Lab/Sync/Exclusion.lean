import Xv6Lab.Sync.Sleeplock

/-!
Sleep-locks exclude each other, and no waiter is left asleep on a free lock.
-/

namespace Xv6Lab.Sync
open Function (update update_eq_self update_of_ne update_self)

open Proc (ProcState)
variable {nproc : Nat} {pid : Nat → BitVec 32} {plock : Bool} {chan : Option Nat} {s : ProcState}

def Spins (spin : Nat → Option Nat) (pc : Nat → Pc) : Prop :=
  ∀ l i, spin l = some i ↔ (pc i).section = some l

section Spins
variable {spin : Nat → Option Nat} {pc : Nat → Pc} {i l : Nat} {p : Pc}

theorem Spins.stay (spins : Spins spin pc) (same : p.section = (pc i).section) :
    Spins spin (update pc i p) := by
  intro m j
  by_cases mine : j = i
  · subst mine
    rw [update_self, same]
    exact spins m j
  · rw [update_of_ne mine]
    exact spins m j

theorem Spins.enter (spins : Spins spin pc) (outside : (pc i).section = none) (free : spin l = none)
    (inside : p.section = some l) : Spins (update spin l (some i)) (update pc i p) := by
  intro m j
  by_cases mine : j = i
  · subst mine
    by_cases here : m = l
    · simp [here, inside]
    · simp [here, inside, spins m j, outside, Ne.symm here]
  · by_cases here : m = l
    · subst here
      have other := (spins m j).not.mp (by simp [free])
      simp [mine, Ne.symm mine, other]
    · simp [here, mine, spins m j]

theorem Spins.leave (spins : Spins spin pc) (inside : (pc i).section = some l)
    (outside : p.section = none) : Spins (update spin l none) (update pc i p) := by
  have owner := (spins l i).mpr inside
  intro m j
  by_cases mine : j = i
  · subst mine
    by_cases here : m = l
    · simp [here, outside]
    · simp [here, outside, spins m j, inside, Ne.symm here]
  · by_cases here : m = l
    · subst here
      have other := (spins m j).not.mp (by simp [owner, Ne.symm mine])
      simp [mine, other]
    · simp [here, mine, spins m j]

end Spins

def Fits (plock : Bool) (chan : Option Nat) (state : ProcState) : Pc → Prop
  | .doze _ => plock = true ∧ chan = none ∧ state ≠ .sleeping
  | .asleep l => plock = false ∧ chan = some l ∧ state ≠ .running
  | _ => plock = false ∧ chan = none ∧ state ≠ .sleeping

theorem Fits.of_sleeping {p : Pc}
    (fits : Fits plock chan .sleeping p) : ∃ l, p = .asleep l ∧ chan = some l := by
  cases p <;> simp_all [Fits]

theorem Fits.wakes {p : Pc} (fits : Fits plock chan .sleeping p) : Fits plock chan .runnable p := by
  cases p <;> simp_all [Fits]

structure Owned (pid : Nat → BitVec 32) (locked : Nat → Bool) (lkPid : Nat → BitVec 32)
    (held : Nat → Nat → Bool) : Prop where
  taken : ∀ l, locked l = true ↔ ∃ i, held i l = true
  one : ∀ l i j, held i l = true → held j l = true → i = j
  named : ∀ l i, held i l = true → lkPid l = pid i
  clear : ∀ l, locked l = false → lkPid l = 0

section Owned
variable {locked : Nat → Bool} {lkPid : Nat → BitVec 32} {held : Nat → Nat → Bool} {i l : Nat}

theorem held_update (held : Nat → Nat → Bool) (i l j m : Nat) (b : Bool) :
    update held i (update (held i) l b) j m =
      if j = i ∧ m = l then b else held j m := by
  by_cases mine : j = i
  · subst mine
    by_cases here : m = l <;> simp [here]
  · simp [mine]

theorem Owned.take (owned : Owned pid locked lkPid held) (free : locked l = false) :
    Owned pid (update locked l true) (update lkPid l (pid i))
      (update held i (update (held i) l true)) := by
  have nobody : ∀ j, held j l ≠ true := fun j holds => by
    rw [(owned.taken l).mpr ⟨j, holds⟩] at free
    cases free
  refine ⟨fun m => ?_, fun m j j' => ?_, fun m j => ?_, fun m => ?_⟩
  · by_cases here : m = l
    · subst here
      simp only [update_self, true_iff]
      exact ⟨i, by simp⟩
    · rw [update_of_ne here, owned.taken]
      simp [held_update, here]
  · rw [held_update, held_update]
    by_cases here : m = l
    · subst here
      have only : ∀ j, (if j = i ∧ m = m then true else held j m) = true → j = i := by
        intro j holds
        by_contra other
        rw [if_neg (by simp [other])] at holds
        exact nobody j holds
      exact fun first second => (only j first).trans (only j' second).symm
    · simpa [here] using owned.one m j j'
  · rw [held_update]
    by_cases here : m = l
    · subst here
      by_cases mine : j = i
      · simp [mine]
      · simpa [mine] using fun holds => (nobody j holds).elim
    · simpa [here] using owned.named m j
  · by_cases here : m = l
    · simp [here]
    · simpa [here] using owned.clear m

theorem Owned.drop (owned : Owned pid locked lkPid held) (holds : held i l = true) :
    Owned pid (update locked l false) (update lkPid l 0)
      (update held i (update (held i) l false)) := by
  refine ⟨fun m => ?_, fun m j j' => ?_, fun m j => ?_, fun m => ?_⟩
  · by_cases here : m = l
    · subst here
      simp only [update_self, Bool.false_eq_true, false_iff, not_exists, held_update]
      intro j
      by_cases mine : j = i
      · simp [mine]
      · simpa [mine] using fun other => mine (owned.one m j i other holds)
    · rw [update_of_ne here, owned.taken]
      simp [held_update, here]
  · rw [held_update, held_update]
    intro first second
    split at first
    · cases first
    · split at second
      · cases second
      · exact owned.one m j j' first second
  · rw [held_update]
    by_cases here : m = l
    · subst here
      by_cases mine : j = i
      · simp [mine]
      · simpa [mine] using fun other => (mine (owned.one m j i other holds)).elim
    · simpa [here] using owned.named m j
  · by_cases here : m = l
    · simp [here]
    · simpa [here] using owned.clear m

end Owned

def Waits (l : Nat) (state : ProcState) (p : Pc) : Prop :=
  p = .doze l ∨ (p = .asleep l ∧ state = .sleeping)

/-- While there is a waiter the lock is held, or a wakeup has not passed the waiter yet. -/
def Due (locked : Nat → Bool) (state : Nat → ProcState) (pc : Nat → Pc) : Prop :=
  ∀ i l, Waits l (state i) (pc i) → locked l = true ∨ ∃ j k, pc j = .wake l k ∧ k ≤ i

section Due
variable {locked : Nat → Bool} {state : Nat → ProcState} {pc : Nat → Pc} {i k l : Nat} {p : Pc}

section
variable (due : Due locked state pc)
include due

theorem Due.move (s : ProcState) (before : ∀ l k, pc i ≠ .wake l k)
    (after : ∀ l, Waits l s p → locked l = true) :
    Due locked (update state i s) (update pc i p) := by
  intro j m waits
  by_cases mine : j = i
  · subst mine
    rw [update_self, update_self] at waits
    exact .inl (after m waits)
  · rw [update_of_ne mine, update_of_ne mine] at waits
    refine (due j m waits).imp_right ?_
    rintro ⟨j', k, here, low⟩
    refine ⟨j', k, ?_, low⟩
    rw [update_of_ne, here]
    rintro rfl
    exact before m k here

theorem Due.setPc (before : ∀ l k, pc i ≠ .wake l k)
    (after : ∀ l, Waits l (state i) p → locked l = true) : Due locked state (update pc i p) := by
  have moved := due.move (i := i) (state i) before after
  rwa [update_eq_self] at moved

theorem Due.setState (awake : s ≠ .sleeping) : Due locked (update state k s) pc := by
  intro j m waits
  refine due j m (waits.imp_right ?_)
  rintro ⟨here, asleep⟩
  refine ⟨here, ?_⟩
  by_cases mine : j = k
  · subst mine
    rw [update_self] at asleep
    exact absurd asleep awake
  · rwa [update_of_ne mine] at asleep

theorem Due.take : Due (update locked l true) state pc := by
  intro j m waits
  refine (due j m waits).imp_left fun held => ?_
  by_cases here : m = l
  · simp [here]
  · rwa [update_of_ne here]

theorem Due.drop (before : ∀ l k, pc i ≠ .wake l k) :
    Due (update locked l false) state (update pc i (.wake l 0)) := by
  intro j m waits
  have other : j ≠ i := by
    rintro rfl
    rw [update_self] at waits
    simp [Waits] at waits
  rw [update_of_ne other] at waits
  by_cases here : m = l
  · subst here
    exact .inr ⟨i, 0, by simp, Nat.zero_le _⟩
  · rw [update_of_ne here]
    refine (due j m waits).imp_right ?_
    rintro ⟨j', k, wakes, low⟩
    refine ⟨j', k, ?_, low⟩
    rw [update_of_ne, wakes]
    rintro rfl
    exact before m k wakes

theorem Due.pass (here : pc i = .wake l k) (woken : ¬Waits l (state k) (pc k)) :
    Due locked state (update pc i (.wake l (k + 1))) := by
  intro j m waits
  have other : j ≠ i := by
    rintro rfl
    rw [update_self] at waits
    simp [Waits] at waits
  rw [update_of_ne other] at waits
  refine (due j m waits).imp_right ?_
  rintro ⟨j', k', wakes, low⟩
  by_cases mine : j' = i
  · subst mine
    rw [here] at wakes
    obtain ⟨rfl, rfl⟩ := Pc.wake.inj wakes
    have past : k ≠ j := by
      rintro rfl
      exact woken waits
    exact ⟨j', k + 1, by simp, by omega⟩
  · exact ⟨j', k', by rw [update_of_ne mine, wakes], low⟩

theorem Due.finish (here : pc i = .wake l k) (done : nproc ≤ k)
    (slots : ∀ j, pc j ≠ .user → j < nproc) (after : ∀ m, ¬Waits m (state i) p) :
    Due locked state (update pc i p) := by
  intro j m waits
  have other : j ≠ i := by
    rintro rfl
    rw [update_self] at waits
    exact after m waits
  rw [update_of_ne other] at waits
  have slot : j < nproc := slots j fun user => by simp [Waits, user] at waits
  refine (due j m waits).imp_right ?_
  rintro ⟨j', k', wakes, low⟩
  refine ⟨j', k', ?_, low⟩
  rw [update_of_ne, wakes]
  rintro rfl
  rw [here] at wakes
  obtain ⟨-, rfl⟩ := Pc.wake.inj wakes
  omega

end
end Due

structure Place (nproc : Nat) (locked held : Nat → Bool) (plock : Bool) (chan : Option Nat)
    (state : ProcState) (i : Nat) (p : Pc) : Prop where
  fits : Fits plock chan state p
  slot : p ≠ .user → i < nproc
  owner : ∀ l, p = .release l → held l = true
  tested : ∀ l, p = .sleep l → locked l = true

structure Inv (nproc : Nat) (pid : Nat → BitVec 32) (w : World) : Prop where
  spins : Spins w.spin w.pc
  place : ∀ i, Place nproc w.locked (w.held i) (w.plock i) (w.chan i) (w.state i) i (w.pc i)
  owned : Owned pid w.locked w.lkPid w.held
  due : Due w.locked w.state w.pc

theorem inv_init (nproc : Nat) (pid : Nat → BitVec 32) : Inv nproc pid init where
  spins := by simp [Spins, init, Pc.section]
  place i := ⟨by simp [Fits, init], by simp [init], by simp [init], by simp [init]⟩
  owned := by constructor <;> simp [init]
  due := by simp [Due, Waits, init]

section Step
variable {w w' : World} {i k l : Nat} {p : Pc}

section
variable (inv : Inv nproc pid w)
include inv

theorem Inv.place_of
    (here : Place nproc w'.locked (w'.held i) (w'.plock i) (w'.chan i) (w'.state i) i (w'.pc i))
    (same : ∀ j, j ≠ i → w'.held j = w.held j ∧ w'.plock j = w.plock j ∧ w'.chan j = w.chan j ∧
      w'.state j = w.state j ∧ w'.pc j = w.pc j)
    (kept : ∀ j l, j ≠ i → w.pc j = .sleep l → w.locked l = true → w'.locked l = true) (j : Nat) :
    Place nproc w'.locked (w'.held j) (w'.plock j) (w'.chan j) (w'.state j) j (w'.pc j) := by
  by_cases mine : j = i
  · exact mine ▸ here
  · obtain ⟨held, plock, chan, state, pc⟩ := same j mine
    obtain ⟨fits, slot, owner, tested⟩ := inv.place j
    rw [held, plock, chan, state, pc]
    exact ⟨fits, slot, owner, fun l sleeps => kept j l mine sleeps (tested l sleeps)⟩

theorem Inv.setPc (same : p.section = (w.pc i).section)
    (here : Place nproc w.locked (w.held i) (w.plock i) (w.chan i) (w.state i) i p)
    (due : Due w.locked w.state (update w.pc i p)) : Inv nproc pid (w.setPc i p) where
  spins := inv.spins.stay same
  place := inv.place_of (i := i) (by simpa [World.setPc] using here)
    (fun j other => by simp [World.setPc, other]) fun _ _ _ _ held => held
  owned := inv.owned
  due := due

section
variable (inside : i < nproc)
include inside

theorem Inv.user (here : w.pc i = .user)
    (choice : Choice) : Inv nproc pid (userStep i choice w) := by
  have fits := (inv.place i).fits
  rw [here] at fits
  have due : ∀ p, (∀ l, ¬Waits l (w.state i) p) →
      Due w.locked w.state (update w.pc i p) := fun p after =>
    inv.due.setPc (by simp [here]) fun l waits => absurd waits (after l)
  cases choice with
  | go => exact inv
  | acquiresleep l | kkill q =>
    exact inv.setPc (by simp [here, Pc.section]) ⟨fits, fun _ => inside, by simp, by simp⟩
      (due _ (by simp [Waits]))
  | releasesleep l =>
    simp only [userStep]
    split
    · next holds =>
        exact inv.setPc (by simp [here, Pc.section])
          ⟨fits, fun _ => inside, fun m same => Pc.release.inj same ▸ holds, by simp⟩
          (due _ (by simp [Waits]))
    · exact inv

theorem Inv.acquire (here : w.pc i = .acquire l)
    (free : w.spin l = none) : Inv nproc pid ((w.setSpin l (some i)).setPc i (.test l)) where
  spins := inv.spins.enter (by simp [here, Pc.section]) free rfl
  place := by
    have fits := (inv.place i).fits
    rw [here] at fits
    refine inv.place_of (i := i) ?_ (fun j other => by simp [World.setPc, World.setSpin, other])
      fun _ _ _ _ held => held
    simpa [World.setPc, World.setSpin] using ⟨fits, fun _ => inside, by simp, by simp⟩
  owned := inv.owned
  due := inv.due.setPc (by simp [here]) (by simp [Waits])

theorem Inv.test (here : w.pc i = .test l) : Inv nproc pid (if w.locked l then w.setPc i (.sleep l)
      else ((take pid i l w).setSpin l none).setPc i .user) := by
  have fits := (inv.place i).fits
  rw [here] at fits
  split
  · next held =>
      exact inv.setPc (by simp [here, Pc.section])
        ⟨fits, fun _ => inside, by simp, fun m same => Pc.sleep.inj same ▸ held⟩
        (inv.due.setPc (by simp [here]) (by simp [Waits]))
  · next free =>
      refine ⟨inv.spins.leave (by simp [here, Pc.section]) rfl, ?_,
        inv.owned.take (by simpa using free), inv.due.take.setPc (by simp [here]) (by simp [Waits])⟩
      refine inv.place_of (i := i) ?_
        (fun j other => by simp [World.setPc, World.setSpin, take, other]) ?_
      · simpa [World.setPc, World.setSpin, take] using ⟨fits, by simp, by simp, by simp⟩
      · intro j m other sleeps held
        by_cases same : m = l
        · simp [World.setPc, World.setSpin, take, same]
        · simpa [World.setPc, World.setSpin, take, same] using held

theorem Inv.sleep (here : w.pc i = .sleep l) : Inv nproc pid
      (({ w with plock := update w.plock i true }.setSpin l none).setPc i (.doze l)) where
  spins := inv.spins.leave (by simp [here, Pc.section]) rfl
  place := by
    have fits := (inv.place i).fits
    rw [here] at fits
    refine inv.place_of (i := i) ?_ (fun j other => by simp [World.setPc, World.setSpin, other])
      fun _ _ _ _ held => held
    simpa [World.setPc, World.setSpin] using
      ⟨⟨rfl, fits.2.1, fits.2.2⟩, fun _ => inside, by simp, by simp⟩
  owned := inv.owned
  due := by
    refine inv.due.setPc (by simp [here]) ?_
    -- the lock was held when it was tested, and lk->lk has not been given up since
    rintro m (same | ⟨same, -⟩)
    · exact Pc.doze.inj same ▸ (inv.place i).tested l here
    · cases same

theorem Inv.doze (here : w.pc i = .doze l) : Inv nproc pid (({ w with
      chan := update w.chan i (some l)
      plock := update w.plock i false }.setState i .sleeping).setPc i (.asleep l)) where
  spins := inv.spins.stay (by simp [here, Pc.section])
  place := by
    refine inv.place_of (i := i) ?_ (fun j other => by simp [World.setPc, World.setState, other])
      fun _ _ _ _ held => held
    simpa [World.setPc, World.setState] using
      ⟨⟨rfl, rfl, by simp⟩, fun _ => inside, by simp, by simp⟩
  owned := inv.owned
  due := by
    -- from about to sleep to asleep: the wait goes on
    intro j m waits
    have old : Waits m (w.state j) (w.pc j) := by
      by_cases mine : j = i
      · subst mine
        rcases waits with same | ⟨same, -⟩
        · simp [World.setPc] at same
        · rw [here, ← Pc.asleep.inj ((update_self ..).symm.trans same)]
          exact .inl rfl
      · simpa [World.setPc, World.setState, mine] using waits
    refine (inv.due j m old).imp_right ?_
    rintro ⟨j', k, wakes, low⟩
    refine ⟨j', k, ?_, low⟩
    have other : j' ≠ i := by
      rintro rfl
      simp [here] at wakes
    simpa [World.setPc, World.setState, other] using wakes

theorem Inv.release (here : w.pc i = .release l) (free : w.spin l = none) :
    Inv nproc pid (((drop i l w).setSpin l (some i)).setPc i (.wake l 0)) where
  spins := inv.spins.enter (by simp [here, Pc.section]) free rfl
  place := by
    have fits := (inv.place i).fits
    rw [here] at fits
    refine inv.place_of (i := i) ?_
      (fun j other => by simp [World.setPc, World.setSpin, drop, other]) ?_
    · simpa [World.setPc, World.setSpin, drop] using ⟨fits, fun _ => inside, by simp, by simp⟩
    · -- a process that has tested l would be in a section of lk->lk
      intro j m other sleeps held
      have apart : m ≠ l := by
        rintro rfl
        rw [(inv.spins m j).mpr (by simp [sleeps, Pc.section])] at free
        cases free
      simpa [World.setPc, World.setSpin, drop, apart] using held
  owned := inv.owned.drop ((inv.place i).owner l here)
  due := inv.due.drop (by simp [here])

end

theorem Inv.rouse (asleep : w.state k = .sleeping) : Inv nproc pid (w.setState k .runnable) where
  spins := inv.spins
  place := by
    obtain ⟨fits, slot, owner, tested⟩ := inv.place k
    rw [asleep] at fits
    refine inv.place_of (i := k) ?_ (fun j other => by simp [World.setState, other])
      fun _ _ _ _ held => held
    simpa [World.setState] using ⟨fits.wakes, slot, owner, tested⟩
  owned := inv.owned
  due := inv.due.setState (by simp)

theorem Inv.wakeOne : Inv nproc pid (wakeOne l k w) := by
  unfold Sync.wakeOne
  split
  · next asleep => exact inv.rouse asleep.1
  · exact inv

end

theorem wakeOne_pc (l k : Nat) (w : World) : (wakeOne l k w).pc = w.pc := by
  unfold wakeOne
  split <;> rfl

theorem Inv.woken (inv : Inv nproc pid w) (unlocked : w.plock k = false) :
    ¬Waits l ((Sync.wakeOne l k w).state k) ((Sync.wakeOne l k w).pc k) := by
  have fits := (inv.place k).fits
  rw [wakeOne_pc]
  rintro (dozes | ⟨here, asleep⟩)
  · rw [dozes, unlocked] at fits
    exact absurd fits.1 (by simp)
  · unfold Sync.wakeOne at asleep
    split at asleep
    · simp [World.setState] at asleep
    · next other =>
        rw [here] at fits
        exact other ⟨asleep, fits.2.1⟩

theorem Inv.wake (inv : Inv nproc pid w) (inside : i < nproc) (here : w.pc i = .wake l k) :
    Inv nproc pid (if nproc ≤ k then (w.setSpin l none).setPc i .user
      else if k = i then w.setPc i (.wake l (k + 1)) else if w.plock k then w
      else (Sync.wakeOne l k w).setPc i (.wake l (k + 1))) := by
  have fits := (inv.place i).fits
  rw [here] at fits
  split
  · next done =>
      refine ⟨inv.spins.leave (by simp [here, Pc.section]) rfl, ?_, inv.owned,
        inv.due.finish here done (fun j => (inv.place j).slot) (by simp [Waits])⟩
      refine inv.place_of (i := i) ?_ (fun j other => by simp [World.setPc, World.setSpin, other])
        fun _ _ _ _ held => held
      simpa [World.setPc, World.setSpin] using ⟨fits, by simp, by simp, by simp⟩
  · split
    · next mine =>
        refine inv.setPc (by simp [here, Pc.section]) ⟨fits, fun _ => inside, by simp, by simp⟩
          (inv.due.pass here ?_)
        rw [mine, here]
        simp [Waits]
    · split
      · exact inv
      · next unlocked =>
          have woken := inv.wakeOne (l := l) (k := k)
          have fits := (woken.place i).fits
          have here' : (Sync.wakeOne l k w).pc i = .wake l k := by rw [wakeOne_pc, here]
          rw [here'] at fits
          exact woken.setPc (by simp [here', Pc.section])
            ⟨fits, fun _ => inside, by simp, by simp⟩
            (woken.due.pass here' (inv.woken (by simpa using unlocked)))

theorem Inv.killOne (inv : Inv nproc pid w) : Inv nproc pid (killOne k w) := by
  have marked : Inv nproc pid { w with killed := update w.killed k true } :=
    ⟨inv.spins, inv.place, inv.owned, inv.due⟩
  unfold Sync.killOne
  simp only
  split
  · next asleep => exact marked.rouse asleep
  · exact marked

theorem killOne_pc (k : Nat) (w : World) : (killOne k w).pc = w.pc := by
  unfold killOne
  simp only
  split <;> rfl

section
variable (inv : Inv nproc pid w)
include inv

theorem Inv.kill {q : BitVec 32} (inside : i < nproc) (here : w.pc i = .kill q k) :
    Inv nproc pid (if nproc ≤ k then w.setPc i .user else if w.plock k then w
      else if pid k = q then (Sync.killOne k w).setPc i .user else w.setPc i (.kill q (k + 1))) := by
  have walk : ∀ {w : World} {p : Pc}, Inv nproc pid w → w.pc i = .kill q k →
      p = .user ∨ p = .kill q (k + 1) → Inv nproc pid (w.setPc i p) := by
    intro w p inv here next
    have fits := (inv.place i).fits
    rw [here] at fits
    have due : Due w.locked w.state (update w.pc i p) :=
      inv.due.setPc (by simp [here]) (by rcases next with rfl | rfl <;> simp [Waits])
    rcases next with rfl | rfl
    · exact inv.setPc (by simp [here, Pc.section]) ⟨fits, by simp, by simp, by simp⟩ due
    · exact inv.setPc (by simp [here, Pc.section]) ⟨fits, fun _ => inside, by simp, by simp⟩ due
  split_ifs
  · exact walk inv here (.inl rfl)
  · exact inv
  · exact walk inv.killOne (by rw [killOne_pc, here]) (.inl rfl)
  · exact walk inv here (.inr rfl)

theorem Inv.thread (inside : i < nproc) (choice : Choice) :
    Inv nproc pid (threadStep nproc pid i choice w) := by
  unfold threadStep
  cases here : w.pc i with
  | user => exact inv.user inside here choice
  | acquire l =>
    simp only
    split
    · exact inv
    · next free => exact inv.acquire inside here (by simpa using free)
  | test l => exact inv.test inside here
  | sleep l => exact inv.sleep inside here
  | doze l => exact inv.doze inside here
  | asleep l => exact inv
  | release l =>
    simp only
    split
    · exact inv
    · next free => exact inv.release inside here (by simpa using free)
  | wake l k => exact inv.wake inside here
  | kill q k => exact inv.kill inside here

theorem Inv.setState (awake : s ≠ .sleeping)
    (outside : ∀ l, w.pc i ≠ .asleep l) : Inv nproc pid (w.setState i s) where
  spins := inv.spins
  place := by
    obtain ⟨fits, slot, owner, tested⟩ := inv.place i
    refine inv.place_of (i := i) ?_ (fun j other => by simp [World.setState, other])
      fun _ _ _ _ held => held
    have fits' : Fits (w.plock i) (w.chan i) s (w.pc i) := by
      cases here : w.pc i with
      | asleep l => exact absurd here (outside l)
      | _ =>
        rw [here] at fits
        exact ⟨fits.1, fits.2.1, awake⟩
    simpa [World.setState] using ⟨fits', slot, owner, tested⟩
  owned := inv.owned
  due := inv.due.setState awake

theorem Inv.dispatch (inside : i < nproc) : Inv nproc pid (dispatchStep i w) := by
  unfold dispatchStep
  cases here : w.pc i with
  | asleep l =>
    have fits := (inv.place i).fits
    rw [here] at fits
    refine ⟨inv.spins.stay (by simp [here, Pc.section]), ?_, inv.owned,
      inv.due.move _ (by simp [here]) (by simp [Waits])⟩
    refine inv.place_of (i := i) ?_ (fun j other => by simp [World.setPc, World.setState, other])
      fun _ _ _ _ held => held
    simpa [World.setPc, World.setState] using
      ⟨⟨fits.1, rfl, by simp⟩, fun _ => inside, by simp, by simp⟩
  | _ => exact inv.setState (by simp) (by simp [here])

theorem Inv.step (e : Event) : Inv nproc pid (step nproc pid w e) := by
  cases e with
  | run i choice =>
    simp only [Sync.step]
    split
    · next enabled => exact inv.thread enabled.1 choice
    · exact inv
  | dispatch i =>
    simp only [Sync.step]
    split
    · next enabled => exact inv.dispatch enabled.1
    · exact inv
  | preempt i =>
    simp only [Sync.step]
    split
    · next enabled =>
        refine inv.setState (by simp) fun l here => ?_
        simp [here, Pc.interruptible] at enabled
    · exact inv

end
end Step

/-- What sleep-locks guarantee. A process holds l from the return of acquiresleep
to the section of releasesleep. -/
structure SleepLocks (pid : Nat → BitVec 32) (w : World) : Prop where
  exclusive : ∀ l i j, w.held i l = true → w.held j l = true → i = j
  locked : ∀ l, w.locked l = true ↔ ∃ i, w.held i l = true
  pid : ∀ l i, w.held i l = true → w.lkPid l = pid i
  unlocked : ∀ l, w.locked l = false → w.lkPid l = 0
  waiter : ∀ l i, w.spin l = none → w.state i = .sleeping → w.chan i = some l → w.locked l = true

theorem Inv.sleepLocks {w : World} (inv : Inv nproc pid w) : SleepLocks pid w where
  exclusive := inv.owned.one
  locked := inv.owned.taken
  pid := inv.owned.named
  unlocked := inv.owned.clear
  waiter l i free asleep chan := by
    have fits := (inv.place i).fits
    rw [asleep] at fits
    obtain ⟨m, here, same⟩ := fits.of_sleeping
    obtain rfl : l = m := Option.some.inj (chan.symm.trans same)
    rcases inv.due i l (.inr ⟨here, asleep⟩) with held | ⟨j, k, wakes, -⟩
    · exact held
    · -- a wakeup on its way holds lk->lk
      rw [(inv.spins l j).mpr (by simp [wakes, Pc.section])] at free
      cases free

theorem sleeplocks_exclude (nproc : Nat) (pid : Nat → BitVec 32) (events : List Event) :
    SleepLocks pid (Machine.run (step nproc pid) init events) := by
  have inv := Machine.run_invariant (step nproc pid) (P := Inv nproc pid)
    (fun w e inv => inv.step e) (inv_init nproc pid) events
  exact inv.sleepLocks

-- process 1 waits for process 0, is woken by a kill and waits again
example :
    let events : List Event := [.dispatch 0, .dispatch 1, .dispatch 2, .run 0 (.acquiresleep 7),
      .run 0 .go, .run 0 .go, .run 1 (.acquiresleep 7)] ++ List.replicate 4 (.run 1 .go) ++
      [.run 2 (.kkill 2), .run 2 .go, .run 2 .go, .dispatch 1] ++ List.replicate 4 (.run 1 .go)
    let w := Machine.run (step 3 fun i => BitVec.ofNat 32 (i + 1)) init events
    w.state 1 = .sleeping ∧ w.killed 1 = true ∧ w.locked 7 = true ∧ w.lkPid 7 = 1 := by
  decide +kernel

end Xv6Lab.Sync
