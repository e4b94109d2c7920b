import Xv6Lab.Proc.Exclusive

/-!
Who is whose parent. The links are written under wait_lock, except by freeproc.
-/

namespace Xv6Lab.Proc
open Function (update update_apply update_of_ne update_self)
variable {s : ProcState}

def ProcState.alive : ProcState → Bool
  | .sleeping | .runnable | .running => true
  | _ => false

def ProcState.born : ProcState → Bool
  | .sleeping | .runnable | .running | .zombie => true
  | _ => false

def Code.exiting : Code → Bool
  | .exit _ => true
  | _ => false

def Pc.exiting : Pc → Bool
  | .free code | .leave _ code | .saved _ code => code.exiting
  | .reparent _ _ | .wakeInit _ _ _ | .wakeParent _ _ _ | .zombie _ => true
  | _ => false

def Code.starting : Code → Option Nat
  | .start np => some np
  | _ => none

def Pc.starting : Pc → Option Nat
  | .free code | .leave _ code | .saved _ code => code.starting
  | _ => none

structure Lineage (state : Nat → ProcState) (parent : Nat → Option Nat) (pc : Nat → Pc) :
    Prop where
  parent_alive : ∀ j i, parent j = some i → (state i).alive
  has_parent : ∀ j, j ≠ initproc → (state j).born → parent j ≠ none
  orphan : ∀ j, state j = .unused → parent j = none
  outside : ∀ j, NPROC ≤ j → state j = .unused
  init_alive : (state initproc).alive
  init_orphan : parent initproc = none
  exiting : ∀ t, (pc t).exiting → t ≠ initproc
  found : ∀ t np, pc t = .found np → parent np = none
  starting : ∀ t np, (pc t).starting = some np → parent np = some t

def World.lineage (w : World) : Prop := Lineage w.state w.parent w.pc

theorem lineage_init : init.lineage where
  parent_alive := by simp [init]
  has_parent j other := by simp [init, other, ProcState.born]
  orphan := by simp [init]
  outside j large := by
    have other : j ≠ initproc := by
      rintro rfl
      simp [initproc, NPROC] at large
    simp [init, other]
  init_alive := by simp [init, ProcState.alive]
  init_orphan := rfl
  exiting t := by
    simp only [init, update_apply]
    split_ifs <;> simp [Pc.exiting, Code.exiting]
  found t np := by
    simp only [init, update_apply]
    split_ifs <;> simp
  starting t np := by
    simp only [init, update_apply]
    split_ifs <;> simp [Pc.starting, Code.starting]

section Moves
variable {state : Nat → ProcState} {parent : Nat → Option Nat} {pc : Nat → Pc} {i j : Nat}

section
variable (inv : Lineage state parent pc)
include inv

theorem Lineage.setPc {p : Pc}
    (exiting : p.exiting → j ≠ initproc) (found : ∀ np, p = .found np → parent np = none)
    (starting : ∀ np, p.starting = some np → parent np = some j) :
    Lineage state parent (update pc j p) := by
  refine ⟨inv.parent_alive, inv.has_parent, inv.orphan, inv.outside, inv.init_alive,
    inv.init_orphan, ?_, ?_, ?_⟩
  · intro t leaves
    by_cases same : t = j
    · subst same
      exact exiting (by simpa using leaves)
    · exact inv.exiting t (by simpa [same] using leaves)
  · intro t np here
    by_cases same : t = j
    · subst same
      exact found np (by simpa using here)
    · exact inv.found t np (by simpa [same] using here)
  · intro t np here
    by_cases same : t = j
    · subst same
      exact starting np (by simpa using here)
    · exact inv.starting t np (by simpa [same] using here)

theorem Lineage.keepPc {p : Pc} (exiting : p.exiting → (pc j).exiting) (found : ∀ np, p ≠ .found np)
    (starting : ∀ np, p.starting = some np → (pc j).starting = some np) :
    Lineage state parent (update pc j p) :=
  inv.setPc (fun leaves => inv.exiting j (exiting leaves)) (fun np here => absurd here (found np))
    fun np here => inv.starting j np (starting np here)

theorem Lineage.setState
    (children : s.alive ∨ ∀ k, parent k ≠ some i) (mine : i ≠ initproc → s.born → parent i ≠ none)
    (unused : s = .unused → parent i = none) (init : i = initproc → s.alive)
    (inside : state i ≠ .unused ∨ i < NPROC) : Lineage (update state i s) parent pc := by
  refine ⟨?_, ?_, ?_, ?_, ?_, inv.init_orphan, inv.exiting, inv.found, inv.starting⟩
  · intro j k link
    by_cases same : k = i
    · subst same
      rw [update_self]
      exact children.resolve_right fun none => none j link
    · rw [update_of_ne same]
      exact inv.parent_alive j k link
  · intro j other born
    by_cases same : j = i
    · subst same
      exact mine other (by simpa using born)
    · exact inv.has_parent j other (by simpa [same] using born)
  · intro j here
    by_cases same : j = i
    · subst same
      exact unused (by simpa using here)
    · exact inv.orphan j (by simpa [same] using here)
  · intro j large
    have other : j ≠ i := by
      rintro rfl
      rcases inside with used | small
      · exact used (inv.outside j large)
      · omega
    rw [update_of_ne other]
    exact inv.outside j large
  · by_cases same : initproc = i
    · rw [same, update_self]
      exact init same.symm
    · rw [update_of_ne same]
      exact inv.init_alive

end

theorem born_of_alive (alive : s.alive) : s.born := by
  cases s <;> simp_all [ProcState.alive, ProcState.born]

section
variable (inv : Lineage state parent pc)
include inv

theorem Lineage.setAlive
    (before : (state i).alive) (after : s.alive) : Lineage (update state i s) parent pc := by
  refine inv.setState (.inl after) (fun other _ => inv.has_parent i other (born_of_alive before))
    ?_ (fun _ => after) (.inl ?_)
  · rintro rfl
    simp [ProcState.alive] at after
  · intro unused
    simp [unused, ProcState.alive] at before

theorem Lineage.setParent {k : Nat} (alive : (state k).alive)
    (other : i ≠ initproc) (used : state i ≠ .unused) (found : ∀ t, pc t ≠ .found i)
    (starting : ∀ t, (pc t).starting = some i → t = k) :
    Lineage state (update parent i (some k)) pc := by
  refine ⟨?_, ?_, ?_, inv.outside, inv.init_alive, ?_, inv.exiting, ?_, ?_⟩
  · intro j p link
    by_cases same : j = i
    · subst same
      obtain rfl : k = p := by simpa using link
      exact alive
    · exact inv.parent_alive j p (by simpa [same] using link)
  · intro j apart born
    by_cases same : j = i
    · simp [same]
    · simpa [same] using inv.has_parent j apart born
  · intro j unused
    by_cases same : j = i
    · exact absurd (same ▸ unused) used
    · simpa [same] using inv.orphan j unused
  · rw [update_of_ne other.symm]
    exact inv.init_orphan
  · intro t np here
    have apart : np ≠ i := by
      rintro rfl
      exact found t here
    simpa [apart] using inv.found t np here
  · intro t np here
    by_cases same : np = i
    · subst same
      simp [starting t here]
    · simpa [same] using inv.starting t np here

theorem Lineage.free (other : i ≠ initproc) (children : ∀ k, parent k ≠ some i)
    (used : state i ≠ .unused) (starting : ∀ t, (pc t).starting ≠ some i) :
    Lineage (update state i .unused) (update parent i none) pc := by
  have kept : ∀ j k, update parent i none j = some k → parent j = some k := by
    intro j k link
    by_cases same : j = i
    · simp [same] at link
    · simpa [same] using link
  refine ⟨?_, ?_, ?_, ?_, ?_, ?_, inv.exiting, ?_, ?_⟩
  · intro j k link
    have apart : k ≠ i := by
      rintro rfl
      exact children j (kept j k link)
    rw [update_of_ne apart]
    exact inv.parent_alive j k (kept j k link)
  · intro j apart born
    have differs : j ≠ i := by
      rintro rfl
      simp [ProcState.born] at born
    simpa [differs] using inv.has_parent j apart (by simpa [differs] using born)
  · intro j unused
    by_cases same : j = i
    · simp [same]
    · simpa [same] using inv.orphan j (by simpa [same] using unused)
  · intro j large
    by_cases same : j = i
    · simp [same]
    · simpa [same] using inv.outside j large
  · rw [update_of_ne other.symm]
    exact inv.init_alive
  · rw [update_of_ne other.symm]
    exact inv.init_orphan
  · intro t np here
    by_cases same : np = i
    · simp [same]
    · simpa [same] using inv.found t np here
  · intro t np here
    have apart : np ≠ i := by
      rintro rfl
      exact starting t here
    simpa [apart] using inv.starting t np here

end
end Moves
end Xv6Lab.Proc
