import Mathlib.Tactic.ByContra
import Mathlib.Tactic.TypeStar

/-!
Runs of a deterministic machine driven by events. An event that is not enabled
leaves the state as it is, so that every list of events is a run.
-/

namespace Xv6Lab.Machine

variable {State Event : Type*} (step : State → Event → State)

def run (s : State) (events : List Event) : State := events.foldl step s

@[simp] theorem run_nil (s : State) : run step s [] = s := rfl

@[simp] theorem run_cons (s : State) (e : Event) (events : List Event) :
    run step s (e :: events) = run step (step s e) events := rfl

theorem run_append (s : State) (first second : List Event) :
    run step s (first ++ second) = run step (run step s first) second := List.foldl_append

/-- What holds at the start and survives each step holds after every run. -/
theorem run_invariant {P : State → Prop} (preserved : ∀ s e, P s → P (step s e)) {s : State}
    (start : P s) (events : List Event) : P (run step s events) := by
  induction events generalizing s with
  | nil => exact start
  | cons e rest ih =>
    rw [run_cons]
    exact ih (preserved s e start)

/-- Every step of the run meets a condition on the state before it and the event. -/
def Along (ok : State → Event → Prop) (s : State) : List Event → Prop
  | [] => True
  | e :: rest => ok s e ∧ Along ok (step s e) rest

instance decidableAlong (ok : State → Event → Prop) [∀ s e, Decidable (ok s e)] (s : State)
    (events : List Event) : Decidable (Along step ok s events) :=
  match events with
  | [] => isTrue trivial
  | e :: rest =>
    have := decidableAlong ok (step s e) rest
    inferInstanceAs (Decidable (ok s e ∧ Along step ok (step s e) rest))

theorem along_of_forall {ok : Event → Prop} {s : State} {events : List Event}
    (all : ∀ e ∈ events, ok e) : Along step (fun _ e => ok e) s events := by
  induction events generalizing s with
  | nil => trivial
  | cons e rest ih =>
    rw [List.forall_mem_cons] at all
    exact ⟨all.1, ih all.2⟩

theorem along_invariant {ok : State → Event → Prop} {P : State → Prop}
    (preserved : ∀ s e, ok s e → P s → P (step s e)) {s : State} (start : P s)
    {events : List Event} (along : Along step ok s events) : P (run step s events) := by
  induction events generalizing s with
  | nil => exact start
  | cons e rest ih =>
    rw [run_cons]
    exact ih (preserved s e along.1 start) along.2

/-- P holds in every state of a run exactly if every step meets the condition, where
such steps preserve an invariant that implies P and any other step ends outside P. -/
theorem always_iff_along {ok : State → Event → Prop} {P Inv : State → Prop}
    (holds : ∀ s, Inv s → P s) (kept : ∀ s e, Inv s → ok s e → Inv (step s e))
    (broken : ∀ s e, Inv s → ¬ok s e → ¬P (step s e)) {s : State} (start : Inv s)
    (events : List Event) : (∀ n, P (run step s (events.take n))) ↔ Along step ok s events := by
  induction events generalizing s with
  | nil => simpa [Along] using holds s start
  | cons e rest ih =>
    constructor
    · intro always
      have meets : ok s e := by
        by_contra fails
        exact broken s e start fails (by simpa using always 1)
      exact ⟨meets, (ih (kept s e start meets)).mp fun n => by simpa using always (n + 1)⟩
    · rintro ⟨meets, along⟩ n
      cases n with
      | zero => exact holds s start
      | succ n => simpa using (ih (kept s e start meets)).mpr along n

end Xv6Lab.Machine
