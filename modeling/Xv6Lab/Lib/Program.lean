import Mathlib.Tactic

/-!
Programs with a state that can fail, and their weakest preconditions. A failure
ends the program, so that only what it is matters, not the state it leaves.
-/

namespace Xv6Lab

abbrev Prog (ε σ α : Type) : Type := StateT σ (Except ε) α

def wp {ε σ α : Type} (x : Prog ε σ α) (E : ε → Prop) (Q : α → σ → Prop) (s : σ) : Prop :=
  match x.run s with
  | .ok (a, s') => Q a s'
  | .error e => E e

def Prog.zoom {ε σ τ α : Type} (view : σ → τ) (update : τ → σ → σ) (x : Prog ε τ α) :
    Prog ε σ α := fun s =>
  match x.run (view s) with
  | .ok (a, t) => .ok (a, update t s)
  | .error e => .error e

def Prog.lift {ε σ α : Type} (x : Except ε α) : Prog ε σ α := fun s =>
  match x with
  | .ok a => .ok (a, s)
  | .error e => .error e

section Runs
variable {ε σ α β : Type} {x : Prog ε σ α} {s s' : σ} {a : α} {e : ε}

theorem Prog.run_ok (first : x.run s = .ok (a, s')) (f : α → Prog ε σ β) :
    (x >>= f).run s = (f a).run s' := by
  rw [StateT.run_bind, first]
  rfl

theorem Prog.run_error (first : x.run s = .error e) (f : α → Prog ε σ β) :
    (x >>= f).run s = .error e := by
  rw [StateT.run_bind, first]
  rfl

end Runs

section Rules
variable {ε σ τ α β : Type} {E E' : ε → Prop} {Q Q' : α → σ → Prop} {s : σ}

@[simp] theorem wp_pure (a : α) : wp (pure a : Prog ε σ α) E Q s ↔ Q a s := Iff.rfl

@[simp] theorem wp_bind (x : Prog ε σ β) (f : β → Prog ε σ α) :
    wp (x >>= f) E Q s ↔ wp x E (fun b s' => wp (f b) E Q s') s := by
  simp only [wp, StateT.run_bind]
  cases x.run s with
  | error e => exact Iff.rfl
  | ok result => exact Iff.rfl

@[simp] theorem wp_get {Q : σ → σ → Prop} : wp (get : Prog ε σ σ) E Q s ↔ Q s s := Iff.rfl

@[simp] theorem wp_set {Q : PUnit → σ → Prop} (s' : σ) :
    wp (set s' : Prog ε σ PUnit) E Q s ↔ Q ⟨⟩ s' := Iff.rfl

@[simp] theorem wp_modify {Q : PUnit → σ → Prop} (f : σ → σ) :
    wp (modify f : Prog ε σ PUnit) E Q s ↔ Q ⟨⟩ (f s) := Iff.rfl

@[simp] theorem wp_throw (e : ε) : wp (throw e : Prog ε σ α) E Q s ↔ E e := Iff.rfl

@[simp] theorem wp_zoom (view : σ → τ) (update : τ → σ → σ) (x : Prog ε τ α) :
    wp (x.zoom view update) E Q s ↔ wp x E (fun a t => Q a (update t s)) (view s) := by
  simp only [wp, Prog.zoom, StateT.run]
  cases x (view s) with
  | error e => exact Iff.rfl
  | ok result => exact Iff.rfl

theorem wp_lift (x : Except ε α) :
    wp (Prog.lift x : Prog ε σ α) E Q s ↔
      match x with
      | .ok a => Q a s
      | .error e => E e := by
  cases x <;> exact Iff.rfl

@[simp] theorem wp_ite (c : Prop) [Decidable c] (x y : Prog ε σ α) :
    wp (if c then x else y) E Q s ↔ (c → wp x E Q s) ∧ (¬c → wp y E Q s) := by
  by_cases holds : c <;> simp [holds]

theorem wp_mono {x : Prog ε σ α} (spec : wp x E Q s) (post : ∀ a s', Q a s' → Q' a s')
    (failure : ∀ e, E e → E' e) : wp x E' Q' s := by
  unfold wp at *
  cases result : x.run s with
  | error e =>
    rw [result] at spec
    exact failure e spec
  | ok pair =>
    rw [result] at spec
    exact post pair.1 pair.2 spec

theorem wp_post {x : Prog ε σ α} (spec : wp x E Q s) (post : ∀ a s', Q a s' → Q' a s') :
    wp x E Q' s := wp_mono spec post fun _ failed => failed

theorem wp_never {x : Prog ε σ α} (spec : wp x (fun _ => False) Q s)
    (post : ∀ a s', Q a s' → Q' a s') : wp x E Q' s := wp_mono spec post fun _ never => never.elim

theorem wp_cases {x : Prog ε σ α} (spec : wp x E Q s) :
    (∃ a s', x.run s = .ok (a, s') ∧ Q a s') ∨ ∃ e, x.run s = .error e ∧ E e := by
  unfold wp at spec
  cases result : x.run s with
  | error e =>
    rw [result] at spec
    exact .inr ⟨e, rfl, spec⟩
  | ok pair =>
    rw [result] at spec
    exact .inl ⟨pair.1, pair.2, rfl, spec⟩

theorem ok_of_toOption {x : Except ε α} {f : α → β} {b : β} (ran : x.toOption.map f = some b) :
    ∃ a, x = .ok a ∧ f a = b := by
  cases x with
  | error e => cases ran
  | ok a => exact ⟨a, rfl, Option.some.inj ran⟩

theorem wp_returns {x : Prog ε σ α} (spec : wp x (fun _ => False) Q s) :
    ∃ a s', x.run s = .ok (a, s') ∧ Q a s' :=
  (wp_cases spec).resolve_right fun failed => failed.elim fun _ both => both.2

theorem wp_and {x : Prog ε σ α} (first : wp x E Q s) (second : wp x E' Q' s) :
    wp x (fun e => E e ∧ E' e) (fun a s' => Q a s' ∧ Q' a s') s := by
  unfold wp at *
  cases result : x.run s with
  | error e | ok pair =>
    rw [result] at first second
    exact ⟨first, second⟩

theorem wp_error {x : Prog ε σ α} (spec : wp x E Q s) :
    wp x (fun e => E e ∧ x.run s = .error e) Q s := by
  unfold wp at *
  cases result : x.run s with
  | error e =>
    rw [result] at spec
    exact ⟨spec, rfl⟩
  | ok pair =>
    rw [result] at spec
    exact spec

theorem wp_seq {x : Prog ε σ β} {f : β → Prog ε σ α} {P : β → σ → Prop} (spec : wp x E P s)
    (rest : ∀ b s', P b s' → wp (f b) E Q s') : wp (x >>= f) E Q s :=
  (wp_bind x f).mpr (wp_post spec rest)

end Rules

/-- A program that keeps I and fails only as E allows. -/
structure Keeps {ε σ α : Type} (E : ε → Prop) (I : σ → Prop) (x : Prog ε σ α) : Prop where
  safe : ∀ s, I s → wp x E (fun _ => I) s

abbrev Fails {ε σ α : Type} (E : ε → Prop) (x : Prog ε σ α) : Prop := Keeps E (fun _ => True) x

section Keeping
variable {ε σ τ α β : Type} {E : ε → Prop} {I : σ → Prop}

@[grind ←] theorem keeps_pure (a : α) : Keeps E I (pure a : Prog ε σ α) := ⟨fun _ => id⟩

@[grind ←] theorem keeps_get : Keeps E I (get : Prog ε σ σ) := ⟨fun _ => id⟩

@[grind ←]
theorem keeps_throw {e : ε} (allowed : E e) : Keeps E I (throw e : Prog ε σ α) :=
  ⟨fun _ _ => allowed⟩

@[grind ←] theorem keeps_bind {x : Prog ε σ β} {f : β → Prog ε σ α} (first : Keeps E I x)
    (rest : ∀ b, Keeps E I (f b)) : Keeps E I (x >>= f) :=
  ⟨fun s kept => wp_seq (first.safe s kept) fun b s' => (rest b).safe s'⟩

theorem keeps_ite {c : Prop} [Decidable c] {x y : Prog ε σ α} (yes : Keeps E I x) (no : Keeps E I y) :
    Keeps E I (if c then x else y) := by
  split
  · exact yes
  · exact no

theorem keeps_lift {x : Except ε α} (allowed : ∀ e, x = .error e → E e) :
    Keeps E I (Prog.lift x : Prog ε σ α) := by
  constructor
  intro s kept
  rw [wp_lift]
  cases x with
  | error e => exact allowed e rfl
  | ok a => exact kept

@[grind ←] theorem fails_set (s : σ) : Fails E (set s : Prog ε σ PUnit) := ⟨fun _ => id⟩

@[grind ←] theorem fails_modify (f : σ → σ) : Fails E (modify f : Prog ε σ PUnit) := ⟨fun _ => id⟩

end Keeping
end Xv6Lab
