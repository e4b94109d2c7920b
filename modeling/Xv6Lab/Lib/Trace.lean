import Mathlib.Tactic

/-!
Programs with a state that log events; `Logs`, `Emits` and `Meets` speak of every
state they start from.
-/

namespace Xv6Lab
open List

def Traced (σ ε α : Type) : Type := σ → List ε × α × σ

namespace Traced

variable {σ ε α β : Type}

protected def pure (a : α) : Traced σ ε α := fun s => ([], a, s)

protected def bind (x : Traced σ ε α) (f : α → Traced σ ε β) : Traced σ ε β := fun s =>
  let (first, a, s) := x s
  let (second, b, s) := f a s
  (first ++ second, b, s)

instance : Monad (Traced σ ε) where
  pure := Traced.pure
  bind := Traced.bind

def event (e : ε) (next : σ → α × σ) : Traced σ ε α := fun s => ([e], next s)

def loop (body : Nat → β → Traced σ ε β) : Nat → Nat → β → Traced σ ε β
  | 0, _, b => pure b
  | n + 1, start, b => do
    let b ← body start b
    loop body n (start + 1) b

end Traced

def Logs {σ ε α : Type} (P : ε → Prop) (x : Traced σ ε α) : Prop := ∀ s, ∀ e ∈ (x s).1, P e

def Emits {σ ε α : Type} (e : ε) (x : Traced σ ε α) : Prop := ∀ s, e ∈ (x s).1

section Rules
variable {σ ε α β : Type} {P Q : ε → Prop} {e : ε}

theorem logs_pure (a : α) : Logs P (pure a : Traced σ ε α) := by
  intro s e member
  cases member

theorem logs_event (next : σ → α × σ) (holds : P e) : Logs P (Traced.event e next) := by
  intro s other member
  have same : other = e := mem_singleton.mp member
  rw [same]
  exact holds

theorem logs_bind {x : Traced σ ε α} {f : α → Traced σ ε β} (first : Logs P x)
    (second : ∀ a, Logs P (f a)) : Logs P (x >>= f) := by
  intro s e member
  rcases mem_append.mp member with member | member
  · exact first s e member
  · exact second _ _ e member

theorem logs_loop {body : Nat → β → Traced σ ε β} {n start : Nat} (b : β)
    (each : ∀ i, start ≤ i → i < start + n → ∀ b, Logs P (body i b)) :
    Logs P (Traced.loop body n start b) := by
  induction n generalizing start b with
  | zero => exact logs_pure b
  | succ n ih =>
    refine logs_bind (each start le_rfl (by omega) b) fun b => ih b fun i low high => ?_
    exact each i (by omega) (by omega)

theorem emits_event (next : σ → α × σ) : Emits e (Traced.event e next) := fun _ => mem_singleton_self e

theorem emits_first {x : Traced σ ε α} {f : α → Traced σ ε β} (first : Emits e x) : Emits e (x >>= f) :=
  fun s => mem_append_left _ (first s)

theorem emits_second {x : Traced σ ε α} {f : α → Traced σ ε β} (second : ∀ a, Emits e (f a)) :
    Emits e (x >>= f) :=
  fun _ => mem_append_right _ (second _ _)

theorem emits_loop {body : Nat → β → Traced σ ε β} {n start i : Nat} (b : β) (low : start ≤ i)
    (high : i < start + n) (each : ∀ b, Emits e (body i b)) : Emits e (Traced.loop body n start b) := by
  induction n generalizing start b with
  | zero => omega
  | succ n ih =>
    rcases Nat.eq_or_lt_of_le low with rfl | later
    · exact emits_first (each b)
    · exact emits_second fun b => ih b later (by omega)

theorem Emits.refutes {x : Traced σ ε α} [Nonempty σ] (emits : Emits e x) (outside : ¬P e) : ¬Logs P x :=
  fun logs => outside (logs (Classical.arbitrary σ) e (emits _))

end Rules

section Meets
variable {σ ε α β : Type} {P : ε → Prop} {Q : α → Prop} {R : β → Prop}

def Meets (P : ε → Prop) (Q : α → Prop) (x : Traced σ ε α) : Prop :=
  ∀ s, (∀ e ∈ (x s).1, P e) ∧ Q (x s).2.1

theorem meets_pure {a : α} (holds : Q a) : Meets P Q (pure a : Traced σ ε α) :=
  fun s => ⟨logs_pure a s, holds⟩

theorem Logs.meets {x : Traced σ ε α} (logs : Logs P x) : Meets P (fun _ => True) x :=
  fun s => ⟨logs s, trivial⟩

theorem Meets.mono {P' : ε → Prop} {x : Traced σ ε α} (meets : Meets P Q x) (weaker : ∀ e, P e → P' e) :
    Meets P' Q x :=
  fun s => ⟨fun e member => weaker e ((meets s).1 e member), (meets s).2⟩

theorem meets_bind {x : Traced σ ε α} {f : α → Traced σ ε β} (first : Meets P Q x)
    (second : ∀ a, Q a → Meets P R (f a)) : Meets P R (x >>= f) := by
  intro s
  obtain ⟨logs, holds⟩ := first s
  obtain ⟨later, result⟩ := second _ holds (x s).2.2
  exact ⟨fun e member => (mem_append.mp member).elim (logs e) (later e), result⟩

theorem meets_loop {body : Nat → α → Traced σ ε α} {n start : Nat} {a : α} (holds : Q a)
    (each : ∀ i a, i < start + n → Q a → Meets P Q (body i a)) :
    Meets P Q (Traced.loop body n start a) := by
  induction n generalizing start a with
  | zero => exact meets_pure holds
  | succ n ih =>
    refine meets_bind (each start a (by omega) holds) fun a holds => ih holds fun i a high => ?_
    exact each i a (by omega)

end Meets
end Xv6Lab
