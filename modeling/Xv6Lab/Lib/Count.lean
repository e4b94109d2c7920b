import Mathlib.Data.Finset.Card
import Mathlib.Data.Finset.Range
import Mathlib.Tactic

/-!
How many numbers below a bound satisfy a test, and how one update changes that.
-/

namespace Xv6Lab
open Function (update update_eq_self update_idem)

def count (n : Nat) (test : Nat → Bool) : Nat :=
  ((Finset.range n).filter (fun i => test i = true)).card

namespace Count

variable {n i : Nat} {P : Nat → Bool}

theorem set_false (inside : i < n) (holds : P i = true) :
    count n (update P i false) + 1 = count n P := by
  have erased : (Finset.range n).filter (fun j => update P i false j = true) =
      ((Finset.range n).filter (fun j => P j = true)).erase i := by
    ext j
    by_cases same : j = i
    · subst same
      simp
    · simp [same]
  have member : i ∈ (Finset.range n).filter (fun j => P j = true) := by simp [inside, holds]
  have positive := Finset.card_pos.mpr ⟨i, member⟩
  rw [count, erased, Finset.card_erase_of_mem member, count]
  omega

theorem set_true (inside : i < n) (fails : P i = false) :
    count n (update P i true) = count n P + 1 := by
  have back := set_false (P := update P i true) inside (by simp)
  rw [update_idem, ← fails, update_eq_self] at back
  exact back.symm

theorem eq_zero_iff : count n P = 0 ↔ ∀ i, i < n → P i = false := by
  simp [count, Finset.filter_eq_empty_iff]

theorem le_bound (n : Nat) (P : Nat → Bool) : count n P ≤ n := by
  have bound := Finset.card_filter_le (Finset.range n) (fun i => P i = true)
  rwa [Finset.card_range] at bound

end Count

attribute [irreducible] count

end Xv6Lab
