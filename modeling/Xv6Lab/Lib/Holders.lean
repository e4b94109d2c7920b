import Mathlib.Data.Finset.Card
import Mathlib.Tactic

/-!
References: slots that hold at most one thing each, and how many hold a given thing.
-/

namespace Xv6Lab
open Function (update update_eq_self update_idem update_self)

def holders {ι β : Type*} [DecidableEq β] (S : Finset ι) (a : ι → Option β) (x : β) : Nat :=
  (S.filter fun s => a s = some x).card

def bump {β : Type*} [DecidableEq β] (count : β → Nat) (x : β) : β → Nat := fun y =>
  count y + if x = y then 1 else 0

section Bump
variable {β : Type*} [DecidableEq β] {count : β → Nat} {x y : β}

@[simp] theorem bump_self (count : β → Nat) (x : β) : bump count x x = count x + 1 := by
  simp [bump]

@[simp] theorem bump_of_ne (other : y ≠ x) : bump count x y = count y := by
  simp [bump, other.symm]

theorem bump_comm (count : β → Nat) (x y : β) : bump (bump count x) y = bump (bump count y) x := by
  funext z
  simp only [bump]
  omega

theorem bump_add (first second : β → Nat) (x : β) :
    (fun y => bump first x y + second y) = bump (fun y => first y + second y) x := by
  funext y
  simp only [bump]
  omega

theorem add_bump (first second : β → Nat) (x : β) :
    (fun y => first y + bump second x y) = bump (fun y => first y + second y) x := by
  funext y
  simp only [bump]
  omega

end Bump

section Holders
variable {ι β : Type*} [DecidableEq β] {S : Finset ι} {a : ι → Option β} {s : ι} {x : β}

theorem holders_pos (inside : s ∈ S) (holds : a s = some x) : holders S a x ≠ 0 :=
  Finset.card_ne_zero_of_mem (Finset.mem_filter.mpr ⟨inside, holds⟩)

variable [DecidableEq ι]

theorem holders_take (inside : s ∈ S) (empty : a s = none) :
    holders S (update a s (some x)) = bump (holders S a) x := by
  funext y
  by_cases same : y = x
  · subst same
    rw [bump_self]
    unfold holders
    have grown : (S.filter fun t => update a s (some y) t = some y) =
        insert s (S.filter fun t => a t = some y) := by
      ext t
      by_cases here : t = s
      · subst here
        simp [inside]
      · simp [here]
    rw [grown, Finset.card_insert_of_notMem (by simp [empty])]
  · rw [bump_of_ne same]
    unfold holders
    congr 1
    apply Finset.filter_congr
    intro t _
    by_cases here : t = s
    · subst here
      simp [empty, Ne.symm same]
    · simp [here]

theorem holders_drop (inside : s ∈ S) (holds : a s = some x) :
    bump (holders S (update a s none)) x = holders S a := by
  have back : update (update a s none) s (some x) = a := by
    rw [update_idem, ← holds, update_eq_self]
  rw [← holders_take inside (update_self ..), back]

end Holders
end Xv6Lab
