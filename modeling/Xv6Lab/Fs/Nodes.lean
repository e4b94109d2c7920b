import Xv6Lab.Fs.Model

/-!
The blocks of an inode as a tree.
-/

namespace Xv6Lab.Fs
open Virtio (BSIZE)
variable {fbn : Nat}

inductive Node
  | direct (j : Fin NDIRECT)
  | single
  | entry (j : Fin NINDIRECT)
  | double
  | table (j : Fin NINDIRECT)
  | leaf (j k : Fin NINDIRECT)
deriving DecidableEq, Repr

namespace Node

def parent : Node → Option Node
  | direct _ | single | double => none
  | entry _ => some single
  | table _ => some double
  | leaf j _ => some (table j)

def slot : Node → Nat
  | direct j => j
  | single => NDIRECT
  | double => NDIRECT + 1
  | entry j | table j => j
  | leaf _ k => k

def first : Node → Nat
  | direct j => j
  | single => NDIRECT
  | entry j => NDIRECT + j
  | double => NDIRECT + NINDIRECT
  | table j => NDIRECT + NINDIRECT + NINDIRECT * j
  | leaf j k => NDIRECT + NINDIRECT + NINDIRECT * j + k

def isData : Node → Bool
  | direct _ | entry _ | leaf _ _ => true
  | single | double | table _ => false

theorem sizes : NDIRECT = 11 ∧ NINDIRECT = 256 ∧ MAXFILE = 65803 := by decide

def data (fbn : Nat) (inside : fbn < MAXFILE) : Node :=
  if direct_ : fbn < NDIRECT then direct ⟨fbn, direct_⟩
  else if single_ : fbn - NDIRECT < NINDIRECT then entry ⟨fbn - NDIRECT, single_⟩
  else
    leaf
      ⟨(fbn - NDIRECT - NINDIRECT) / NINDIRECT, by
        rw [sizes.2.2] at inside
        rw [sizes.1, sizes.2.1]
        omega⟩
      ⟨(fbn - NDIRECT - NINDIRECT) % NINDIRECT, Nat.mod_lt _ (by decide)⟩

variable {n m : Node}

theorem slot_lt_of_parent (child : n.parent = some m) : n.slot < NINDIRECT := by
  cases n with
  | entry j => exact j.2
  | table j => exact j.2
  | leaf j k => exact k.2
  | _ => cases child

theorem slot_lt_of_top (top : n.parent = none) : n.slot < NDIRECT + 2 := by
  cases n with
  | direct j => exact Nat.lt_add_right 2 j.2
  | single => decide
  | double => decide
  | _ => cases top

theorem exists_top {j : Nat} (inside : j < NDIRECT + 2) : ∃ n : Node, n.parent = none ∧ n.slot = j := by
  by_cases small : j < NDIRECT
  · exact ⟨direct ⟨j, small⟩, rfl, rfl⟩
  · by_cases single_ : j = NDIRECT
    · exact ⟨single, rfl, single_.symm⟩
    · exact ⟨double, rfl, by simp only [slot]; omega⟩

theorem isData_of_parent (child : n.parent = some m) : m.isData = false := by
  cases n <;> cases child <;> rfl

theorem first_le_of_parent (child : n.parent = some m) : m.first ≤ n.first := by
  cases n <;> cases child <;> simp only [first] <;> omega

theorem eq_of_slot (tables : n.parent = m.parent) (places : n.slot = m.slot) : n = m := by
  cases n with
  | direct j =>
    have small : (j : Nat) < NDIRECT := j.2
    cases m with
    | direct k => exact congrArg direct (Fin.ext places)
    | single => exact absurd places (Nat.ne_of_lt small)
    | double => exact absurd places (Nat.ne_of_lt (Nat.lt_succ_of_lt small))
    | _ => cases tables
  | single =>
    cases m with
    | direct k => exact absurd places.symm (Nat.ne_of_lt k.2)
    | single => rfl
    | double => exact absurd places (by decide)
    | _ => cases tables
  | double =>
    cases m with
    | direct k => exact absurd places.symm (Nat.ne_of_lt (Nat.lt_succ_of_lt k.2))
    | single => exact absurd places (by decide)
    | double => rfl
    | _ => cases tables
  | entry j =>
    cases m with
    | entry k => exact congrArg entry (Fin.ext places)
    | _ => cases tables
  | table j =>
    cases m with
    | table k => exact congrArg table (Fin.ext places)
    | _ => cases tables
  | leaf j k =>
    cases m with
    | leaf j' k' =>
      cases tables
      exact congrArg (leaf j) (Fin.ext places)
    | _ => cases tables

theorem first_data (fbn : Nat) (inside : fbn < MAXFILE) : (data fbn inside).first = fbn := by
  obtain ⟨d, i, m⟩ := sizes
  unfold data
  split_ifs with direct_ single_
  · rfl
  · simp only [first]
    omega
  · simp only [first, d, i, m] at *
    omega

theorem isData_data (fbn : Nat) (inside : fbn < MAXFILE) : (data fbn inside).isData = true := by
  unfold data
  split_ifs <;> rfl

theorem first_lt (n : Node) : n.first < MAXFILE := by
  obtain ⟨d, i, m⟩ := sizes
  cases n with
  | direct j | entry j =>
    have small := j.2
    simp only [first]
    omega
  | table j =>
    have small := j.2
    simp only [first, d, i, m] at *
    omega
  | leaf j k =>
    have small := j.2
    have small' := k.2
    simp only [first, d, i, m] at *
    omega
  | single => decide
  | double => decide

theorem data_entry (inside : fbn < MAXFILE) (j : Fin NINDIRECT)
    (here : fbn = NDIRECT + j) : data fbn inside = entry j := by
  have small := j.2
  rw [data, dif_neg (by omega), dif_pos (by omega)]
  exact congrArg entry (Fin.ext (by simp [here]))

theorem data_leaf (inside : fbn < MAXFILE) (j k : Fin NINDIRECT)
    (here : fbn = NDIRECT + NINDIRECT + NINDIRECT * j + k) : data fbn inside = leaf j k := by
  have rest : fbn - NDIRECT - NINDIRECT = NINDIRECT * j + k := by omega
  have quotient : (NINDIRECT * j + k) / NINDIRECT = j := by
    rw [Nat.mul_add_div (by decide), Nat.div_eq_of_lt k.2, Nat.add_zero]
  have remainder : (NINDIRECT * j + k) % NINDIRECT = k := by
    rw [Nat.mul_add_mod, Nat.mod_eq_of_lt k.2]
  rw [data, dif_neg (by omega), dif_neg (by omega)]
  simp only [rest, quotient, remainder]

theorem exists_leaf (inside : fbn < MAXFILE) (past : NDIRECT + NINDIRECT ≤ fbn) :
    ∃ j k : Fin NINDIRECT, data fbn inside = leaf j k ∧
      (fbn - NDIRECT - NINDIRECT) / NINDIRECT = j ∧
        (fbn - NDIRECT - NINDIRECT) % NINDIRECT = k := by
  have small : (fbn - NDIRECT - NINDIRECT) / NINDIRECT < NINDIRECT := by
    obtain ⟨d, i, m⟩ := sizes
    rw [m] at inside
    rw [d, i]
    omega
  refine ⟨⟨_, small⟩, ⟨_, Nat.mod_lt _ (by decide)⟩, data_leaf inside _ _ ?_, rfl, rfl⟩
  have parts := Nat.div_add_mod (fbn - NDIRECT - NINDIRECT) NINDIRECT
  dsimp only
  omega

theorem eq_data (isData : n.isData = true) : n = data n.first n.first_lt := by
  cases n with
  | direct j => simp [data, first]
  | entry j => exact (data_entry _ j rfl).symm
  | leaf j k => exact (data_leaf _ j k rfl).symm
  | _ => cases isData

def above (n d : Node) : Prop :=
  n = d ∨ d.parent = some n ∨ ∃ t, d.parent = some t ∧ t.parent = some n

theorem first_le_of_above (way : n.above m) : n.first ≤ m.first := by
  rcases way with rfl | child | ⟨t, child, table⟩
  · exact le_rfl
  · exact first_le_of_parent child
  · exact (first_le_of_parent table).trans (first_le_of_parent child)

theorem parent_ne (child : n.parent = some m) : n ≠ m := by
  rintro rfl
  cases n <;> cases child

theorem above_of_first (inside : fbn < MAXFILE) (new : n.first = fbn) :
    n.above (data fbn inside) := by
  have positive : 0 < NINDIRECT := by decide
  cases n with
  | single =>
    refine .inr (.inl ?_)
    rw [data_entry inside ⟨0, positive⟩ new.symm]
    rfl
  | double =>
    refine .inr (.inr ⟨table ⟨0, positive⟩, ?_, rfl⟩)
    rw [data_leaf inside ⟨0, positive⟩ ⟨0, positive⟩ new.symm]
    rfl
  | table j =>
    refine .inr (.inl ?_)
    rw [data_leaf inside j ⟨0, positive⟩ new.symm]
    rfl
  | direct j =>
    subst new
    exact .inl (eq_data rfl)
  | entry j => exact .inl (data_entry inside j new.symm).symm
  | leaf j k => exact .inl (data_leaf inside j k new.symm).symm

end Node
end Xv6Lab.Fs
