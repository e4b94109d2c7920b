import Mathlib.Data.List.Basic
import Mathlib.Data.List.Nodup
import Mathlib.Logic.Function.Iterate
import Mathlib.Tactic

namespace Xv6Lab.LinkedRing
open List
variable {α : Type}

def Path (next : α → α) : List α → α → Prop
  | [], _ => True
  | x :: rest, stop => next x = rest.headD stop ∧ Path next rest stop

@[simp] theorem path_nil (next : α → α) (stop : α) : Path next [] stop := trivial

@[simp] theorem path_cons (next : α → α) (x : α) (rest : List α) (stop : α) :
    Path next (x :: rest) stop ↔ next x = rest.headD stop ∧ Path next rest stop := Iff.rfl

theorem headD_append (left right : List α) (stop : α) :
    (left ++ right).headD stop = left.headD (right.headD stop) := by
  cases left <;> rfl

theorem path_append (next : α → α) (left right : List α) (stop : α) :
    Path next (left ++ right) stop ↔
      Path next left (right.headD stop) ∧ Path next right stop := by
  induction left with
  | nil => simp
  | cons x rest ih =>
    simp only [cons_append, path_cons, headD_append, ih, and_assoc]

theorem path_congr (next next' : α → α) (nodes : List α) (stop : α)
    (agree : ∀ x ∈ nodes, next' x = next x) (path : Path next nodes stop) :
    Path next' nodes stop := by
  induction nodes with
  | nil => trivial
  | cons x rest ih =>
    refine ⟨?_, ih (fun y member => agree y (mem_cons_of_mem x member)) path.2⟩
    rw [agree x (by simp)]
    exact path.1

section
variable (next : α → α)
include next

theorem path_rotate (front back : List α) (x y : α) (ring : Path next (x :: front ++ y :: back) x) :
    Path next (y :: back ++ x :: front) y := by
  rw [path_append] at ring ⊢
  exact ⟨ring.2, ring.1⟩

theorem path_next_mem (nodes : List α) (stop x : α)
    (path : Path next nodes stop) (member : x ∈ nodes) : next x ∈ nodes ∨ next x = stop := by
  induction nodes with
  | nil => cases member
  | cons y rest ih =>
    rcases mem_cons.mp member with rfl | member
    · cases rest with
      | nil => exact Or.inr path.1
      | cons z rest => exact Or.inl (by rw [path.1]; simp)
    · rcases ih path.2 member with inside | closes
      · exact Or.inl (mem_cons_of_mem y inside)
      · exact Or.inr closes

theorem path_mem_iff_iterate (x y : α) (rest : List α)
    (ring : Path next (x :: rest) x) : y ∈ x :: rest ↔ ∃ k, next^[k] x = y := by
  constructor
  · intro member
    have reach : ∀ (nodes : List α) (first stop : α), Path next (first :: nodes) stop →
        y ∈ first :: nodes → ∃ k, next^[k] first = y := by
      intro nodes
      induction nodes with
      | nil =>
        intro first stop _ member
        exact ⟨0, (mem_singleton.mp member).symm⟩
      | cons second nodes ih =>
        intro first stop path member
        rcases mem_cons.mp member with rfl | member
        · exact ⟨0, rfl⟩
        · obtain ⟨k, reached⟩ := ih second stop path.2 member
          refine ⟨k + 1, ?_⟩
          rw [Function.iterate_succ_apply, path.1]
          exact reached
    exact reach rest x x ring member
  · rintro ⟨k, rfl⟩
    induction k with
    | zero => simp
    | succ k ih =>
      rw [Function.iterate_succ_apply']
      rcases path_next_mem next (x :: rest) x _ ring ih with inside | closes
      · exact inside
      · rw [closes]
        simp

theorem path_pred_unique (front back : List α) (first p x : α)
    (distinct : (first :: front ++ p :: back).Nodup)
    (path : Path next (first :: front ++ p :: back) first)
    (member : x ∈ first :: front ++ p :: back) (points : next x = p) :
    x = (first :: front).getLast (by simp) := by
  have back_fixed : ∀ (tail : List α), Path next tail first → x ∈ tail → first ≠ p →
      p ∉ tail.tail → False := by
    intro tail
    induction tail with
    | nil => intro _ member; cases member
    | cons y rest ih =>
      intro path member differs absent
      rcases mem_cons.mp member with rfl | member
      · cases rest with
        | nil => exact differs (path.1.symm.trans points)
        | cons z rest =>
          have head : z = p := path.1.symm.trans points
          exact absent (by simp [head])
      · refine ih path.2 member differs ?_
        intro present
        exact absent (mem_of_mem_tail present)
  have differs : first ≠ p := by
    intro same
    subst same
    simp at distinct
  have split := (path_append next (first :: front) (p :: back) first).mp path
  rcases mem_append.mp member with inFront | inBack
  · have front_fixed : ∀ (nodes : List α) (nonempty : nodes ≠ []), Path next nodes p →
        x ∈ nodes → p ∉ nodes → x = nodes.getLast nonempty := by
      intro nodes
      induction nodes with
      | nil => intro nonempty; exact absurd rfl nonempty
      | cons y rest ih =>
        intro nonempty path member absent
        cases rest with
        | nil => simpa using member
        | cons z rest =>
          rcases mem_cons.mp member with rfl | member
          · have head : z = p := path.1.symm.trans points
            exact absurd (by simp [head]) absent
          · rw [getLast_cons (by simp)]
            exact ih (by simp) path.2 member (fun present => absent (mem_cons_of_mem y present))
    refine front_fixed _ (by simp) (by simpa using split.1) inFront ?_
    intro present
    exact (nodup_append.mp distinct).2.2 p present p (by simp) rfl
  · refine absurd (back_fixed (p :: back) split.2 inBack differs ?_) id
    exact (nodup_cons.mp (nodup_append.mp distinct).2.1).1

end
end Xv6Lab.LinkedRing
