import Mathlib.Data.List.Chain
import Mathlib.Data.List.Nodup
import Mathlib.Logic.Function.Basic
import Mathlib.Tactic

/-!
Doubly linked rings with a sentinel, over Mathlib's `List.IsChain`.
-/

namespace Xv6Lab.DoublyLinked
open List
open Function (update update_of_ne)
variable {α : Type} {next prev : α → α} {head x : α} {order : List α} {fuel : Nat}

def Linked (next prev : α → α) (a b : α) : Prop := next a = b ∧ prev b = a

structure IsRing (next prev : α → α) (head : α) (order : List α) : Prop where
  nodup : (head :: order).Nodup
  links : (head :: order ++ [head]).IsChain (Linked next prev)

theorem IsRing.reverse (ring : IsRing next prev head order) :
    IsRing prev next head order.reverse := by
  refine ⟨?_, ?_⟩
  · have nodup := ring.nodup
    simp only [nodup_cons, mem_reverse, nodup_reverse] at nodup ⊢
    exact nodup
  · have turned : (head :: order.reverse ++ [head]).reverse = head :: order ++ [head] := by simp
    rw [← isChain_reverse, turned]
    exact ring.links.imp fun _ _ link => ⟨link.2, link.1⟩

variable [DecidableEq α]

def walk (step : α → α) (test : α → Bool) (head : α) : Nat → α → Option α
  | 0, _ => none
  | fuel + 1, x => if x = head then none else if test x then some x else walk step test head fuel (step x)

theorem walk_chain {step : α → α} (test : α → Bool) {nodes : List α} (outside : head ∉ nodes)
    {start : α} (chain : (start :: nodes ++ [head]).IsChain (fun a b => step a = b))
    (enough : nodes.length < fuel) : walk step test head fuel (step start) = nodes.find? test := by
  induction nodes generalizing start fuel with
  | nil =>
    have back : step start = head := by simpa using chain
    obtain ⟨fuel, rfl⟩ : ∃ n, fuel = n + 1 := ⟨fuel - 1, by simp at enough; omega⟩
    simp [walk, back]
  | cons x rest ih =>
    simp only [cons_append, isChain_cons_cons] at chain
    simp only [mem_cons, not_or] at outside
    simp only [length_cons] at enough
    obtain ⟨fuel, rfl⟩ : ∃ n, fuel = n + 1 := ⟨fuel - 1, by omega⟩
    rw [chain.1, walk, if_neg (Ne.symm outside.1), find?_cons]
    cases found : test x with
    | true => simp
    | false =>
      simp only [Bool.false_eq_true, if_false]
      exact ih outside.2 chain.2 (by omega)

section
variable (ring : IsRing next prev head order)
include ring

theorem IsRing.walk_next (test : α → Bool)
    (enough : order.length < fuel) : walk next test head fuel (next head) = order.find? test :=
  walk_chain test (nodup_cons.mp ring.nodup).1 (ring.links.imp fun _ _ link => link.1) enough

theorem IsRing.walk_prev (test : α → Bool) (enough : order.length < fuel) :
    walk prev test head fuel (prev head) = order.reverse.find? test :=
  ring.reverse.walk_next test (by simpa using enough)

theorem IsRing.insert (fresh : x ∉ head :: order) :
    IsRing (update (update next x (next head)) head x)
      (update (update prev x head) (next head) x) head (x :: order) := by
  have nodup := nodup_cons.mp ring.nodup
  simp only [mem_cons, not_or] at fresh
  refine ⟨?_, ?_⟩
  · simp only [nodup_cons, mem_cons, not_or]
    exact ⟨⟨Ne.symm fresh.1, nodup.1⟩, fresh.2, nodup.2⟩
  cases order with
  | nil =>
    have back : next head = head := by simpa [Linked] using ring.links.rel_head? (y := head) rfl |>.1
    simp [Linked, back, fresh.1]
  | cons y rest =>
    have links := ring.links
    simp only [cons_append, isChain_cons_cons] at links ⊢
    have first : next head = y := links.1.1
    simp only [mem_cons, not_or, nodup_cons] at fresh nodup
    refine ⟨⟨by simp, by simp [first, fresh.2.1]⟩, ⟨by simp [first, fresh.1], by simp [first]⟩, ?_⟩
    refine links.2.imp_of_mem_tail_imp ?_
    intro a b inside target link
    simp only [mem_cons, mem_append, not_mem_nil, or_false,
      tail_cons] at inside target
    have target' : b ≠ y ∧ b ≠ x := by
      refine ⟨?_, ?_⟩ <;> rintro rfl <;> rcases target with target | target <;> simp_all
    have source : a ≠ head ∧ a ≠ x := by
      refine ⟨?_, ?_⟩
      · rintro rfl
        exact target'.1 (link.1.symm.trans first)
      · rintro rfl
        rcases inside with inside | inside | inside <;> simp_all
    exact ⟨by simp [source.1, source.2, link.1], by simp [first, target'.1, target'.2, link.2]⟩

end

theorem chain_unlink {nodes : List α} (outside : x ∉ nodes) (before : next (prev x) = x)
    (after : prev (next x) = x) (chain : nodes.IsChain (Linked next prev)) :
    nodes.IsChain (Linked (update next (prev x) (next x)) (update prev (next x) (prev x))) := by
  refine chain.imp_of_mem_imp ?_
  rintro a b insideA insideB ⟨forward, backward⟩
  have source : a ≠ prev x := by
    rintro rfl
    rw [before] at forward
    exact outside (forward ▸ insideB)
  have target : b ≠ next x := by
    rintro rfl
    rw [after] at backward
    exact outside (backward ▸ insideA)
  exact ⟨by rw [update_of_ne source, forward],
    by rw [update_of_ne target, backward]⟩

theorem IsRing.erase (ring : IsRing next prev head order) (member : x ∈ order) :
    IsRing (update next (prev x) (next x)) (update prev (next x) (prev x)) head (order.erase x) := by
  have nodup := ring.nodup
  refine ⟨nodup.sublist (erase_sublist.cons_cons head), ?_⟩
  obtain ⟨front, back, absent, rfl, erased⟩ := exists_erase_eq member
  rw [erased]
  have links := ring.links
  have shape : head :: (front ++ x :: back) ++ [head] =
      (head :: front) ++ x :: (back ++ [head]) := by simp
  rw [shape, isChain_split] at links
  have outside : x ∉ head :: front ∧ x ∉ back ++ [head] := by
    simp only [nodup_cons, mem_append, mem_cons, not_or, nodup_append] at nodup
    refine ⟨by simp [Ne.symm nodup.1.2.1, absent], ?_⟩
    simp [nodup.2.2.1.1, Ne.symm nodup.1.2.1]
  have left : ∀ a ∈ (head :: front).getLast?, Linked next prev a x := fun a last =>
    (isChain_append.mp links.1).2.2 a last x rfl
  have right : ∀ b ∈ (back ++ [head]).head?, Linked next prev x b := fun b first =>
    links.2.rel_head? first
  have before : next (prev x) = x := by
    have link := left _ (getLast?_eq_some_getLast (by simp))
    rw [link.2, link.1]
  have after : prev (next x) = x := by
    have link := right _ (head?_eq_some_head (by simp))
    rw [link.1, link.2]
  have joined : head :: (front ++ back) ++ [head] = (head :: front) ++ (back ++ [head]) := by simp
  rw [joined, isChain_append]
  refine ⟨chain_unlink outside.1 before after links.1.left_of_append,
    chain_unlink outside.2 before after links.2.tail, ?_⟩
  intro a last b first
  rw [← (left a last).2, ← (right b first).1]
  exact ⟨by simp, by simp⟩

end Xv6Lab.DoublyLinked
