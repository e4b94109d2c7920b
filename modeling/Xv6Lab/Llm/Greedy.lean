import Xv6Lab.Llm.Encode

/-!
The merge loop of llm_encode against byte pair encoding.
-/

namespace Xv6Lab.Llm
variable {merges : List Merge} {b : Buffer} {idx : Nat}

/-- A round of byte pair encoding: of the pairs with a merge, the one whose merge comes
first in the table, and of equal pairs the leftmost. -/
def Greedy (merges : List Merge) (before after : List Int) : Prop :=
  ∃ front left right back rank, findRank merges left right = some rank ∧
    before = front ++ left :: right :: back ∧ after = front ++ mergeOut merges rank :: back ∧
    ∀ front' left' right' back' r, findRank merges left' right' = some r →
      before = front' ++ left' :: right' :: back' → rank < r ∨ rank = r ∧ front.length ≤ front'.length

theorem Greedy.rightUnique : Relator.RightUnique (Greedy merges) := by
  rintro _ _ _ ⟨front, left, right, back, rank, pair, rfl, rfl, least⟩
    ⟨front', left', right', back', rank', pair', same, rfl, least'⟩
  have first := least _ _ _ _ _ pair' same
  have second := least' _ _ _ _ _ pair rfl
  obtain rfl : rank = rank' := by omega
  obtain ⟨rfl, rest⟩ := List.append_inj same (by omega)
  simp_all

section Local
variable {before first second : List Int}

/-- A round works in one of two parts of the row, as it would there alone. -/
theorem Greedy.split (step : Greedy merges before (first ++ second)) :
    ∃ first' second', before = first' ++ second' ∧
      (first' = first ∧ Greedy merges second' second ∨ Greedy merges first' first ∧ second' = second) := by
  obtain ⟨front, left, right, back, rank, pair, rfl, after, least⟩ := step
  have inSecond : ∀ rest, front = first ++ rest → second = rest ++ mergeOut merges rank :: back →
      Greedy merges (rest ++ left :: right :: back) second := by
    rintro rest rfl rfl
    refine ⟨rest, left, right, back, rank, pair, rfl, rfl, fun front' left' right' back' r pair' row => ?_⟩
    have other := least (first ++ front') left' right' back' r pair' (by simp [row])
    simp only [List.length_append] at other
    omega
  rcases List.append_eq_append_iff.mp after with ⟨rest, rfl, tail⟩ | ⟨rest, rfl, tail⟩
  · exact ⟨first, rest ++ left :: right :: back, by simp, .inl ⟨rfl, inSecond rest rfl tail⟩⟩
  · cases rest with
    | nil => exact ⟨front, left :: right :: back, rfl, .inl ⟨by simp, inSecond [] (by simp) tail.symm⟩⟩
    | cons out rest =>
      rw [List.cons_append, List.cons.injEq] at tail
      obtain ⟨rfl, rfl⟩ := tail
      refine ⟨front ++ left :: right :: rest, second, by simp, .inr ⟨?_, rfl⟩⟩
      refine ⟨front, left, right, rest, rank, pair, rfl, rfl, fun front' left' right' back' r pair' row => ?_⟩
      exact least front' left' right' (back' ++ second) r pair' (by simpa using congrArg (· ++ second) row)

end Local

structure Least (merges : List Merge) (tokens : Nat → Int) (count : Nat) (best : Best) : Prop where
  rank : ∀ i, best.idx = some i → findRank merges (tokens i) (tokens (i + 1)) = some best.rank
  least : ∀ j < count, ∀ r, findRank merges (tokens j) (tokens (j + 1)) = some r →
    ∃ i, best.idx = some i ∧ (best.rank < r ∨ best.rank = r ∧ i ≤ j)

theorem considerPair_least {tokens : Nat → Int} {count : Nat} {best : Best}
    (search : Search merges tokens count best) (least : Least merges tokens count best) :
    Least merges tokens (count + 1) (considerPair merges tokens best count) := by
  obtain ⟨found, least⟩ := least
  unfold considerPair
  cases pair : findRank merges (tokens count) (tokens (count + 1)) with
  | none =>
    refine ⟨found, fun j low r other => ?_⟩
    rcases Nat.lt_succ_iff_lt_or_eq.mp low with low | rfl
    · exact least j low r other
    · simp [pair] at other
  | some rank =>
    have last {r : Nat} (other : findRank merges (tokens count) (tokens (count + 1)) = some r) : rank = r :=
      Option.some.inj (pair.symm.trans other)
    dsimp only
    split_ifs with better
    · refine ⟨by simpa using pair, fun j low r other => ⟨count, rfl, ?_⟩⟩
      rcases Nat.lt_succ_iff_lt_or_eq.mp low with low | rfl
      · obtain ⟨i, -, known⟩ := least j low r other
        exact .inl (by dsimp only; omega)
      · exact .inr ⟨last other, le_rfl⟩
    · refine ⟨found, fun j low r other => ?_⟩
      rcases Nat.lt_succ_iff_lt_or_eq.mp low with low | rfl
      · exact least j low r other
      · obtain rfl := last other
        cases set : best.idx with
        | none =>
          have initial := search.open_rank set
          have inside := findRank_lt pair
          omega
        | some i =>
          have earlier := (search.found i set).1
          exact ⟨i, rfl, by omega⟩

theorem findBest_least : Least merges b.tokens (b.n - 1) (findBest merges b) := by
  suffices ∀ count, let best := (List.range count).foldl (considerPair merges b.tokens) ⟨merges.length + 1, none, -1⟩
      Search merges b.tokens count best ∧ Least merges b.tokens count best from (this _).2
  intro count
  induction count with
  | zero => exact ⟨by constructor <;> simp, by constructor <;> simp⟩
  | succ count ih =>
    rw [List.range_succ, List.foldl_append, List.foldl_cons, List.foldl_nil]
    exact ⟨considerPair_search ih.1, considerPair_least ih.1 ih.2⟩

theorem ids_pair {front back : List Int} {left right : Int} (row : b.ids = front ++ left :: right :: back) :
    front.length < b.n - 1 ∧ b.tokens front.length = left ∧ b.tokens (front.length + 1) = right := by
  have total := congrArg List.length row
  simp only [ids_length, List.length_append, List.length_cons] at total
  rw [← ids_getElem b _ (by rw [ids_length]; omega), ← ids_getElem b _ (by rw [ids_length]; omega)]
  simp only [row]
  simp
  omega

theorem round_greedy (found : (findBest merges b).idx = some idx) :
    Greedy merges b.ids (applyMerge b idx (findBest merges b).out).ids := by
  obtain ⟨small, rank, pair, out⟩ := findBest_search.found idx found
  obtain ⟨chosen, least⟩ := @findBest_least merges b
  obtain rfl : rank = (findBest merges b).rank := Option.some.inj (pair.symm.trans (chosen idx found))
  have inside : idx + 1 < b.n := by omega
  refine ⟨b.ids.take idx, _, _, b.ids.drop (idx + 2), _, pair, ids_split inside, ?_, ?_⟩
  · rw [applyMerge_ids inside, out]
  · intro front left right back r other row
    obtain ⟨low, rfl, rfl⟩ := ids_pair row
    obtain ⟨i, set, better⟩ := least _ low r other
    obtain rfl := Option.some.inj (found.symm.trans set)
    rw [List.length_take, ids_length]
    omega

theorem mergeLoop_greedy (rounds : Nat) :
    Relation.ReflTransGen (Greedy merges) b.ids (mergeLoop merges rounds b).ids := by
  induction rounds generalizing b with
  | zero => exact .refl
  | succ rounds ih =>
    rw [mergeLoop]
    cases found : (findBest merges b).idx with
    | none => exact .refl
    | some idx => exact .head (round_greedy found) ih

theorem Normal.stays {first last : List Int} (normal : Normal merges first)
    (steps : Relation.ReflTransGen (Greedy merges) first last) : first = last := by
  rcases steps.cases_head with same | ⟨_, ⟨front, left, right, back, rank, pair, rfl, -⟩, -⟩
  · exact same
  · obtain ⟨m, member, rfl, rfl, -⟩ := findRank_some pair
    exact absurd ⟨front, back, by simp⟩ (normal m member)

theorem mergeLoop_final {final : List Int} (steps : Relation.ReflTransGen (Greedy merges) b.ids final)
    (normal : Normal merges final) : final = (mergeLoop merges b.n b).ids := by
  rcases Relation.ReflTransGen.total_of_right_unique Greedy.rightUnique (mergeLoop_greedy b.n) steps with more | more
  · exact ((mergeLoop_spec b.n le_rfl).2.1.stays more).symm
  · exact normal.stays more

/-- The merge loop is byte pair encoding: it ends at the only row without a pair to merge
that is reached by merging the leftmost pair of the least rank. -/
theorem merges_greedily (merges : List Merge) (b : Buffer) (final : List Int) :
    Relation.ReflTransGen (Greedy merges) b.ids final ∧ Normal merges final ↔
      final = (mergeLoop merges b.n b).ids := by
  constructor
  · rintro ⟨steps, normal⟩
    exact mergeLoop_final steps normal
  · rintro rfl
    exact ⟨mergeLoop_greedy b.n, (mergeLoop_spec b.n le_rfl).2.1⟩

end Xv6Lab.Llm
