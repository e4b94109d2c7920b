import Xv6Lab.Llm.Tokenizer

/-!
What llm_encode computes: the text is cut into tokens from left to right, and the
merge loop rewrites the row of tokens until no merge applies.
-/

namespace Xv6Lab.Llm
open List
open Function (update_of_ne update_self)
variable {left right : Int} {idx rank count j p : Nat}

section Merging

/-- One merge somewhere in the row of tokens: the first of the table for its pair. -/
def Rewrites (merges : List Merge) (before after : List Int) : Prop :=
  ∃ front left right back rank, findRank merges left right = some rank ∧
    before = front ++ left :: right :: back ∧ after = front ++ mergeOut merges rank :: back

def Normal (merges : List Merge) (ids : List Int) : Prop :=
  ∀ m ∈ merges, ¬ [m.left, m.right] <:+: ids

variable {merges : List Merge} {b : Buffer}

theorem findRank_some (found : findRank merges left right = some rank) :
    ∃ m ∈ merges, m.left = left ∧ m.right = right ∧ mergeOut merges rank = m.out := by
  obtain ⟨inside, holds, -⟩ := findIdx?_eq_some_iff_getElem.mp found
  have pair : merges[rank].left = left ∧ merges[rank].right = right := by simpa using holds
  exact ⟨merges[rank], getElem_mem inside, pair.1, pair.2, by simp [mergeOut, inside]⟩

theorem findRank_lt (found : findRank merges left right = some rank) : rank < merges.length := by
  obtain ⟨inside, -⟩ := findIdx?_eq_some_iff_getElem.mp found
  exact inside

theorem findRank_none (missing : findRank merges left right = none) :
    ∀ m ∈ merges, ¬(m.left = left ∧ m.right = right) := by
  intro m member pair
  have fails := findIdx?_eq_none_iff.mp missing m member
  simp [pair] at fails

structure Search (merges : List Merge) (tokens : Nat → Int) (count : Nat) (best : Best) : Prop where
  open_rank : best.idx = none → best.rank = merges.length + 1
  none_before : best.idx = none → ∀ i < count, findRank merges (tokens i) (tokens (i + 1)) = none
  found : ∀ i, best.idx = some i → i < count ∧
    ∃ rank, findRank merges (tokens i) (tokens (i + 1)) = some rank ∧ best.out = mergeOut merges rank

theorem considerPair_search {tokens : Nat → Int} {best : Best}
    (search : Search merges tokens count best) :
    Search merges tokens (count + 1) (considerPair merges tokens best count) := by
  unfold considerPair
  cases pair : findRank merges (tokens count) (tokens (count + 1)) with
  | none =>
    refine ⟨search.open_rank, ?_, ?_⟩
    · intro unset i small
      rcases Nat.lt_succ_iff_lt_or_eq.mp small with earlier | rfl
      · exact search.none_before unset i earlier
      · exact pair
    · intro i set
      obtain ⟨small, merge⟩ := search.found i set
      exact ⟨by omega, merge⟩
  | some rank =>
    dsimp only
    split
    · refine ⟨?_, ?_, ?_⟩
      · intro unset; cases unset
      · intro unset; cases unset
      · intro i set
        cases set
        exact ⟨by omega, rank, pair, rfl⟩
    · rename_i worse
      -- the first pair with a merge is always better than the initial rank
      have set : best.idx ≠ none := by
        intro unset
        have initial := search.open_rank unset
        have inside := findRank_lt pair
        omega
      refine ⟨fun unset => absurd unset set, fun unset => absurd unset set, ?_⟩
      intro i set
      obtain ⟨small, merge⟩ := search.found i set
      exact ⟨by omega, merge⟩

theorem findBest_search : Search merges b.tokens (b.n - 1) (findBest merges b) := by
  unfold findBest
  generalize b.n - 1 = count
  induction count with
  | zero =>
    refine ⟨fun _ => rfl, ?_, ?_⟩
    · intro _ i small
      omega
    · intro i set
      cases set
  | succ count ih =>
    rw [range_succ, foldl_append, foldl_cons, foldl_nil]
    exact considerPair_search ih

@[simp] theorem shift_n (count i : Nat) (b : Buffer) : (shift count i b).n = b.n := by
  induction count generalizing i b with
  | zero => rfl
  | succ count ih => rw [shift, ih]; rfl

theorem shift_tokens (count i j : Nat) (b : Buffer) : (shift count i b).tokens j =
      if i ≤ j ∧ j < i + count then b.tokens (j + 1) else b.tokens j := by
  induction count generalizing i b with
  | zero => rw [if_neg (by omega)]; rfl
  | succ count ih =>
    rw [shift, ih]
    simp only [Buffer.store]
    by_cases first : j = i
    · subst first
      rw [if_neg (by omega), if_pos (by omega), update_self]
    · by_cases inside : i ≤ j ∧ j < i + (count + 1)
      · rw [if_pos (by omega), if_pos inside, update_of_ne (by omega)]
      · rw [if_neg (by omega), if_neg inside, update_of_ne first]

theorem shift_stored {i : Nat} {b : Buffer} (member : j ∈ (shift count i b).stored) :
    j ∈ b.stored ∨ j < i + count := by
  induction count generalizing i b with
  | zero => exact .inl member
  | succ count ih =>
    rcases ih member with old | small
    · simp only [Buffer.store, mem_cons] at old
      rcases old with rfl | old
      · exact .inr (by omega)
      · exact .inl old
    · exact .inr (by omega)

@[simp] theorem ids_length (b : Buffer) : b.ids.length = b.n := by simp [Buffer.ids]

theorem ids_getElem (b : Buffer) (i : Nat) (inside : i < b.ids.length) : b.ids[i] = b.tokens i := by
  simp [Buffer.ids]

theorem ids_split (inside : idx + 1 < b.n) :
    b.ids = b.ids.take idx ++ b.tokens idx :: b.tokens (idx + 1) :: b.ids.drop (idx + 2) := by
  have first : idx < b.ids.length := by rw [ids_length]; omega
  have second : idx + 1 < b.ids.length := by rw [ids_length]; omega
  conv_lhs => rw [← take_append_drop idx b.ids]
  rw [drop_eq_getElem_cons first, drop_eq_getElem_cons second, ids_getElem, ids_getElem]

theorem applyMerge_n (b : Buffer) (idx : Nat) (out : Int) : (applyMerge b idx out).n = b.n - 1 := by
  simp [applyMerge, Buffer.store]

theorem applyMerge_ids (inside : idx + 1 < b.n) (out : Int) :
    (applyMerge b idx out).ids = b.ids.take idx ++ out :: b.ids.drop (idx + 2) := by
  have length : (b.ids.take idx).length = idx := by simp; omega
  apply ext_getElem
  · simp only [ids_length, applyMerge_n, length_append, length_cons, length_drop, length]
    omega
  · intro i left right
    rw [ids_length, applyMerge_n] at left
    have cell : (applyMerge b idx out).tokens i =
        if idx + 1 ≤ i ∧ i < b.n - 1 then b.tokens (i + 1)
        else (b.store idx out).tokens i := by
      simp only [applyMerge, shift_tokens]
      by_cases late : idx + 1 ≤ i ∧ i < b.n - 1
      · rw [if_pos (by omega), if_pos late]
        simp [Buffer.store, update_of_ne (show i + 1 ≠ idx by omega)]
      · rw [if_neg (by omega), if_neg late]
    rw [ids_getElem, cell]
    rcases Nat.lt_trichotomy i idx with before | rfl | behind
    · rw [if_neg (by omega), getElem_append_left (by omega), getElem_take, ids_getElem]
      simp [Buffer.store, update_of_ne (show i ≠ idx by omega)]
    · rw [if_neg (by omega), getElem_append_right (by omega)]
      simp [length, Buffer.store]
    · rw [if_pos (by omega), getElem_append_right (by omega)]
      obtain ⟨k, rfl⟩ : ∃ k, i = idx + 1 + k := ⟨i - (idx + 1), by omega⟩
      have offset : idx + 1 + k - (b.ids.take idx).length = k + 1 := by omega
      simp only [offset, getElem_cons_succ, getElem_drop, ids_getElem]
      congr 1
      omega

theorem applyMerge_stored {out : Int} (inside : idx + 1 < b.n)
    (member : j ∈ (applyMerge b idx out).stored) : j ∈ b.stored ∨ j < b.n := by
  simp only [applyMerge] at member
  rcases shift_stored member with old | small
  · simp only [Buffer.store, mem_cons] at old
    rcases old with rfl | old
    · exact .inr (by omega)
    · exact .inl old
  · exact .inr (by omega)

theorem round_rewrites (found : (findBest merges b).idx = some idx) :
    idx + 1 < b.n ∧ Rewrites merges b.ids (applyMerge b idx (findBest merges b).out).ids := by
  obtain ⟨small, rank, pair, out⟩ := findBest_search.found idx found
  have inside : idx + 1 < b.n := by omega
  refine ⟨inside, b.ids.take idx, _, _, b.ids.drop (idx + 2), rank, pair, ids_split inside, ?_⟩
  rw [applyMerge_ids inside, out]

theorem stopped_normal (stopped : (findBest merges b).idx = none) : Normal merges b.ids := by
  rintro m member ⟨front, back, row⟩
  have inside : front.length + 1 < b.n := by
    have total := congrArg List.length row
    simp only [ids_length, length_append, length_cons, length_nil] at total
    omega
  have missing := findBest_search.none_before stopped front.length (by omega)
  have left : b.tokens front.length = m.left := by
    rw [← ids_getElem b _ (by rw [ids_length]; omega)]
    simp [← row]
  have right : b.tokens (front.length + 1) = m.right := by
    rw [← ids_getElem b _ (by rw [ids_length]; omega)]
    simp [← row]
  exact findRank_none missing m member ⟨left.symm, right.symm⟩

/-- The merge loop rewrites the row to a normal form, inside the first n cells. -/
theorem mergeLoop_spec (rounds : Nat) (enough : b.n ≤ rounds) :
    Relation.ReflTransGen (Rewrites merges) b.ids (mergeLoop merges rounds b).ids ∧
    Normal merges (mergeLoop merges rounds b).ids ∧
    (mergeLoop merges rounds b).n ≤ b.n ∧
    ∀ j ∈ (mergeLoop merges rounds b).stored, j ∈ b.stored ∨ j < b.n := by
  induction rounds generalizing b with
  | zero =>
    have empty : b.ids = [] := eq_nil_of_length_eq_zero (by rw [ids_length]; omega)
    refine ⟨.refl, ?_, le_rfl, fun j member => .inl member⟩
    rintro m - pair
    rw [mergeLoop, empty] at pair
    simp at pair
  | succ rounds ih =>
    rw [mergeLoop]
    cases found : (findBest merges b).idx with
    | none => exact ⟨.refl, stopped_normal found, le_rfl, fun j member => .inl member⟩
    | some idx =>
      obtain ⟨inside, step⟩ := round_rewrites found
      have fewer := applyMerge_n b idx (findBest merges b).out
      obtain ⟨reached, normal, bound, stored⟩ := ih (b := applyMerge b idx (findBest merges b).out)
        (by omega)
      refine ⟨.head step reached, normal, by dsimp only; omega, ?_⟩
      intro j member
      rcases stored j member with old | small
      · exact applyMerge_stored inside old
      · exact .inr (by omega)

theorem rewrites_invariant {P : List Int → Prop} {before after : List Int}
    (step : ∀ before after, Rewrites merges before after → P before → P after)
    (steps : Relation.ReflTransGen (Rewrites merges) before after) (initial : P before) : P after := by
  induction steps with
  | refl => exact initial
  | tail _ last ih => exact step _ _ last ih

end Merging

section Scanning
variable {t : Tokenizer} {text : Nat → UInt8}

def Tokenizer.InRange (t : Tokenizer) (id : Int) : Prop := 0 ≤ id ∧ id < t.vocabSize

instance (t : Tokenizer) (id : Int) : Decidable (t.InRange id) :=
  inferInstanceAs (Decidable (0 ≤ id ∧ id < t.vocabSize))

def window (text : Nat → UInt8) (p n : Nat) : List UInt8 := (List.range n).map fun i => text (p + i)

structure Terminated (text : Nat → UInt8) (len : Nat) : Prop where
  nul : text len = 0
  before : ∀ i < len, text i ≠ 0

theorem window_succ (p n : Nat) : window text p (n + 1) = text p :: window text (p + 1) n := by
  simp only [window, range_succ_eq_map, map_cons, map_map, Nat.add_zero]
  congr 2
  funext i
  simp only [Function.comp_apply]
  congr 1
  omega

theorem window_append (p n k : Nat) :
    window text p (n + k) = window text p n ++ window text (p + n) k := by
  simp only [window, range_add, map_append, map_map]
  congr 2
  funext i
  simp only [Function.comp_apply, Nat.add_assoc]

theorem startsWith_window {piece : List UInt8} (starts : startsWith text p piece = true) :
    window text p piece.length = piece := by
  induction piece generalizing p with
  | nil => rfl
  | cons c rest ih =>
    rw [startsWith] at starts
    split at starts
    · cases starts
    · rename_i same
      rw [length_cons, window_succ, ih starts]
      simpa using same

structure Special (t : Tokenizer) (text : Nat → UInt8) (p : Nat) (best : Int × Nat) : Prop where
  listed : best.1 ∈ t.specialIds
  range : t.InRange best.1
  some_bytes : 0 < best.2
  spelled : window text p best.2 = t.piece best.1

theorem findSpecial_spec (p : Nat) (ids : List Int) (best : Int × Nat)
    (listed : ∀ id ∈ ids, id ∈ t.specialIds) (initial : best = (-1, 0) ∨ Special t text p best) :
    findSpecial t text p ids best = (-1, 0) ∨ Special t text p (findSpecial t text p ids best) := by
  induction ids generalizing best with
  | nil => exact initial
  | cons id rest ih =>
    have later : ∀ id ∈ rest, id ∈ t.specialIds := fun id member => listed id (by simp [member])
    rw [findSpecial]
    split
    · exact ih best later initial
    · rename_i range
      dsimp only
      split
      · rename_i longer
        refine ih _ later (.inr ⟨listed id (by simp), ⟨by omega, by omega⟩, longer.2.1, ?_⟩)
        exact startsWith_window longer.2.2
      · exact ih best later initial

theorem findSpecial_len_le (p : Nat) (ids : List Int) (best : Int × Nat) :
    best.2 ≤ (findSpecial t text p ids best).2 := by
  induction ids generalizing best with
  | nil => exact le_rfl
  | cons id rest ih =>
    rw [findSpecial]
    split
    · exact ih best
    · dsimp only
      split
      · rename_i longer
        exact longer.1.le.trans (ih (id, (t.piece id).length))
      · exact ih best

theorem findSpecial_none {p : Nat} {ids : List Int} (missing : findSpecial t text p ids (-1, 0) = (-1, 0)) :
    ∀ id ∈ ids, t.InRange id → t.piece id ≠ [text p] := by
  induction ids with
  | nil => intro id member; cases member
  | cons first rest ih =>
    rw [findSpecial] at missing
    intro id member range same
    split at missing
    · rename_i out
      rcases mem_cons.mp member with rfl | member
      · have := range.1
        have := range.2
        omega
      · exact ih missing id member range same
    · dsimp only at missing
      split at missing
      · rename_i longer
        have kept := @findSpecial_len_le t text p rest (first, (t.piece first).length)
        rw [missing] at kept
        dsimp only at kept
        omega
      · rename_i shorter
        rcases mem_cons.mp member with rfl | member
        · apply shorter
          rw [same]
          simp [startsWith]
        · exact ih missing id member range same

theorem nextToken_cases {id : Int} {len : Nat} (next : nextToken t text p = some (id, len)) :
    Special t text p (id, len) ∨ (id = byteId t (text p) ∧ 0 ≤ id ∧ len = 1 ∧
      ∀ special ∈ t.specialIds, t.InRange special → t.piece special ≠ [text p]) := by
  unfold nextToken at next
  have spec := @findSpecial_spec t text p t.specialIds (-1, 0) (fun _ member => member)
    (.inl rfl)
  have unmatched := @findSpecial_none t text p t.specialIds
  generalize findSpecial t text p t.specialIds (-1, 0) = best at next spec unmatched
  dsimp only at next
  split at next
  · rename_i positive
    cases next
    rcases spec with none | special
    · simp [none] at positive
    · exact .inl special
  · rename_i negative
    split at next
    · cases next
    · rename_i nonneg
      cases next
      refine .inr ⟨rfl, by omega, rfl, unmatched ?_⟩
      rcases spec with none | special
      · exact none
      · exact absurd special.range.1 negative

theorem push_ids (b : Buffer) (id : Int) : (b.push id).ids = b.ids ++ [id] := by
  simp only [Buffer.ids, Buffer.push, Buffer.store, range_succ, map_append, map_cons,
    map_nil, update_self]
  congr 1
  apply map_congr_left
  intro i member
  exact update_of_ne (by have := mem_range.mp member; omega) _ _

def empty : Buffer := ⟨fun _ => 0, 0, []⟩

@[simp] theorem push_n (b : Buffer) (id : Int) : (b.push id).n = b.n + 1 := rfl

@[simp] theorem push_stored (b : Buffer) (id : Int) : (b.push id).stored = b.n :: b.stored := rfl

end Scanning
end Xv6Lab.Llm
