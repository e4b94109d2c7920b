import Xv6Lab.Llm.Greedy
import Xv6Lab.Llm.Reads

/-!
Which ids llm_encode puts out. The loader takes the ids of the file as they are, so it
depends on which of them some text brings to the end of the merge loop. A part of a
row of tokens is merged as it would be alone, and that makes it a matter of single ids.
-/

namespace Xv6Lab.Llm
open List
open Relation (ReflTransGen)
variable {t : Tokenizer} {text text' : Nat → UInt8} {b b' : Buffer} {id maxTokens : Int}
  {p q a n len room : Nat} {ids row final first second : List Int}

/-- What llm_encode returns for any text with a NUL consists of ids below vocab_size. -/
def EncodesInRange (t : Tokenizer) : Prop :=
  ∀ (text : Nat → UInt8) (nul : Nat) (addBos addEos : Bool) (tokens : Nat → Int) (maxTokens : Int)
    (b : Buffer), text nul = 0 → llmEncode t text addBos addEos tokens maxTokens = .ok b →
    ∀ id ∈ b.ids, t.InRange id

/-- The tokens of the text from p to q. -/
inductive Cut (t : Tokenizer) (text : Nat → UInt8) : Nat → Nat → List Int → Prop
  | stop (p : Nat) : Cut t text p p []
  | token {p q len : Nat} {id : Int} {ids : List Int} (nonzero : text p ≠ 0)
      (next : nextToken t text p = some (id, len)) (rest : Cut t text (p + len) q ids) :
      Cut t text p q (id :: ids)

/-- What the merge loop gets for some text. -/
def Row (t : Tokenizer) (row : List Int) : Prop :=
  ∃ text q ids, Cut t text 0 q ids ∧ text q = 0 ∧ (row = ids ∨ 0 ≤ t.bosId ∧ row = t.bosId :: ids)

section Scan

theorem Cut.le (cut : Cut t text p q ids) : p ≤ q := by
  induction cut with
  | stop => exact le_rfl
  | token _ _ _ ih => omega

theorem Cut.scan (cut : Cut t text p q ids) (nul : text q = 0) (b : Buffer) (enough : ids.length ≤ room) :
    ∃ b', scan t text room p b = .ok b' ∧ b'.ids = b.ids ++ ids := by
  induction cut generalizing b room with
  | stop p => exact ⟨b, by cases room <;> rw [scan, if_pos nul], by simp⟩
  | token nonzero next _ ih =>
    cases room with
    | zero => cases enough
    | succ room =>
      rw [Llm.scan, if_neg nonzero, next]
      obtain ⟨b', scanned, row⟩ := ih nul (b.push _) (Nat.le_of_succ_le_succ enough)
      exact ⟨b', scanned, by rw [row, push_ids, append_assoc, singleton_append]⟩

theorem scan_cut (scanned : scan t text room p b = .ok b') :
    ∃ q ids, Cut t text p q ids ∧ text q = 0 ∧ b'.ids = b.ids ++ ids := by
  induction room generalizing p b with
  | zero =>
    rw [scan] at scanned
    split at scanned
    · cases scanned
      exact ⟨p, [], .stop p, ‹_›, by simp⟩
    · cases scanned
  | succ room ih =>
    rw [scan] at scanned
    split at scanned
    · cases scanned
      exact ⟨p, [], .stop p, ‹_›, by simp⟩
    · rename_i nonzero
      cases next : nextToken t text p with
      | none =>
        rw [next] at scanned
        cases scanned
      | some token =>
        rw [next] at scanned
        obtain ⟨q, ids, cut, nul, row⟩ := ih scanned
        exact ⟨q, token.1 :: ids, .token nonzero next cut, nul,
          by rw [row, push_ids, append_assoc, singleton_append]⟩

def added (wanted : Bool) (id : Int) : List Int := if wanted ∧ id ≥ 0 then [id] else []

theorem addId_ids {wanted : Bool} (done : addId wanted id maxTokens b = .ok b') :
    b'.ids = b.ids ++ added wanted id := by
  unfold addId at done
  unfold added
  split_ifs at done ⊢ <;> cases done
  · exact push_ids b id
  · simp

theorem addId_ok (wanted : Bool) (id : Int) (space : b.n < maxTokens) :
    ∃ b', addId wanted id maxTokens b = .ok b' ∧ b'.n ≤ b.n + 1 := by
  unfold addId
  split_ifs
  · omega
  · exact ⟨_, rfl, le_rfl⟩
  · exact ⟨b, rfl, by omega⟩

theorem encode_row {addBos addEos : Bool} {tokens : Nat → Int}
    (encoded : llmEncode t text addBos addEos tokens maxTokens = .ok b) :
    ∃ row final, Row t row ∧ ReflTransGen (Greedy t.merges) row final ∧ Normal t.merges final ∧
      b.ids = final ++ added addEos t.eosId := by
  unfold llmEncode at encoded
  cases begun : addId addBos t.bosId maxTokens ⟨tokens, 0, []⟩ with
  | error _ => rw [begun] at encoded; cases encoded
  | ok start =>
    rw [begun] at encoded
    simp only [bind, Except.bind] at encoded
    cases scanned : scan t text (maxTokens - start.n).toNat 0 start with
    | error _ => rw [scanned] at encoded; cases encoded
    | ok b1 =>
      rw [scanned] at encoded
      obtain ⟨q, ids, cut, nul, row⟩ := scan_cut scanned
      refine ⟨b1.ids, _, ⟨text, q, ids, cut, nul, ?_⟩, mergeLoop_greedy b1.n,
        (mergeLoop_spec b1.n le_rfl).2.1, addId_ids encoded⟩
      rw [row, addId_ids begun, show (⟨tokens, 0, []⟩ : Buffer).ids = [] from rfl, nil_append, added]
      split_ifs with present
      · exact .inr ⟨present.2, rfl⟩
      · exact .inl rfl

theorem Row.encode (start : Row t row) (steps : ReflTransGen (Greedy t.merges) row final)
    (normal : Normal t.merges final) (addEos : Bool) : ∃ text nul addBos tokens maxTokens b, text nul = 0 ∧
      llmEncode t text addBos addEos tokens maxTokens = .ok b ∧ b.ids = final ++ added addEos t.eosId := by
  obtain ⟨text, q, ids, cut, nul, source⟩ := start
  obtain ⟨addBos, source⟩ : ∃ addBos, row = added addBos t.bosId ++ ids := by
    rcases source with rfl | ⟨present, rfl⟩
    · exact ⟨false, by simp [added]⟩
    · exact ⟨true, by simp [added, present]⟩
  obtain ⟨start, begun, few⟩ := addId_ok (b := empty) addBos t.bosId
    (show ((0 : Nat) : Int) < ids.length + 2 by omega)
  change start.n ≤ 0 + 1 at few
  obtain ⟨b1, scanned, whole⟩ := cut.scan nul start
    (show ids.length ≤ ((ids.length : Int) + 2 - start.n).toNat by omega)
  rw [addId_ids begun, show empty.ids = [] from rfl, nil_append, ← source] at whole
  obtain rfl := mergeLoop_final (whole ▸ steps) normal
  have fewer : (mergeLoop t.merges b1.n b1).n ≤ b1.n := (mergeLoop_spec b1.n le_rfl).2.2.1
  have size : b1.n ≤ ids.length + 1 := by
    rw [← ids_length, whole, source, length_append, added]
    split_ifs <;> simp [Nat.add_comm]
  obtain ⟨b, last, -⟩ := addId_ok (b := mergeLoop t.merges b1.n b1) addEos t.eosId
    (show ((mergeLoop t.merges b1.n b1).n : Int) < ids.length + 2 by omega)
  refine ⟨text, q, addBos, empty.tokens, ids.length + 2, b, nul, ?_, addId_ids last⟩
  simp only [llmEncode, bind, Except.bind]
  rw [show (⟨empty.tokens, 0, []⟩ : Buffer) = empty from rfl, begun]
  simp only [scanned, last]

theorem encodes_iff : EncodesInRange t ↔ t.eosId < t.vocabSize ∧ ∀ row final, Row t row →
    ReflTransGen (Greedy t.merges) row final → Normal t.merges final → ∀ id ∈ final, t.InRange id := by
  constructor
  · intro encodes
    constructor
    · by_contra large
      have present : 0 ≤ t.eosId := by
        unfold Tokenizer.vocabSize at large
        omega
      obtain ⟨text, nul, addBos, tokens, maxTokens, b, ends, encoded, result⟩ := Row.encode
        (t := t) ⟨fun _ => 0, 0, [], .stop 0, rfl, .inl rfl⟩ .refl (fun _ _ pair => by simpa using pair.length_le) true
      exact large (encodes text nul _ _ _ _ b ends encoded t.eosId (by simp [result, added, present])).2
    · intro row final start steps normal id member
      obtain ⟨text, nul, addBos, tokens, maxTokens, b, ends, encoded, result⟩ := start.encode steps normal false
      exact encodes text nul _ _ _ _ b ends encoded id (by simp [result, member])
  · rintro ⟨eos, ends⟩ text nul addBos addEos tokens maxTokens b - encoded id member
    obtain ⟨row, final, start, steps, normal, result⟩ := encode_row encoded
    rw [result, mem_append, added] at member
    rcases member with member | member
    · exact ends row final start steps normal id member
    · split_ifs at member with present
      · rw [mem_singleton.mp member]
        exact ⟨present.2, eos⟩
      · cases member

end Scan

section Parts

theorem Cut.split (cut : Cut t text p q (first ++ second)) :
    ∃ m, Cut t text p m first ∧ Cut t text m q second := by
  induction first generalizing p with
  | nil => exact ⟨p, .stop p, cut⟩
  | cons id rest ih =>
    cases cut with
    | token nonzero next tail =>
      obtain ⟨m, left, right⟩ := ih tail
      exact ⟨m, .token nonzero next left, right⟩

/-- A text that has the same tokens from p on as another one behind k. -/
theorem Cut.move (text' : Nat → UInt8) {k : Nat} (cut : Cut t text (k + p) q ids)
    (same : ∀ r id len, text (k + r) ≠ 0 → nextToken t text (k + r) = some (id, len) → k + r + len ≤ q →
      text' r ≠ 0 ∧ nextToken t text' r = some (id, len)) : ∃ q', q = k + q' ∧ Cut t text' p q' ids := by
  generalize start : k + p = s at cut
  induction cut generalizing p with
  | stop => exact ⟨p, start.symm, .stop p⟩
  | token nonzero next rest ih =>
    subst start
    obtain ⟨nonzero', next'⟩ := same _ _ _ nonzero next rest.le
    obtain ⟨q', ends, cut'⟩ := ih same (Nat.add_assoc _ _ _).symm
    exact ⟨q', ends, .token nonzero' next' cut'⟩

theorem findSpecial_congr (ids : List Int) (best : Int × Nat)
    (starts : ∀ id ∈ ids, t.InRange id → startsWith text' a (t.piece id) = startsWith text p (t.piece id)) :
    findSpecial t text' a ids best = findSpecial t text p ids best := by
  induction ids generalizing best with
  | nil => rfl
  | cons id rest ih =>
    rw [forall_mem_cons] at starts
    rw [findSpecial, findSpecial]
    split
    · exact ih best starts.2
    · rename_i range
      simp only [starts.1 ⟨by omega, by omega⟩, ih _ starts.2]

theorem nextToken_congr (byte : text' a = text p) (starts : ∀ id ∈ t.specialIds, t.InRange id →
      startsWith text' a (t.piece id) = startsWith text p (t.piece id)) :
    nextToken t text' a = nextToken t text p := by
  unfold nextToken
  rw [findSpecial_congr _ _ starts, byte]

theorem startsWith_congr (piece : List UInt8) (same : ∀ i < piece.length, text' (a + i) = text (p + i)) :
    startsWith text' a piece = startsWith text p piece := by
  induction piece generalizing a p with
  | nil => rfl
  | cons c rest ih =>
    have byte : text' a = text p := same 0 (by simp)
    have later := ih (p := p + 1) (a := a + 1) fun i small => by
      simpa only [Nat.add_assoc, Nat.add_comm 1] using same (i + 1) (by simpa using small)
    rw [startsWith, startsWith, byte, later]

/-- A token of a text is found in the text that ends behind it too, if no special piece has a
NUL. -/
theorem nextToken_ends (free : NulFree t) (nonzero : text p ≠ 0) (next : nextToken t text p = some (id, len))
    (inside : len ≤ n) (same : ∀ i < n, text' (a + i) = text (p + i)) (nul : text' (a + n) = 0) :
    text' a ≠ 0 ∧ nextToken t text' a = some (id, len) := by
  have some_bytes : 0 < len := by
    rcases nextToken_cases next with special | ⟨-, -, rfl, -⟩
    · exact special.some_bytes
    · exact Nat.one_pos
  have byte : text' a = text p := same 0 (by omega)
  have nonzero' : text' a ≠ 0 := byte ▸ nonzero
  refine ⟨nonzero', ?_⟩
  rw [nextToken_congr byte, next]
  intro special listed range
  by_cases short : (t.piece special).length ≤ n
  · exact startsWith_congr _ fun i small => same i (by omega)
  · have here : ¬startsWith text' a (t.piece special) = true := by
      intro starts
      have spelled := startsWith_window starts
      obtain ⟨k, more⟩ := Nat.exists_eq_succ_of_ne_zero (show (t.piece special).length ≠ 0 by omega)
      refine free special listed range ?_ ?_
      · rw [← spelled, more, window_succ]
        simpa using nonzero'
      · rw [← spelled, ← nul]
        exact window_mem (by omega) (by omega)
    have there : ¬startsWith text p (t.piece special) = true := by
      intro starts
      obtain ⟨_, _, next', long⟩ := nextToken_ge listed range starts (by omega)
      cases next.symm.trans next'
      omega
    rw [eq_false_of_ne_true here, eq_false_of_ne_true there]

theorem Cut.back (cut : Cut t text 0 q (first ++ second)) (nul : text q = 0) :
    ∃ text' q', Cut t text' 0 q' second ∧ text' q' = 0 := by
  obtain ⟨m, -, cut⟩ := cut.split
  obtain ⟨q', rfl, cut'⟩ := Cut.move (fun i => text (m + i)) (k := m) (p := 0) cut
    fun r id len nonzero next _ => by
      refine ⟨nonzero, next ▸ nextToken_congr rfl fun _ _ _ => startsWith_congr _ fun i _ => ?_⟩
      rw [Nat.add_assoc]
  exact ⟨_, q', cut', nul⟩

theorem Cut.front (free : NulFree t) (cut : Cut t text 0 q (first ++ second)) :
    ∃ text' q', Cut t text' 0 q' first ∧ text' q' = 0 := by
  obtain ⟨m, cut, -⟩ := cut.split
  let text' := fun i => if i < m then text i else 0
  have stop (i : Nat) (beyond : ¬i < m) : text' i = 0 := if_neg beyond
  obtain ⟨q', ends, cut'⟩ := Cut.move text' (k := 0) (p := 0) cut fun r id len nonzero next inside => by
    rw [Nat.zero_add] at nonzero next inside
    exact nextToken_ends free nonzero next (show len ≤ m - r by omega)
      (fun i small => if_pos (show r + i < m by omega)) (stop (r + (m - r)) (by omega))
  exact ⟨text', q', cut', stop q' (by omega)⟩

theorem Row.back (whole : Row t (first ++ second)) : Row t second ∨ first = [] := by
  obtain ⟨text, q, ids, cut, nul, source⟩ := whole
  have part : (∃ front, ids = front ++ second) ∨ first = [] := by
    rcases source with rfl | ⟨-, same⟩
    · exact .inl ⟨first, rfl⟩
    · cases first with
      | nil => exact .inr rfl
      | cons id front => exact .inl ⟨front, (cons.inj same).2.symm⟩
  rcases part with ⟨front, rfl⟩ | none
  · obtain ⟨text', q', cut', nul'⟩ := cut.back nul
    exact .inl ⟨text', q', second, cut', nul', .inl rfl⟩
  · exact .inr none

theorem Row.front (free : NulFree t) (whole : Row t (first ++ second)) : Row t first := by
  obtain ⟨text, q, ids, cut, nul, source⟩ := whole
  rcases source with rfl | ⟨present, same⟩
  · obtain ⟨text', q', cut', nul'⟩ := cut.front free
    exact ⟨text', q', first, cut', nul', .inl rfl⟩
  · cases first with
    | nil => exact ⟨fun _ => 0, 0, [], .stop 0, rfl, .inl rfl⟩
    | cons id front =>
      obtain ⟨rfl, rfl⟩ := cons.inj same
      obtain ⟨text', q', cut', nul'⟩ := Cut.front free cut
      exact ⟨text', q', front, cut', nul', .inr ⟨present, rfl⟩⟩

end Parts

/-- It is enough that all ids of the tables are in range. -/
theorem encodes_of_tables (bos : t.bosId < t.vocabSize) (eos : t.eosId < t.vocabSize)
    (byte : ∀ c, byteId t c < t.vocabSize) (merge : ∀ m ∈ t.merges, t.InRange m.out) : EncodesInRange t := by
  refine encodes_iff.mpr ⟨eos, fun row final start steps normal => ?_⟩
  have known : ∀ id ∈ row, t.InRange id := by
    obtain ⟨text, q, ids, cut, -, source⟩ := start
    have scanned : ∀ id ∈ ids, t.InRange id := by
      clear source
      generalize 0 = p at cut
      induction cut with
      | stop => simp
      | token _ next _ ih =>
        refine forall_mem_cons.mpr ⟨?_, ih⟩
        rcases nextToken_cases next with special | ⟨rfl, nonneg, -⟩
        · exact special.range
        · exact ⟨nonneg, byte _⟩
    rcases source with rfl | ⟨present, rfl⟩
    · exact scanned
    · exact forall_mem_cons.mpr ⟨⟨present, bos⟩, scanned⟩
  clear start normal
  induction steps with
  | refl => exact known
  | tail _ step ih =>
    obtain ⟨front, left, right, back, rank, pair, rfl, rfl, -⟩ := step
    obtain ⟨m, member, -, -, out⟩ := findRank_some pair
    simp only [forall_mem_append, forall_mem_cons] at ih ⊢
    exact ⟨ih.1, out ▸ merge m member, ih.2.2.2⟩

end Xv6Lab.Llm
