import Mathlib.Data.List.TakeWhile
import Xv6Lab.Llm.Encode

/-!
For a consistent tokenizer, the pieces of the encoded text spell the text.
-/

namespace Xv6Lab.Llm
open List
variable {bytes : List UInt8}

/-- The tables agree with the pieces: a byte has its own token, a merge joins the
pieces of its pair, and no special piece has a NUL. -/
structure Consistent (t : Tokenizer) : Prop where
  byte : ∀ c ≠ 0, t.InRange (t.initialIds c) ∧ t.piece (t.initialIds c) = [c]
  merge : ∀ m ∈ t.merges, t.InRange m.left ∧ t.InRange m.right ∧ t.InRange m.out ∧
    t.piece m.out = t.piece m.left ++ t.piece m.right
  special : ∀ id ∈ t.specialIds, t.InRange id → 0 ∉ t.piece id

def Printable (t : Tokenizer) (id : Int) : Prop := t.InRange id ∧ 0 ∉ t.piece id

structure Spells (t : Tokenizer) (bytes : List UInt8) (ids : List Int) : Prop where
  printable : ∀ id ∈ ids, Printable t id
  spelled : ids.flatMap t.piece = bytes

variable {t : Tokenizer} {text : Nat → UInt8} {len : Nat}

theorem cstring_of_printable {id : Int} (printable : Printable t id) :
    llmDecodePiece t id = some (t.piece id) := by
  obtain ⟨⟨low, high⟩, nul⟩ := printable
  rw [llmDecodePiece, if_neg (by omega), cstring, takeWhile_eq_self_iff.mpr]
  intro c member
  have nonzero : c ≠ 0 := by
    rintro rfl
    exact nul member
  simpa using nonzero

theorem Spells.append {first second : List UInt8} {left right : List Int} (one : Spells t first left)
    (two : Spells t second right) : Spells t (first ++ second) (left ++ right) := by
  refine ⟨?_, by rw [flatMap_append, one.spelled, two.spelled]⟩
  intro id member
  rcases mem_append.mp member with member | member
  · exact one.printable id member
  · exact two.printable id member

theorem Spells.decoded {ids : List Int} (spells : Spells t bytes ids) :
    ∃ pieces, ids.mapM (llmDecodePiece t) = some pieces ∧ pieces.flatten = bytes := by
  refine ⟨ids.map t.piece, ?_, by rw [← spells.spelled, flatMap_def]⟩
  have each := spells.printable
  clear spells
  induction ids with
  | nil => rfl
  | cons id rest ih =>
    have first := cstring_of_printable (each id (by simp))
    have later := ih fun id member => each id (by simp [member])
    simp [first, later]

section
variable (consistent : Consistent t)
include consistent

theorem Spells.rewrite {before after : List Int} (step : Rewrites t.merges before after)
    (spells : Spells t bytes before) : Spells t bytes after := by
  obtain ⟨front, left, right, back, rank, pair, rfl, rfl⟩ := step
  obtain ⟨m, member, rfl, rfl, out⟩ := findRank_some pair
  obtain ⟨-, -, range, joined⟩ := consistent.merge m member
  rw [out]
  refine ⟨?_, ?_⟩
  · intro id inside
    rcases mem_append.mp inside with inside | inside
    · exact spells.printable id (by simp [inside])
    · rcases mem_cons.mp inside with rfl | inside
      · have left := spells.printable m.left (by simp)
        have right := spells.printable m.right (by simp)
        refine ⟨range, ?_⟩
        rw [joined, mem_append]
        exact not_or.mpr ⟨left.2, right.2⟩
      · exact spells.printable id (by simp [inside])
  · rw [← spells.spelled]
    simp [joined]

theorem nextToken_spells (terminated : Terminated text len) {p : Nat} (inside : p < len) :
    ∃ id k, nextToken t text p = some (id, k) ∧ 0 < k ∧ p + k ≤ len ∧ Spells t (window text p k) [id] := by
  have nonzero := terminated.before p inside
  obtain ⟨range, piece⟩ := consistent.byte (text p) nonzero
  have byte : byteId t (text p) = t.initialIds (text p) := if_neg (by have := range.1; omega)
  have some_token : ∃ id k, nextToken t text p = some (id, k) := by
    unfold nextToken
    dsimp only
    split
    · exact ⟨_, _, rfl⟩
    · rw [if_neg (by rw [byte]; have := range.1; omega)]
      exact ⟨_, _, rfl⟩
  obtain ⟨id, k, next⟩ := some_token
  refine ⟨id, k, next, ?_⟩
  rcases nextToken_cases next with special | ⟨rfl, -, rfl, -⟩
  · have nul := consistent.special id special.listed special.range
    refine ⟨special.some_bytes, ?_, ?_, ?_⟩
    · -- a piece that reached the NUL would contain it
      by_contra long
      apply nul
      rw [← special.spelled, window, mem_map]
      refine ⟨len - p, mem_range.mpr (by dsimp only; omega), ?_⟩
      rw [show p + (len - p) = len by omega]
      exact terminated.nul
    · intro other member
      rw [mem_singleton] at member
      subst member
      exact ⟨special.range, nul⟩
    · simpa using special.spelled.symm
  · refine ⟨Nat.one_pos, by omega, ?_, ?_⟩
    · intro other member
      rw [mem_singleton] at member
      subst member
      rw [byte]
      refine ⟨range, ?_⟩
      rw [piece, mem_singleton]
      exact fun zero => nonzero zero.symm
    · rw [byte]
      simp [window, piece]

theorem scan_spells (terminated : Terminated text len) (room p : Nat)
    (b : Buffer) (inside : p ≤ len) (enough : len - p ≤ room) :
    ∃ b' ids, scan t text room p b = .ok b' ∧ b'.ids = b.ids ++ ids ∧
      Spells t (window text p (len - p)) ids ∧ b'.n ≤ b.n + (len - p) ∧
      ∀ j ∈ b'.stored, j ∈ b.stored ∨ j < b'.n := by
  induction room generalizing p b with
  | zero =>
    have last : p = len := by omega
    refine ⟨b, [], ?_, by simp, ?_, by omega, fun j member => .inl member⟩
    · rw [scan, if_pos (by rw [last]; exact terminated.nul)]
    · rw [last, Nat.sub_self]
      exact ⟨by simp, rfl⟩
  | succ room ih =>
    rw [scan]
    by_cases last : p = len
    · refine ⟨b, [], ?_, by simp, ?_, by omega, fun j member => .inl member⟩
      · rw [if_pos (by rw [last]; exact terminated.nul)]
      · rw [last, Nat.sub_self]
        exact ⟨by simp, rfl⟩
    · rw [if_neg (terminated.before p (by omega))]
      obtain ⟨id, k, next, positive, bound, first⟩ :=
        nextToken_spells consistent terminated (p := p) (by omega)
      obtain ⟨b', ids, scanned, row, spells, few, stored⟩ := ih (p + k) (b.push id) bound (by omega)
      refine ⟨b', id :: ids, by simp only [next, scanned], ?_, ?_, ?_, ?_⟩
      · rw [row, push_ids, append_assoc, singleton_append]
      · have cut : len - p = k + (len - (p + k)) := by omega
        rw [cut, window_append]
        exact first.append spells
      · rw [push_n] at few
        omega
      · intro j member
        rcases stored j member with old | small
        · rw [push_stored, mem_cons] at old
          rcases old with rfl | old
          · have grown := congrArg List.length row
            simp only [ids_length, push_ids, length_append, length_singleton] at grown
            exact .inr (by omega)
          · exact .inl old
        · exact .inr small

end

theorem encode_round_trip (t : Tokenizer) (consistent : Consistent t) (text : Nat → UInt8) (len : Nat)
    (terminated : Terminated text len) (tokens : Nat → Int) (maxTokens : Int)
    (room : len ≤ maxTokens) :
    ∃ b pieces, llmEncode t text false false tokens maxTokens = .ok b ∧
      b.ids.mapM (llmDecodePiece t) = some pieces ∧ pieces.flatten = window text 0 len ∧
      Normal t.merges b.ids ∧ ∀ i ∈ b.stored, (i : Int) < maxTokens := by
  obtain ⟨b, ids, scanned, row, spells, few, stored⟩ := scan_spells consistent terminated
    (maxTokens - 0).toNat 0 ⟨tokens, 0, []⟩ (Nat.zero_le _) (by omega)
  obtain ⟨merged, normal, -, merged_stored⟩ := @mergeLoop_spec t.merges b b.n (Nat.le_refl b.n)
  have whole : Spells t (window text 0 len) b.ids := by
    rw [row]
    exact spells
  have kept := rewrites_invariant (fun _ _ => Spells.rewrite consistent) merged whole
  obtain ⟨pieces, decoded, spelled⟩ := kept.decoded
  refine ⟨mergeLoop t.merges b.n b, pieces, ?_, decoded, spelled, normal, ?_⟩
  · simp only [llmEncode, addId, Bool.false_eq_true, false_and, if_false, bind, Except.bind]
    have start : scan t text (maxTokens - (0 : Nat)).toNat 0 ⟨tokens, 0, []⟩ = .ok b := by
      simpa using scanned
    rw [start]
  · intro i member
    dsimp only at few
    rcases merged_stored i member with old | small
    · rcases stored i old with impossible | small
      · cases impossible
      · omega
    · omega

def bytesAndAb : Tokenizer where
  pieces := (List.range 256).map (fun c => [UInt8.ofNat c]) ++ [[97, 98]]
  initialIds := fun c => c.toNat
  specialIds := []
  merges := [⟨97, 98, 256⟩]
  maxPieceLen := 2
  bosId := -1
  eosId := -1
  unkId := -1

theorem bytesAndAb_vocabSize : bytesAndAb.vocabSize = 257 := by
  simp [bytesAndAb, Tokenizer.vocabSize]

theorem bytesAndAb_piece (c : UInt8) : bytesAndAb.piece c.toNat = [c] := by
  have small := c.toNat_lt
  simp [Tokenizer.piece, bytesAndAb, List.getD, getElem?_append_left, small]

theorem bytesAndAb_consistent : Consistent bytesAndAb where
  byte := by
    intro c _
    have small := c.toNat_lt
    refine ⟨⟨by simp [bytesAndAb], ?_⟩, bytesAndAb_piece c⟩
    rw [bytesAndAb_vocabSize]
    simp only [bytesAndAb]
    omega
  merge := by
    intro m member
    have only : m = ⟨97, 98, 256⟩ := by simpa [bytesAndAb] using member
    subst only
    have left := bytesAndAb_piece 97
    have right := bytesAndAb_piece 98
    simp only [Tokenizer.InRange, bytesAndAb_vocabSize]
    refine ⟨by decide, by decide, by decide, ?_⟩
    change bytesAndAb.piece 97 = [97] at left
    change bytesAndAb.piece 98 = [98] at right
    rw [left, right]
    rfl
  special := by
    intro id member
    cases member

def ab (i : Nat) : UInt8 := [97, 98].getD i 0

theorem encode_round_trip_ab :
    Consistent bytesAndAb ∧ Terminated ab 2 ∧
    ∃ b pieces, llmEncode bytesAndAb ab false false (fun _ => 0) 2 = .ok b ∧
      b.ids.mapM (llmDecodePiece bytesAndAb) = some pieces ∧ pieces.flatten = window ab 0 2 ∧
      Normal bytesAndAb.merges b.ids ∧ ∀ i ∈ b.stored, (i : Int) < 2 :=
  have terminated : Terminated ab 2 := ⟨rfl, by decide⟩
  ⟨bytesAndAb_consistent, terminated,
    encode_round_trip bytesAndAb bytesAndAb_consistent ab 2 terminated (fun _ => 0) 2 (by decide)⟩

end Xv6Lab.Llm
