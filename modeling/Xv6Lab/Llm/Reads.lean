import Xv6Lab.Llm.Encode
import Xv6Lab.Llm.TokenizerFile

/-!
Which bytes of the text the scan of llm_encode reads. starts_with compares a piece by
its length, so that a special piece with a NUL inside matches beyond the end of the
text.
-/

namespace Xv6Lab.Llm
open List
variable {id : Int} {piece : List UInt8} {n : Nat}

section Reads
variable (t : Tokenizer) (text : Nat → UInt8)

def startsReads : Nat → List UInt8 → List Nat
  | _, [] => []
  | s, c :: rest => s :: if text s ≠ c then [] else startsReads (s + 1) rest

/-- Those of the loop over special_ids. -/
def specialReads (p : Nat) : List Int → Int × Nat → List Nat
  | [], _ => []
  | id :: rest, best =>
    if id < 0 ∨ id ≥ t.vocabSize then specialReads p rest best
    else
      let len := (t.piece id).length
      if len > best.2 ∧ len > 0 then
        startsReads text p (t.piece id) ++
          specialReads p rest (if startsWith text p (t.piece id) then (id, len) else best)
      else specialReads p rest best

/-- Those of the loop over the text. The bound on n is checked after the special ids. -/
def scanReads : Nat → Nat → List Nat
  | room, p =>
    p :: if text p = 0 then []
      else specialReads t text p t.specialIds (-1, 0) ++
        match room with
        | 0 => []
        | room + 1 =>
          match nextToken t text p with
          | none => []
          | some (_, len) => scanReads room (p + len)

def scanTaken : Nat → Nat → List Nat
  | room, p =>
    if text p = 0 then []
    else
      match room with
      | 0 => []
      | room + 1 =>
        match nextToken t text p with
        | none => []
        | some (_, len) => List.range' p len ++ scanTaken room (p + len)

end Reads

/-- The scan of a text of len bytes reads nothing behind the NUL, takes the bytes one after the
other, and stores no more tokens than there are bytes. -/
structure ScansInside (t : Tokenizer) (text : Nat → UInt8) (len : Nat) : Prop where
  reads : ∀ room, ∀ i ∈ scanReads t text room 0, i ≤ len
  taken : ∀ room, scanTaken t text room 0 <+: List.range len
  all : ∀ room b b', scan t text room 0 b = .ok b' → scanTaken t text room 0 = List.range len
  stored : ∀ room b b', scan t text room 0 b = .ok b' ∨ scan t text room 0 b = .error b' →
    b'.n ≤ b.n + len
  enough : ∀ room b b', len ≤ room → scan t text room 0 b = .error b' →
    ∃ p < len, nextToken t text p = none

/-- A special piece that can match has no NUL. -/
def NulFree (t : Tokenizer) : Prop :=
  ∀ id ∈ t.specialIds, t.InRange id → (t.piece id).head? ≠ some 0 → 0 ∉ t.piece id

section Inside
variable {t : Tokenizer} {text : Nat → UInt8} {len p : Nat}

theorem startsReads_le (terminated : Terminated text len) (free : 0 ∉ piece)
    (inside : p ≤ len) : ∀ i ∈ startsReads text p piece, i ≤ len := by
  induction piece generalizing p with
  | nil => intro i member; cases member
  | cons c rest ih =>
    rw [mem_cons, not_or] at free
    intro i member
    rcases mem_cons.mp member with rfl | member
    · exact inside
    · split at member
      · cases member
      · rename_i same
        have more : p ≠ len := by
          rintro rfl
          exact same fun nul => free.1 (terminated.nul.symm.trans nul)
        exact ih free.2 (by omega) i member

theorem pieceReads_le (terminated : Terminated text len) (inside : p < len)
    (free : piece.head? ≠ some 0 → 0 ∉ piece) : ∀ i ∈ startsReads text p piece, i ≤ len := by
  by_cases nul : piece.head? = some 0
  · obtain ⟨rest, rfl⟩ := head?_eq_some_iff.mp nul
    intro i member
    rw [startsReads, if_pos (terminated.before p inside)] at member
    rw [mem_singleton.mp member]
    exact inside.le
  · exact startsReads_le terminated (free nul) inside.le

theorem specialReads_le (free : NulFree t) (terminated : Terminated text len) (inside : p < len)
    (ids : List Int) (best : Int × Nat) (listed : ∀ id ∈ ids, id ∈ t.specialIds) :
    ∀ i ∈ specialReads t text p ids best, i ≤ len := by
  induction ids generalizing best with
  | nil => intro i member; cases member
  | cons id rest ih =>
    rw [forall_mem_cons] at listed
    rw [specialReads]
    split
    · exact ih best listed.2
    · rename_i range
      dsimp only
      split
      · intro i member
        rcases mem_append.mp member with here | later
        · exact pieceReads_le terminated inside (free id listed.1 ⟨by omega, by omega⟩) i here
        · exact ih _ listed.2 i later
      · exact ih best listed.2

theorem window_mem {i : Nat} (low : p ≤ i) (high : i < p + n) : text i ∈ window text p n := by
  rw [window, mem_map]
  exact ⟨i - p, mem_range.mpr (by omega), by rw [Nat.add_sub_cancel' low]⟩

theorem nextToken_inside (free : NulFree t) (terminated : Terminated text len) (inside : p < len)
    (next : nextToken t text p = some (id, n)) : 0 < n ∧ p + n ≤ len := by
  rcases nextToken_cases next with special | ⟨-, -, rfl, -⟩
  · refine ⟨special.some_bytes, ?_⟩
    by_contra beyond
    have nul : (0 : UInt8) ∈ t.piece id := by
      rw [← special.spelled, ← terminated.nul]
      exact window_mem inside.le (by dsimp only; omega)
    refine free id special.listed special.range ?_ nul
    obtain ⟨k, more⟩ := Nat.exists_eq_succ_of_ne_zero special.some_bytes.ne'
    rw [← special.spelled, more, window_succ]
    simpa using terminated.before p inside
  · omega

theorem scan_inside (free : NulFree t) (terminated : Terminated text len) (room : Nat) :
    ∀ p ≤ len, (∀ i ∈ scanReads t text room p, i ≤ len) ∧
      scanTaken t text room p <+: List.range' p (len - p) ∧
      ∀ b b', (scan t text room p b = .ok b' → scanTaken t text room p = List.range' p (len - p)) ∧
        (scan t text room p b = .ok b' ∨ scan t text room p b = .error b' → b'.n ≤ b.n + (len - p)) ∧
        (len - p ≤ room → scan t text room p b = .error b' → ∃ q < len, nextToken t text q = none) := by
  induction room with
  | zero =>
    intro p inside
    rcases Nat.eq_or_lt_of_le inside with rfl | less
    · simp [scanReads, scanTaken, scan, terminated.nul]
    · have special := specialReads_le free terminated less t.specialIds (-1, 0) fun _ member => member
      have nonzero := terminated.before p less
      refine ⟨?_, by simp [scanTaken], ?_⟩
      · simpa [scanReads, nonzero, inside] using special
      · intro b b'
        rw [scan, if_neg nonzero]
        refine ⟨fun ok => (by cases ok), ?_, fun enough => by omega⟩
        rintro (ok | failed)
        · cases ok
        · cases failed
          omega
  | succ room ih =>
    intro p inside
    rcases Nat.eq_or_lt_of_le inside with rfl | less
    · simp [scanReads, scanTaken, scan, terminated.nul]
    · have special := specialReads_le free terminated less t.specialIds (-1, 0) fun _ member => member
      have nonzero := terminated.before p less
      rw [scanReads, scanTaken, if_neg nonzero, if_neg nonzero]
      simp only [scan, if_neg nonzero]
      cases next : nextToken t text p with
      | none =>
        refine ⟨by simpa [inside] using special, by simp, ?_⟩
        intro b b'
        refine ⟨fun ok => (by cases ok), ?_, fun _ _ => ⟨p, less, next⟩⟩
        rintro (ok | failed)
        · cases ok
        · cases failed
          omega
      | some token =>
        obtain ⟨id, n⟩ := token
        obtain ⟨some_bytes, ends⟩ := nextToken_inside free terminated less next
        obtain ⟨reads, taken, steps⟩ := ih (p + n) ends
        have cut : List.range' p n ++ List.range' (p + n) (len - (p + n)) = List.range' p (len - p) := by
          rw [List.range'_append_1]
          congr 1
          omega
        refine ⟨?_, ?_, ?_⟩
        · intro i member
          rcases mem_cons.mp member with rfl | member
          · exact inside
          · rcases mem_append.mp member with here | later
            · exact special i here
            · exact reads i later
        · dsimp only
          rw [← cut]
          exact prefix_append_right_inj _ |>.mpr taken
        · intro b b'
          obtain ⟨all, stored, enough⟩ := steps (b.push id) b'
          refine ⟨fun ok => by rw [← cut, ← all ok], ?_, fun room => enough (by omega)⟩
          intro result
          have bound := stored result
          rw [push_n] at bound
          omega

theorem NulFree.scansInside (free : NulFree t) (terminated : Terminated text len) :
    ScansInside t text len := by
  have start (room : Nat) := scan_inside free terminated room 0 (Nat.zero_le len)
  simp only [Nat.sub_zero, ← range_eq_range'] at start
  exact {
    reads := fun room => (start room).1
    taken := fun room => (start room).2.1
    all := fun room b b' => ((start room).2.2 b b').1
    stored := fun room b b' => ((start room).2.2 b b').2.1
    enough := fun room b b' => ((start room).2.2 b b').2.2 }

end Inside

section Beyond
variable {t : Tokenizer} {text : Nat → UInt8}

theorem startsWith_self (piece : List UInt8) (p : Nat)
    (same : ∀ i < piece.length, text (p + i) = piece.getD i 0) : startsWith text p piece = true := by
  induction piece generalizing p with
  | nil => rfl
  | cons c rest ih =>
    rw [startsWith, if_neg (by simpa using same 0 (by simp))]
    apply ih
    intro i small
    have later := same (i + 1) (by simpa using small)
    rw [Nat.add_assoc, Nat.add_comm 1 i]
    simpa using later

theorem findSpecial_ge {p : Nat} {ids : List Int} (best : Int × Nat) (member : id ∈ ids)
    (range : t.InRange id) (starts : startsWith text p (t.piece id) = true) :
    (t.piece id).length ≤ (findSpecial t text p ids best).2 := by
  induction ids generalizing best with
  | nil => cases member
  | cons first rest ih =>
    rw [findSpecial]
    rcases mem_cons.mp member with rfl | member
    · rw [if_neg (by have := range.1; have := range.2; omega)]
      dsimp only
      split
      · exact findSpecial_len_le p rest (id, (t.piece id).length)
      · rename_i shorter
        have kept := @findSpecial_len_le t text p rest best
        by_contra longer
        exact shorter ⟨by omega, by omega, starts⟩
    · split
      · exact ih best member
      · dsimp only
        split <;> exact ih _ member

theorem nextToken_ge {p : Nat} (member : id ∈ t.specialIds) (range : t.InRange id)
    (starts : startsWith text p (t.piece id) = true) (some_bytes : 0 < (t.piece id).length) :
    ∃ other n, nextToken t text p = some (other, n) ∧ (t.piece id).length ≤ n := by
  have long := findSpecial_ge (-1, 0) member range starts
  have spec := @findSpecial_spec t text p t.specialIds (-1, 0) (fun _ member => member)
    (.inl rfl)
  unfold nextToken
  generalize findSpecial t text p t.specialIds (-1, 0) = best at long spec
  rcases spec with none | special
  · simp only [none] at long
    omega
  · exact ⟨best.1, best.2, if_pos special.range.1, long⟩

theorem nulFree_of_scansInside (safe : ∀ text len, Terminated text len → ScansInside t text len) :
    NulFree t := by
  intro id member range starts nul
  obtain ⟨front, back, pieces, free⟩ := eq_append_cons_of_mem nul
  have length : (t.piece id).length = front.length + (back.length + 1) := by simp [pieces]
  have terminated : Terminated (fun i => (t.piece id).getD i 0) front.length := by
    refine ⟨by simp [pieces], ?_⟩
    intro i small zero
    apply free
    rw [← zero, pieces]
    simp [getElem?_append_left, small]
  have nonzero : (t.piece id).getD 0 0 ≠ 0 := by
    cases front with
    | nil => simp [pieces] at starts
    | cons c front => exact terminated.before 0 (by simp)
  obtain ⟨other, n, next, long⟩ := nextToken_ge member range
    (@startsWith_self (fun i => (t.piece id).getD i 0) (t.piece id) 0 (by simp)) (by omega)
  have inside := (safe _ _ terminated).reads 1 n
  rw [scanReads, if_neg nonzero, next] at inside
  have first : n ∈ scanReads t (fun i => (t.piece id).getD i 0) 0 (0 + n) := by
    rw [scanReads, Nat.zero_add]
    exact mem_cons_self
  have bound := inside (mem_cons_of_mem _ (mem_append_right _ first))
  omega

end Beyond

/-- The scan stays inside every text just when no special piece that can match has a NUL. -/
theorem loaded_scans_inside (granted : List Nat → Bool) (path : String) (file : Option (List UInt8)) :
    match llmTokenizerLoad granted path file with
    | .ok t => (∀ text len, Terminated text len → ScansInside t text len) ↔ NulFree t
    | .error _ => True := by
  cases llmTokenizerLoad granted path file with
  | error _ => trivial
  | ok t => exact ⟨nulFree_of_scansInside, fun free _ _ => free.scansInside⟩

def nulPiece : Tokenizer where
  pieces := [[97, 0]]
  initialIds := fun _ => 0
  specialIds := [0]
  merges := []
  maxPieceLen := 2
  bosId := -1
  eosId := -1
  unkId := -1

theorem nul_piece_overread :
    ∃ t b, llmTokenizerLoad (fun _ => true) "nul.ltok" (some nulPiece.file) = .ok t ∧
      Terminated (fun i => if i = 1 ∨ 2 < i then 0 else 97) 1 ∧
      2 ∈ scanReads t (fun i => if i = 1 ∨ 2 < i then 0 else 97) 9 0 ∧
      llmEncode t (fun i => if i = 1 ∨ 2 < i then 0 else 97) true false (fun _ => 0) 9 = .ok b ∧
      b.ids.length = 2 :=
  ⟨nulPiece, ((empty.push 0).push 0), load_of_data (by decide +kernel),
    ⟨rfl, fun i small => by simp [Nat.lt_one_iff.mp small]⟩, by decide, rfl, rfl⟩

end Xv6Lab.Llm
