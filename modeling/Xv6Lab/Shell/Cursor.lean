import Xv6Lab.Shell.Utf8

/-!
The moves of the cursor on any bytes, well-formed or not.
-/

namespace Xv6Lab.Shell

section Scans
variable {buf : List UInt8} {pos len stop a b c : Nat}

def Boundary (buf : List UInt8) (len pos : Nat) : Prop :=
  pos = 0 ∨ pos = len ∨ (pos < len ∧ utf8Cont (byte buf pos) = false)

instance (buf : List UInt8) (len pos : Nat) : Decidable (Boundary buf len pos) :=
  inferInstanceAs (Decidable (_ ∨ _))

theorem Boundary.le (boundary : Boundary buf len pos) : pos ≤ len := by
  rcases boundary with rfl | rfl | inside
  · omega
  · omega
  · exact inside.1.le

theorem Boundary.starts (boundary : Boundary buf len pos) (positive : 0 < pos) (inside : pos < len) :
    utf8Cont (byte buf pos) = false := by
  rcases boundary with rfl | rfl | starts
  · omega
  · omega
  · exact starts.2

structure Stops (buf : List UInt8) (pos len stop : Nat) : Prop where
  low : pos ≤ stop
  high : stop ≤ len
  conts : ∀ i, pos ≤ i → i < stop → utf8Cont (byte buf i) = true
  starts : stop < len → utf8Cont (byte buf stop) = false

theorem skipCont_stops (inside : pos ≤ len) : Stops buf pos len (skipCont buf pos len) := by
  fun_induction skipCont buf pos len with
  | case1 pos cont ih =>
    obtain ⟨low, high, conts, starts⟩ := ih cont.1
    refine ⟨by omega, high, ?_, starts⟩
    intro i after before
    rcases Nat.eq_or_lt_of_le after with rfl | later
    · exact cont.2
    · exact conts i later before
  | case2 pos stopped =>
    refine ⟨le_rfl, inside, fun i after before => by omega, ?_⟩
    intro more
    rw [← Bool.not_eq_true]
    exact fun cont => stopped ⟨more, cont⟩

theorem Stops.unique {stop' : Nat} (first : Stops buf pos len stop) (second : Stops buf pos len stop') :
    stop = stop' := by
  rcases Nat.lt_trichotomy stop stop' with less | same | more
  · have cont := second.conts stop first.low less
    rw [first.starts (less.trans_le second.high)] at cont
    cases cont
  · exact same
  · have cont := first.conts stop' second.low more
    rw [second.starts (more.trans_le first.high)] at cont
    cases cont

theorem utf8Next_stops (buf : List UInt8) (inside : pos < len) : Stops buf (pos + 1) len (utf8Next buf pos len) := by
  rw [utf8Next, if_neg (by omega)]
  exact skipCont_stops inside

theorem utf8Next_eq (inside : pos < len) (stops : Stops buf (pos + 1) len stop) :
    utf8Next buf pos len = stop :=
  (utf8Next_stops buf inside).unique stops

theorem backCont_spec (buf : List UInt8) (pos : Nat) : backCont buf pos ≤ pos ∧
    (∀ i, backCont buf pos < i → i ≤ pos → utf8Cont (byte buf i) = true) ∧
    (0 < backCont buf pos → utf8Cont (byte buf (backCont buf pos)) = false) := by
  induction pos with
  | zero => exact ⟨le_rfl, fun i after before => by simp only [backCont] at after; omega, by simp [backCont]⟩
  | succ pos ih =>
    obtain ⟨low, conts, starts⟩ := ih
    rw [backCont]
    split
    · rename_i cont
      refine ⟨by omega, ?_, starts⟩
      intro i after before
      rcases Nat.eq_or_lt_of_le before with rfl | earlier
      · exact cont
      · exact conts i after (by omega)
    · rename_i first
      exact ⟨le_rfl, fun i after before => by omega, fun _ => by simpa using first⟩

theorem utf8Prev_lt (buf : List UInt8) (positive : 0 < pos) : utf8Prev buf pos < pos := by
  have low := (backCont_spec buf (pos - 1)).1
  unfold utf8Prev
  omega

theorem utf8Next_utf8Prev (boundary : Boundary buf len pos) (positive : 0 < pos) :
    utf8Next buf (utf8Prev buf pos) len = pos := by
  have less := utf8Prev_lt buf positive
  have inside := boundary.le
  obtain ⟨-, conts, -⟩ := backCont_spec buf (pos - 1)
  apply utf8Next_eq (by omega)
  exact ⟨less, inside, fun i after before => conts i after (by omega), boundary.starts positive⟩

theorem utf8Prev_utf8Next (boundary : Boundary buf len pos) (inside : pos < len) :
    utf8Prev buf (utf8Next buf pos len) = pos := by
  have stops := utf8Next_stops buf inside
  have low := stops.low
  obtain ⟨below, conts, starts⟩ := backCont_spec buf (utf8Next buf pos len - 1)
  unfold utf8Prev
  rcases Nat.lt_trichotomy (backCont buf (utf8Next buf pos len - 1)) pos with less | same | more
  · have cont := conts pos less (by omega)
    rw [boundary.starts (by omega) inside] at cont
    cases cont
  · exact same
  · have cont := stops.conts _ more (by omega)
    rw [starts (by omega)] at cont
    cases cont

theorem utf8TextWidth_cut (boundary : Boundary buf len b) (before : a ≤ b) (after : b ≤ c)
    (inside : c ≤ len) : utf8TextWidth buf a c = utf8TextWidth buf a b + utf8TextWidth buf b c := by
  fun_induction utf8TextWidth buf a b with
  | case1 a less next ih =>
    have stops := utf8Next_stops buf less
    have same : utf8Next buf a c = next := by
      apply utf8Next_eq (by omega)
      refine ⟨stops.low, stops.high.trans after, stops.conts, ?_⟩
      intro more
      rcases Nat.eq_or_lt_of_le stops.high with last | earlier
      · have ended : next = b := last
        rw [ended] at more ⊢
        exact boundary.starts (by omega) (by omega)
      · exact stops.starts earlier
    rw [utf8TextWidth, dif_pos (by omega)]
    dsimp only
    rw [same, ih stops.high, Nat.add_assoc]
  | case2 a stopped =>
    have same : a = b := by omega
    rw [same, Nat.zero_add]

theorem byte_take (inside : pos < len) : byte (buf.take len) pos = byte buf pos := by
  simp [byte, inside]

theorem skipCont_take (inside : stop ≤ len) :
    skipCont (buf.take len) pos stop = skipCont buf pos stop := by
  fun_induction skipCont buf pos stop with
  | case1 pos cont ih => rw [skipCont, byte_take (by omega), if_pos cont, ih]
  | case2 pos stopped =>
    rw [skipCont, if_neg]
    intro cont
    rw [byte_take (by omega)] at cont
    exact stopped cont

theorem utf8Next_take (inside : stop ≤ len) : utf8Next (buf.take len) pos stop = utf8Next buf pos stop := by
  rw [utf8Next, utf8Next, skipCont_take inside]

theorem backCont_take (inside : pos < len) : backCont (buf.take len) pos = backCont buf pos := by
  induction pos with
  | zero => rfl
  | succ pos ih => rw [backCont, backCont, byte_take inside, ih (by omega)]

theorem utf8Prev_take (inside : pos ≤ len) : utf8Prev (buf.take len) pos = utf8Prev buf pos := by
  rcases Nat.eq_zero_or_pos pos with rfl | positive
  · rfl
  · exact backCont_take (by omega)

theorem utf8Decode_take (less : pos < stop) (inside : stop ≤ len) :
    utf8Decode (buf.take len) pos stop = utf8Decode buf pos stop := by
  have tail : slice (buf.take len) (pos + 1) stop = slice buf (pos + 1) stop := by
    rw [slice, slice, List.drop_take, List.take_take, Nat.min_eq_left (by omega)]
  rw [utf8Decode, utf8Decode, byte_take (by omega), tail]

theorem utf8TextWidth_take (inside : stop ≤ len) :
    utf8TextWidth (buf.take len) pos stop = utf8TextWidth buf pos stop := by
  fun_induction utf8TextWidth buf pos stop with
  | case1 pos less next ih =>
    have stops := utf8Next_stops buf less
    rw [utf8TextWidth, dif_pos less]
    dsimp only
    rw [utf8Next_take inside, ih, utf8Decode_take (lt_utf8Next less) (stops.high.trans inside)]
  | case2 pos stopped => rw [utf8TextWidth, dif_neg stopped]

end Scans

/-- On any bytes the two moves undo each other at the boundaries and widths add up; no loop
leaves the text. -/
theorem cursor_laws (buf : List UInt8) (len : Nat) :
    (∀ pos, Boundary buf len pos → 0 < pos → utf8Next buf (utf8Prev buf pos) len = pos) ∧
    (∀ pos, Boundary buf len pos → pos < len → utf8Prev buf (utf8Next buf pos len) = pos) ∧
    (∀ a b c, Boundary buf len a → Boundary buf len b → Boundary buf len c → a ≤ b → b ≤ c →
      utf8TextWidth buf a c = utf8TextWidth buf a b + utf8TextWidth buf b c) ∧
    (∀ pos ≤ len, pos ≤ utf8Next buf pos len ∧ utf8Next buf pos len ≤ len ∧ utf8Prev buf pos ≤ pos) ∧
    (∀ pos ≤ len, utf8Next (buf.take len) pos len = utf8Next buf pos len ∧
      utf8Prev (buf.take len) pos = utf8Prev buf pos ∧
      ∀ start, utf8TextWidth (buf.take len) start pos = utf8TextWidth buf start pos) ∧
    ∀ r : Char, utf8Decode (String.utf8EncodeChar r) 0 (String.utf8EncodeChar r).length = r.toNat := by
  refine ⟨fun _ => utf8Next_utf8Prev, fun _ => utf8Prev_utf8Next, ?_, ?_, ?_, ?_⟩
  · intro a b c _ boundary last before after
    exact utf8TextWidth_cut boundary before after last.le
  · intro pos inside
    refine ⟨?_, ?_, (backCont_spec buf (pos - 1)).1.trans (by omega)⟩ <;>
      rcases Nat.eq_or_lt_of_le inside with rfl | less
    · simp [utf8Next]
    · exact (lt_utf8Next less).le
    · simp [utf8Next]
    · exact (utf8Next_stops buf less).high
  · intro pos inside
    exact ⟨utf8Next_take le_rfl, utf8Prev_take inside, fun start => utf8TextWidth_take inside⟩
  · intro r
    simpa using utf8Decode_encode [] [] r

theorem cursor_laws_stray :
    Boundary [0x80, 0xC3, 0xA9] 3 1 ∧ utf8Next [0x80, 0xC3, 0xA9] (utf8Prev [0x80, 0xC3, 0xA9] 1) 3 = 1 :=
  ⟨by decide, (cursor_laws [0x80, 0xC3, 0xA9] 3).1 1 (by decide) (by decide)⟩

end Xv6Lab.Shell
