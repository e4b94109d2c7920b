import Xv6Lab.Shell.Line

/-!
The buffer as the text before and after the cursor.
-/

namespace Xv6Lab.Shell

variable {c : Char}

structure Holds (nbuf : Nat) (line : Line) (before after : List Char) : Prop where
  content : ∃ junk, line.buf = encode before ++ (encode after ++ junk)
  cursor : line.cursor = (encode before).length
  len : line.len = (encode before).length + (encode after).length
  room : line.len < nbuf
  size : line.buf.length = nbuf

variable {nbuf : Nat} {line : Line} {before after : List Char}

namespace Holds

theorem split (h : Holds nbuf line before after) :
    ∃ junk, Split nbuf line (encode before) (encode after) junk := by
  obtain ⟨junk, content⟩ := h.content
  exact ⟨junk, content, h.cursor, h.len, h.room, h.size⟩

theorem of_split {junk : List UInt8} (split : Split nbuf line (encode before) (encode after) junk) :
    Holds nbuf line before after :=
  ⟨⟨junk, split.content⟩, split.cursor, split.len, split.room, split.size⟩

section
variable (h : Holds nbuf line before after)
include h

theorem text : slice line.buf 0 line.len = encode (before ++ after) := by
  obtain ⟨junk, split⟩ := h.split
  rw [split.text, encode_append]

theorem rest : slice line.buf line.cursor line.len = encode after := by
  obtain ⟨junk, split⟩ := h.split
  exact split.rest

theorem tail_width : utf8TextWidth line.buf line.cursor line.len = width after := by
  obtain ⟨junk, content⟩ := h.content
  rw [content, h.len, h.cursor]
  exact utf8TextWidth_encode ..

theorem head_width : utf8TextWidth line.buf 0 line.cursor = width before := by
  obtain ⟨junk, content⟩ := h.content
  have measured := utf8TextWidth_encode [] (encode after ++ junk) before
  rw [content, h.cursor]
  simpa using measured

end

theorem next_nil (h : Holds nbuf line before []) :
    utf8Next line.buf line.cursor line.len = line.cursor := by
  have same : line.len = line.cursor := by simp [h.len, h.cursor]
  rw [utf8Next, if_pos same.le, same]

theorem next_cons (h : Holds nbuf line before (c :: after)) :
    utf8Next line.buf line.cursor line.len = (encode (before ++ [c])).length := by
  obtain ⟨junk, content⟩ := h.content
  rw [content, h.cursor, h.len, utf8Next_encode]
  simp

theorem moveRight (h : Holds nbuf line before (c :: after)) :
    Holds nbuf { line with cursor := (encode (before ++ [c])).length } (before ++ [c]) after := by
  obtain ⟨junk, split⟩ := h.split
  exact of_split (split.move (by simp))

theorem prev_nil (h : Holds nbuf line [] after) : utf8Prev line.buf line.cursor = line.cursor := by
  rw [h.cursor]
  rfl

section
variable (h : Holds nbuf line (before ++ [c]) after)
include h

theorem prev_append : utf8Prev line.buf line.cursor = (encode before).length := by
  obtain ⟨junk, content⟩ := h.content
  have found := utf8Prev_encode (encode before) (encode after ++ junk) c
  rw [content, h.cursor]
  simpa using found

theorem moveLeft :
    Holds nbuf { line with cursor := (encode before).length } before (c :: after) := by
  obtain ⟨junk, split⟩ := h.split
  exact of_split (split.move (by simp))

theorem prev_width : utf8TextWidth line.buf (encode before).length line.cursor = width [c] := by
  obtain ⟨junk, content⟩ := h.content
  have measured := utf8TextWidth_encode (encode before) (encode after ++ junk) [c]
  rw [content, h.cursor]
  simpa using measured

end

theorem next_width (h : Holds nbuf line before (c :: after)) :
    utf8TextWidth line.buf line.cursor (encode (before ++ [c])).length = width [c] := by
  have moved := h.moveRight.prev_width
  rw [h.cursor]
  exact moved

theorem insert (h : Holds nbuf line before after) (text : List Char)
    (fits : line.len + (encode text).length < nbuf) :
    ∃ next, insertBytes nbuf line (encode text) = (next, (encode text).length) ∧
      Holds nbuf next (before ++ text) after := by
  obtain ⟨junk, split⟩ := h.split
  obtain ⟨next, z, inserted, split'⟩ := split.insert (encode text) fits
  rw [← encode_append] at split'
  exact ⟨next, inserted, of_split split'⟩

theorem deleteRange (h : Holds nbuf line before after) (first gone last : List Char)
    {start stop : Nat} (whole : before ++ after = first ++ (gone ++ last))
    (starts : start = (encode first).length) (stops : stop = (encode (first ++ gone)).length)
    (cursor : Nat) (here : cursor = (encode first).length) :
    Holds nbuf { Shell.deleteRange line start stop with cursor } first last := by
  obtain ⟨junk, split⟩ := h.split
  have bytes := congrArg encode whole
  simp only [encode_append] at bytes stops
  obtain ⟨y, split'⟩ := split.deleteRange _ _ _ bytes starts stops cursor here
  exact of_split split'

theorem delete (h : Holds nbuf line before (c :: after)) :
    Holds nbuf (Shell.deleteRange line line.cursor (utf8Next line.buf line.cursor line.len))
      before after := by
  have deleted := h.deleteRange before [c] after rfl h.cursor h.next_cons line.cursor h.cursor
  have short := deleted.len
  have kept : (Shell.deleteRange line line.cursor (utf8Next line.buf line.cursor line.len)).cursor =
      line.cursor := by
    have cursor := h.cursor
    simp only [Shell.deleteRange] at short ⊢
    rw [if_neg (by omega)]
  exact ⟨deleted.content, kept.trans h.cursor, deleted.len, deleted.room, deleted.size⟩

theorem erase (h : Holds nbuf line (before ++ [c]) after) : Holds nbuf
      { Shell.deleteRange line (encode before).length line.cursor with cursor := (encode before).length }
      before after :=
  h.deleteRange before [c] after (by simp) rfl h.cursor _ rfl

theorem setLine (h : Holds nbuf line before after) {text : List Char}
    (size : strlen (encode text) = (encode text).length) (fits : (encode text).length < nbuf) :
    Holds nbuf (Shell.setLine nbuf line (encode text)) text [] := by
  obtain ⟨junk, split⟩ := h.split
  obtain ⟨z, split'⟩ := split.setLine size fits
  exact of_split split'

theorem kill (h : Holds nbuf line before after) : Holds nbuf ⟨line.buf.set 0 0, 0, 0⟩ [] [] := by
  obtain ⟨junk, split⟩ := h.split
  obtain ⟨z, split'⟩ := split.kill
  exact of_split split'

end Holds

def Printable (c : Char) : Prop := 0x20 ≤ c.toNat ∧ c.toNat ≠ 0x7F

instance (c : Char) : Decidable (Printable c) := inferInstanceAs (Decidable (_ ∧ _))

theorem rune_first (printable : Printable c) {lead : UInt8} {conts : List UInt8}
    (rune : IsRune c.toNat lead conts) {key : UInt8} (ascii : key < 0x80)
    (special : key.toNat < 0x20 ∨ key.toNat = 0x7F) : lead ≠ key := by
  rintro rfl
  have input := rune.input
  rw [utf8InputLen, if_pos ascii] at input
  have alone : conts = [] := List.eq_nil_of_length_eq_zero (by omega)
  have value : lead.toNat = c.toNat := by
    have decode := rune.decode
    rw [alone] at decode
    exact decode
  obtain ⟨low, del⟩ := printable
  omega

theorem encode_ne_control {text : List Char} (printable : ∀ c ∈ text, Printable c) {key : UInt8}
    (ascii : key < 0x80) (special : key.toNat < 0x20 ∨ key.toNat = 0x7F)
    (single : utf8Cont key = false) : ∀ b ∈ encode text, b ≠ key := by
  intro b member
  obtain ⟨c, inside, here⟩ := List.mem_flatMap.mp member
  obtain ⟨lead, conts, bytes, rune⟩ := isRune_encode c
  rw [bytes] at here
  rcases List.mem_cons.mp here with rfl | later
  · exact rune_first (printable c inside) rune ascii special
  · rintro rfl
    exact absurd (rune.continues b later) (by simp [single])

theorem strlen_encode {text : List Char} (printable : ∀ c ∈ text, Printable c) :
    strlen (encode text) = (encode text).length := by
  rw [strlen, List.takeWhile_eq_self_iff.mpr]
  intro b member
  simpa using @encode_ne_control text printable 0 (by decide) (by decide) (by decide) b member

end Xv6Lab.Shell
