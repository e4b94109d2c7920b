import Xv6Lab.Shell.Complete
import Xv6Lab.Shell.Text

/-!
The line editor and UTF-8. A stream of whole characters keeps the line one of whole
characters, as long as no escape sequence ends inside a character.
-/

namespace Xv6Lab.Shell
open List
open Fs (DIRSIZ)
variable {b c : UInt8} {a input : List UInt8}

def IsText (bytes : List UInt8) : Prop := ∃ text : List Char, bytes = encode text

def rightKey : List UInt8 := [ESC, bracket, 0x43]

def leftKey : List UInt8 := [ESC, bracket, 0x44]

def deleteKey : List UInt8 := [ESC, bracket, 0x33, 0x7E]

def Line.Text (line : Line) : Prop := ∃ before after, Holds LINE line before after

/-- Each of the four keys moves over, or removes, the one character on its side of the cursor,
if there is one. -/
structure Moves (s : Getcmd) : Prop where
  left : ∀ {t before after rest}, s.input = leftKey ++ rest → turn LINE s = .again t →
    Holds LINE s.line before after → Holds LINE t.line before.dropLast (before.getLast?.toList ++ after)
  right : ∀ {t before after rest}, s.input = rightKey ++ rest → turn LINE s = .again t →
    Holds LINE s.line before after → Holds LINE t.line (before ++ after.head?.toList) after.tail
  backspace : ∀ {t before after c rest}, s.input = c :: rest → c = ctrl 0x48 ∨ c = 0x7F →
    turn LINE s = .again t → Holds LINE s.line before after → Holds LINE t.line before.dropLast after
  delete : ∀ {t before after rest}, s.input = deleteKey ++ rest → turn LINE s = .again t →
    Holds LINE s.line before after → Holds LINE t.line before after.tail

def sequenceLen (input : List UInt8) : Nat := if input.take 2 = [bracket, 0x33] then 3 else 2

def Getcmd.Whole (s : Getcmd) : Prop :=
  s.line.len + 1 < LINE → ∀ input, s.input = ESC :: input →
    ∀ b, input[sequenceLen input]? = some b → utf8Cont b = false

/-- The token has length -1, and the suffix starts with the byte before match, whatever it is. -/
def ReadsBefore (line : Line) (dir : Option (List Dirent)) (offer : List UInt8) : Prop :=
  ∃ token entries name before, findToken line = some token ∧ token.len < 0 ∧ dir = some entries ∧
    matching token line.buf entries = [name] ∧ offer = (before :: name).takeWhile (· ≠ 0)

/-- What a tab inserts is what complete_token finds among file names that are texts. -/
def Getcmd.Offered (s : Getcmd) : Prop :=
  ∀ input, s.input = TAB :: input → ∃ dir : Option (List Dirent),
    (∀ entries, dir = some entries → ∀ de ∈ entries, IsText (direntname de)) ∧
    (completeToken LINE s.line dir = some (insertBytes LINE s.line (s.offers.headD [])) ∨
      ReadsBefore s.line dir (s.offers.headD []))

/-- If a tab on a quote that starts a token inserts something, its first byte is ASCII. -/
def Getcmd.Ascii (s : Getcmd) : Prop :=
  OnOpeningQuote s.line → ∀ input b name, s.input = TAB :: input → s.offers.headD [] = b :: name →
    s.line.len + (b :: name).length < LINE → b < 0x80

section Bytes

theorem forall_byte {P : UInt8 → Prop} (all : ∀ n < 256, P (UInt8.ofNat n)) (b : UInt8) : P b := by
  have found := all b.toNat b.toNat_lt
  rwa [UInt8.ofNat_toNat] at found

theorem utf8Cont_ascii (ascii : b < 0x80) : utf8Cont b = false :=
  forall_byte (P := fun b => b < 0x80 → utf8Cont b = false) (by decide +kernel) b ascii

theorem utf8Cont_lead (cont : utf8Cont b = true) : 0x80 ≤ b ∧ utf8InputLen b = 1 :=
  forall_byte (P := fun b => utf8Cont b = true → 0x80 ≤ b ∧ utf8InputLen b = 1) (by decide +kernel) b cont

theorem isLead_high (high : 0x80 ≤ b) : IsLead b := by
  have differs : ∀ key : UInt8, key < 0x80 → b ≠ key := by
    rintro key low rfl
    exact absurd high (UInt8.not_le.mpr low)
  exact ⟨differs _ (by decide), differs _ (by decide), differs _ (by decide), differs _ (by decide),
    not_or.mpr ⟨differs _ (by decide), differs _ (by decide)⟩,
    not_or.mpr ⟨differs _ (by decide), differs _ (by decide)⟩⟩

theorem isText_nil : IsText [] := ⟨[], rfl⟩

theorem IsText.append {b : List UInt8} (first : IsText a) (second : IsText b) : IsText (a ++ b) := by
  obtain ⟨x, rfl⟩ := first
  obtain ⟨y, rfl⟩ := second
  exact ⟨x ++ y, (encode_append x y).symm⟩

theorem IsText.first {rest : List UInt8} (text : IsText (b :: rest)) :
    utf8Cont b = false ∧ utf8InputLen b - 1 ≤ rest.length ∧
      IsText (b :: rest.take (utf8InputLen b - 1)) ∧ IsText (rest.drop (utf8InputLen b - 1)) := by
  obtain ⟨text, equal⟩ := text
  cases text with
  | nil => cases equal
  | cons c text =>
    obtain ⟨lead, conts, bytes, rune⟩ := isRune_encode c
    rw [encode_cons, bytes, cons_append, List.cons.injEq] at equal
    obtain ⟨rfl, rfl⟩ := equal
    have size : utf8InputLen b - 1 = conts.length := by rw [rune.input, Nat.add_sub_cancel]
    rw [size, take_left, drop_left, length_append]
    refine ⟨rune.starts, by omega, ⟨[c], ?_⟩, text, rfl⟩
    rw [encode_cons, encode_nil, append_nil, bytes]

theorem IsText.cancel {b : List UInt8} (whole : IsText (a ++ b)) (front : IsText a) : IsText b := by
  obtain ⟨text, rfl⟩ := front
  induction text with
  | nil => exact whole
  | cons c text ih =>
    obtain ⟨lead, conts, bytes, rune⟩ := isRune_encode c
    rw [encode_cons, bytes, append_assoc, cons_append] at whole
    have rest := whole.first.2.2.2
    rw [rune.input, Nat.add_sub_cancel, drop_left] at rest
    exact ih rest

theorem IsText.cut {b : List UInt8} (whole : IsText (a ++ b))
    (edge : ∀ x ∈ b.head?, utf8Cont x = false) : IsText a ∧ IsText b := by
  obtain ⟨text, equal⟩ := whole
  induction text generalizing a with
  | nil =>
    obtain ⟨rfl, rfl⟩ := append_eq_nil_iff.mp equal
    exact ⟨isText_nil, isText_nil⟩
  | cons c text ih =>
    obtain ⟨lead, conts, bytes, rune⟩ := isRune_encode c
    have one : IsText (String.utf8EncodeChar c) := ⟨[c], by simp⟩
    rw [encode_cons] at equal
    rcases append_eq_append_iff.mp equal with ⟨gap, front, rest⟩ | ⟨gap, front, rest⟩
    · -- the cut is inside the first character, or at one of its ends
      cases a with
      | nil => exact ⟨isText_nil, ⟨c :: text, by rw [encode_cons]; exact equal⟩⟩
      | cons x a =>
        cases gap with
        | nil =>
          rw [append_nil] at front
          exact ⟨front ▸ one, ⟨text, rest⟩⟩
        | cons y gap =>
          rw [bytes, cons_append, List.cons.injEq] at front
          have inside : y ∈ conts := front.2 ▸ mem_append_right _ mem_cons_self
          have start := edge y (by rw [rest]; rfl)
          rw [rune.continues y inside] at start
          cases start
    · obtain ⟨first, second⟩ := ih rest.symm
      rw [front]
      exact ⟨one.append first, second⟩

theorem IsText.after {b : List UInt8} {x : UInt8} (whole : IsText (a ++ x :: b)) (ascii : x < 0x80) :
    IsText b := by
  have single : utf8InputLen x = 1 := if_pos ascii
  obtain ⟨-, rest⟩ := whole.cut (by simpa using utf8Cont_ascii ascii)
  have next := rest.first.2.2.2
  rw [single] at next
  exact next

theorem isText_ascii (ascii : b < 0x80) : IsText [b] :=
  ⟨[Char.ofNat b.toNat], forall_byte (P := fun b => b < 0x80 → [b] = encode [Char.ofNat b.toNat])
    (by decide +kernel) b ascii⟩

theorem IsText.ascii (text : IsText [b]) : b < 0x80 := by
  obtain ⟨text, equal⟩ := text
  cases text with
  | nil => cases equal
  | cons c text =>
    have size := congrArg length equal
    have positive := Char.utf8Size_pos c
    rw [encode_cons, length_append, String.length_utf8EncodeChar, length_singleton] at size
    have one : c.utf8Size = 1 := by omega
    rw [encode_cons, String.utf8EncodeChar_eq_singleton one, singleton_append, List.cons.injEq] at equal
    have small := Char.utf8Size_eq_one_iff.mp one
    rw [equal.1, UInt8.lt_iff_toNat_lt, UInt32.toNat_toUInt8]
    rw [UInt32.le_iff_toNat_le] at small
    simp at small ⊢
    omega

end Bytes

section Keys
variable {s t : Getcmd} {before after : List Char}

theorem turn_escape (read : s.input = ESC :: input) (turned : turn LINE s = .again t) :
    s.line.len + 1 < LINE ∧ t = { s with input }.escape LINE := by
  have cases := turn_turned LINE s
  rw [turned] at cases
  cases cases with
  | escape room read' =>
    cases read.symm.trans read'
    exact ⟨room, rfl⟩
  | tab room read' => cases read.symm.trans read'
  | kill room read' => cases read.symm.trans read'
  | backspace room read' key =>
    cases read.symm.trans read'
    exact absurd key (by decide)
  | rune room read' lead =>
    cases read.symm.trans read'
    exact absurd rfl lead.1

theorem turn_backspace (read : s.input = c :: input)
    (key : c = ctrl 0x48 ∨ c = 0x7F) (turned : turn LINE s = .again t) : t = { s with input }.backspace := by
  have cases := turn_turned LINE s
  rw [turned] at cases
  have plain : c ≠ ESC ∧ c ≠ TAB ∧ c ≠ ctrl 0x55 := by
    rcases key with rfl | rfl <;> decide
  cases cases with
  | escape room read' => exact absurd (List.cons.inj (read.symm.trans read')).1 plain.1
  | tab room read' => exact absurd (List.cons.inj (read.symm.trans read')).1 plain.2.1
  | kill room read' => exact absurd (List.cons.inj (read.symm.trans read')).1 plain.2.2
  | backspace room read' key =>
    cases read.symm.trans read'
    rfl
  | rune room read' lead =>
    cases read.symm.trans read'
    exact absurd key lead.2.2.2.2.1

section
variable (holds : Holds LINE s.line before after)
include holds

theorem holds_right : Holds LINE s.right.line (before ++ after.head?.toList) after.tail := by
  cases after with
  | nil =>
    simpa only [Getcmd.right, Getcmd.write, holds.next_nil, head?_nil, Option.toList_none,
      append_nil, tail_nil] using holds
  | cons c after =>
    have moved := holds.moveRight
    rw [← holds.next_cons] at moved
    exact moved

theorem holds_left : Holds LINE s.left.line before.dropLast (before.getLast?.toList ++ after) := by
  cases before using List.reverseRecOn with
  | nil => simpa [Getcmd.left, Getcmd.write, holds.prev_nil] using holds
  | append_singleton before c =>
    simpa [Getcmd.left, Getcmd.write, holds.prev_append] using holds.moveLeft

theorem holds_backspace : Holds LINE s.backspace.line before.dropLast after := by
  cases before using List.reverseRecOn with
  | nil =>
    rw [Getcmd.backspace, if_neg (by simp [holds.cursor])]
    exact holds
  | append_singleton before c =>
    have inside : 0 < s.line.cursor := by
      have positive := encode_char_length_pos c
      rw [holds.cursor, encode_append, length_append, encode_cons, length_append]
      omega
    rw [Getcmd.backspace, if_pos inside]
    simpa [Getcmd.write, holds.prev_append] using holds.erase

theorem holds_delete
    (read : s.input = 0x7E :: input) : Holds LINE s.delete.line before after.tail := by
  simp only [Getcmd.delete, read, true_and]
  cases after with
  | nil =>
    rw [if_neg (by simp [holds.len, holds.cursor])]
    exact holds
  | cons c after =>
    have inside : s.line.cursor < s.line.len := by
      have positive := encode_char_length_pos c
      rw [holds.len, holds.cursor, encode_cons, length_append]
      omega
    rw [if_pos inside]
    exact holds.delete

end

theorem moves (s : Getcmd) : Moves s where
  left read turned holds := by
    obtain ⟨-, rfl⟩ := turn_escape read turned
    exact holds_left (s := { s with input := _ }) holds
  right read turned holds := by
    obtain ⟨-, rfl⟩ := turn_escape read turned
    exact holds_right (s := { s with input := _ }) holds
  backspace read key turned holds := by
    rw [turn_backspace read key turned]
    exact holds_backspace (s := { s with input := _ }) holds
  delete {t before after rest} read turned holds := by
    obtain ⟨-, rfl⟩ := turn_escape read turned
    exact holds_delete (s := { s with input := 0x7E :: rest }) holds rfl

end Keys

structure Texts (s : Getcmd) : Prop where
  line : s.line.Text
  history : ∀ e ∈ s.history, IsText e
  draft : IsText s.draft

section Handlers
variable {s : Getcmd}

theorem Line.Text.setLine {line : Line} (held : line.Text) {src : List UInt8} (text : IsText src)
    (clean : 0 ∉ src) (short : src.length < LINE) : (Shell.setLine LINE line src).Text := by
  obtain ⟨before, after, holds⟩ := held
  obtain ⟨text, rfl⟩ := text
  exact ⟨text, [], holds.setLine (strlen_text clean) short⟩

theorem Line.Text.insert {line : Line} (held : line.Text) {new : List UInt8} (text : IsText new) :
    (insertBytes LINE line new).1.Text := by
  obtain ⟨before, after, holds⟩ := held
  obtain ⟨text, rfl⟩ := text
  by_cases fits : line.len + (encode text).length < LINE
  · obtain ⟨next, inserted, holds'⟩ := holds.insert text fits
    rw [inserted]
    exact ⟨_, _, holds'⟩
  · rw [insertBytes_full (Nat.not_lt.mp fits)]
    exact ⟨before, after, holds⟩

theorem Line.Text.inserted {line : Line} (held : line.Text) {new : List UInt8}
    (fits : line.len + new.length < LINE) (text : (insertBytes LINE line new).1.Text) :
    ∃ after : List UInt8, IsText after ∧ IsText (new ++ after) := by
  obtain ⟨before, after, holds⟩ := held
  obtain ⟨junk, split⟩ := holds.split
  obtain ⟨next, z, inserted, split'⟩ := split.insert new fits
  rw [inserted] at text
  obtain ⟨before', after', holds'⟩ := text
  refine ⟨encode after, ⟨after, rfl⟩, IsText.cancel (a := encode before) ⟨before' ++ after', ?_⟩ ⟨before, rfl⟩⟩
  rw [← holds'.text, split'.text, append_assoc]

theorem Texts.entry (texts : Texts s) (i : Nat) : IsText (s.history.getD i []) := by
  by_cases inside : i < s.history.length
  · rw [getD_eq_getElem _ _ inside]
    exact texts.history _ (getElem_mem inside)
  · rw [getD_eq_default _ _ (Nat.not_lt.mp inside)]
    exact isText_nil

theorem Editing.entry_short (editing : Editing LINE s) (i : Nat) : (s.history.getD i []).length < LINE := by
  by_cases inside : i < s.history.length
  · rw [getD_eq_getElem _ _ inside]
    exact Nat.lt_succ_of_le (editing.history.short _ (getElem_mem inside))
  · rw [getD_eq_default _ _ (Nat.not_lt.mp inside)]
    decide

section
variable (texts : Texts s)
include texts

theorem Texts.up (editing : Editing LINE s) : Texts (s.up LINE) := by
  have line := texts.line.setLine (texts.entry (s.hpos - 1)) (editing.entry _) (editing.entry_short _)
  unfold Getcmd.up
  split_ifs with first saved
  · exact texts
  · exact ⟨line, texts.history, texts.draft⟩
  · obtain ⟨before, after, holds⟩ := texts.line
    exact ⟨line, texts.history, ⟨before ++ after, holds.text⟩⟩

theorem Texts.down (editing : Editing LINE s) : Texts (s.down LINE) := by
  unfold Getcmd.down
  dsimp only
  split_ifs with more last
  · exact ⟨texts.line.setLine texts.draft editing.draft.1 editing.draft.2, texts.history, texts.draft⟩
  · exact ⟨texts.line.setLine (texts.entry _) (editing.entry _) (editing.entry_short _), texts.history,
      texts.draft⟩
  · exact texts

theorem Texts.right : Texts s.right := by
  obtain ⟨before, after, holds⟩ := texts.line
  exact ⟨⟨_, _, holds_right holds⟩, texts.history, texts.draft⟩

theorem Texts.left : Texts s.left := by
  obtain ⟨before, after, holds⟩ := texts.line
  exact ⟨⟨_, _, holds_left holds⟩, texts.history, texts.draft⟩

theorem Texts.delete : Texts s.delete := by
  obtain ⟨before, after, holds⟩ := texts.line
  have line : s.delete.line.Text := by
    cases read : s.input with
    | nil =>
      rw [Getcmd.delete, read]
      exact ⟨before, after, holds⟩
    | cons last rest =>
      by_cases tilde : last = 0x7E
      · exact ⟨_, _, holds_delete holds (tilde ▸ read)⟩
      · rw [Getcmd.delete, read]
        dsimp only
        rw [if_neg (by rintro ⟨same, -⟩; exact tilde same)]
        exact ⟨before, after, holds⟩
  refine ⟨line, ?_, ?_⟩
  · unfold Getcmd.delete
    cases s.input with
    | nil => exact texts.history
    | cons last rest =>
      dsimp only
      split_ifs <;> exact texts.history
  · unfold Getcmd.delete
    cases s.input with
    | nil => exact texts.draft
    | cons last rest =>
      dsimp only
      split_ifs <;> exact texts.draft

theorem Texts.read (input : List UInt8) (offers : List (List UInt8)) :
    Texts { s with input, offers } :=
  ⟨texts.line, texts.history, texts.draft⟩

theorem Texts.escape (editing : Editing LINE s) : Texts (s.escape LINE) := by
  have clean := editing.input
  unfold Getcmd.escape
  cases input : s.input with
  | nil => exact texts.read [] s.offers
  | cons first rest =>
    cases rest with
    | nil => exact texts.read [] s.offers
    | cons second rest =>
      have read := texts.read rest s.offers
      simp only [input, mem_cons, not_or] at clean
      have typing : Editing LINE { s with input := rest } :=
        editing.next s.out editing.line clean.2.2 editing.offers
      dsimp only
      split_ifs
      · exact read.up typing
      · exact read.down typing
      · exact read.right
      · exact read.left
      · exact read.delete
      · exact read

theorem Texts.inserted {line : Line} (held : line.Text) (n : Nat) (new : List UInt8) :
    Texts (s.inserted line n new) := by
  unfold Getcmd.inserted
  split_ifs <;> exact ⟨held, texts.history, texts.draft⟩

theorem Texts.kill : Texts s.killLine := by
  obtain ⟨before, after, holds⟩ := texts.line
  exact ⟨⟨[], [], holds.kill⟩, texts.history, texts.draft⟩

theorem Texts.backspace : Texts s.backspace := by
  obtain ⟨before, after, holds⟩ := texts.line
  have line : s.backspace.line.Text := ⟨_, _, holds_backspace holds⟩
  unfold Getcmd.backspace at line ⊢
  split_ifs at line ⊢
  · exact ⟨line, texts.history, texts.draft⟩
  · exact texts

end
end Handlers

section Completion
variable {line : Line} {token : Token}

theorem blankChar_ascii (blank : blankChar c = true) : c < 0x80 :=
  forall_byte (P := fun c => blankChar c = true → c < 0x80) (by decide +kernel) c blank

theorem quoteChar_ascii (quote : quoteChar c = true) : c < 0x80 :=
  forall_byte (P := fun c => quoteChar c = true → c < 0x80) (by decide +kernel) c quote

theorem token_edge (found : findToken line = some token) (inside : 0 < token.prefixStart) :
    byte line.buf (token.prefixStart - 1) < 0x80 := by
  obtain ⟨start, text, -⟩ := findToken_some found
  rw [text] at inside ⊢
  split_ifs at inside ⊢ with quote
  · exact quoteChar_ascii quote
  · rcases tokenStart_first line.buf line.cursor with first | blank
    · rw [start, first] at inside
      exact absurd inside (Nat.lt_irrefl 0)
    · rw [start]
      exact blankChar_ascii blank

theorem typed_isText (held : line.Text) (found : findToken line = some token)
    (starts : token.prefixStart ≤ line.cursor) : IsText (token.typed line) := by
  obtain ⟨before, after, holds⟩ := held
  obtain ⟨junk, split⟩ := holds.split
  have typed : token.typed line = (encode before).drop token.prefixStart := by
    rw [Token.typed, split.content]
    exact slice_drop _ _ split.cursor starts
  rw [typed]
  cases edge : token.prefixStart with
  | zero => exact ⟨before, rfl⟩
  | succ i =>
    have inside : i < (encode before).length := by
      rw [edge, split.cursor] at starts
      exact starts
    have ascii := token_edge found (by omega)
    rw [edge, Nat.add_sub_cancel, split.content, byte, getD_append _ _ _ _ inside,
      getD_eq_getElem _ _ inside] at ascii
    have whole : IsText ((encode before).take i ++ (encode before)[i] :: (encode before).drop (i + 1)) := by
      rw [← drop_eq_getElem_cons inside, take_append_drop]
      exact ⟨before, rfl⟩
    exact whole.after ascii

theorem completeToken_text (ok : line.Ok LINE) (held : line.Text) {dir : Option (List Dirent)}
    (names : ∀ entries, dir = some entries → ∀ de ∈ entries, IsText (direntname de)) {next : Line} {n : Nat}
    (completed : completeToken LINE line dir = some (next, n)) : next.Text := by
  have same : some (line, 0) = some (next, n) → next.Text := by
    intro equal
    cases equal
    exact held
  unfold completeToken at completed
  cases found : findToken line with
  | none =>
    rw [found] at completed
    exact same completed
  | some token =>
    rw [found] at completed
    cases dir with
    | none => exact same completed
    | some entries =>
      dsimp only at completed
      split at completed
      case _ name single =>
        obtain ⟨-, -, len, -⟩ := findToken_some found
        split_ifs at completed with negative
        have starts : token.prefixStart ≤ line.cursor := by omega
        obtain ⟨⟨de, listed, rfl⟩, suffix, equal⟩ := matching_single ok starts len single
        have typed : (token.typed line).length = token.len.toNat := by
          rw [length_typed ok]
          omega
        have whole := names entries rfl de listed
        rw [← equal] at whole completed
        rw [← typed, drop_left] at completed
        have line := held.insert (whole.cancel (typed_isText held found starts))
        rw [Option.some.inj completed] at line
        exact line
      case _ => exact same completed

theorem ReadsBefore.onOpeningQuote {dir : Option (List Dirent)} {offer : List UInt8}
    (reads : ReadsBefore line dir offer) (ok : line.Ok LINE) : OnOpeningQuote line := by
  obtain ⟨token, -, -, -, found, negative, -⟩ := reads
  by_contra off
  have starts := findToken_len ok off found
  obtain ⟨-, -, len, -⟩ := findToken_some found
  omega

theorem ReadsBefore.text {dir : Option (List Dirent)} {offer : List UInt8} (reads : ReadsBefore line dir offer)
    (names : ∀ entries, dir = some entries → ∀ de ∈ entries, IsText (direntname de)) :
    ∃ before name, IsText name ∧ offer = if before = 0 then [] else before :: name := by
  obtain ⟨token, entries, name, before, -, -, rfl, single, suffix⟩ := reads
  obtain ⟨de, listed, rfl⟩ := matching_name single
  refine ⟨before, direntname de, names entries rfl de listed, ?_⟩
  rw [suffix, takeWhile_cons, direntname, takeWhile_idem]
  simp

end Completion

section Turns
variable {s t : Getcmd}

theorem escape_input (s : Getcmd) : (s.escape LINE).input = s.input.drop (sequenceLen s.input) := by
  unfold Getcmd.escape
  cases input : s.input with
  | nil => rfl
  | cons first rest =>
    cases rest with
    | nil =>
      rw [sequenceLen, if_neg (by simp)]
      rfl
    | cons second rest =>
      have two : (first :: second :: rest).take 2 = [bracket, 0x33] ↔ first = bracket ∧ second = 0x33 := by
        simp
      have plain : (¬(first = bracket ∧ second = 0x33)) →
          (first :: second :: rest).drop (sequenceLen (first :: second :: rest)) = rest := by
        intro other
        rw [sequenceLen, if_neg (two.not.mpr other)]
        rfl
      dsimp only
      split_ifs with up down right left three
      · rw [(up_reads _).1, plain fun three => absurd (up.2.symm.trans three.2) (by decide)]
      · rw [(down_reads _).1, plain fun three => absurd (down.2.symm.trans three.2) (by decide)]
      · rw [plain fun three => absurd (right.2.symm.trans three.2) (by decide)]
        rfl
      · rw [plain fun three => absurd (left.2.symm.trans three.2) (by decide)]
        rfl
      · rw [sequenceLen, if_pos (two.mpr three)]
        unfold Getcmd.delete
        cases rest with
        | nil => rfl
        | cons last rest =>
          dsimp only
          split_ifs <;> rfl
      · rw [plain three]

theorem turn_input (text : IsText s.input) (whole : s.Whole) (turned : turn LINE s = .again t) :
    IsText t.input := by
  have cases := turn_turned LINE s
  rw [turned] at cases
  cases cases with
  | @escape room input read =>
    rw [escape_input]
    have later : IsText input := by
      rw [read] at text
      exact text.first.2.2.2
    rw [← take_append_drop (sequenceLen input) input] at later
    refine (later.cut ?_).2
    intro b first
    rw [head?_drop] at first
    exact whole room input read b first
  | tab room read =>
    rw [read] at text
    rw [Getcmd.tab, (inserted_reads _ _ _ _).1]
    exact text.first.2.2.2
  | kill room read =>
    rw [read] at text
    exact text.first.2.2.2
  | backspace room read key =>
    rw [read] at text
    rw [(backspace_reads _).1]
    have next := text.first.2.2.2
    rcases key with rfl | rfl <;> exact next
  | rune room read lead =>
    rw [read] at text
    rw [Getcmd.rune, (inserted_reads _ _ _ _).1]
    exact text.first.2.2.2

theorem turn_texts (texts : Texts s) (editing : Editing LINE s) (text : IsText s.input) (offered : s.Offered)
    (ascii : s.Ascii) (turned : turn LINE s = .again t) : Texts t := by
  have cases := turn_turned LINE s
  rw [turned] at cases
  have typing : ∀ {c input}, s.input = c :: input → Editing LINE { s with input } := by
    intro c input read
    have clean := editing.input
    rw [read, mem_cons, not_or] at clean
    exact editing.next s.out editing.line clean.2 editing.offers
  cases cases with
  | escape room read => exact (texts.read _ s.offers).escape (typing read)
  | @tab room input read =>
    refine (texts.read input s.offers.tail).inserted ?_ _ _
    obtain ⟨dir, names, completed | before⟩ := offered input read
    · exact completeToken_text editing.line texts.line names completed
    · have on : OnOpeningQuote s.line := before.onOpeningQuote editing.line
      obtain ⟨b, name, text', suffix⟩ := before.text names
      change (insertBytes LINE s.line (s.offers.headD [])).1.Text
      by_cases zero : b = 0
      · rw [suffix, if_pos zero]
        exact texts.line.insert isText_nil
      · rw [if_neg zero] at suffix
        rw [suffix]
        by_cases fits : s.line.len + (b :: name).length < LINE
        · have ascii := ascii on input b name read suffix fits
          exact texts.line.insert ((isText_ascii ascii).append text')
        · rw [insertBytes_full (Nat.not_lt.mp fits)]
          exact texts.line
  | kill room read => exact (texts.read _ s.offers).kill
  | backspace room read key => exact (texts.read _ s.offers).backspace
  | rune room read lead =>
    rw [read] at text
    exact (texts.read _ s.offers).inserted (texts.line.insert text.first.2.2.1) _ _

theorem high_of_cont {b : List UInt8} {x y : UInt8} (text : IsText (a ++ x :: y :: b))
    (cont : utf8Cont y = true) : 0x80 ≤ x := by
  by_contra low
  have next := text.after (UInt8.not_le.mp low)
  rw [next.first.1] at cont
  cases cont

theorem turn_not_whole (text : IsText s.input) (broken : ¬s.Whole) :
    ∃ b rest, utf8Cont b = true ∧ s.line.len + 1 < LINE ∧ turn LINE s = .again { s with input := b :: rest } := by
  unfold Getcmd.Whole at broken
  push Not at broken
  obtain ⟨room, input, read, b, found, cont⟩ := broken
  rw [ne_eq, Bool.not_eq_false] at cont
  have escaped : turn LINE s = .again ({ s with input }.escape LINE) := by
    rw [turn, if_neg (Nat.not_le.mpr room), read]
    rfl
  rw [read] at text
  have later : IsText input := text.first.2.2.2
  have differs : ∀ {x key : UInt8}, 0x80 ≤ x → key < 0x80 → x ≠ key := by
    rintro x key high low rfl
    exact absurd high (UInt8.not_le.mpr low)
  by_cases three : input.take 2 = [bracket, 0x33]
  · rw [sequenceLen, if_pos three] at found
    obtain ⟨more, rfl⟩ : ∃ more, input = bracket :: 0x33 :: more :=
      ⟨input.drop 2, by rw [← take_append_drop 2 input, three]; simp⟩
    cases more with
    | nil => cases found
    | cons z more =>
      cases more with
      | nil => cases found
      | cons b' rest =>
        cases found
        have high : 0x80 ≤ z := high_of_cont (a := [bracket, 0x33]) later cont
        refine ⟨b, rest, cont, room, escaped.trans ?_⟩
        have other : ¬(z = 0x7E ∧ s.line.cursor < s.line.len) := fun tilde =>
          differs high (by decide) tilde.1
        simp only [Getcmd.escape, Getcmd.delete, if_neg other]
        rfl
  · rw [sequenceLen, if_neg three] at found
    cases input with
    | nil => cases found
    | cons x input =>
      cases input with
      | nil => cases found
      | cons y input =>
        cases input with
        | nil => cases found
        | cons b' rest =>
          cases found
          have high : 0x80 ≤ y := high_of_cont (a := [x]) later cont
          refine ⟨b, rest, cont, room, escaped.trans ?_⟩
          have other : ∀ key : UInt8, key < 0x80 → ¬(x = bracket ∧ y = key) := fun key low pair =>
            differs high low pair.2
          simp only [Getcmd.escape, if_neg (other 0x41 (by decide)), if_neg (other 0x42 (by decide)),
            if_neg (other 0x43 (by decide)), if_neg (other 0x44 (by decide)),
            if_neg (other 0x33 (by decide))]

theorem turn_cont (rest : List UInt8) (cont : utf8Cont b = true) (room : s.line.len + 1 < LINE)
    (held : s.line.Text) : ∃ t, turn LINE { s with input := b :: rest } = .again t ∧ ¬t.line.Text := by
  obtain ⟨high, single⟩ := utf8Cont_lead cont
  obtain ⟨esc, tab, quit, kill, back, enter⟩ := isLead_high high
  have turned : turn LINE { s with input := b :: rest } = .again ({ s with input := rest }.rune LINE b) := by
    rw [turn, if_neg (Nat.not_le.mpr room)]
    simp only [if_neg esc, if_neg tab, if_neg quit, if_neg kill, if_neg back, if_neg enter]
  refine ⟨_, turned, ?_⟩
  have line : ({ s with input := rest }.rune LINE b).line = (insertBytes LINE s.line [b]).1 := by
    rw [Getcmd.rune, inserted_line, single]
    rfl
  rw [line]
  intro text
  obtain ⟨after, -, whole⟩ : ∃ after, IsText after ∧ IsText ([b] ++ after) := held.inserted room text
  have start := whole.first.1
  rw [cont] at start
  cases start

theorem turn_not_ascii (held : s.line.Text) (ok : s.line.Ok LINE) (offered : s.Offered) (broken : ¬s.Ascii) :
    ∃ t, turn LINE s = .again t ∧ ¬t.line.Text := by
  unfold Getcmd.Ascii at broken
  push Not at broken
  obtain ⟨on, input, b, name, read, offer, fits, high⟩ := broken
  have room : s.line.len + 1 < LINE := by
    rw [length_cons] at fits
    omega
  have turned : turn LINE s = .again ({ s with input }.tab LINE) := by
    rw [turn, if_neg (Nat.not_le.mpr room), read]
    rfl
  refine ⟨_, turned, fun text => ?_⟩
  rw [Getcmd.tab, inserted_line] at text
  change (insertBytes LINE s.line (s.offers.headD [])).1.Text at text
  rw [offer] at text
  obtain ⟨after, later, whole⟩ := held.inserted fits text
  obtain ⟨dir, names, completed | before⟩ := offered input read
  · -- complete_token has inserted nothing
    obtain ⟨next, inserts, -⟩ := inserted_bytes ok fits
    obtain ⟨token, found, negative⟩ := findToken_quote on
    rw [offer, inserts] at completed
    unfold completeToken at completed
    rw [found] at completed
    split at completed
    · split at completed
      · rw [if_pos (by simp_all)] at completed
        cases completed
      · cases completed
    · cases completed
  · obtain ⟨before, name', text', suffix⟩ := before.text names
    rw [offer] at suffix
    split_ifs at suffix
    cases suffix
    have rest := text'.append later
    have edge : ∀ x ∈ (name ++ after).head?, utf8Cont x = false := by
      intro x first
      obtain ⟨more, equal⟩ := head?_eq_some_iff.mp first
      rw [equal] at rest
      exact rest.first.1
    exact high (IsText.cut (a := [b]) whole edge).1.ascii

end Turns

section Runs
variable {history : List (List UInt8)} {t : Typed} {s : Getcmd}

theorem Typed.texts (t : Typed) (texts : ∀ e ∈ history, IsText e) : Texts (t.getcmd LINE history) := by
  refine ⟨⟨[], [], ?_⟩, texts, isText_nil⟩
  exact ⟨⟨List.replicate LINE 0, rfl⟩, rfl, rfl, Nat.zero_lt_succ 99, length_replicate⟩

/-- The line stays a text with the cursor between two characters exactly if no escape sequence
ends inside a character and no tab inserts what is not one. -/
theorem keeps_text_iff (entries : IsHistory history) (texts : ∀ e ∈ history, IsText e) (typed : IsText t.input)
    (offered : ∀ n s, turns LINE n (t.getcmd LINE history) = .again s → s.Offered) :
    (∀ n s, turns LINE n (t.getcmd LINE history) = .again s → s.line.Text ∧ Moves s) ↔
      ∀ n s, turns LINE n (t.getcmd LINE history) = .again s → s.Whole ∧ s.Ascii := by
  have editing : ∀ {n s}, turns LINE n (t.getcmd LINE history) = .again s → Editing LINE s := fun reached =>
    t.reached (by decide) (by decide) entries [] reached
  -- the invariant of the states before which every step met the condition
  have kept : ∀ n, (∀ m < n, ∀ r, turns LINE m (t.getcmd LINE history) = .again r → r.Whole ∧ r.Ascii) →
      ∀ s, turns LINE n (t.getcmd LINE history) = .again s → Texts s ∧ IsText s.input := by
    intro n
    induction n with
    | zero =>
      intro _ s reached
      cases reached
      exact ⟨t.texts texts, typed⟩
    | succ n ih =>
      intro good s reached
      obtain ⟨r, before, turned⟩ := turns_before reached
      obtain ⟨held, text⟩ := ih (fun m less => good m (Nat.lt_succ_of_lt less)) r before
      obtain ⟨whole, ascii⟩ := good n (Nat.lt_succ_self n) r before
      exact ⟨turn_texts held (editing before) text (offered n r before) ascii turned, turn_input text whole turned⟩
  constructor
  · intro always n
    induction n using Nat.strong_induction_on with
    | _ n ih =>
      intro s reached
      obtain ⟨held, text⟩ := kept n ih s reached
      constructor
      · by_contra broken
        obtain ⟨b, rest, cont, room, first⟩ := turn_not_whole text broken
        obtain ⟨t, second, lost⟩ := turn_cont rest cont room held.line
        exact lost (always (n + 2) t ((turns_then ((turns_then reached).trans first)).trans second)).1
      · by_contra broken
        obtain ⟨t, first, lost⟩ := turn_not_ascii held.line (editing reached).line (offered n s reached) broken
        exact lost (always (n + 1) t ((turns_then reached).trans first)).1
  · intro good n s reached
    exact ⟨(kept n (fun m _ => good m) s reached).1.line, moves s⟩

/-- The keys l, tab, é and left; the tab inserts s. -/
def lsKeys : Typed where
  input := [0x6C, TAB, 0xC3, 0xA9, ESC, bracket, 0x44]
  offers := [[0x73]]
  typed := by decide
  offered := by decide

theorem keeps_text_ls :
    (IsHistory [] ∧ IsText lsKeys.input) ∧ slice (turns LINE 4 (lsKeys.getcmd LINE [])).state.line.buf 0 4 =
        [0x6C, 0x73, 0xC3, 0xA9] ∧
      ∀ n s, turns LINE n (lsKeys.getcmd LINE []) = .again s → s.line.Text ∧ Moves s := by
  have typed : IsText lsKeys.input := ⟨['l', '\t', Char.ofNat 0xE9, Char.ofNat 0x1B, '[', 'D'], by decide +kernel⟩
  have tab : ∀ n < 5, (turns LINE n (lsKeys.getcmd LINE [])).state.input.head? = some TAB → n = 1 := by
    decide +kernel
  have esc : ∀ n < 5, (turns LINE n (lsKeys.getcmd LINE [])).state.input.head? = some ESC →
      (turns LINE n (lsKeys.getcmd LINE [])).state.input.length = 3 := by decide +kernel
  have early : ∀ {n s}, turns LINE n (lsKeys.getcmd LINE []) = .again s → n < 5 := by
    intro n s reached
    by_contra late
    have ended : turns LINE 5 (lsKeys.getcmd LINE []) =
        .returned (-1) (turns LINE 5 (lsKeys.getcmd LINE [])).state := by decide +kernel
    have later := turns_returned_add ended (n - 5)
    rw [Nat.add_sub_cancel' (Nat.not_lt.mp late), reached] at later
    cases later
  have first : ∀ {n s input}, turns LINE n (lsKeys.getcmd LINE []) = .again s → s.input = TAB :: input →
      s = (turns LINE 1 (lsKeys.getcmd LINE [])).state := by
    intro n s input reached read
    obtain rfl := tab n (early reached) (by rw [reached, Outcome.state, read, head?_cons])
    rw [reached, Outcome.state]
  refine ⟨⟨isHistory_nil, typed⟩, by decide +kernel, (keeps_text_iff isHistory_nil (forall_mem_nil _) typed ?_).mpr ?_⟩
  · intro n s reached input read
    obtain rfl := first reached read
    refine ⟨some [lsEntry], ?_, .inl (by decide +kernel)⟩
    rintro entries ⟨⟩ de member
    obtain rfl := mem_singleton.mp member
    exact ⟨['l', 's'], by decide +kernel⟩
  · intro n s reached
    constructor
    · intro _ input read b found
      have three := esc n (early reached) (by rw [reached, Outcome.state, read, head?_cons])
      rw [reached, Outcome.state, read, length_cons] at three
      have inside := (List.getElem?_eq_some_iff.mp found).1
      unfold sequenceLen at inside
      split_ifs at inside <;> omega
    · intro on input b name read
      obtain rfl := first reached read
      exact absurd on (by unfold OnOpeningQuote; decide +kernel)

def escapedE : Typed := .keys [ESC, 0x61, 0xC3, 0xA9] rfl

/-- The second byte of é is left over and inserted. -/
theorem keeps_text_fails :
    IsText escapedE.input ∧ TAB ∉ escapedE.input ∧ ∃ s, turns LINE 2 (escapedE.getcmd LINE []) = .again s ∧
      slice s.line.buf 0 s.line.len = [0xA9] ∧ ¬s.line.Text := by
  refine ⟨⟨[Char.ofNat 0x1B, 'a', Char.ofNat 0xE9], by decide +kernel⟩, by decide, (turns LINE 2 (escapedE.getcmd LINE [])).state,
    by decide +kernel, by decide +kernel, ?_⟩
  rintro ⟨before, after, holds⟩
  have text : IsText [0xA9] := by
    refine ⟨before ++ after, ?_⟩
    rw [← holds.text]
    decide +kernel
  exact absurd text.first.1 (by decide)

end Runs
end Xv6Lab.Shell
