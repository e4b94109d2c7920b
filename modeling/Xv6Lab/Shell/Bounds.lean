import Mathlib.Data.List.GetD
import Mathlib.Data.List.Chain
import Xv6Lab.Shell.Line
import Xv6Lab.Shell.Runs

/-!
The line editor keeps to its arrays, whatever is typed.
-/

namespace Xv6Lab.Shell
open List
variable {src : List UInt8} {i cursor start stop : Nat} {entries : List (List UInt8)}

inductive Place
  | buf
  | draft
  | input
  | seq
  | history (i : Nat)
  | out
deriving DecidableEq, Repr

def Place.size (nbuf : Nat) : Place → Nat
  | .buf => nbuf
  | .draft => 100
  | .input => 4
  | .seq => 3
  | .history i => if i < HISTSIZE then 100 else 0
  | .out => 140

structure Write where
  array : Place
  start : Nat
  length : Nat
deriving DecidableEq, Repr

def Write.Inside (nbuf : Nat) (w : Write) : Prop := w.start + w.length ≤ w.array.size nbuf

section Writes

def insertWrites (nbuf : Nat) (line : Line) (s : List UInt8) : List Write :=
  if nbuf ≤ line.len + s.length then []
  else
    [⟨.buf, line.cursor + s.length, line.len - line.cursor⟩, ⟨.buf, line.cursor, s.length⟩,
      ⟨.buf, line.len + s.length, 1⟩]

def deleteWrites (line : Line) (start stop : Nat) : List Write :=
  [⟨.buf, start, line.len - stop⟩, ⟨.buf, line.len - (stop - start), 1⟩]

def setLineWrites (nbuf : Nat) (src : List UInt8) : List Write :=
  let len := if nbuf ≤ strlen src then nbuf - 1 else strlen src
  [⟨.buf, 0, len⟩, ⟨.buf, len, 1⟩]

def redrawWrites (line : Line) : List Write := [⟨.out, 0, (redraw line).length⟩]

def saveWrites (history : List (List UInt8)) (buf : List UInt8) (len : Nat) : List Write :=
  let len := if 0 < len ∧ byte buf (len - 1) = newline then len - 1 else len
  if len = 0 ∨ blankLine buf len then []
  else if history.getLast? = some (slice buf 0 len) then []
  else if history.length = HISTSIZE then
    -- the strcpy of each entry to the place before it
    ((List.range (HISTSIZE - 1)).map fun i => ⟨.history i, 0, strlen (history.getD (i + 1) []) + 1⟩) ++
      [⟨.history (HISTSIZE - 1), 0, len⟩, ⟨.history (HISTSIZE - 1), len, 1⟩]
  else [⟨.history history.length, 0, len⟩, ⟨.history history.length, len, 1⟩]

namespace Getcmd

def upWrites (nbuf : Nat) (s : Getcmd) : List Write :=
  if s.hpos = 0 then []
  else
    let src := s.history.getD (s.hpos - 1) []
    (if s.saved then [] else [⟨.draft, 0, s.line.len⟩, ⟨.draft, s.line.len, 1⟩]) ++
      setLineWrites nbuf src ++ redrawWrites (setLine nbuf s.line src)

def downWrites (nbuf : Nat) (s : Getcmd) : List Write :=
  if s.hpos < s.history.length then
    let src := if s.hpos + 1 = s.history.length then s.draft else s.history.getD (s.hpos + 1) []
    setLineWrites nbuf src ++ redrawWrites (setLine nbuf s.line src)
  else []

def removeWrites (s : Getcmd) : List Write :=
  match s.input with
  | [] => []
  | last :: _ =>
    ⟨.seq, 2, 1⟩ ::
      if last = 0x7E ∧ s.line.cursor < s.line.len then
        deleteWrites s.line s.line.cursor (utf8Next s.line.buf s.line.cursor s.line.len)
      else []

def escapeWrites (nbuf : Nat) (s : Getcmd) : List Write :=
  match s.input with
  | [] => []
  | [_] => [⟨.seq, 0, 1⟩]
  | first :: second :: input =>
    let s := { s with input }
    ⟨.seq, 0, 1⟩ :: ⟨.seq, 1, 1⟩ ::
      if first = bracket ∧ second = 0x41 then s.upWrites nbuf
      else if first = bracket ∧ second = 0x42 then s.downWrites nbuf
      else if first = bracket ∧ second = 0x33 then s.removeWrites
      else []

def insertedWrites (s : Getcmd) (line : Line) (n : Nat) : List Write :=
  if n = 0 ∨ s.line.cursor = s.line.len then [] else redrawWrites line

def tabWrites (nbuf : Nat) (s : Getcmd) : List Write :=
  let offer := s.offers.headD []
  insertWrites nbuf s.line offer ++
    s.insertedWrites (insertBytes nbuf s.line offer).1 (insertBytes nbuf s.line offer).2

def backspaceWrites (s : Getcmd) : List Write :=
  if 0 < s.line.cursor then
    deleteWrites s.line (utf8Prev s.line.buf s.line.cursor) s.line.cursor
  else []

def runeWrites (nbuf : Nat) (c : UInt8) (s : Getcmd) : List Write :=
  let more := s.input.take (utf8InputLen c - 1)
  ((List.range (more.length + 1)).map fun i => ⟨.input, i, 1⟩) ++
    (insertWrites nbuf s.line (c :: more) ++
      s.insertedWrites (insertBytes nbuf s.line (c :: more)).1 (insertBytes nbuf s.line (c :: more)).2)

end Getcmd

/-- The writes of one turn of the loop, with those of save_history if it is the last. -/
def turnWrites (nbuf : Nat) (s : Getcmd) : List Write :=
  if nbuf ≤ s.line.len + 1 then saveWrites s.history s.line.buf s.line.len
  else
    match s.input with
    | [] => []
    | c :: input =>
      let s := { s with input }
      if c = ESC then s.escapeWrites nbuf
      else if c = TAB then s.tabWrites nbuf
      else if c = ctrl 0x44 then []
      else if c = ctrl 0x55 then ⟨.buf, 0, 1⟩ :: redrawWrites s.killLine.line
      else if c = ctrl 0x48 ∨ c = 0x7F then s.backspaceWrites
      else if c = newline ∨ c = 0x0D then
        ⟨.buf, s.line.len, 1⟩ :: ⟨.buf, s.line.len + 1, 1⟩ ::
          saveWrites s.history s.enter.line.buf s.enter.line.len
      else s.runeWrites nbuf c

def startWrites (nbuf : Nat) : List Write := [⟨.buf, 0, nbuf⟩, ⟨.draft, 0, 100⟩]

end Writes

/-- What save_history has kept: at most HISTSIZE lines that are not blank and differ from the
one before. -/
structure IsHistory (entries : List (List UInt8)) : Prop where
  count : entries.length ≤ HISTSIZE
  text : ∀ e ∈ entries, 0 ∉ e
  short : ∀ e ∈ entries, e.length ≤ 99
  solid : ∀ e ∈ entries, ¬∀ c ∈ e, c = 0x20 ∨ c = TAB
  differ : entries.IsChain (· ≠ ·)

structure Bounded (nbuf : Nat) (s : Getcmd) : Prop where
  cursor : s.line.cursor ≤ s.line.len
  len : s.line.len ≤ nbuf - 1
  size : s.line.buf.length = nbuf
  nul : byte s.line.buf s.line.len = 0
  text : ∀ i < s.line.len, byte s.line.buf i ≠ 0
  hpos : s.hpos ≤ s.history.length
  history : IsHistory s.history

def Line.Ok (nbuf : Nat) (line : Line) : Prop :=
  ∃ before after junk, Split nbuf line before after (0 :: junk) ∧ 0 ∉ before ++ after

structure Editing (nbuf : Nat) (s : Getcmd) : Prop where
  line : s.line.Ok nbuf
  hpos : s.hpos ≤ s.history.length
  history : IsHistory s.history
  draft : 0 ∉ s.draft ∧ s.draft.length < nbuf
  input : 0 ∉ s.input
  offers : ∀ o ∈ s.offers, 0 ∉ o

section Lines
variable {nbuf : Nat} {line : Line}

theorem strlen_text (text : 0 ∉ src) : strlen src = src.length := by
  rw [strlen, takeWhile_eq_self_iff.mpr]
  intro c member
  simp only [decide_not, Bool.not_eq_eq_eq_not, Bool.not_true, decide_eq_false_iff_not]
  rintro rfl
  exact text member

namespace Line.Ok

section
variable (ok : line.Ok nbuf)
include ok

theorem bounds : line.cursor ≤ line.len ∧ line.len < nbuf := by
  obtain ⟨before, after, junk, split, -⟩ := ok
  refine ⟨?_, split.room⟩
  rw [split.cursor, split.len]
  omega

theorem text : 0 ∉ slice line.buf 0 line.len ∧ (slice line.buf 0 line.len).length = line.len := by
  obtain ⟨before, after, junk, split, text⟩ := ok
  rw [split.text, split.len, length_append]
  exact ⟨text, rfl⟩

theorem size : line.buf.length = nbuf := by
  obtain ⟨before, after, junk, split, -⟩ := ok
  exact split.size

theorem nul : byte line.buf line.len = 0 := by
  obtain ⟨before, after, junk, split, -⟩ := ok
  have content : line.buf = (before ++ after) ++ 0 :: junk := by simp [split.content]
  have len : line.len = (before ++ after).length := by simp [split.len]
  rw [content, len]
  exact byte_append _ _ 0

theorem solid (inside : i < line.len) : byte line.buf i ≠ 0 := by
  have fits : line.len ≤ line.buf.length := ok.size ▸ ok.bounds.2.le
  have here := getElem?_slice fits (by rwa [Nat.zero_add] : 0 + i < line.len)
  rw [Nat.zero_add] at here
  intro zero
  rw [zero] at here
  exact ok.text.1 (mem_of_getElem? here)

theorem move (inside : cursor ≤ line.len) : Line.Ok nbuf { line with cursor } := by
  obtain ⟨before, after, junk, split, text⟩ := ok
  obtain ⟨first, last, whole, length⟩ := exists_split (before ++ after) (n := cursor) (by
    rw [length_append, ← split.len]
    exact inside)
  refine ⟨first, last, junk, ?_, whole ▸ text⟩
  rw [← length]
  exact split.move whole

theorem insert {s : List UInt8} (clean : 0 ∉ s) : (insertBytes nbuf line s).1.Ok nbuf := by
  by_cases full : nbuf ≤ line.len + s.length
  · rw [insertBytes_full full]
    exact ok
  · obtain ⟨before, after, junk, split, text⟩ := ok
    obtain ⟨next, z, inserted, split'⟩ := split.insert s (Nat.not_le.mp full)
    rw [inserted]
    refine ⟨before ++ s, after, z, split', ?_⟩
    simp only [mem_append, not_or] at text ⊢
    exact ⟨⟨text.1, clean⟩, text.2⟩

theorem delete (order : start ≤ stop) (inside : stop ≤ line.len)
    (fits : cursor ≤ line.len - (stop - start)) :
    Line.Ok nbuf { deleteRange line start stop with cursor } := by
  obtain ⟨before, after, junk, split, text⟩ := ok
  have total : (before ++ after).length = line.len := by rw [length_append, split.len]
  obtain ⟨front, last, whole, length⟩ := exists_split (before ++ after) (n := stop) (by omega)
  obtain ⟨first, gone, rfl, length'⟩ := exists_split front (n := start) (by omega)
  obtain ⟨y, split'⟩ := split.deleteRange first gone last (by rw [whole, append_assoc])
    length'.symm length.symm start length'.symm
  have rest : Line.Ok nbuf { deleteRange line start stop with cursor := start } := by
    refine ⟨first, last, y, split', ?_⟩
    rw [whole] at text
    simp only [mem_append, not_or] at text ⊢
    exact ⟨text.1.1, text.2⟩
  exact rest.move fits

theorem setLine (clean : 0 ∉ src) : (setLine nbuf line src).Ok nbuf := by
  have cut : Shell.setLine nbuf line src = Shell.setLine nbuf line (src.take (nbuf - 1)) := by
    have clean' : 0 ∉ src.take (nbuf - 1) := fun member => clean (mem_of_mem_take member)
    have room := ok.bounds.2
    simp only [Shell.setLine, strlen_text clean, strlen_text clean', length_take]
    by_cases long : nbuf ≤ src.length
    · rw [if_pos long, if_neg (by omega), min_eq_left (by omega), take_take, min_self]
    · rw [if_neg long, if_neg (by omega), min_eq_right (by omega), take_take, min_eq_left (by omega)]
  obtain ⟨before, after, junk, split, text⟩ := ok
  have clean' : 0 ∉ src.take (nbuf - 1) := fun member => clean (mem_of_mem_take member)
  obtain ⟨z, split'⟩ := split.setLine (strlen_text clean') (by
    have room := split.room
    rw [length_take]
    omega)
  rw [cut]
  exact ⟨_, [], z, split', by simpa using clean'⟩

theorem kill : Line.Ok nbuf ⟨line.buf.set 0 0, 0, 0⟩ := by
  obtain ⟨before, after, junk, split, text⟩ := ok
  obtain ⟨z, split'⟩ := split.kill
  exact ⟨[], [], z, split', by simp⟩

theorem enter (more : line.len + 1 < nbuf) :
    Line.Ok nbuf ⟨(line.buf.set line.len newline).set (line.len + 1) 0, line.len + 1, line.cursor⟩ := by
  obtain ⟨before, after, junk, split, text⟩ := ok
  obtain ⟨z, split'⟩ := split.enter more
  refine ⟨before, after ++ [newline], z, split', ?_⟩
  rw [← append_assoc, mem_append, not_or]
  exact ⟨text, by decide⟩

end
end Line.Ok
end Lines

section Cursor
variable (buf : List UInt8)

theorem skipCont_le {pos len : Nat} (inside : pos ≤ len) : skipCont buf pos len ≤ len := by
  fun_induction skipCont buf pos len with
  | case1 pos more ih => exact ih more.1
  | case2 pos stop => exact inside

theorem utf8Next_le (pos len : Nat) : utf8Next buf pos len ≤ len := by
  unfold utf8Next
  split_ifs with past
  · exact le_rfl
  · exact skipCont_le buf (by omega)

theorem backCont_le (pos : Nat) : backCont buf pos ≤ pos := by
  induction pos with
  | zero => exact le_rfl
  | succ pos ih =>
    rw [backCont]
    split_ifs
    · omega
    · exact le_rfl

theorem utf8Prev_le (pos : Nat) : utf8Prev buf pos ≤ pos :=
  le_trans (backCont_le buf _) (Nat.sub_le _ _)

theorem utf8RuneWidth_le (r : Nat) : utf8RuneWidth r ≤ 2 := by
  unfold utf8RuneWidth
  split_ifs <;> decide

theorem utf8TextWidth_le (start stop : Nat) : utf8TextWidth buf start stop ≤ 2 * (stop - start) := by
  fun_induction utf8TextWidth buf start stop with
  | case1 start more next ih =>
    have forward : start < next := lt_utf8Next more
    have one := utf8RuneWidth_le (utf8Decode buf start next)
    have past := utf8Next_le buf start stop
    omega
  | case2 start done => exact Nat.zero_le _

end Cursor

section Inside
variable {nbuf : Nat} {line : Line}

theorem length_termAppendUintLoop (k : Nat) {value : Nat} (small : value < 10 ^ k) :
    (termAppendUintLoop value).length ≤ k := by
  induction k generalizing value with
  | zero =>
    have zero : value = 0 := by omega
    rw [zero, termAppendUintLoop, if_pos rfl]
    exact le_rfl
  | succ k ih =>
    rw [termAppendUintLoop]
    split_ifs with zero
    · exact Nat.zero_le _
    · rw [length_cons]
      have rest := @ih (value / 10) (by rw [Nat.pow_succ] at small; omega)
      omega

theorem length_redraw (ok : line.Ok nbuf) (fits : nbuf ≤ 100) : (redraw line).length ≤ 112 := by
  have bounds := ok.bounds
  have text := ok.text.2
  have wide := utf8TextWidth_le line.buf line.cursor line.len
  unfold redraw
  dsimp only
  generalize utf8TextWidth line.buf line.cursor line.len = tail at wide
  simp only [length_append, text, length_cons, length_nil]
  split_ifs with some
  · have digits := length_termAppendUintLoop 3 (by omega : tail < 10 ^ 3)
    rw [length_append, length_append, termAppendUint, if_neg (by omega), length_reverse]
    simp only [length_cons, length_nil]
    omega
  · rw [length_nil]
    omega

def AllInside (nbuf : Nat) (writes : List Write) : Prop := ∀ w ∈ writes, w.Inside nbuf

theorem allInside_nil : AllInside nbuf [] := by
  intro w member
  cases member

theorem allInside_append {a b : List Write} :
    AllInside nbuf (a ++ b) ↔ AllInside nbuf a ∧ AllInside nbuf b := forall_mem_append

theorem allInside_cons {w : Write} {rest : List Write} :
    AllInside nbuf (w :: rest) ↔ w.start + w.length ≤ w.array.size nbuf ∧ AllInside nbuf rest :=
  forall_mem_cons

theorem seq_inside (place : i < 3) {rest : List Write} (inside : AllInside nbuf rest) :
    AllInside nbuf (⟨.seq, i, 1⟩ :: rest) :=
  allInside_cons.mpr ⟨place, inside⟩

theorem insertWrites_inside (ok : line.Ok nbuf) (s : List UInt8) : AllInside nbuf (insertWrites nbuf line s) := by
  have bounds := ok.bounds
  unfold insertWrites
  split_ifs with full
  · exact allInside_nil
  · simp only [allInside_cons, Place.size]
    exact ⟨by omega, by omega, by omega, allInside_nil⟩

theorem deleteWrites_inside (ok : line.Ok nbuf) (order : start ≤ stop)
    (inside : stop ≤ line.len) : AllInside nbuf (deleteWrites line start stop) := by
  have bounds := ok.bounds
  simp only [deleteWrites, allInside_cons, Place.size]
  exact ⟨by omega, by omega, allInside_nil⟩

theorem setLineWrites_inside (some : 0 < nbuf) (src : List UInt8) : AllInside nbuf (setLineWrites nbuf src) := by
  simp only [setLineWrites, allInside_cons, Place.size]
  split_ifs with long
  · exact ⟨by omega, by omega, allInside_nil⟩
  · exact ⟨by omega, by omega, allInside_nil⟩

theorem redrawWrites_inside (ok : line.Ok nbuf) (fits : nbuf ≤ 100) : AllInside nbuf (redrawWrites line) := by
  have length := length_redraw ok fits
  simp only [redrawWrites, allInside_cons, Place.size]
  exact ⟨by omega, allInside_nil⟩

theorem saveWrites_inside {history : List (List UInt8)} (entries : IsHistory history) (ok : line.Ok nbuf)
    (fits : nbuf ≤ 100) : AllInside nbuf (saveWrites history line.buf line.len) := by
  have room := ok.bounds.2
  obtain ⟨len, cut⟩ : ∃ len, len = if 0 < line.len ∧ byte line.buf (line.len - 1) = newline
      then line.len - 1 else line.len := ⟨_, rfl⟩
  have short : len ≤ 99 := by split_ifs at cut <;> omega
  have strings : ∀ i, strlen (history.getD (i + 1) []) + 1 ≤ 100 := by
    intro i
    by_cases inside : i + 1 < history.length
    · have member := getElem_mem inside
      have length := entries.short _ member
      rw [getD_eq_getElem _ _ inside, strlen_text (entries.text _ member)]
      omega
    · rw [getD_eq_default _ _ (by omega)]
      decide
  unfold saveWrites
  rw [← cut]
  dsimp only
  split_ifs with blank same full
  · exact allInside_nil
  · exact allInside_nil
  · rw [allInside_append]
    constructor
    · intro w member
      obtain ⟨i, inside, rfl⟩ := mem_map.mp member
      rw [mem_range] at inside
      have one := strings i
      simp only [Write.Inside, Place.size]
      rw [if_pos (by omega)]
      omega
    · have last : HISTSIZE - 1 < HISTSIZE := by decide
      simp only [allInside_cons, Place.size, if_pos last]
      exact ⟨by omega, by omega, allInside_nil⟩
  · have count := entries.count
    simp only [allInside_cons, Place.size]
    rw [if_pos (by omega)]
    exact ⟨by omega, by omega, allInside_nil⟩

end Inside

section Handlers
variable {nbuf : Nat} {s : Getcmd}

section
variable (editing : Editing nbuf s)
include editing

theorem Editing.bounded : Bounded nbuf s := by
  have bounds := editing.line.bounds
  exact ⟨bounds.1, by omega, editing.line.size, editing.line.nul, fun i inside => editing.line.solid inside,
    editing.hpos, editing.history⟩

theorem Editing.next {line : Line} {input : List UInt8}
    {offers : List (List UInt8)} (out : List UInt8) (ok : line.Ok nbuf) (read : 0 ∉ input)
    (offered : ∀ o ∈ offers, 0 ∉ o) : Editing nbuf { s with line, input, offers, out } :=
  ⟨ok, editing.hpos, editing.history, editing.draft, read, offered⟩

theorem Editing.entry (i : Nat) : 0 ∉ s.history.getD i [] := by
  by_cases inside : i < s.history.length
  · rw [getD_eq_getElem _ _ inside]
    exact editing.history.text _ (getElem_mem inside)
  · rw [getD_eq_default _ _ (by omega)]
    simp

theorem Editing.up (fits : nbuf ≤ 100) :
    Editing nbuf (s.up nbuf) ∧ AllInside nbuf (s.upWrites nbuf) := by
  have bounds := editing.line.bounds
  have line := editing.line.setLine (editing.entry (s.hpos - 1))
  have text := editing.line.text
  unfold Getcmd.up Getcmd.upWrites
  split_ifs with first saved
  · exact ⟨editing, allInside_nil⟩
  · refine ⟨⟨line, ?_, editing.history, editing.draft, editing.input, editing.offers⟩, ?_⟩
    · have hpos := editing.hpos
      change s.hpos - 1 ≤ s.history.length
      omega
    · rw [allInside_append, allInside_append]
      exact ⟨⟨allInside_nil, setLineWrites_inside (by omega) _⟩, redrawWrites_inside line fits⟩
  · refine ⟨⟨line, ?_, editing.history, ⟨text.1, ?_⟩, editing.input, editing.offers⟩, ?_⟩
    · have hpos := editing.hpos
      change s.hpos - 1 ≤ s.history.length
      omega
    · change (slice s.line.buf 0 s.line.len).length < nbuf
      omega
    · rw [allInside_append, allInside_append]
      refine ⟨⟨?_, setLineWrites_inside (by omega) _⟩, redrawWrites_inside line fits⟩
      simp only [allInside_cons, Place.size]
      exact ⟨by omega, by omega, allInside_nil⟩

theorem Editing.down (fits : nbuf ≤ 100) :
    Editing nbuf (s.down nbuf) ∧ AllInside nbuf (s.downWrites nbuf) := by
  have bounds := editing.line.bounds
  obtain ⟨src, shown⟩ : ∃ src,
      src = if s.hpos + 1 = s.history.length then s.draft else s.history.getD (s.hpos + 1) [] := ⟨_, rfl⟩
  have clean : 0 ∉ src := by
    rw [shown]
    split_ifs
    · exact editing.draft.1
    · exact editing.entry _
  have line := editing.line.setLine clean
  unfold Getcmd.down Getcmd.downWrites
  dsimp only
  rw [← shown]
  split_ifs with more
  · refine ⟨⟨line, more, editing.history, editing.draft, editing.input, editing.offers⟩, ?_⟩
    rw [allInside_append]
    exact ⟨setLineWrites_inside (by omega) _, redrawWrites_inside line fits⟩
  · exact ⟨editing, allInside_nil⟩

theorem Editing.right : Editing nbuf s.right :=
  editing.next _ (editing.line.move (utf8Next_le _ _ _)) editing.input editing.offers

theorem Editing.left : Editing nbuf s.left :=
  editing.next _ (editing.line.move (le_trans (utf8Prev_le _ _) editing.line.bounds.1)) editing.input
    editing.offers

theorem Editing.delete : Editing nbuf s.delete ∧ AllInside nbuf s.removeWrites := by
  have bounds := editing.line.bounds
  have clean := editing.input
  unfold Getcmd.delete Getcmd.removeWrites
  cases input : s.input with
  | nil => exact ⟨editing, allInside_nil⟩
  | cons last rest =>
    rw [input, mem_cons, not_or] at clean
    dsimp only
    split_ifs with key
    · have past : s.line.cursor < utf8Next s.line.buf s.line.cursor s.line.len := lt_utf8Next key.2
      have inside := utf8Next_le s.line.buf s.line.cursor s.line.len
      refine ⟨editing.next _ (editing.line.delete past.le inside ?_) clean.2 editing.offers,
        seq_inside (by decide) (deleteWrites_inside editing.line past.le inside)⟩
      split_ifs <;> omega
    · exact ⟨editing.next s.out editing.line clean.2 editing.offers,
        seq_inside (by decide) allInside_nil⟩

theorem Editing.escape (fits : nbuf ≤ 100) :
    Editing nbuf (s.escape nbuf) ∧ AllInside nbuf (s.escapeWrites nbuf) := by
  have clean := editing.input
  unfold Getcmd.escape Getcmd.escapeWrites
  cases input : s.input with
  | nil => exact ⟨editing.next s.out editing.line (by simp) editing.offers, allInside_nil⟩
  | cons first rest =>
    cases rest with
    | nil =>
      exact ⟨editing.next s.out editing.line (by simp) editing.offers,
        seq_inside (by decide) allInside_nil⟩
    | cons second rest =>
      simp only [input, mem_cons, not_or] at clean
      have read : Editing nbuf { s with input := rest } :=
        editing.next s.out editing.line clean.2.2 editing.offers
      have two : ∀ {rest : List Write}, AllInside nbuf rest →
          AllInside nbuf (⟨.seq, 0, 1⟩ :: ⟨.seq, 1, 1⟩ :: rest) := fun inside =>
        seq_inside (by decide) (seq_inside (by decide) inside)
      dsimp only
      split_ifs with up down right three left three
      · exact ⟨(read.up fits).1, two (read.up fits).2⟩
      · exact ⟨(read.down fits).1, two (read.down fits).2⟩
      · exact absurd (right.2.symm.trans three.2) (by decide)
      · exact ⟨read.right, two allInside_nil⟩
      · exact absurd (left.2.symm.trans three.2) (by decide)
      · exact ⟨read.left, two allInside_nil⟩
      · exact ⟨read.delete.1, two read.delete.2⟩
      · exact ⟨read, two allInside_nil⟩

theorem Editing.inserted (fits : nbuf ≤ 100) {new : List UInt8}
    (clean : 0 ∉ new) (shown : List UInt8) :
    Editing nbuf (s.inserted (insertBytes nbuf s.line new).1 (insertBytes nbuf s.line new).2 shown) ∧
      AllInside nbuf (insertWrites nbuf s.line new ++
        s.insertedWrites (insertBytes nbuf s.line new).1 (insertBytes nbuf s.line new).2) := by
  have line := editing.line.insert clean
  have next : ∀ out, Editing nbuf { s with line := (insertBytes nbuf s.line new).1, out } := fun out =>
    editing.next out line editing.input editing.offers
  refine ⟨?_, allInside_append.mpr ⟨insertWrites_inside editing.line new, ?_⟩⟩
  · unfold Getcmd.inserted
    split_ifs
    · exact next s.out
    · exact next _
    · exact next _
  · unfold Getcmd.insertedWrites
    split_ifs
    · exact allInside_nil
    · exact redrawWrites_inside line fits

theorem Editing.tab (fits : nbuf ≤ 100) :
    Editing nbuf (s.tab nbuf) ∧ AllInside nbuf (s.tabWrites nbuf) := by
  have clean : 0 ∉ s.offers.headD [] := by
    cases offers : s.offers with
    | nil => simp
    | cons offer rest => exact editing.offers offer (by simp [offers])
  have read : Editing nbuf { s with offers := s.offers.tail } :=
    editing.next s.out editing.line editing.input fun offer member =>
      editing.offers offer (mem_of_mem_tail member)
  exact read.inserted fits clean _

theorem Editing.kill : Editing nbuf s.killLine :=
  editing.next _ editing.line.kill editing.input editing.offers

theorem Editing.backspace : Editing nbuf s.backspace ∧ AllInside nbuf s.backspaceWrites := by
  have bounds := editing.line.bounds
  have back := utf8Prev_le s.line.buf s.line.cursor
  unfold Getcmd.backspace Getcmd.backspaceWrites
  split_ifs with some
  · exact ⟨editing.next _ (editing.line.delete back bounds.1 (by omega)) editing.input editing.offers,
      deleteWrites_inside editing.line back bounds.1⟩
  · exact ⟨editing, allInside_nil⟩

end

theorem utf8InputLen_le (u : UInt8) : utf8InputLen u ≤ 4 := by
  unfold utf8InputLen
  split_ifs <;> decide

theorem Editing.rune (editing : Editing nbuf s) (fits : nbuf ≤ 100) {c : UInt8} (solid : 0 ≠ c) :
    Editing nbuf (s.rune nbuf c) ∧ AllInside nbuf (s.runeWrites nbuf c) := by
  have short := utf8InputLen_le c
  have clean : 0 ∉ c :: s.input.take (utf8InputLen c - 1) := by
    rw [mem_cons, not_or]
    exact ⟨solid, fun member => editing.input (mem_of_mem_take member)⟩
  have read : Editing nbuf { s with input := s.input.drop (utf8InputLen c - 1) } :=
    editing.next s.out editing.line (fun member => editing.input (mem_of_mem_drop member)) editing.offers
  refine ⟨(read.inserted fits clean _).1, allInside_append.mpr ⟨?_, (read.inserted fits clean []).2⟩⟩
  intro w member
  obtain ⟨i, inside, rfl⟩ := mem_map.mp member
  rw [mem_range, length_take] at inside
  change i + 1 ≤ 4
  omega

theorem Editing.enter (editing : Editing nbuf s) (more : s.line.len + 1 < nbuf) : Editing nbuf s.enter :=
  editing.next _ (editing.line.enter more) editing.input editing.offers

end Handlers

section History
variable {nbuf : Nat} {line : Line}

theorem isHistory_nil : IsHistory [] :=
  ⟨by decide, by simp, by simp, by simp, isChain_nil⟩

theorem IsHistory.snoc (kept : IsHistory entries) (more : entries.length < HISTSIZE)
    {e : List UInt8} (text : 0 ∉ e) (short : e.length ≤ 99) (solid : ¬∀ c ∈ e, c = 0x20 ∨ c = TAB)
    (differs : entries.getLast? ≠ some e) : IsHistory (entries ++ [e]) where
  count := by
    rw [length_append, length_singleton]
    exact more
  text := forall_mem_append.mpr ⟨kept.text, forall_mem_singleton.mpr text⟩
  short := forall_mem_append.mpr ⟨kept.short, forall_mem_singleton.mpr short⟩
  solid := forall_mem_append.mpr ⟨kept.solid, forall_mem_singleton.mpr solid⟩
  differ := by
    rw [isChain_append]
    refine ⟨kept.differ, isChain_singleton e, ?_⟩
    rintro x last y first rfl
    rw [head?_cons, Option.mem_some_iff] at first
    rw [first] at differs
    exact differs last

theorem IsHistory.drop (kept : IsHistory entries) (n : Nat) : IsHistory (entries.drop n) where
  count := by
    rw [length_drop]
    exact le_trans (Nat.sub_le _ _) kept.count
  text e member := kept.text e (mem_of_mem_drop member)
  short e member := kept.short e (mem_of_mem_drop member)
  solid e member := kept.solid e (mem_of_mem_drop member)
  differ := kept.differ.drop n

theorem IsHistory.save {history : List (List UInt8)} (kept : IsHistory history) (ok : line.Ok nbuf)
    (fits : nbuf ≤ 100) : IsHistory (saveHistory history line.buf line.len) ∧
      history.length ≤ (saveHistory history line.buf line.len).length := by
  have room := ok.bounds.2
  obtain ⟨len, cut⟩ : ∃ len, len = if 0 < line.len ∧ byte line.buf (line.len - 1) = newline
      then line.len - 1 else line.len := ⟨_, rfl⟩
  have less : len ≤ line.len := by split_ifs at cut <;> omega
  have part : slice line.buf 0 len = (slice line.buf 0 line.len).take len := by
    simp only [slice, Nat.sub_zero, take_take, min_eq_left less]
  have text : 0 ∉ slice line.buf 0 len := fun member =>
    ok.text.1 (mem_of_mem_take (part ▸ member))
  have short : (slice line.buf 0 len).length ≤ 99 := by
    rw [part, length_take, ok.text.2]
    omega
  unfold saveHistory
  rw [← cut]
  dsimp only
  split_ifs with blank same full
  · exact ⟨kept, le_rfl⟩
  · exact ⟨kept, le_rfl⟩
  · have solid : ¬∀ c ∈ slice line.buf 0 len, c = 0x20 ∨ c = TAB := by
      simpa [blankLine] using (not_or.mp blank).2
    have many : 0 < HISTSIZE := by decide
    refine ⟨(kept.drop 1).snoc ?_ text short solid ?_, ?_⟩
    · rw [length_drop]
      omega
    · rw [getLast?_drop, if_neg (by rw [full]; decide)]
      exact same
    · simp only [length_append, length_drop, length_singleton]
      omega
  · have solid : ¬∀ c ∈ slice line.buf 0 len, c = 0x20 ∨ c = TAB := by
      simpa [blankLine] using (not_or.mp blank).2
    refine ⟨kept.snoc (lt_of_le_of_ne kept.count full) text short solid same, ?_⟩
    rw [length_append]
    omega

end History

section Turns
variable {nbuf : Nat} {s : Getcmd}

theorem Editing.finish (editing : Editing nbuf s) (fits : nbuf ≤ 100) : Editing nbuf (finish s).state := by
  have saved := editing.history.save editing.line fits
  exact ⟨editing.line, editing.hpos.trans saved.2, saved.1, editing.draft, editing.input, editing.offers⟩

theorem Editing.turn (editing : Editing nbuf s) (fits : nbuf ≤ 100) :
    Editing nbuf (turn nbuf s).state ∧ AllInside nbuf (turnWrites nbuf s) := by
  unfold Shell.turn turnWrites
  by_cases full : nbuf ≤ s.line.len + 1
  · rw [if_pos full, if_pos full]
    exact ⟨editing.finish fits, saveWrites_inside editing.history editing.line fits⟩
  · rw [if_neg full, if_neg full]
    have clean := editing.input
    cases input : s.input with
    | nil => exact ⟨editing, allInside_nil⟩
    | cons c rest =>
      rw [input, mem_cons, not_or] at clean
      have read : Editing nbuf { s with input := rest } :=
        editing.next s.out editing.line clean.2 editing.offers
      have size := editing.line.bounds
      dsimp only
      split_ifs
      · exact read.escape fits
      · exact read.tab fits
      · exact ⟨read, allInside_nil⟩
      · refine ⟨read.kill, allInside_cons.mpr ⟨?_, redrawWrites_inside read.kill.line fits⟩⟩
        change 0 + 1 ≤ nbuf
        omega
      · exact read.backspace
      · have entered := read.enter (Nat.not_le.mp full)
        refine ⟨entered.finish fits, ?_⟩
        rw [allInside_cons, allInside_cons]
        refine ⟨?_, ?_, saveWrites_inside entered.history entered.line fits⟩
        · change s.line.len + 1 ≤ nbuf
          omega
        · change s.line.len + 1 + 1 ≤ nbuf
          omega
      · exact read.rune fits clean.1

theorem Editing.turns (editing : Editing nbuf s) (fits : nbuf ≤ 100) (n : Nat) :
    Editing nbuf (turns nbuf n s).state := by
  have run := turns_invariant (P := Editing nbuf) (Q := fun _ t => Editing nbuf t)
    (fun s t before turned => by
      have after := (before.turn fits).1
      rw [turned] at after
      exact after)
    (fun s value t before turned => by
      have after := (before.turn fits).1
      rw [turned] at after
      exact after) n editing
  cases ran : Shell.turns nbuf n s with
  | again t => exact run.1 t ran
  | returned value t => exact run.2 value t ran

end Turns

section Calls
variable {nbuf : Nat} {history : List (List UInt8)}

theorem Typed.editing (t : Typed) (some : 0 < nbuf) (entries : IsHistory history) :
    Editing nbuf (t.getcmd nbuf history) where
  line := ⟨[], [], List.replicate (nbuf - 1) 0,
    ⟨by rw [nil_append, nil_append, ← replicate_succ, Nat.sub_add_cancel some]; rfl,
      rfl, rfl, some, length_replicate⟩, by simp⟩
  hpos := le_rfl
  history := entries
  draft := ⟨not_mem_nil, some⟩
  input := t.typed
  offers := t.offered

theorem isHistory_after (some : 0 < nbuf) (fits : nbuf ≤ 100) (entries : IsHistory history)
    (lines : List Typed) : IsHistory (historyAfter nbuf history lines) :=
  historyAfter_invariant (P := IsHistory) (fun t _ kept => ((t.editing some kept).turns fits _).history) entries lines

theorem Typed.reached (t : Typed) (some : 0 < nbuf) (fits : nbuf ≤ 100) (entries : IsHistory history)
    (earlier : List Typed) {n : Nat} {s : Getcmd}
    (reached : turns nbuf n (t.getcmd nbuf (historyAfter nbuf history earlier)) = .again s) :
    Editing nbuf s := by
  have editing := (t.editing some (isHistory_after some fits entries earlier)).turns fits n
  rw [reached] at editing
  exact editing

/-- After earlier lines, whatever is typed and after any number of turns, no write of the next
turn is outside its array. -/
theorem editor_in_bounds (some : 0 < nbuf) (fits : nbuf ≤ 100) (entries : IsHistory history)
    (earlier : List Typed) (t : Typed) (n : Nat) :
    AllInside nbuf (startWrites nbuf) ∧
      Bounded nbuf (turns nbuf n (t.getcmd nbuf (historyAfter nbuf history earlier))).state ∧
      ∀ s, turns nbuf n (t.getcmd nbuf (historyAfter nbuf history earlier)) = .again s →
        AllInside nbuf (turnWrites nbuf s) := by
  have start := t.editing some (isHistory_after some fits entries earlier)
  have reached := start.turns fits n
  refine ⟨?_, reached.bounded, fun s ran => ?_⟩
  · simp only [startWrites, allInside_cons, Place.size]
    exact ⟨by omega, by omega, allInside_nil⟩
  · rw [ran] at reached
    exact (reached.turn fits).2

theorem editor_in_bounds_up :
    (0 < 100 ∧ 100 ≤ 100 ∧ IsHistory []) ∧ ∃ up : Typed, up.input = [ESC, bracket, 0x41] ∧
      ∃ ls : Typed, ls.input = [0x6C, 0x73, newline] ∧
        historyAfter 100 [] [ls] = [[0x6C, 0x73]] ∧
        Bounded 100 (turns 100 1 (up.getcmd 100 (historyAfter 100 [] [ls]))).state := by
  refine ⟨⟨by decide, by decide, isHistory_nil⟩, ⟨[ESC, bracket, 0x41], [], by decide, by simp⟩, rfl,
    ⟨[0x6C, 0x73, newline], [], by decide, by simp⟩, rfl, by decide +kernel, ?_⟩
  exact (editor_in_bounds (by decide) (by decide) isHistory_nil _ _ 1).2.1

end Calls
end Xv6Lab.Shell
