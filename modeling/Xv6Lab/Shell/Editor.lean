import Xv6Lab.Shell.Terminal

/-!
The line editor of the shell (getcmd in sh.c). One turn of its loop is one function
of the state; the bytes still to be read, the strings that tab completion will offer
and the bytes written to the terminal are part of the state. A C string is the list
of its bytes before the NUL.
-/

namespace Xv6Lab.Shell

def HISTSIZE : Nat := 16

/-- sizeof(buf) in main. -/
def LINE : Nat := 100

def PROMPT : List UInt8 := [0x24, 0x20]

def ctrl (x : UInt8) : UInt8 := x - 0x40

def TAB : UInt8 := 0x09

def newline : UInt8 := 0x0A

def commandChar (c : UInt8) : Bool := c ≠ 0 ∧ c ≠ 0x20 ∧ c ≠ TAB ∧ c ≠ 0x0D ∧ c ≠ newline

def blankChar (c : UInt8) : Bool := c = 0x20 ∨ c = TAB ∨ c = 0x0D ∨ c = newline

def quoteChar (c : UInt8) : Bool := c = 0x27 ∨ c = 0x22

structure Line where
  buf : List UInt8
  len : Nat
  cursor : Nat
deriving DecidableEq, Repr

def memmove (buf : List UInt8) (dst : Nat) (bytes : List UInt8) : List UInt8 :=
  buf.take dst ++ (bytes ++ buf.drop (dst + bytes.length))

def strlen (s : List UInt8) : Nat := (s.takeWhile (· ≠ 0)).length

def redraw (line : Line) : List UInt8 :=
  let tail := utf8TextWidth line.buf line.cursor line.len
  [0x0D, ESC, bracket, 0x32, 0x4B, 0x24, 0x20] ++ slice line.buf 0 line.len ++
    if 0 < tail then [ESC, bracket] ++ termAppendUint tail ++ [0x44] else []

def redrawFrom (line : Line) : List UInt8 :=
  let tail := utf8TextWidth line.buf line.cursor line.len
  slice line.buf line.cursor line.len ++ termClearEol ++ termMoveCursor 0x44 tail

def insertBytes (nbuf : Nat) (line : Line) (s : List UInt8) : Line × Nat :=
  let n := s.length
  if nbuf ≤ line.len + n then (line, 0)
  else
    let buf := memmove line.buf (line.cursor + n) (slice line.buf line.cursor line.len)
    let buf := memmove buf line.cursor s
    (⟨buf.set (line.len + n) 0, line.len + n, line.cursor + n⟩, n)

def deleteRange (line : Line) (start stop : Nat) : Line :=
  let buf := memmove line.buf start (slice line.buf stop line.len)
  let len := line.len - (stop - start)
  ⟨buf.set len 0, len, if len < line.cursor then len else line.cursor⟩

def blankLine (buf : List UInt8) (len : Nat) : Bool :=
  (slice buf 0 len).all fun c => c = 0x20 ∨ c = TAB

def saveHistory (history : List (List UInt8)) (buf : List UInt8) (len : Nat) :
    List (List UInt8) :=
  let len := if 0 < len ∧ byte buf (len - 1) = newline then len - 1 else len
  let entry := slice buf 0 len
  if len = 0 ∨ blankLine buf len then history
  else if history.getLast? = some entry then history
  else (if history.length = HISTSIZE then history.drop 1 else history) ++ [entry]

def setLine (nbuf : Nat) (line : Line) (src : List UInt8) : Line :=
  let len := if nbuf ≤ strlen src then nbuf - 1 else strlen src
  ⟨(memmove line.buf 0 (src.take len)).set len 0, len, len⟩

/-- The local variables of getcmd, the history, and what it reads and has written.
offers has the suffix that each call of complete_token inserts, empty for none. -/
structure Getcmd where
  line : Line
  hpos : Nat
  saved : Bool
  draft : List UInt8
  history : List (List UInt8)
  input : List UInt8
  offers : List (List UInt8)
  out : List UInt8
deriving DecidableEq, Repr

namespace Getcmd

def write (s : Getcmd) (bytes : List UInt8) : Getcmd := { s with out := s.out ++ bytes }

/-- The cursor keys of the escape sequence ESC [ A and so on. -/
def up (nbuf : Nat) (s : Getcmd) : Getcmd :=
  if s.hpos = 0 then s
  else
    let draft := if s.saved then s.draft else slice s.line.buf 0 s.line.len
    let line := setLine nbuf s.line (s.history.getD (s.hpos - 1) [])
    { s with draft, saved := true, hpos := s.hpos - 1, line }.write (redraw line)

def down (nbuf : Nat) (s : Getcmd) : Getcmd :=
  if s.hpos < s.history.length then
    let hpos := s.hpos + 1
    let src := if hpos = s.history.length then s.draft else s.history.getD hpos []
    let line := setLine nbuf s.line src
    { s with hpos, line }.write (redraw line)
  else s

def right (s : Getcmd) : Getcmd :=
  let next := utf8Next s.line.buf s.line.cursor s.line.len
  { s with line := { s.line with cursor := next } }.write
    (termMoveCursor 0x43 (utf8TextWidth s.line.buf s.line.cursor next))

def left (s : Getcmd) : Getcmd :=
  let prev := utf8Prev s.line.buf s.line.cursor
  { s with line := { s.line with cursor := prev } }.write
    (termMoveCursor 0x44 (utf8TextWidth s.line.buf prev s.line.cursor))

/-- ESC [ 3 has been read. -/
def delete (s : Getcmd) : Getcmd :=
  match s.input with
  | [] => s
  | last :: input =>
    if last = 0x7E ∧ s.line.cursor < s.line.len then
      let line := deleteRange s.line s.line.cursor
        (utf8Next s.line.buf s.line.cursor s.line.len)
      { s with line, input }.write (redrawFrom line)
    else { s with input }

def escape (nbuf : Nat) (s : Getcmd) : Getcmd :=
  match s.input with
  | first :: second :: input =>
    let s := { s with input }
    if first = bracket ∧ second = 0x41 then s.up nbuf
    else if first = bracket ∧ second = 0x42 then s.down nbuf
    else if first = bracket ∧ second = 0x43 then s.right
    else if first = bracket ∧ second = 0x44 then s.left
    else if first = bracket ∧ second = 0x33 then s.delete
    else s
  | _ => { s with input := [] }

/-- The line after n bytes were inserted. At its end only the new bytes are drawn. -/
def inserted (s : Getcmd) (line : Line) (n : Nat) (new : List UInt8) : Getcmd :=
  if n = 0 then { s with line }
  else if s.line.cursor = s.line.len then { s with line }.write new
  else { s with line }.write (redraw line)

def tab (nbuf : Nat) (s : Getcmd) : Getcmd :=
  let (line, n) := insertBytes nbuf s.line (s.offers.headD [])
  { s with offers := s.offers.tail }.inserted line n
    (slice line.buf s.line.cursor (s.line.cursor + n))

def killLine (s : Getcmd) : Getcmd :=
  let line : Line := ⟨s.line.buf.set 0 0, 0, 0⟩
  { s with line }.write (redraw line)

def backspace (s : Getcmd) : Getcmd :=
  if 0 < s.line.cursor then
    let start := utf8Prev s.line.buf s.line.cursor
    let width := utf8TextWidth s.line.buf start s.line.cursor
    let line := { deleteRange s.line start s.line.cursor with cursor := start }
    { s with line }.write (termMoveCursor 0x44 width ++ redrawFrom line)
  else s

def rune (nbuf : Nat) (c : UInt8) (s : Getcmd) : Getcmd :=
  let more := utf8InputLen c - 1
  let input := c :: s.input.take more
  let (line, n) := insertBytes nbuf s.line input
  { s with input := s.input.drop more }.inserted line n input

def enter (s : Getcmd) : Getcmd :=
  let buf := (s.line.buf.set s.line.len newline).set (s.line.len + 1) 0
  { s with line := ⟨buf, s.line.len + 1, s.line.cursor⟩ }.write [newline]

end Getcmd

inductive Outcome
  | again (s : Getcmd)
  | returned (value : Int) (s : Getcmd)
deriving DecidableEq, Repr

def finish (s : Getcmd) : Outcome :=
  .returned 0 { s with history := saveHistory s.history s.line.buf s.line.len }

def turn (nbuf : Nat) (s : Getcmd) : Outcome :=
  if nbuf ≤ s.line.len + 1 then finish s
  else
    match s.input with
    | [] => .returned (-1) s
    | c :: input =>
      let s := { s with input }
      if c = ESC then .again (s.escape nbuf)
      else if c = TAB then .again (s.tab nbuf)
      else if c = ctrl 0x44 then .returned (-1) s
      else if c = ctrl 0x55 then .again s.killLine
      else if c = ctrl 0x48 ∨ c = 0x7F then .again s.backspace
      else if c = newline ∨ c = 0x0D then finish s.enter
      else .again (s.rune nbuf c)

def turns (nbuf : Nat) : Nat → Getcmd → Outcome
  | 0, s => .again s
  | n + 1, s =>
    match turn nbuf s with
    | .again s => turns nbuf n s
    | .returned value s => .returned value s

def getcmd (nbuf : Nat) (history : List (List UInt8)) (input : List UInt8)
    (offers : List (List UInt8)) : Getcmd where
  line := ⟨List.replicate nbuf 0, 0, 0⟩
  hpos := history.length
  saved := false
  draft := []
  history := history
  input := input
  offers := offers
  out := PROMPT

end Xv6Lab.Shell
