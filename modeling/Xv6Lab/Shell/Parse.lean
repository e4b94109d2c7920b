import Mathlib.Data.List.GetD
import Mathlib.Data.List.TakeWhile
import Xv6Lab.Shell.Line

/-!
The command line is split into words in its own buffer (parsecmd in sh.c). The
reference is a tokenizer of lists.
-/

namespace Xv6Lab.Shell
open List

def MAXARGS : Nat := 10

inductive Access
  | read (i : Nat)
  | write (i : Nat)
deriving DecidableEq, Repr

/-- The local variables of parsecmd, what it has stored in argv, and its accesses so far. -/
structure Parser where
  buf : List UInt8
  src : Nat
  dst : Nat
  argv : List (Option Nat)
  log : List Access
deriving DecidableEq, Repr

namespace Parser

def here (p : Parser) : UInt8 := byte p.buf p.src

def peek (p : Parser) : Parser := { p with log := p.log ++ [.read p.src] }

def skip (p : Parser) : Parser := { p with src := p.src + 1 }

def put (p : Parser) (c : UInt8) : Parser :=
  { p with buf := p.buf.set p.dst c, dst := p.dst + 1, log := p.log ++ [.write p.dst] }

def copy (p : Parser) : Parser := (p.put p.here).skip

section
variable (p : Parser)
include p

@[simp] theorem peek_buf : p.peek.buf = p.buf := rfl

@[simp] theorem peek_src : p.peek.src = p.src := rfl

@[simp] theorem peek_here : p.peek.here = p.here := rfl

@[simp] theorem skip_buf : p.skip.buf = p.buf := rfl

@[simp] theorem skip_src : p.skip.src = p.src + 1 := rfl

@[simp] theorem copy_length : p.copy.buf.length = p.buf.length := length_set

@[simp] theorem copy_src : p.copy.src = p.src + 1 := rfl

end

theorem lt_length {p : Parser} (more : p.here ≠ 0) : p.src < p.buf.length := by
  by_contra past
  exact more (getD_eq_default _ _ (Nat.not_lt.mp past))

theorem lt_length_of_blank {p : Parser} (blank : blankChar p.here = true) : p.src < p.buf.length := by
  refine lt_length ?_
  rintro zero
  rw [zero] at blank
  exact absurd blank (by decide)

def skipBlanks (p : Parser) : Parser :=
  if _h : blankChar p.here then skipBlanks p.peek.skip else p.peek
termination_by p.buf.length - p.src
decreasing_by
  have inside := lt_length_of_blank _h
  simp only [skip_buf, skip_src, peek_buf, peek_src]
  omega

def quoted (quote : UInt8) (p : Parser) : Parser :=
  if _h : p.here ≠ 0 ∧ p.here ≠ quote then quoted quote p.peek.copy else p.peek
termination_by p.buf.length - p.src
decreasing_by
  have inside := lt_length _h.1
  simp only [copy_length, copy_src, peek_buf, peek_src]
  omega

theorem quoted_bounds (quote : UInt8) (p : Parser) :
    (quoted quote p).buf.length = p.buf.length ∧ p.src ≤ (quoted quote p).src := by
  fun_induction quoted quote p with
  | case1 p more ih =>
    simp only [copy_length, copy_src, peek_buf, peek_src] at ih
    omega
  | case2 p stop => exact ⟨rfl, le_rfl⟩

def span (p : Parser) : Parser :=
  let quote := p.here
  let p := quoted quote p.skip
  if p.here = quote then p.skip else p

theorem span_bounds (p : Parser) : (span p).buf.length = p.buf.length ∧ p.src < (span p).src := by
  have bounds := quoted_bounds p.here p.skip
  simp only [skip_buf, skip_src] at bounds
  unfold span
  dsimp only
  split_ifs
  · simp only [skip_buf, skip_src]
    omega
  · omega

def word (p : Parser) : Parser :=
  if _h : p.here ≠ 0 ∧ blankChar p.here = false then
    if quoteChar p.here then word (span p.peek) else word p.peek.copy
  else p.peek
termination_by p.buf.length - p.src
decreasing_by
  · have inside := lt_length _h.1
    have bounds := span_bounds p.peek
    simp only [peek_buf, peek_src] at bounds
    omega
  · have inside := lt_length _h.1
    simp only [copy_length, copy_src, peek_buf, peek_src]
    omega

theorem word_bounds (p : Parser) : (word p).buf.length = p.buf.length ∧ p.src ≤ (word p).src := by
  fun_induction word p with
  | case1 p more quote ih =>
    have bounds := span_bounds p.peek
    simp only [peek_buf, peek_src] at bounds
    omega
  | case2 p more plain ih =>
    simp only [copy_length, copy_src, peek_buf, peek_src] at ih
    omega
  | case3 p stop => exact ⟨rfl, le_rfl⟩

theorem word_progress {p : Parser} (more : p.here ≠ 0) (solid : blankChar p.here = false) :
    p.src < (word p).src := by
  rw [word, dif_pos ⟨more, solid⟩]
  split_ifs
  · have first := span_bounds p.peek
    have rest := word_bounds (span p.peek)
    simp only [peek_src] at first
    omega
  · have rest := word_bounds p.peek.copy
    simp only [copy_src, peek_src] at rest
    omega

theorem skipBlanks_bounds (p : Parser) :
    (skipBlanks p).buf.length = p.buf.length ∧ p.src ≤ (skipBlanks p).src ∧
      blankChar (skipBlanks p).here = false := by
  fun_induction skipBlanks p with
  | case1 p blank ih =>
    simp only [skip_buf, skip_src, peek_buf, peek_src] at ih
    exact ⟨ih.1, by omega, ih.2.2⟩
  | case2 p stop => exact ⟨rfl, le_rfl, Bool.eq_false_iff.mpr stop⟩

/-- One word: its place goes to argv, its bytes to dst, and a NUL after them. -/
def takeWord (p : Parser) : Parser :=
  let p := word { p with argv := p.argv ++ [some p.dst] }
  (if blankChar p.here then p.skip else p).put 0

theorem takeWord_bounds {p : Parser} (more : p.here ≠ 0) (solid : blankChar p.here = false) :
    (takeWord p).buf.length = p.buf.length ∧ p.src < (takeWord p).src := by
  have bounds := word_bounds { p with argv := p.argv ++ [some p.dst] }
  have progress := word_progress (p := { p with argv := p.argv ++ [some p.dst] }) more solid
  unfold takeWord
  dsimp only
  split_ifs
  · exact ⟨length_set.trans bounds.1, Nat.lt_succ_of_lt progress⟩
  · exact ⟨length_set.trans bounds.1, progress⟩

end Parser

inductive Parsed
  | returned (argc : Nat) (p : Parser)
  | panicked (message : String) (p : Parser)
deriving DecidableEq, Repr

def Parser.finish (p : Parser) : Parsed := .returned p.argv.length { p with argv := p.argv ++ [none] }

def parseLoop (p : Parser) : Parsed :=
  if p.here ≠ 0 then
    if _h : p.skipBlanks.here = 0 then p.skipBlanks.finish
    else if MAXARGS - 1 ≤ p.skipBlanks.argv.length then .panicked "too many args" p.skipBlanks
    else parseLoop p.skipBlanks.takeWord
  else p.peek.finish
termination_by p.buf.length - p.src
decreasing_by
  have blanks := p.skipBlanks_bounds
  have taken := Parser.takeWord_bounds _h blanks.2.2
  have inside := Parser.lt_length _h
  omega

def parsecmd (buf : List UInt8) : Parsed := parseLoop ⟨buf, 0, 0, [], []⟩

section Reference

/-- Where the reference tokenizer is: between two words, or in a word of which it has read
some, perhaps after a quote. -/
inductive Mode
  | outside
  | inside (word : List UInt8) (quote : Option UInt8)

def tokenize : Mode → List UInt8 → List (List UInt8)
  | .outside, [] => []
  | .outside, c :: line =>
    if blankChar c then tokenize .outside line
    else if quoteChar c then tokenize (.inside [] (some c)) line
    else tokenize (.inside [c] none) line
  | .inside word _, [] => [word]
  | .inside word none, c :: line =>
    if blankChar c then word :: tokenize .outside line
    else if quoteChar c then tokenize (.inside word (some c)) line
    else tokenize (.inside (word ++ [c]) none) line
  | .inside word (some quote), c :: line =>
    if c = quote then tokenize (.inside word none) line
    else tokenize (.inside (word ++ [c]) (some quote)) line

def words (line : List UInt8) : List (List UInt8) := tokenize .outside line

-- a 'b c'"d" '' "e
example : words [0x61, 0x20, 0x27, 0x62, 0x20, 0x63, 0x27, 0x22, 0x64, 0x22, 0x20, 0x27, 0x27, 0x20, 0x22, 0x65] =
    [[0x61], [0x62, 0x20, 0x63, 0x64], [], [0x65]] := by decide

theorem tokenize_quote (word line : List UInt8) (quote : UInt8) :
    tokenize (.inside word (some quote)) line =
      tokenize (.inside (word ++ line.takeWhile (· ≠ quote)) none) (line.dropWhile (· ≠ quote)).tail := by
  induction line generalizing word with
  | nil => simp [tokenize]
  | cons c line ih =>
    by_cases closed : c = quote
    · simp [tokenize, closed]
    · simp [tokenize, closed, ih]

theorem tokenize_blanks (line : List UInt8) :
    tokenize .outside line = tokenize .outside (line.dropWhile blankChar) := by
  induction line with
  | nil => rfl
  | cons c line ih =>
    by_cases blank : blankChar c = true
    · rw [tokenize, if_pos blank, dropWhile_cons_of_pos blank]
      exact ih
    · rw [dropWhile_cons_of_neg blank]

theorem tokenize_start {c : UInt8} (solid : blankChar c = false) (line : List UInt8) :
    tokenize .outside (c :: line) = tokenize (.inside [] none) (c :: line) := by
  simp [tokenize, solid]

end Reference
end Xv6Lab.Shell
