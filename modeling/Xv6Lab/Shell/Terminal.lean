import Xv6Lab.Shell.Utf8

/-!
What the shell's escape sequences (term.c) do on a terminal: one line of cells and
a cursor.
-/

namespace Xv6Lab.Shell
open List
open UInt8 (ofNat)

def ESC : UInt8 := 0x1B

def bracket : UInt8 := 0x5B

def termAppendUintLoop (value : Nat) : List UInt8 :=
  if value = 0 then [] else ofNat (48 + value % 10) :: termAppendUintLoop (value / 10)
decreasing_by omega

/-- The digits that term_append_uint adds to out. The loop finds the last one first. -/
def termAppendUint (value : Nat) : List UInt8 :=
  if value = 0 then [48] else (termAppendUintLoop value).reverse

def termMoveCursor (dir : UInt8) (width : Nat) : List UInt8 :=
  if width = 0 then [] else [ESC, bracket] ++ termAppendUint width ++ [dir]

def termClearEol : List UInt8 := [ESC, bracket, 0x4B]

inductive Cell
  | blank
  | rune (r : Nat)
  /-- The other columns of a wide character. -/
  | wide
deriving DecidableEq, Repr

/-- pending is the part of an escape sequence or of a character read so far. -/
structure Terminal where
  cells : Nat → Cell
  col : Nat
  pending : List UInt8

namespace Terminal

def empty : Terminal := ⟨fun _ => .blank, 0, []⟩

def print (t : Terminal) (r : Nat) : Terminal where
  cells i :=
    if t.col ≤ i ∧ i < t.col + utf8RuneWidth r then (if i = t.col then .rune r else .wide)
    else t.cells i
  col := t.col + utf8RuneWidth r
  pending := []

def number (digits : List UInt8) : Nat := digits.foldl (fun n d => 10 * n + (d.toNat - 48)) 0

def control (t : Terminal) (digits : List UInt8) (final : UInt8) : Terminal :=
  let n := number digits
  if final = 0x4B then
    { t with cells := fun i => if n = 2 ∨ t.col ≤ i then .blank else t.cells i }
  else if final = 0x43 then { t with col := t.col + max n 1 }
  else if final = 0x44 then { t with col := t.col - max n 1 }
  else t

def scalar : List UInt8 → Nat
  | [a, b] => a.toNat % 32 * 64 + b.toNat % 64
  | [a, b, c] => (a.toNat % 16 * 64 + b.toNat % 64) * 64 + c.toNat % 64
  | [a, b, c, d] => ((a.toNat % 8 * 64 + b.toNat % 64) * 64 + c.toNat % 64) * 64 + d.toNat % 64
  | a :: _ => a.toNat
  | [] => 0

def size (lead : UInt8) : Nat :=
  if lead < 0xC0 then 1 else if lead < 0xE0 then 2 else if lead < 0xF0 then 3 else 4

def put (t : Terminal) (b : UInt8) : Terminal :=
  match t.pending with
  | [] =>
    if b = 0x0D then { t with col := 0 }
    else if b = ESC ∨ 1 < size b then { t with pending := [b] }
    else t.print b.toNat
  | first :: read =>
    if first = ESC then
      match read with
      | [] => { t with pending := if b = bracket then [ESC, bracket] else [] }
      | _ :: digits =>
        if 48 ≤ b ∧ b < 58 then { t with pending := t.pending ++ [b] }
        else { t.control digits b with pending := [] }
    else if read.length + 2 < size first then { t with pending := t.pending ++ [b] }
    else t.print (scalar (first :: read ++ [b]))

def feed (t : Terminal) (bytes : List UInt8) : Terminal := bytes.foldl put t

@[simp] theorem feed_nil (t : Terminal) : t.feed [] = t := rfl

@[simp] theorem feed_cons (t : Terminal) (b : UInt8) (bytes : List UInt8) :
    t.feed (b :: bytes) = (t.put b).feed bytes := rfl

@[simp] theorem feed_append (t : Terminal) (a b : List UInt8) :
    t.feed (a ++ b) = (t.feed a).feed b := foldl_append

section Characters

theorem size_one : ∀ x < 128, size (ofNat x) = 1 ∧ (ofNat x).toNat = x ∧
    (ofNat x = 0x0D → x = 0x0D) ∧ (ofNat x = ESC → x = 0x1B) := by decide

theorem size_two : ∀ x < 32, size (ofNat (x + 192)) = 2 ∧
    (ofNat (x + 192)).toNat % 32 = x := by decide

theorem size_three : ∀ x < 16, size (ofNat (x + 224)) = 3 ∧
    (ofNat (x + 224)).toNat % 16 = x := by decide

theorem size_four : ∀ x < 8, size (ofNat (x + 240)) = 4 ∧
    (ofNat (x + 240)).toNat % 8 = x := by decide

theorem rest_bits : ∀ x < 64, (ofNat (x + 128)).toNat % 64 = x := by decide

theorem not_control_of_size {b : UInt8} (long : 1 < size b) : b ≠ 0x0D ∧ b ≠ ESC := by
  constructor <;> rintro rfl <;> exact absurd long (by decide)

theorem feed_long {t : Terminal} (ready : t.pending = []) {lead last : UInt8} (read : List UInt8)
    (long : size lead = read.length + 2) :
    t.feed (lead :: read ++ [last]) = t.print (scalar (lead :: read ++ [last])) := by
  obtain ⟨carriage, escape⟩ := not_control_of_size (b := lead) (by omega)
  have held : ∀ more, more.length ≤ read.length →
      t.feed (lead :: more) = { t with pending := lead :: more } := by
    intro more short
    induction more using List.reverseRecOn with
    | nil => simp [put, ready, carriage, long]
    | append_singleton more b ih =>
      rw [length_append, length_singleton] at short
      rw [← cons_append, feed_append, ih (by omega), feed_cons, feed_nil]
      simp only [put, if_neg escape]
      rw [if_pos (by omega)]
  rw [feed_append, held read le_rfl, feed_cons, feed_nil]
  simp only [put, if_neg escape]
  rw [if_neg (by omega)]
  rfl

theorem feed_char {t : Terminal} (ready : t.pending = []) {c : Char} (printable : 0x20 ≤ c.toNat) :
    t.feed (String.utf8EncodeChar c) = t.print c.toNat := by
  have bound := char_lt c
  rw [String.utf8EncodeChar.eq_1]
  change 0x20 ≤ c.val.toNat at printable
  change _ = t.print c.val.toNat
  generalize c.val.toNat = v at bound printable
  split_ifs with one two three
  · obtain ⟨short, value, carriage, escape⟩ := size_one v (by omega)
    rw [feed_cons, feed_nil]
    simp only [put, ready]
    rw [if_neg (fun h => by have := carriage h; omega), if_neg, value]
    rintro (h | h)
    · have := escape h
      omega
    · omega
  · obtain ⟨long, bits⟩ := size_two (v / 64 % 32) (by omega)
    refine (feed_long ready [] long).trans ?_
    simp only [cons_append, nil_append, scalar, bits, rest_bits (v % 64) (by omega)]
    congr 1
    omega
  · obtain ⟨long, bits⟩ := size_three (v / 4096 % 16) (by omega)
    refine (feed_long ready [_] long).trans ?_
    simp only [cons_append, nil_append, scalar, bits, rest_bits (v % 64) (by omega),
      rest_bits (v / 64 % 64) (by omega)]
    congr 1
    omega
  · obtain ⟨long, bits⟩ := size_four (v / 262144 % 8) (by omega)
    refine (feed_long ready [_, _] long).trans ?_
    simp only [cons_append, nil_append, scalar, bits, rest_bits (v % 64) (by omega),
      rest_bits (v / 64 % 64) (by omega), rest_bits (v / 4096 % 64) (by omega)]
    congr 1
    omega

end Characters

section Texts

def prints (t : Terminal) (text : List Char) : Terminal :=
  text.foldl (fun t c => t.print c.toNat) t

@[simp] theorem prints_nil (t : Terminal) : t.prints [] = t := rfl

@[simp] theorem prints_cons (t : Terminal) (c : Char) (text : List Char) :
    t.prints (c :: text) = (t.print c.toNat).prints text := rfl

theorem prints_append (t : Terminal) (a b : List Char) :
    t.prints (a ++ b) = (t.prints a).prints b := foldl_append

@[simp] theorem prints_col (t : Terminal) (text : List Char) :
    (t.prints text).col = t.col + width text := by
  induction text generalizing t with
  | nil => rfl
  | cons c text ih => simp [ih, print, Nat.add_assoc]

theorem prints_pending {t : Terminal} (ready : t.pending = []) (text : List Char) :
    (t.prints text).pending = [] := by
  induction text generalizing t with
  | nil => exact ready
  | cons c text ih => exact ih rfl

theorem feed_text {t : Terminal} (ready : t.pending = []) {text : List Char}
    (printable : ∀ c ∈ text, 0x20 ≤ c.toNat) : t.feed (encode text) = t.prints text := by
  induction text generalizing t with
  | nil => rfl
  | cons c text ih =>
    rw [forall_mem_cons] at printable
    rw [encode_cons, feed_append, feed_char ready printable.1, ih rfl printable.2, prints_cons]

theorem prints_cells_congr {t t' : Terminal} (text : List Char) (col : t.col = t'.col) {i : Nat}
    (outside : ¬(t.col ≤ i ∧ i < t.col + width text) → t.cells i = t'.cells i) :
    (t.prints text).cells i = (t'.prints text).cells i := by
  induction text generalizing t t' with
  | nil => exact outside (by simp)
  | cons c text ih =>
    refine ih (by simp [print, col]) fun beyond => ?_
    simp only [print, col] at beyond ⊢
    split_ifs with first
    · rfl
    · rfl
    · refine outside ?_
      rw [col, width_cons]
      omega

theorem prints_cells_outside (t : Terminal) (text : List Char) {i : Nat}
    (outside : i < t.col ∨ t.col + width text ≤ i) : (t.prints text).cells i = t.cells i := by
  induction text generalizing t with
  | nil => rfl
  | cons c text ih =>
    rw [width_cons] at outside
    rw [prints_cons, ih _ (by simp only [print]; omega)]
    simp only [print]
    rw [if_neg (by omega)]

end Texts

section Sequences

theorem feed_control {t : Terminal} (ready : t.pending = []) {digits : List UInt8}
    (decimal : ∀ d ∈ digits, 48 ≤ d ∧ d < 58) {final : UInt8} (ends : ¬(48 ≤ final ∧ final < 58)) :
    t.feed ([ESC, bracket] ++ digits ++ [final]) = { t.control digits final with pending := [] } := by
  have held : t.feed ([ESC, bracket] ++ digits) = { t with pending := ESC :: bracket :: digits } := by
    induction digits using List.reverseRecOn with
    | nil => simp [put, ready, ESC, bracket]
    | append_singleton digits d ih =>
      rw [forall_mem_append, forall_mem_singleton] at decimal
      rw [← append_assoc, feed_append, ih decimal.1, feed_cons, feed_nil]
      simp only [put, if_true, decimal.2, and_self]
      rfl
  rw [feed_append, held, feed_cons, feed_nil]
  simp only [put, if_true, if_neg ends, control]
  split_ifs <;> rfl

theorem termAppendUintLoop_decimal (value : Nat) :
    ∀ d ∈ termAppendUintLoop value, 48 ≤ d ∧ d < 58 := by
  have digit : ∀ x < 10, 48 ≤ ofNat (48 + x) ∧ ofNat (48 + x) < 58 := by decide
  fun_induction termAppendUintLoop value with
  | case1 => simp
  | case2 value _ ih =>
    rw [forall_mem_cons]
    exact ⟨digit _ (Nat.mod_lt _ (by decide)), ih⟩

theorem number_reverse_loop (value : Nat) : number (termAppendUintLoop value).reverse = value := by
  have digit : ∀ x < 10, (ofNat (48 + x)).toNat - 48 = x := by decide
  fun_induction termAppendUintLoop value with
  | case1 => rfl
  | case2 value _ ih =>
    rw [number] at ih
    rw [reverse_cons, number, foldl_append, foldl_cons, foldl_nil, ih,
      digit _ (Nat.mod_lt _ (by decide))]
    omega

theorem termAppendUint_decimal (value : Nat) : ∀ d ∈ termAppendUint value, 48 ≤ d ∧ d < 58 := by
  unfold termAppendUint
  split_ifs
  · exact forall_mem_singleton.mpr (by decide)
  · simpa using termAppendUintLoop_decimal value

theorem number_termAppendUint (value : Nat) : number (termAppendUint value) = value := by
  unfold termAppendUint
  split_ifs with zero
  · rw [zero]
    decide
  · exact number_reverse_loop value

theorem feed_left {t : Terminal} (ready : t.pending = []) (n : Nat) :
    t.feed (termMoveCursor 0x44 n) = { t with col := t.col - n } := by
  unfold termMoveCursor
  split_ifs with zero
  · simp [zero]
  · rw [feed_control ready (termAppendUint_decimal n) (by decide)]
    simp [control, number_termAppendUint, ready, Nat.max_eq_left (Nat.pos_of_ne_zero zero)]

theorem feed_right {t : Terminal} (ready : t.pending = []) (n : Nat) :
    t.feed (termMoveCursor 0x43 n) = { t with col := t.col + n } := by
  unfold termMoveCursor
  split_ifs with zero
  · simp [zero]
  · rw [feed_control ready (termAppendUint_decimal n) (by decide)]
    simp [control, number_termAppendUint, ready, Nat.max_eq_left (Nat.pos_of_ne_zero zero)]

theorem feed_clearEol {t : Terminal} (ready : t.pending = []) :
    t.feed termClearEol = { t with cells := fun i => if t.col ≤ i then .blank else t.cells i } := by
  refine (@feed_control t ready [] (by simp) 0x4B (by decide)).trans ?_
  simp [control, number, ready]

end Sequences
end Terminal
end Xv6Lab.Shell
