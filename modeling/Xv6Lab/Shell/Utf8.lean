import Mathlib.Tactic

/-!
The UTF-8 routines of the user library (utf8.c). A buffer is the list of its bytes.
-/

namespace Xv6Lab.Shell
open List
open UInt8 (ofNat)
variable {text : List Char}

def byte (buf : List UInt8) (i : Nat) : UInt8 := buf.getD i 0

/-- buf[start .. stop). -/
def slice (buf : List UInt8) (start stop : Nat) : List UInt8 := (buf.drop start).take (stop - start)

def utf8Cont (c : UInt8) : Bool := c &&& 0xC0 == 0x80

def utf8InputLen (u : UInt8) : Nat :=
  if u < 0x80 then 1
  else if u &&& 0xE0 = 0xC0 then 2
  else if u &&& 0xF0 = 0xE0 then 3
  else if u &&& 0xF8 = 0xF0 then 4
  else 1

def skipCont (buf : List UInt8) (pos len : Nat) : Nat :=
  if pos < len ∧ utf8Cont (byte buf pos) then skipCont buf (pos + 1) len else pos
termination_by len - pos

def utf8Next (buf : List UInt8) (pos len : Nat) : Nat :=
  if len ≤ pos then len else skipCont buf (pos + 1) len

def backCont (buf : List UInt8) : Nat → Nat
  | 0 => 0
  | pos + 1 => if utf8Cont (byte buf (pos + 1)) then backCont buf pos else pos + 1

def utf8Prev (buf : List UInt8) (pos : Nat) : Nat := backCont buf (pos - 1)

/-- The loop of utf8_decode. r has at most 21 bits, so nothing is shifted out. -/
def decodeTail (c0 : UInt8) (r : Nat) : List UInt8 → Nat
  | [] => r
  | b :: rest =>
    if utf8Cont b then decodeTail c0 ((r <<< 6) ||| (b &&& 0x3F).toNat) rest else c0.toNat

def utf8Decode (buf : List UInt8) (pos stop : Nat) : Nat :=
  let c0 := byte buf pos
  let tail := slice buf (pos + 1) stop
  match stop - pos with
  | 2 => decodeTail c0 (c0 &&& 0x1F).toNat tail
  | 3 => decodeTail c0 (c0 &&& 0x0F).toNat tail
  | 4 => decodeTail c0 (c0 &&& 0x07).toNat tail
  | _ => c0.toNat

def utf8RuneWidth (r : Nat) : Nat :=
  if r < 0x20 then 0
  else if r < 0x80 then 1
  else if (0x1100 ≤ r ∧ r ≤ 0x115F) ∨ (0x2329 ≤ r ∧ r ≤ 0x232A) ∨ (0x2E80 ≤ r ∧ r ≤ 0xA4CF) ∨
      (0xAC00 ≤ r ∧ r ≤ 0xD7A3) ∨ (0xF900 ≤ r ∧ r ≤ 0xFAFF) ∨ (0xFE10 ≤ r ∧ r ≤ 0xFE19) ∨
      (0xFE30 ≤ r ∧ r ≤ 0xFE6F) ∨ (0xFF00 ≤ r ∧ r ≤ 0xFF60) ∨ (0xFFE0 ≤ r ∧ r ≤ 0xFFE6) ∨
      (0x20000 ≤ r ∧ r ≤ 0x3FFFD) then 2
  else 1

theorem le_skipCont (buf : List UInt8) (pos len : Nat) : pos ≤ skipCont buf pos len := by
  fun_induction skipCont buf pos len with
  | case1 pos _ ih => omega
  | case2 pos _ => exact le_rfl

theorem lt_utf8Next {buf : List UInt8} {pos len : Nat} (inside : pos < len) :
    pos < utf8Next buf pos len := by
  rw [utf8Next, if_neg (by omega)]
  exact le_skipCont buf (pos + 1) len

def utf8TextWidth (buf : List UInt8) (start stop : Nat) : Nat :=
  if _h : start < stop then
    let next := utf8Next buf start stop
    utf8RuneWidth (utf8Decode buf start next) + utf8TextWidth buf next stop
  else 0
termination_by stop - start
decreasing_by
  have forward : start < utf8Next buf start stop := lt_utf8Next _h
  omega

def encode (text : List Char) : List UInt8 := text.flatMap String.utf8EncodeChar

@[simp] theorem encode_nil : encode [] = [] := rfl

@[simp] theorem encode_cons (c : Char) (text : List Char) :
    encode (c :: text) = String.utf8EncodeChar c ++ encode text := flatMap_cons

@[simp] theorem encode_append (a b : List Char) : encode (a ++ b) = encode a ++ encode b :=
  flatMap_append

def width (text : List Char) : Nat := (text.map fun c => utf8RuneWidth c.toNat).sum

@[simp] theorem width_nil : width [] = 0 := rfl

@[simp] theorem width_cons (c : Char) (text : List Char) :
    width (c :: text) = utf8RuneWidth c.toNat + width text := sum_cons

@[simp] theorem width_append (a b : List Char) : width (a ++ b) = width a + width b := by
  simp [width]

section Rune

structure IsRune (r : Nat) (lead : UInt8) (conts : List UInt8) : Prop where
  starts : utf8Cont lead = false
  continues : ∀ b ∈ conts, utf8Cont b = true
  input : utf8InputLen lead = conts.length + 1
  decode : utf8Decode (lead :: conts) 0 (conts.length + 1) = r

theorem cont_byte : ∀ x < 64, utf8Cont (ofNat (x + 128)) = true ∧
    (ofNat (x + 128) &&& 0x3F).toNat = x := by decide

theorem lead_one : ∀ x < 128, utf8Cont (ofNat x) = false ∧
    utf8InputLen (ofNat x) = 1 ∧ (ofNat x).toNat = x := by decide

theorem lead_two : ∀ x < 32, utf8Cont (ofNat (x + 192)) = false ∧
    utf8InputLen (ofNat (x + 192)) = 2 ∧ (ofNat (x + 192) &&& 0x1F).toNat = x := by
  decide

theorem lead_three : ∀ x < 16, utf8Cont (ofNat (x + 224)) = false ∧
    utf8InputLen (ofNat (x + 224)) = 3 ∧ (ofNat (x + 224) &&& 0x0F).toNat = x := by
  decide

theorem lead_four : ∀ x < 8, utf8Cont (ofNat (x + 240)) = false ∧
    utf8InputLen (ofNat (x + 240)) = 4 ∧ (ofNat (x + 240) &&& 0x07).toNat = x := by
  decide

theorem decodeTail_cons (c0 : UInt8) (r : Nat) {x : Nat} (small : x < 64) (rest : List UInt8) :
    decodeTail c0 r (ofNat (x + 128) :: rest) = decodeTail c0 (64 * r + x) rest := by
  obtain ⟨cont, bits⟩ := cont_byte x small
  rw [decodeTail, if_pos cont, bits, ← Nat.shiftLeft_add_eq_or_of_lt (i := 6) small, Nat.shiftLeft_eq]
  congr 1
  omega

theorem cont_bytes (xs : List Nat) (small : ∀ x ∈ xs, x < 64) :
    ∀ b ∈ xs.map fun x => ofNat (x + 128), utf8Cont b = true := by
  rw [forall_mem_map]
  exact fun x member => (cont_byte x (small x member)).1

theorem decodeTail_map (c0 : UInt8) (r : Nat) (xs : List Nat) (small : ∀ x ∈ xs, x < 64) :
    decodeTail c0 r (xs.map fun x => ofNat (x + 128)) =
      xs.foldl (fun r x => 64 * r + x) r := by
  induction xs generalizing r with
  | nil => rfl
  | cons x xs ih =>
    rw [forall_mem_cons] at small
    rw [map_cons, decodeTail_cons c0 r small.1, ih _ small.2, foldl_cons]

theorem char_lt (c : Char) : c.val.toNat < 0x110000 := by
  have valid := c.valid
  simp only [UInt32.isValidChar, Nat.isValidChar] at valid
  omega

theorem isRune_encode (c : Char) :
    ∃ lead conts, String.utf8EncodeChar c = lead :: conts ∧ IsRune c.toNat lead conts := by
  have bound := char_lt c
  rw [String.utf8EncodeChar.eq_1]
  change ∃ lead conts, _ = _ ∧ IsRune c.val.toNat lead conts
  generalize c.val.toNat = v at bound
  split_ifs with one two three
  · obtain ⟨starts, input, bits⟩ := lead_one v (by omega)
    exact ⟨_, [], rfl, starts, by simp, input, bits⟩
  · obtain ⟨starts, input, bits⟩ := lead_two (v / 64 % 32) (by omega)
    have small : ∀ x ∈ [v % 64], x < 64 := by simp; omega
    refine ⟨_, [v % 64].map _, rfl, starts, cont_bytes _ small, input, ?_⟩
    refine (decodeTail_map _ _ _ small).trans ?_
    rw [byte, getD_cons_zero, bits, foldl_cons, foldl_nil]
    omega
  · obtain ⟨starts, input, bits⟩ := lead_three (v / 4096 % 16) (by omega)
    have small : ∀ x ∈ [v / 64 % 64, v % 64], x < 64 := by simp; omega
    refine ⟨_, [v / 64 % 64, v % 64].map _, rfl, starts, cont_bytes _ small, input, ?_⟩
    refine (decodeTail_map _ _ _ small).trans ?_
    rw [byte, getD_cons_zero, bits]
    simp only [foldl_cons, foldl_nil]
    omega
  · obtain ⟨starts, input, bits⟩ := lead_four (v / 262144 % 8) (by omega)
    have small : ∀ x ∈ [v / 4096 % 64, v / 64 % 64, v % 64], x < 64 := by simp; omega
    refine ⟨_, [v / 4096 % 64, v / 64 % 64, v % 64].map _, rfl, starts, cont_bytes _ small, input, ?_⟩
    refine (decodeTail_map _ _ _ small).trans ?_
    rw [byte, getD_cons_zero, bits]
    simp only [foldl_cons, foldl_nil]
    omega

end Rune

section Text
variable (front tail : List UInt8)

theorem byte_append (rest : List UInt8) (i : Nat) :
    byte (front ++ rest) (front.length + i) = byte rest i := by
  simp [byte, getElem?_append_right]

theorem slice_append (text rest : List UInt8) :
    slice (front ++ (text ++ rest)) front.length (front.length + text.length) = text := by
  simp [slice]

theorem encode_char_length_pos (c : Char) : 0 < (String.utf8EncodeChar c).length := by
  obtain ⟨lead, conts, bytes, -⟩ := isRune_encode c
  simp [bytes]

theorem encode_length_eq_zero : (encode text).length = 0 ↔ text = [] := by
  cases text with
  | nil => simp
  | cons c text =>
    have positive := encode_char_length_pos c
    simp only [encode_cons, length_append, reduceCtorEq, iff_false]
    omega

theorem encode_starts (nonempty : text ≠ []) : utf8Cont (byte (encode text ++ tail) 0) = false := by
  obtain ⟨c, rest, rfl⟩ := exists_cons_of_ne_nil nonempty
  obtain ⟨lead, conts, bytes, rune⟩ := isRune_encode c
  simpa [bytes, byte] using rune.starts

theorem skipCont_conts {conts : List UInt8} (all : ∀ b ∈ conts, utf8Cont b = true) (len : Nat)
    (inside : front.length + conts.length ≤ len)
    (stops : front.length + conts.length < len → utf8Cont (byte tail 0) = false) :
    skipCont (front ++ (conts ++ tail)) front.length len = front.length + conts.length := by
  induction conts generalizing front with
  | nil =>
    rw [skipCont, if_neg]
    · simp
    · rintro ⟨more, cont⟩
      have here : byte (front ++ ([] ++ tail)) front.length = byte tail 0 := byte_append front tail 0
      rw [here, stops (by simpa using more)] at cont
      cases cont
  | cons b conts ih =>
    rw [forall_mem_cons] at all
    rw [length_cons] at inside stops
    have next := ih (front ++ [b]) all.2 (by simp; omega) (fun more => stops (by simp at more; omega))
    rw [skipCont, if_pos ⟨by omega, by simpa [byte] using all.1⟩]
    simp only [append_assoc, singleton_append, length_append, length_singleton]
      at next
    rw [cons_append, next, length_cons]
    omega

theorem utf8Next_encode (c : Char) (rest : List Char) :
    utf8Next (front ++ (encode (c :: rest) ++ tail)) front.length
        (front.length + (encode (c :: rest)).length) =
      front.length + (String.utf8EncodeChar c).length := by
  obtain ⟨lead, conts, bytes, rune⟩ := isRune_encode c
  have skipped := skipCont_conts (front ++ [lead]) (encode rest ++ tail) rune.continues
    (front.length + (encode (c :: rest)).length) (by simp [bytes]; omega)
    (fun more => encode_starts tail (by rintro rfl; simp [bytes] at more; omega))
  rw [utf8Next, if_neg (by simp [bytes])]
  simp only [append_assoc, singleton_append, length_append, length_singleton]
    at skipped
  simp only [encode_cons, bytes, cons_append, append_assoc, length_cons,
    length_append] at skipped ⊢
  rw [skipped]
  omega

theorem backCont_conts (lead : UInt8) (starts : utf8Cont lead = false) (conts : List UInt8)
    (all : ∀ b ∈ conts, utf8Cont b = true) (k : Nat) (inside : k ≤ conts.length) :
    backCont (front ++ (lead :: conts ++ tail)) (front.length + k) = front.length := by
  induction k with
  | zero =>
    cases here : front.length with
    | zero => rfl
    | succ n =>
      have found : byte (front ++ (lead :: conts ++ tail)) (n + 1) = lead := by
        rw [← here]
        exact byte_append front _ 0
      rw [Nat.add_zero, backCont, found, if_neg (by simp [starts])]
  | succ k ih =>
    have found : byte (front ++ (lead :: conts ++ tail)) (front.length + (k + 1)) ∈ conts := by
      have small : k < conts.length := inside
      rw [byte_append]
      simp [byte, getElem?_append_left, small]
    rw [← Nat.add_assoc] at found ⊢
    rw [backCont, if_pos (all _ found)]
    exact ih (by omega)

theorem utf8Prev_encode (c : Char) : utf8Prev (front ++ (String.utf8EncodeChar c ++ tail))
        (front.length + (String.utf8EncodeChar c).length) = front.length := by
  obtain ⟨lead, conts, bytes, rune⟩ := isRune_encode c
  rw [bytes]
  exact backCont_conts front tail lead rune.starts conts rune.continues conts.length le_rfl

theorem utf8Decode_encode (c : Char) :
    utf8Decode (front ++ (String.utf8EncodeChar c ++ tail)) front.length
        (front.length + (String.utf8EncodeChar c).length) = c.toNat := by
  obtain ⟨lead, conts, bytes, rune⟩ := isRune_encode c
  rw [← rune.decode, bytes]
  have size : front.length + (lead :: conts).length - front.length = conts.length + 1 - 0 := by
    simp
  have first : byte (front ++ (lead :: conts ++ tail)) front.length = byte (lead :: conts) 0 :=
    byte_append front _ 0
  have others : slice (front ++ (lead :: conts ++ tail)) (front.length + 1)
      (front.length + (lead :: conts).length) = slice (lead :: conts) (0 + 1) (conts.length + 1) := by
    have moved := slice_append (front ++ [lead]) conts tail
    simp only [append_assoc, singleton_append, length_append,
      length_singleton] at moved
    rw [cons_append, length_cons, Nat.add_comm conts.length, ← Nat.add_assoc, moved]
    simp [slice]
  simp only [utf8Decode, size, first, others]

theorem utf8TextWidth_encode (text : List Char) :
    utf8TextWidth (front ++ (encode text ++ tail)) front.length
        (front.length + (encode text).length) = width text := by
  induction text generalizing front with
  | nil =>
    rw [utf8TextWidth]
    simp
  | cons c text ih =>
    have positive := encode_char_length_pos c
    have next := utf8Next_encode front tail c text
    have decoded := utf8Decode_encode front (encode text ++ tail) c
    have rest := ih (front ++ String.utf8EncodeChar c)
    have inside : front.length < front.length + (encode (c :: text)).length := by
      rw [encode_cons, length_append]
      omega
    rw [utf8TextWidth, dif_pos inside, next]
    simp only [encode_cons, append_assoc, length_append, width_cons] at rest decoded ⊢
    rw [decoded, ← rest, Nat.add_assoc]

end Text
end Xv6Lab.Shell
