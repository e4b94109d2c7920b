import Mathlib.Tactic

/-!
printint of the kernel's printf.c and of the user library's.
-/

namespace Xv6Lab.Libc
open List
variable {f : Char → Char} {digits : List Char}

inductive Base where
  | ten
  | sixteen
deriving DecidableEq, Repr

def Base.val : Base → Nat
  | ten => 10
  | sixteen => 16

/-- buf[i++] = c, for the i characters in buf. There is no buf[20]. -/
def put (buf : List Char) (c : Char) : Option (List Char) :=
  if buf.length < 20 then some (buf ++ [c]) else none

/-- The do loop, on the digits of the file. -/
def putDigits (digits : List Char) (base : Base) (x : Nat) (buf : List Char) : Option (List Char) := do
  let buf ← put buf (digits.getD (x % base.val) '\x00')
  if x / base.val ≠ 0 then putDigits digits base (x / base.val) buf else return buf
termination_by x
decreasing_by
  apply Nat.div_lt_self
  · by_contra zero
    simp_all
  · cases base <;> decide

/-- What is left after the digits: the sign, and the loop that prints buf backwards. -/
def finish (negative : Bool) (buf : List Char) : Option (List Char) := do
  let buf ← if negative then put buf '-' else pure buf
  return buf.reverse

/-- What goes to consputc; none if buf is overrun. -/
def Kernel.printint (xx : BitVec 64) (base : Base) (sign : Bool) : Option (List Char) := do
  let sign := sign && decide (xx.toInt < 0)
  let x := if sign then -xx else xx
  let buf ← putDigits "0123456789abcdef".toList base x.toNat []
  finish sign buf

def User.printint (xx : BitVec 64) (base : Base) (sgn : Bool) : Option (List Char) := do
  let (neg, x) := if sgn ∧ xx.toInt < 0 then (true, -xx) else (false, xx)
  let buf ← putDigits "0123456789ABCDEF".toList base x.toNat []
  finish neg buf

def number (xx : BitVec 64) (sign : Bool) : Int := if sign then xx.toInt else xx.toNat

def numeral (base : Base) (v : Int) : List Char :=
  (if v < 0 then ['-'] else []) ++ Nat.toDigits base.val v.natAbs

def digitValue (c : Char) : Nat := "0123456789abcdef".toList.idxOf c.toLower

def readDigits (base : Base) (text : List Char) : Nat :=
  text.foldl (fun v c => base.val * v + digitValue c) 0

def readNumeral (base : Base) (text : List Char) : Int :=
  if text.head? = some '-' then -(readDigits base text.tail : Int) else readDigits base text

section Digits
variable {base : Base}

theorem one_lt_val (base : Base) : 1 < base.val := by cases base <;> decide

theorem val_le (base : Base) : base.val ≤ 16 := by cases base <;> decide

def Table (digits : List Char) (f : Char → Char) : Prop :=
  ∀ d < 16, digits.getD d '\x00' = f d.digitChar

theorem kernel_table : Table "0123456789abcdef".toList id := by unfold Table; decide

theorem user_table : Table "0123456789ABCDEF".toList Char.toUpper := by unfold Table; decide

theorem toDigits_induction {P : Nat → List Char → Prop} (single : ∀ d < base.val, P d [d.digitChar])
    (more : ∀ x d, 0 < x → d < base.val → P x (Nat.toDigits base.val x) →
      P (base.val * x + d) (Nat.toDigits base.val x ++ [d.digitChar])) (x : Nat) :
    P x (Nat.toDigits base.val x) := by
  induction x using Nat.strong_induction_on with
  | _ x ih =>
    have large := one_lt_val base
    rw [Nat.toDigits_eq_if large]
    split
    · rename_i small
      exact single x small
    · rename_i several
      have longer := more (x / base.val) (x % base.val) (Nat.div_pos (by omega) (by omega))
        (Nat.mod_lt x (by omega)) (ih _ (Nat.div_lt_self (by omega) large))
      rwa [Nat.div_add_mod] at longer

theorem putDigits_eq (table : Table digits f) (x : Nat) :
    ∀ buf : List Char, buf.length + (Nat.toDigits base.val x).length ≤ 20 →
      putDigits digits base x buf = some (buf ++ ((Nat.toDigits base.val x).map f).reverse) := by
  have wide := val_le base
  refine toDigits_induction (P := fun x text => ∀ buf : List Char, buf.length + text.length ≤ 20 →
    putDigits digits base x buf = some (buf ++ (text.map f).reverse)) ?_ ?_ x
  · intro d digit buf room
    have small : buf.length < 20 := room
    rw [putDigits, Nat.mod_eq_of_lt digit, Nat.div_eq_of_lt digit, table d (by omega)]
    simp [put, small]
  · intro x d positive digit ih buf room
    rw [length_append, length_singleton] at room
    have last : (base.val * x + d) % base.val = d := by
      rw [Nat.mul_add_mod, Nat.mod_eq_of_lt digit]
    have front : (base.val * x + d) / base.val = x := by
      rw [Nat.mul_add_div (by omega), Nat.div_eq_of_lt digit, Nat.add_zero]
    have small : buf.length < 20 := by omega
    have rest := ih (buf ++ [f d.digitChar]) (by
      rw [length_append, length_singleton]
      omega)
    rw [putDigits, last, front, table d (by omega)]
    simp [put, small, Nat.ne_of_gt positive, rest]

theorem readDigits_toDigits (spelled : ∀ d < 16, digitValue (f d.digitChar) = d)
    (x : Nat) : readDigits base ((Nat.toDigits base.val x).map f) = x := by
  have wide := val_le base
  refine toDigits_induction (P := fun x text => readDigits base (text.map f) = x) ?_ ?_ x
  · intro d digit
    simp [readDigits, spelled d (by omega)]
  · intro x d _ digit ih
    unfold readDigits at ih ⊢
    rw [map_append, foldl_append, ih]
    simp [spelled d (by omega)]

theorem spelled_id : ∀ d < 16, digitValue (id d.digitChar) = d := by decide

theorem spelled_toUpper : ∀ d < 16, digitValue d.digitChar.toUpper = d := by decide

theorem toDigits_first (base : Base) (x : Nat) : ∃ d < 16, (Nat.toDigits base.val x).head? = some d.digitChar ∧
    (0 < x → 0 < d) := by
  have wide := val_le base
  refine toDigits_induction (P := fun x text => ∃ d < 16, text.head? = some d.digitChar ∧
    (0 < x → 0 < d)) ?_ ?_ x
  · intro d digit
    exact ⟨d, by omega, rfl, id⟩
  · intro x d positive _ ih
    obtain ⟨first, small, head, nonzero⟩ := ih
    refine ⟨first, small, ?_, fun _ => nonzero positive⟩
    rw [head?_append, head, Option.some_or]

theorem toDigits_head {x : Nat} (positive : 0 < x) : (Nat.toDigits base.val x).head? ≠ some '0' := by
  have nonzero : ∀ d < 16, 0 < d → d.digitChar ≠ '0' := by decide
  obtain ⟨d, small, head, more⟩ := toDigits_first base x
  rw [head, Ne, Option.some_inj]
  exact nonzero d small (more positive)

theorem digit_not_minus (base : Base) (f : Char → Char) (digit : ∀ d < 16, f d.digitChar ≠ '-') (x : Nat) :
    ((Nat.toDigits base.val x).map f).head? ≠ some '-' := by
  obtain ⟨d, small, head, -⟩ := toDigits_first base x
  rw [head?_map, head, Option.map_some, Ne, Option.some_inj]
  exact digit d small

end Digits

section Printint
variable {base : Base} {xx : BitVec 64} {sign : Bool}

theorem numeral_length (base : Base) (xx : BitVec 64) (sign : Bool) :
    (numeral base (number xx sign)).length ≤ 20 := by
  have digits (x k : Nat) (positive : 0 < k) (small : x < 10 ^ k) :
      (Nat.toDigits base.val x).length ≤ k := by
    rw [Nat.length_toDigits_le_iff (one_lt_val base) positive]
    exact small.trans_le (Nat.pow_le_pow_left (by cases base <;> decide) k)
  have low := BitVec.le_toInt xx
  have high := BitVec.toInt_lt (x := xx)
  have below := xx.isLt
  unfold numeral
  rw [length_append]
  by_cases negative : number xx sign < 0
  · have magnitude : (number xx sign).natAbs ≤ 2 ^ 63 := by
      cases sign with
      | false => simp only [number, Bool.false_eq_true, if_false] at negative; omega
      | true => simp only [number, if_true]; omega
    have width := digits (number xx sign).natAbs 19 (by omega) (by omega)
    rw [if_pos negative, length_singleton]
    omega
  · have magnitude : (number xx sign).natAbs < 2 ^ 64 := by
      cases sign <;> simp [number] <;> omega
    have width := digits (number xx sign).natAbs 20 (by omega) (by omega)
    rw [if_neg negative, length_nil]
    omega

theorem magnitude (xx : BitVec 64) (sign : Bool) :
    (if sign && decide (xx.toInt < 0) then -xx else xx).toNat = (number xx sign).natAbs := by
  have below := xx.isLt
  cases sign with
  | false => simp [number]
  | true =>
    simp only [number, Bool.true_and, if_true, decide_eq_true_eq]
    have value := BitVec.toInt_eq_toNat_cond xx
    by_cases negative : xx.toInt < 0
    · rw [if_pos negative, BitVec.toNat_neg]
      split at value <;> omega
    · rw [if_neg negative]
      split at value <;> omega

theorem negative_iff (xx : BitVec 64) (sign : Bool) :
    (sign && decide (xx.toInt < 0)) = true ↔ number xx sign < 0 := by
  cases sign <;> simp [number]

theorem printed (table : Table digits f) (minus : f '-' = '-')
    (negative : Bool) (x : Nat) (room : ((if negative then ['-'] else []) ++
      Nat.toDigits base.val x).length ≤ 20) : (putDigits digits base x []).bind (finish negative) =
      some (((if negative then ['-'] else []) ++ Nat.toDigits base.val x).map f) := by
  rw [length_append] at room
  rw [putDigits_eq table x [] (by rw [length_nil]; omega), Option.bind_some]
  cases negative with
  | false => simp [finish]
  | true =>
    have small : (Nat.toDigits base.val x).length < 20 := by
      rw [if_pos rfl, length_singleton] at room
      omega
    simp [finish, put, small, minus]

theorem kernel_printint (base : Base) (xx : BitVec 64) (sign : Bool) :
    Kernel.printint xx base sign = some (numeral base (number xx sign)) := by
  have room := numeral_length base xx sign
  unfold numeral at room ⊢
  simp only [← negative_iff, ← magnitude] at room ⊢
  have text := printed kernel_table rfl _ _ room
  rw [map_id] at text
  exact text

theorem user_printint (base : Base) (xx : BitVec 64) (sign : Bool) :
    User.printint xx base sign = some ((numeral base (number xx sign)).map Char.toUpper) := by
  have room := numeral_length base xx sign
  unfold numeral at room ⊢
  simp only [← negative_iff, ← magnitude] at room ⊢
  rw [← printed user_table rfl _ _ room]
  unfold User.printint
  cases sign <;> by_cases negative : xx.toInt < 0 <;> simp [negative]

theorem readNumeral_numeral (base : Base) (minus : f '-' = '-')
    (spelled : ∀ d < 16, digitValue (f d.digitChar) = d) (digit : ∀ d < 16, f d.digitChar ≠ '-')
    (v : Int) : readNumeral base ((numeral base v).map f) = v := by
  unfold numeral readNumeral
  by_cases negative : v < 0
  · simp only [if_pos negative, cons_append, nil_append, map_cons, minus,
      head?_cons, if_true, tail_cons]
    rw [readDigits_toDigits spelled]
    omega
  · rw [if_neg negative, nil_append, if_neg (digit_not_minus base f digit _),
      readDigits_toDigits spelled]
    omega

/-- Neither overruns buf; both print the canonical numeral, up to the case of the
digits, and it reads back as the number. -/
theorem printint_exact (xx : BitVec 64) (base : Base) (sign : Bool) :
    ∃ kernel user, Kernel.printint xx base sign = some kernel ∧
      User.printint xx base sign = some user ∧
      kernel.length ≤ 20 ∧ user.length ≤ 20 ∧
      kernel = numeral base (number xx sign) ∧ user = kernel.map Char.toUpper ∧
      (kernel.head? = some '-' ↔ sign = true ∧ xx.toInt < 0) ∧
      (kernel.head? = some '0' → kernel = ['0']) ∧
      readNumeral base kernel = number xx sign ∧ readNumeral base user = number xx sign := by
  refine ⟨_, _, kernel_printint base xx sign, user_printint base xx sign,
    numeral_length base xx sign, ?_, rfl, rfl, ?_, ?_, ?_, ?_⟩
  · rw [length_map]
    exact numeral_length base xx sign
  · have minus := digit_not_minus base id (by decide) (number xx sign).natAbs
    rw [map_id] at minus
    have signed := negative_iff xx sign
    rw [Bool.and_eq_true, decide_eq_true_eq] at signed
    rw [signed, numeral]
    split_ifs with negative
    · simp [negative]
    · simpa [negative] using minus
  · intro leading
    unfold numeral at leading ⊢
    split_ifs at leading ⊢ with negative
    · simp at leading
    · rw [nil_append] at leading ⊢
      by_cases positive : 0 < (number xx sign).natAbs
      · exact absurd leading (toDigits_head positive)
      · rw [Nat.eq_zero_of_not_pos positive]
        exact Nat.toDigits_of_lt_base (by have := one_lt_val base; omega)
  · have read := readNumeral_numeral base (f := id) rfl spelled_id (by decide) (number xx sign)
    rw [map_id] at read
    exact read
  · exact readNumeral_numeral base rfl spelled_toUpper (by decide) _

end Printint
end Xv6Lab.Libc
