import Xv6Lab.Llm.Reader

/-!
The numbers of the files that the loaders read.
-/

namespace Xv6Lab.Llm
open List

def IsInt (n : Int) : Prop := -2 ^ 31 ≤ n ∧ n < 2 ^ 31

instance (n : Int) : Decidable (IsInt n) := inferInstanceAs (Decidable (_ ∧ _))

def intBytes (n : Int) : List UInt8 :=
  [UInt8.ofNat (u32 n), UInt8.ofNat (u32 n / 2 ^ 8), UInt8.ofNat (u32 n / 2 ^ 16),
    UInt8.ofNat (u32 n / 2 ^ 24)]

theorem ints_isInt (bytes : List UInt8) : ∀ n ∈ ints bytes, IsInt n := by
  induction bytes using ints.induct with
  | case1 a b c d rest ih =>
    intro n member
    rw [ints, mem_cons] at member
    rcases member with rfl | member
    · exact ⟨BitVec.le_toInt _, BitVec.toInt_lt⟩
    · exact ih n member
  | case2 bytes short =>
    intro n member
    rw [ints] at member
    · cases member
    · exact short

theorem checkedBytes_of_lt {count size : Nat} (small : count * size < 2 ^ 32) :
    checkedBytes count size = .ok (count * size) := by
  unfold checkedBytes
  rw [checkedMul_of_lt (by omega)]
  simp only [bind, Except.bind]
  rw [if_neg (by omega), Nat.mod_eq_of_lt small]

end Xv6Lab.Llm
