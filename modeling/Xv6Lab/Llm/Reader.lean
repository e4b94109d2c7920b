import Xv6Lab.Lib.Program

/-!
What the two loaders of llm.c share. The answers of malloc are a function of the
requests made so far.
-/

namespace Xv6Lab.Llm

variable {a b n : Nat}

/-- How a loader stops: exit(1), or return 0; each with what it prints on fd 2. -/
inductive Stop
  | exit (message : String)
  | fail (message : String)
deriving DecidableEq, Repr

/-- The rest of the open file, and the requests made to malloc, the last first. -/
structure Session where
  file : List UInt8
  requests : List Nat
deriving DecidableEq, Repr

abbrev Loader := Prog Stop Session

/-- (uint64)n -/
def u64 (n : Int) : Nat := (n % 2 ^ 64).toNat

/-- (uint)n -/
def u32 (n : Int) : Nat := (n % 2 ^ 32).toNat

/-- (int)n, from the 32 bits of n -/
def int (n : Nat) : Int := (BitVec.ofNat 32 n).toInt

def checkedMul (a b : Nat) : Except Stop Nat :=
  if a ≠ 0 ∧ b > (2 ^ 64 - 1) / a then .error (.exit "llm: size overflow\n")
  else .ok (a * b % 2 ^ 64)

def checkedBytes (count itemSize : Nat) : Except Stop Nat := do
  let bytes ← checkedMul count itemSize
  if bytes > 0xffffffff then .error (.exit "llm: allocation too large\n")
  else .ok (bytes % 2 ^ 32)

def xmalloc (granted : List Nat → Bool) (n : Nat) : Loader Unit := do
  let s ← get
  if granted (n :: s.requests) then
    set { s with requests := n :: s.requests }
  else throw (.exit "malloc failed\n")

/-- none for -1. A read of a file gives what is left of it, at most, so the chunks
add up to n bytes if and only if so many are left. -/
def readExact (n : Nat) : Loader (Option (List UInt8)) := do
  let s ← get
  if n ≤ s.file.length then
    set { s with file := s.file.drop n }
    return some (s.file.take n)
  else return none

def ints : List UInt8 → List Int
  | a :: b :: c :: d :: rest =>
    int (a.toNat + 2 ^ 8 * b.toNat + 2 ^ 16 * c.toNat + 2 ^ 24 * d.toNat) :: ints rest
  | _ => []

/-- read_exact into an int array of n elements. -/
def readInts (n : Nat) : Loader (Option (List Int)) := do
  return (← readExact (4 * n)).map ints

def need {α : Type} (stop : Stop) (step : Loader (Option α)) : Loader α := do
  match ← step with
  | some a => pure a
  | none => throw stop

theorem checkedMul_ok (ok : checkedMul a b = .ok n) : n = a * b ∧ a * b < 2 ^ 64 := by
  unfold checkedMul at ok
  split at ok
  · cases ok
  · rename_i fits
    have small : a * b < 2 ^ 64 := by
      by_cases zero : a = 0
      · simp [zero]
      · have bound : b ≤ (2 ^ 64 - 1) / a := by
          by_contra large
          exact fits ⟨zero, by omega⟩
        have product := (Nat.le_div_iff_mul_le (Nat.pos_of_ne_zero zero)).mp bound
        rw [Nat.mul_comm]
        omega
    rw [Nat.mod_eq_of_lt small] at ok
    injection ok with same
    exact ⟨same.symm, small⟩

theorem checkedMul_of_lt (small : a * b < 2 ^ 64) : checkedMul a b = .ok (a * b) := by
  unfold checkedMul
  rw [if_neg, Nat.mod_eq_of_lt small]
  rintro ⟨zero, large⟩
  have product := (Nat.div_lt_iff_lt_mul (Nat.pos_of_ne_zero zero)).mp large
  rw [Nat.mul_comm] at product
  omega

theorem checkedBytes_ok {count size : Nat} (ok : checkedBytes count size = .ok n) :
    n = count * size ∧ n < 2 ^ 32 := by
  unfold checkedBytes at ok
  cases product : checkedMul count size with
  | error stop => rw [product] at ok; cases ok
  | ok bytes =>
    rw [product] at ok
    simp only [bind, Except.bind] at ok
    split at ok
    · cases ok
    · injection ok with same
      obtain ⟨rfl, -⟩ := checkedMul_ok product
      omega

end Xv6Lab.Llm
