import Mathlib.Tactic

/-!
Byte-addressed memory with little-endian words.
-/

namespace Xv6Lab.Bytes

variable {byte : UInt8}

abbrev Mem := Nat → UInt8

def load (mem : Mem) (a : Nat) : Nat → Nat
  | 0 => 0
  | n + 1 => (mem a).toNat + 256 * load mem (a + 1) n

def store (mem : Mem) (a n v : Nat) : Mem := fun x =>
  if a ≤ x ∧ x < a + n then UInt8.ofNat (v / 256 ^ (x - a)) else mem x

def fill (mem : Mem) (a n : Nat) (b : UInt8) : Mem := fun x =>
  if a ≤ x ∧ x < a + n then b else mem x

def write (mem : Mem) (a : Nat) (bytes : List UInt8) : Mem := fun x =>
  if a ≤ x ∧ x < a + bytes.length then bytes.getD (x - a) 0 else mem x

def read (mem : Mem) (a n : Nat) : List UInt8 := (List.range n).map fun i => mem (a + i)

variable {mem mem' : Mem} {a b n m v : Nat}

theorem load_lt (mem : Mem) (a n : Nat) : load mem a n < 256 ^ n := by
  induction n generalizing a with
  | zero => simp [load]
  | succ n ih =>
    have rest := ih (a + 1)
    have byte := (mem a).toNat_lt
    rw [load, Nat.pow_succ]
    omega

theorem load_congr (same : ∀ x, a ≤ x → x < a + n → mem' x = mem x) :
    load mem' a n = load mem a n := by
  induction n generalizing a with
  | zero => rfl
  | succ n ih =>
    rw [load, load, same a (by omega) (by omega),
      ih fun x low high => same x (by omega) (by omega)]

theorem store_outside (outside : b < a ∨ a + n ≤ b) : store mem a n v b = mem b := by
  unfold store
  rw [if_neg (by omega)]

theorem fill_outside (outside : b < a ∨ a + n ≤ b) : fill mem a n byte b = mem b := by
  unfold fill
  rw [if_neg (by omega)]

theorem fill_inside (low : a ≤ b) (high : b < a + n) : fill mem a n byte b = byte := by
  unfold fill
  rw [if_pos ⟨low, high⟩]

theorem write_outside {bytes : List UInt8} (outside : b < a ∨ a + bytes.length ≤ b) :
    write mem a bytes b = mem b := by
  unfold write
  rw [if_neg (by omega)]

theorem length_read (mem : Mem) (a n : Nat) : (read mem a n).length = n := by simp [read]

theorem write_read (inside : b < n) : write mem a (read mem' m n) (a + b) = mem' (m + b) := by
  unfold write
  rw [length_read, if_pos (by omega), Nat.add_sub_cancel_left]
  simp [read, inside]

theorem load_store_disjoint (apart : b + m ≤ a ∨ a + n ≤ b) :
    load (store mem a n v) b m = load mem b m :=
  load_congr fun x low high => store_outside (by omega)

theorem load_store_from (k : Nat) (inside : k + m ≤ n) :
    load (store mem a n v) (a + k) m = v / 256 ^ k % 256 ^ m := by
  induction m generalizing k with
  | zero => simp [load, Nat.mod_one]
  | succ m ih =>
    have rest := ih (k + 1) (by omega)
    have byte : (store mem a n v (a + k)).toNat = v / 256 ^ k % 256 := by
      unfold store
      rw [if_pos (by omega), Nat.add_sub_cancel_left]
      simp
    rw [load, byte, Nat.add_assoc, rest, Nat.pow_succ 256 k, ← Nat.div_div_eq_div_mul,
      Nat.pow_succ 256 m, Nat.mul_comm (256 ^ m) 256, Nat.mod_mul]

theorem load_store (fits : v < 256 ^ n) : load (store mem a n v) a n = v := by
  have digits : load (store mem a n v) (a + 0) n = v / 256 ^ 0 % 256 ^ n :=
    load_store_from 0 (by omega)
  rw [Nat.add_zero, Nat.pow_zero, Nat.div_one, Nat.mod_eq_of_lt fits] at digits
  exact digits

theorem load_zero (zero : ∀ x, a ≤ x → x < a + n → mem x = 0) : load mem a n = 0 := by
  induction n generalizing a with
  | zero => rfl
  | succ n ih =>
    rw [load, zero a (by omega) (by omega), ih fun x low high => zero x (by omega) (by omega)]
    rfl

theorem load_fill_zero (low : a ≤ b) (high : b + m ≤ a + n) : load (fill mem a n 0) b m = 0 :=
  load_zero fun _ low' high' => fill_inside (by omega) (by omega)

end Xv6Lab.Bytes
