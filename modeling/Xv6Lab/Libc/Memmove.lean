import Mathlib.Tactic

/-!
memmove of the kernel (string.c) and of the user library (ulib.c). They choose the
direction of the copy by different tests.
-/

namespace Xv6Lab.Libc
open Function (update update_of_ne update_self)

abbrev Addr := BitVec 64

abbrev Memory := Addr → UInt8

/-- while (n-- > 0) *d++ = *s++ -/
def copyUp (mem : Memory) (d s : Addr) : Nat → Memory
  | 0 => mem
  | n + 1 => copyUp (update mem d (mem s)) (d + 1) (s + 1) n

/-- while (n-- > 0) *--d = *--s -/
def copyDown (mem : Memory) (d s : Addr) : Nat → Memory
  | 0 => mem
  | n + 1 => copyDown (update mem (d - 1) (mem (s - 1))) (d - 1) (s - 1) n

/-- The kernel's: n is a uint. The memory it leaves and the pointer it returns. -/
def Kernel.memmove (mem : Memory) (dst src : Addr) (n : BitVec 32) : Memory × Addr :=
  if n = 0 then (mem, dst)
  else if src < dst ∧ dst < src + n.setWidth 64 then
    (copyDown mem (dst + n.setWidth 64) (src + n.setWidth 64) n.toNat, dst)
  else (copyUp mem dst src n.toNat, dst)

/-- The user library's: n is an int, and with a negative one neither loop turns. -/
def User.memmove (mem : Memory) (dst src : Addr) (n : BitVec 32) : Memory × Addr :=
  if src > dst then (copyUp mem dst src n.toInt.toNat, dst)
  else
    (copyDown mem (dst + n.signExtend 64) (src + n.signExtend 64) n.toInt.toNat, dst)

def Addr.nth (p : Addr) (i : Nat) : Addr := p + BitVec.ofNat 64 i

def InSpace (p : Addr) (n : Nat) : Prop := p.toNat + n ≤ 2 ^ 64

/-- The n bytes at dst are those that were at src, and no other byte has changed. -/
structure Moved (mem after : Memory) (dst src : Addr) (n : Nat) : Prop where
  copied : ∀ i < n, after (dst.nth i) = mem (src.nth i)
  frame : ∀ a, (∀ i < n, a ≠ dst.nth i) → after a = mem a

section Loops
variable {mem after after' : Memory} {p dst src : Addr} {n i : Nat}

@[simp] theorem nth_zero (p : Addr) : p.nth 0 = p := BitVec.add_zero p

theorem nth_succ (p : Addr) (i : Nat) : p.nth (i + 1) = (p + 1).nth i := by
  simp only [Addr.nth, BitVec.ofNat_add]
  rw [BitVec.add_comm (BitVec.ofNat 64 i), ← BitVec.add_assoc]
  rfl

theorem nth_pred (p : Addr) (i : Nat) : p.nth (i + 1) - 1 = p.nth i := by
  rw [Addr.nth, Addr.nth, BitVec.ofNat_add, ← BitVec.add_assoc]
  exact BitVec.add_sub_cancel _ _

theorem nth_toNat (inside : InSpace p n) (small : i < n) : (p.nth i).toNat = p.toNat + i := by
  have bound := p.isLt
  unfold InSpace at inside
  rw [Addr.nth, BitVec.toNat_add, BitVec.toNat_ofNat, Nat.mod_eq_of_lt (a := i) (by omega)]
  exact Nat.mod_eq_of_lt (by omega)

theorem Moved.zero (mem : Memory) (dst src : Addr) : Moved mem mem dst src 0 :=
  ⟨fun _ small => absurd small (Nat.not_lt_zero _), fun _ _ => rfl⟩

theorem Moved.unique (first : Moved mem after dst src n) (second : Moved mem after' dst src n) :
    after = after' := by
  funext a
  by_cases hit : ∃ i < n, a = dst.nth i
  · obtain ⟨i, small, rfl⟩ := hit
    rw [first.copied i small, second.copied i small]
  · push Not at hit
    rw [first.frame a hit, second.frame a hit]

theorem copyUp_moved (distinct : ∀ i j, i < j → j < n → dst.nth i ≠ dst.nth j)
    (unread : ∀ i j, i < j → j < n → src.nth j ≠ dst.nth i) :
    Moved mem (copyUp mem dst src n) dst src n := by
  induction n generalizing mem dst src with
  | zero => exact Moved.zero mem dst src
  | succ n ih =>
    have rest : Moved (update mem dst (mem src)) (copyUp mem dst src (n + 1)) (dst + 1)
        (src + 1) n := by
      apply ih
      · intro i j less small
        rw [← nth_succ, ← nth_succ]
        exact distinct _ _ (by omega) (by omega)
      · intro i j less small
        rw [← nth_succ, ← nth_succ]
        exact unread _ _ (by omega) (by omega)
    refine ⟨?_, ?_⟩
    · intro i small
      cases i with
      | zero =>
        rw [nth_zero, nth_zero, rest.frame, update_self]
        intro i small
        rw [← nth_succ]
        simpa using distinct 0 (i + 1) (by omega) (by omega)
      | succ i =>
        rw [nth_succ, rest.copied i (by omega), ← nth_succ]
        exact update_of_ne (by simpa using unread 0 (i + 1) (by omega) (by omega)) _ _
    · intro a outside
      rw [rest.frame, update_of_ne (by simpa using outside 0 (by omega))]
      intro i small
      rw [← nth_succ]
      exact outside (i + 1) (by omega)

theorem copyDown_moved (mem : Memory) (distinct : ∀ i j, i < j → j < n → dst.nth i ≠ dst.nth j)
    (unread : ∀ i j, i < j → j < n → src.nth i ≠ dst.nth j) :
    Moved mem (copyDown mem (dst.nth n) (src.nth n) n) dst src n := by
  induction n generalizing mem with
  | zero => exact Moved.zero mem dst src
  | succ n ih =>
    have rest := ih (update mem (dst.nth n) (mem (src.nth n)))
      (fun i j less small => distinct i j less (by omega))
      (fun i j less small => unread i j less (by omega))
    rw [copyDown, nth_pred, nth_pred]
    refine ⟨?_, ?_⟩
    · intro i small
      rcases Nat.lt_succ_iff_lt_or_eq.mp small with early | rfl
      · rw [rest.copied i early, update_of_ne (unread i n early (by omega))]
      · rw [rest.frame _ fun j less => (distinct j i less small).symm, update_self]
    · intro a outside
      rw [rest.frame a fun i less => outside i (by omega),
        update_of_ne (outside n (by omega))]

theorem nth_distinct (inside : InSpace p n) : ∀ i j, i < j → j < n → p.nth i ≠ p.nth j := by
  intro i j less small same
  have places := congrArg BitVec.toNat same
  rw [nth_toNat inside (by omega), nth_toNat inside small] at places
  omega

def Ranges (dst src : Addr) (n : Nat) : Prop := InSpace dst n ∧ InSpace src n

theorem Ranges.up (ranges : Ranges dst src n)
    (ahead : dst.toNat ≤ src.toNat ∨ src.toNat + n ≤ dst.toNat) :
    Moved mem (copyUp mem dst src n) dst src n := by
  apply copyUp_moved (nth_distinct ranges.1)
  intro i j less small same
  have places := congrArg BitVec.toNat same
  rw [nth_toNat ranges.2 small, nth_toNat ranges.1 (by omega)] at places
  omega

theorem Ranges.down (ranges : Ranges dst src n) (behind : src.toNat ≤ dst.toNat) :
    Moved mem (copyDown mem (dst.nth n) (src.nth n) n) dst src n := by
  apply copyDown_moved mem (nth_distinct ranges.1)
  intro i j less small same
  have places := congrArg BitVec.toNat same
  rw [nth_toNat ranges.2 (by omega), nth_toNat ranges.1 small] at places
  omega

end Loops

section Memmove
variable {mem : Memory} {dst src : Addr} {n : BitVec 32}

theorem add_setWidth (p : Addr) (n : BitVec 32) : p + n.setWidth 64 = p.nth n.toNat := by
  rw [Addr.nth, BitVec.ofNat_toNat]

theorem add_signExtend (p : Addr) (nonneg : 0 ≤ n.toInt) :
    p + n.signExtend 64 = p.nth n.toInt.toNat := by
  have msb : n.msb = false := by
    rw [BitVec.toInt_eq_msb_cond] at nonneg
    by_contra set
    rw [Bool.not_eq_false] at set
    have := n.isLt
    simp only [set, if_true] at nonneg
    omega
  rw [Addr.nth, BitVec.signExtend_eq_setWidth_of_msb_false msb, BitVec.toInt_eq_toNat_of_msb msb,
    Int.toNat_natCast, BitVec.ofNat_toNat]

theorem Kernel.memmove_moved (ranges : Ranges dst src n.toNat) :
    Moved mem (Kernel.memmove mem dst src n).1 dst src n.toNat := by
  unfold Kernel.memmove
  split
  · rename_i zero
    subst zero
    exact Moved.zero mem dst src
  · split
    · rename_i before
      rw [add_setWidth, add_setWidth]
      exact ranges.down (BitVec.lt_def.mp before.1).le
    · rename_i apart
      apply ranges.up
      rw [BitVec.lt_def, BitVec.lt_def, not_and_or, not_lt, not_lt] at apart
      rcases apart with ahead | apart
      · exact .inl ahead
      · -- the sum cannot wrap: the source ends before the destination does
        by_cases ahead : dst.toNat ≤ src.toNat
        · exact .inl ahead
        · have inside : src.toNat + n.toNat < 2 ^ 64 := by
            have := ranges.1
            unfold InSpace at this
            omega
          rw [BitVec.toNat_add, BitVec.toNat_setWidth, Nat.mod_eq_of_lt (a := n.toNat) (by omega),
            Nat.mod_eq_of_lt inside] at apart
          exact .inr apart

theorem User.memmove_moved (ranges : Ranges dst src n.toInt.toNat) :
    Moved mem (User.memmove mem dst src n).1 dst src n.toInt.toNat := by
  unfold User.memmove
  split
  · rename_i behind
    exact ranges.up (.inl (BitVec.lt_def.mp behind).le)
  · rename_i behind
    have behind : src.toNat ≤ dst.toNat := not_lt.mp behind
    by_cases nonneg : 0 ≤ n.toInt
    · rw [add_signExtend dst nonneg, add_signExtend src nonneg]
      exact ranges.down behind
    · rw [Int.toNat_of_nonpos (by omega)]
      exact Moved.zero mem dst src

theorem memmove_returns (mem : Memory) (dst src : Addr) (n : BitVec 32) :
    (Kernel.memmove mem dst src n).2 = dst ∧ (User.memmove mem dst src n).2 = dst := by
  unfold Kernel.memmove User.memmove
  constructor <;> split_ifs <;> rfl

/-- Both move under every overlap; a negative length is no bytes for the user library's. -/
theorem memmove_any_overlap (mem : Memory) (dst src : Addr) :
    (∀ n : BitVec 32, Ranges dst src n.toNat →
      Moved mem (Kernel.memmove mem dst src n).1 dst src n.toNat) ∧
    (∀ n : BitVec 32, Ranges dst src n.toInt.toNat →
      Moved mem (User.memmove mem dst src n).1 dst src n.toInt.toNat) ∧
    ∀ n m : BitVec 32, n.toNat = m.toInt.toNat → Ranges dst src n.toNat →
      Kernel.memmove mem dst src n = User.memmove mem dst src m := by
  refine ⟨fun n => Kernel.memmove_moved, fun n => User.memmove_moved, ?_⟩
  intro n m same ranges
  have moved : Moved mem (User.memmove mem dst src m).1 dst src n.toNat := by
    rw [same] at ranges ⊢
    exact User.memmove_moved ranges
  apply Prod.ext
  · exact (Kernel.memmove_moved ranges).unique moved
  · rw [(memmove_returns mem dst src n).1, (memmove_returns mem dst src m).2]

theorem memmove_any_overlap_four :
    Moved (fun a => UInt8.ofNat a.toNat)
      (Kernel.memmove (fun a => UInt8.ofNat a.toNat) 101 100 4).1 101 100 4 ∧
    Kernel.memmove (fun a => UInt8.ofNat a.toNat) 100 101 4 =
      User.memmove (fun a => UInt8.ofNat a.toNat) 100 101 4 := by
  have up : Ranges 101 100 4 := by unfold Ranges InSpace; decide
  have down : Ranges 100 101 4 := by unfold Ranges InSpace; decide
  exact ⟨(memmove_any_overlap _ 101 100).1 4 up, (memmove_any_overlap _ 100 101).2.2 4 4 rfl down⟩

end Memmove
end Xv6Lab.Libc
