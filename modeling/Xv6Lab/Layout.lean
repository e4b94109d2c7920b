import Mathlib.Tactic

/-! Constants of `riscv.h`, `memlayout.h` and `param.h`. -/

namespace Xv6Lab

def PGSIZE : Nat := 4096

def pgRoundUp (sz : Nat) : Nat := (sz + (PGSIZE - 1)) / PGSIZE * PGSIZE
def pgRoundDown (a : Nat) : Nat := a / PGSIZE * PGSIZE

def MAXVA : Nat := 2^38
def TRAMPOLINE : Nat := MAXVA - PGSIZE
def TRAPFRAME : Nat := TRAMPOLINE - PGSIZE

theorem pgRoundUp_le (sz : Nat) : sz ≤ pgRoundUp sz := by
  simp only [pgRoundUp, PGSIZE]
  omega

end Xv6Lab
