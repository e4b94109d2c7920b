import Xv6Lab.Layout

namespace Xv6Lab.Umalloc

/-- The `int` a 64-bit value becomes when it is passed to `sbrk(int n)`. -/
def toInt (n : Nat) : Int := if n % 2^32 < 2^31 then n % 2^32 else (n % 2^32 : Int) - 2^32

/-- `p->sz` after `growproc(n)`, `none` for -1. `oom` is the answer of `uvmalloc`:
it fails exactly when the allocator runs dry on the way. -/
def growproc (oom : Bool) (sz : Nat) (n : Int) : Option Nat :=
  if n > 0 then
    if sz + n.toNat > TRAPFRAME then none
    else if oom then none
    else some (sz + n.toNat)
  else if n < 0 then
    -- `sz + n` is taken modulo 2^64: a shrink below zero becomes a huge new size,
    -- for which `uvmdealloc` returns the old one.
    let newsz := (2^64 + sz - n.natAbs) % 2^64
    if newsz ≥ sz then some sz else some newsz
  else some sz

structure Header where
  ptr : Nat
  size : Nat
  deriving DecidableEq, Repr

/-- The allocator's statics, the headers by address, and the program break. -/
structure Heap where
  base : Nat
  mem : Nat → Header
  freep : Nat
  sz : Nat

def headerSize : Nat := 16

def Heap.ptr (h : Heap) (a : Nat) : Nat := (h.mem a).ptr
def Heap.size (h : Heap) (a : Nat) : Nat := (h.mem a).size

def Heap.setPtr (h : Heap) (a v : Nat) : Heap :=
  { h with mem := Function.update h.mem a { h.mem a with ptr := v } }

/-- `size` is a `uint`. -/
def Heap.setSize (h : Heap) (a v : Nat) : Heap :=
  { h with mem := Function.update h.mem a { h.mem a with size := v % 2^32 } }

def Heap.setFreep (h : Heap) (p : Nat) : Heap := { h with freep := p }

/-- The search loop of `free`: `none` when the fuel is used up. -/
def findSlot : Nat → Heap → Nat → Nat → Option Nat
  | 0, _, _, _ => none
  | fuel + 1, h, bp, p =>
    if bp > p ∧ bp < h.ptr p then some p
    else if p ≥ h.ptr p ∧ (bp > p ∨ bp < h.ptr p) then some p
    else findSlot fuel h bp (h.ptr p)

def mergeUpper (h : Heap) (bp p : Nat) : Heap :=
  if bp + h.size bp * headerSize = h.ptr p then
    (h.setSize bp (h.size bp + h.size (h.ptr p))).setPtr bp (h.ptr (h.ptr p))
  else h.setPtr bp (h.ptr p)

def mergeLower (h : Heap) (bp p : Nat) : Heap :=
  if p + h.size p * headerSize = bp then
    (h.setSize p (h.size p + h.size bp)).setPtr p (h.ptr bp)
  else h.setPtr p bp

def free (fuel : Nat) (h : Heap) (ap : Nat) : Option Heap :=
  let bp := ap - headerSize
  (findSlot fuel h bp h.freep).map fun p =>
    (mergeLower (mergeUpper h bp p) bp p).setFreep p

inductive Core where
  | fault
  | failed
  | grown (h : Heap)

/-- `morecore(nu)`. The header of the new block is written at the old break: the
store faults when that address is not below the page-rounded new break. -/
def morecore (oom : Bool) (fuel : Nat) (h : Heap) (nu : Nat) : Option Core :=
  let nu := if nu < 4096 then 4096 else nu
  match growproc oom h.sz (toInt (nu * headerSize)) with
  | none => some .failed
  | some sz =>
    if h.sz + headerSize ≤ pgRoundUp sz then
      (free fuel ({ h with sz := sz }.setSize h.sz nu) (h.sz + headerSize)).map Core.grown
    else some .fault

inductive Outcome where
  | fault
  | ret (p : Nat)
  deriving DecidableEq, Repr

def nunits (nbytes : Nat) : Nat := (nbytes + headerSize - 1) / headerSize + 1

/-- The block `p` is large enough: unlink it, or cut its tail off. -/
def carve (h : Heap) (units prevp p : Nat) : Heap × Outcome :=
  if h.size p = units then
    ((h.setPtr prevp (h.ptr p)).setFreep prevp, .ret (p + headerSize))
  else
    let rest := h.size p - units
    let q := p + rest * headerSize
    (((h.setSize p rest).setSize q units).setFreep prevp, .ret (q + headerSize))

/-- `malloc`'s loop; one unit of fuel per iteration, `none` when it is used up. -/
def mallocLoop (oom : Bool) (units : Nat) : Nat → Heap → Nat → Nat → Option (Heap × Outcome)
  | 0, _, _, _ => none
  | fuel + 1, h, prevp, p =>
    if h.size p ≥ units then some (carve h units prevp p)
    else if p = h.freep then
      match morecore oom fuel h units with
      | none => none
      | some .fault => some (h, .fault)
      | some .failed => some (h, .ret 0)
      | some (.grown h') => mallocLoop oom units fuel h' h'.freep (h'.ptr h'.freep)
    else mallocLoop oom units fuel h p (h.ptr p)

def initialized (h : Heap) : Heap :=
  if h.freep = 0 then
    ((h.setPtr h.base h.base).setSize h.base 0).setFreep h.base
  else h

def malloc (oom : Bool) (fuel : Nat) (h : Heap) (nbytes : Nat) : Option (Heap × Outcome) :=
  let h := initialized h
  mallocLoop oom (nunits nbytes) fuel h h.freep (h.ptr h.freep)

end Xv6Lab.Umalloc
