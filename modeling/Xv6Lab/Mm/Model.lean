import Xv6Lab.Layout
import Xv6Lab.Lib.Bytes
import Xv6Lab.Lib.Program

/-!
Physical memory: kalloc.c and vm.c. Addresses are numbers; where a uint64 can wrap
the remainder is written out. A null pointer is 0, or none where the pointer is
only followed.
-/

namespace Xv6Lab.Mm
open Bytes (Mem load store fill write read)

/-- What ends the kernel, by the text of the panic where there is one. -/
inductive Panic
  | kfree
  | walk
  | mappagesVa  -- "mappages: va not aligned"
  | mappagesAlign  -- "mappages: size not aligned"
  | mappagesSize  -- "mappages: size"
  | mappagesRemap  -- "mappages: remap"
  | uvmunmap  -- "uvmunmap: not aligned"
  | freewalkLeaf  -- "freewalk: leaf"
  | uvmclear
  | kvmmap
  | kalloc  -- proc_mapstacks
  | virtioKalloc  -- "virtio disk kalloc"
  | loadseg  -- "loadseg: address should exist"
  | fsinit  -- "invalid file system"
  | iget  -- "iget: no inodes"
  | ilock
  | ilockNoType  -- "ilock: no type"
  | iunlock
  | bmap  -- "bmap: out of range"
  | dirlookupNotDir  -- "dirlookup not DIR"
  | dirlookupRead  -- "dirlookup read"
  | filedup
  | fileclose
  | fileread
  | initExiting  -- "init exiting"
  | exec
  | nullDeref  -- the kernel follows a null pointer
  | endless  -- a loop or a recursion of the source goes on, or a lock never opens
deriving DecidableEq, Repr

def KERNBASE : Nat := 0x80000000
def UART0 : Nat := 0x10000000
def VIRT_TEST : Nat := 0x100000
def VIRTIO0 : Nat := 0x10001000
def PLIC : Nat := 0x0c000000

/-- What the linker script and the device tree settle: kernel text with the trampoline page,
then data, then the memory for kalloc up to phys_top. image is the disk. -/
structure Config where
  trampoline : Nat
  etext : Nat
  kernelEnd : Nat
  physTop : Nat
  image : Mem
  trampoline_aligned : trampoline % PGSIZE = 0
  text : KERNBASE ≤ trampoline ∧ trampoline + PGSIZE ≤ etext
  data : etext ≤ kernelEnd
  top : physTop ≤ 2 ^ 56

/-- fail says for each of the next calls of kalloc whether it returns 0 although
there may be memory. -/
structure Mach where
  mem : Mem
  freelist : Nat
  fail : List Bool

abbrev MM := Prog Panic Mach

def PTE_V : Nat := 1
def PTE_R : Nat := 2
def PTE_W : Nat := 4
def PTE_X : Nat := 8
def PTE_U : Nat := 16

def PA2PTE (pa : Nat) : Nat := pa / 2 ^ 12 * 2 ^ 10
def PTE2PA (pte : Nat) : Nat := pte / 2 ^ 10 * 2 ^ 12 % 2 ^ 64
def PTE_FLAGS (pte : Nat) : Nat := pte % 2 ^ 10
def PX (level va : Nat) : Nat := va / 2 ^ (12 + 9 * level) % 512

/-- `PGROUNDUP` of a uint64. -/
def roundUp (sz : Nat) : Nat := pgRoundUp sz % 2 ^ 64

/-- An int passed for a uint64. -/
def signExtend (n : Nat) : Nat :=
  if n % 2 ^ 32 < 2 ^ 31 then n % 2 ^ 32 else 2 ^ 64 - 2 ^ 32 + n % 2 ^ 32

/-- &pagetable[i] -/
def slot (pagetable i : Nat) : Nat := pagetable + 8 * i

def memset (pa : Nat) (c : UInt8) (n : Nat) : MM Unit :=
  modify fun s => { s with mem := fill s.mem pa n c }

def memmove (dst src n : Nat) : MM Unit :=
  modify fun s => { s with mem := write s.mem dst (read s.mem src n) }

def readPte (pte : Nat) : MM Nat := do return load (← get).mem pte 8

def writePte (pte v : Nat) : MM Unit :=
  modify fun s => { s with mem := store s.mem pte 8 v }

def kalloc : MM Nat := do
  let s ← get
  if s.fail.headD false ∨ s.freelist = 0 then
    set { s with fail := s.fail.tail }
    return 0
  else
    -- r->next is read before the page is filled with junk
    set ({ s with freelist := load s.mem s.freelist 8, fail := s.fail.tail } : Mach)
    memset s.freelist 5 PGSIZE
    return s.freelist

def walkFrom (va : Nat) (alloc : Bool) : Nat → Nat → MM (Option Nat)
  | 0, pagetable => return some (slot pagetable (PX 0 va))
  | level + 1, pagetable => do
    let pte := slot pagetable (PX (level + 1) va)
    let e ← readPte pte
    if e &&& PTE_V ≠ 0 then walkFrom va alloc level (PTE2PA e)
    else if alloc = false then return none
    else
      let page ← kalloc
      if page = 0 then return none
      else
        memset page 0 PGSIZE
        writePte pte (PA2PTE page ||| PTE_V)
        walkFrom va alloc level page

def walk (pagetable va : Nat) (alloc : Bool) : MM (Option Nat) :=
  if MAXVA ≤ va then throw .walk else walkFrom va alloc 2 pagetable

def walkaddr (pagetable va : Nat) : MM Nat :=
  if MAXVA ≤ va then return 0
  else do
    match ← walk pagetable va false with
    | none => return 0
    | some pte =>
      let e ← readPte pte
      if e &&& PTE_V = 0 then return 0
      else if e &&& PTE_U = 0 then return 0
      else return PTE2PA e

def mapLoop (pagetable perm : Nat) : Nat → Nat → Nat → MM Bool
  | 0, _, _ => return true
  | n + 1, a, pa => do
    match ← walk pagetable a true with
    | none => return false
    | some pte =>
      let e ← readPte pte
      if e &&& PTE_V ≠ 0 then throw .mappagesRemap
      else
        writePte pte (PA2PTE pa ||| perm ||| PTE_V)
        mapLoop pagetable perm n ((a + PGSIZE) % 2 ^ 64) ((pa + PGSIZE) % 2 ^ 64)

/-- False for -1. a reaches last after size / PGSIZE pages, also if va + size wraps. -/
def mappages (pagetable va size pa perm : Nat) : MM Bool :=
  if va % PGSIZE ≠ 0 then throw .mappagesVa
  else if size % PGSIZE ≠ 0 then throw .mappagesAlign
  else if size = 0 then throw .mappagesSize
  else mapLoop pagetable perm (size / PGSIZE) va pa

def uvmcreate : MM Nat := do
  let pagetable ← kalloc
  if pagetable = 0 then return 0
  else
    memset pagetable 0 PGSIZE
    return pagetable

section
variable (cfg : Config)

def kfree (pa : Nat) : MM Unit :=
  if pa % PGSIZE ≠ 0 ∨ pa < cfg.kernelEnd ∨ cfg.physTop ≤ pa then throw .kfree
  else do
    memset pa 1 PGSIZE
    modify fun s => { s with mem := store s.mem pa 8 s.freelist, freelist := pa }

def unmapPage (pagetable a : Nat) (doFree : Bool) : MM Unit := do
  match ← walk pagetable a false with
  | none => return ()
  | some pte =>
    let e ← readPte pte
    if e &&& PTE_V = 0 then return ()
    else if doFree then
      kfree cfg (PTE2PA e)
      writePte pte 0
    else writePte pte 0

/-- The loop of uvmunmap: npages rounds are enough to pass stop. -/
def unmapLoop (pagetable stop : Nat) (doFree : Bool) : Nat → Nat → MM Unit
  | 0, _ => return ()
  | n + 1, a =>
    if a < stop then do
      unmapPage cfg pagetable a doFree
      unmapLoop pagetable stop doFree n ((a + PGSIZE) % 2 ^ 64)
    else return ()

def uvmunmap (pagetable va npages : Nat) (doFree : Bool) : MM Unit :=
  if va % PGSIZE ≠ 0 then throw .uvmunmap
  else unmapLoop cfg pagetable ((va + npages * PGSIZE) % 2 ^ 64) doFree npages va

def uvmdealloc (pagetable oldsz newsz : Nat) : MM Nat :=
  if oldsz ≤ newsz then return oldsz
  else if roundUp newsz < roundUp oldsz then do
    uvmunmap cfg pagetable (roundUp newsz) (signExtend ((roundUp oldsz - roundUp newsz) / PGSIZE))
      true
    return newsz
  else return newsz

def growLoop (pagetable oldsz newsz xperm : Nat) : Nat → Nat → MM Nat
  | 0, _ => return newsz
  | n + 1, a =>
    if a < newsz then do
      let mem ← kalloc
      if mem = 0 then
        let _ ← uvmdealloc cfg pagetable a oldsz
        return 0
      else
        memset mem 0 PGSIZE
        if ← mappages pagetable a PGSIZE mem (PTE_R ||| PTE_U ||| xperm) then
          growLoop pagetable oldsz newsz xperm n ((a + PGSIZE) % 2 ^ 64)
        else
          kfree cfg mem
          let _ ← uvmdealloc cfg pagetable a oldsz
          return 0
    else return newsz

def uvmalloc (pagetable oldsz newsz xperm : Nat) : MM Nat :=
  if newsz < oldsz then return oldsz
  else growLoop cfg pagetable (roundUp oldsz) newsz xperm ((newsz - roundUp oldsz) / PGSIZE + 1)
    (roundUp oldsz)

def freeEntries (freeChild : Nat → MM Unit) (pagetable : Nat) : Nat → MM Unit
  | 0 => return ()
  | n + 1 => do
    let pte := slot pagetable (512 - (n + 1))
    let e ← readPte pte
    if e &&& PTE_V ≠ 0 ∧ e &&& (PTE_R ||| PTE_W ||| PTE_X) = 0 then
      freeChild (PTE2PA e)
      writePte pte 0
      freeEntries freeChild pagetable n
    else if e &&& PTE_V ≠ 0 then throw .freewalkLeaf
    else freeEntries freeChild pagetable n

def freewalk : Nat → Nat → MM Unit
  | 0, _ => throw .endless
  | depth + 1, pagetable => do
    freeEntries (freewalk depth) pagetable 512
    kfree cfg pagetable

def uvmfree (pagetable sz : Nat) : MM Unit := do
  if 0 < sz then uvmunmap cfg pagetable 0 (roundUp sz / PGSIZE) true else pure ()
  freewalk cfg 3 pagetable

def copyLoop (old new sz : Nat) : Nat → Nat → MM Bool
  | 0, _ => return true
  | n + 1, i =>
    if i < sz then do
      match ← walk old i false with
      | none => copyLoop old new sz n ((i + PGSIZE) % 2 ^ 64)
      | some pte =>
        let e ← readPte pte
        if e &&& PTE_V = 0 then copyLoop old new sz n ((i + PGSIZE) % 2 ^ 64)
        else
          let mem ← kalloc
          if mem = 0 then
            uvmunmap cfg new 0 (i / PGSIZE) true
            return false
          else
            memmove mem (PTE2PA e) PGSIZE
            if ← mappages new i PGSIZE mem (PTE_FLAGS e) then
              copyLoop old new sz n ((i + PGSIZE) % 2 ^ 64)
            else
              kfree cfg mem
              uvmunmap cfg new 0 (i / PGSIZE) true
              return false
    else return true

def uvmcopy (old new sz : Nat) : MM Bool := copyLoop cfg old new sz (sz / PGSIZE + 1) 0

end

def uvmclear (pagetable va : Nat) : MM Unit := do
  match ← walk pagetable va false with
  | none => throw .uvmclear
  | some pte =>
    let e ← readPte pte
    -- *pte &= ~PTE_U
    writePte pte (if e &&& PTE_U ≠ 0 then e - PTE_U else e)

def copyoutLoop (pagetable : Nat) : Nat → Nat → List UInt8 → MM Bool
  | 0, _, _ => return true
  | n + 1, dstva, src =>
    if src = [] then return true
    else if MAXVA ≤ pgRoundDown dstva then return false
    else do
      let va0 := pgRoundDown dstva
      let pa0 ← walkaddr pagetable va0
      if pa0 = 0 then return false
      else
        match ← walk pagetable va0 false with
        | none => throw .nullDeref
        | some pte =>
          let e ← readPte pte
          if e &&& PTE_W = 0 then return false
          else
            let len := min (PGSIZE - (dstva - va0)) src.length
            modify fun s => { s with mem := write s.mem (pa0 + (dstva - va0)) (src.take len) }
            copyoutLoop pagetable n (va0 + PGSIZE) (src.drop len)

/-- False for -1. -/
def copyout (pagetable dstva : Nat) (src : List UInt8) : MM Bool :=
  copyoutLoop pagetable (src.length / PGSIZE + 2) dstva src

/-- The loop of copyin, with room for n more pages; none for -1. -/
def copyinLoop (pagetable : Nat) : Nat → Nat → Nat → MM (Option (List UInt8))
  | 0, _, _ => return some []
  | n + 1, srcva, len =>
    if len = 0 then return some []
    else do
      let va0 := pgRoundDown srcva
      let pa0 ← walkaddr pagetable va0
      if pa0 = 0 then return none
      else
        let m := min (PGSIZE - (srcva - va0)) len
        let bytes := read (← get).mem (pa0 + (srcva - va0)) m
        match ← copyinLoop pagetable n ((va0 + PGSIZE) % 2 ^ 64) (len - m) with
        | none => return none
        | some rest => return some (bytes ++ rest)

def copyin (pagetable srcva len : Nat) : MM (Option (List UInt8)) :=
  copyinLoop pagetable (len / PGSIZE + 2) srcva len

/-- The loop of copyinstr; the bytes before the NUL, none for -1. -/
def copyinstrLoop (pagetable : Nat) : Nat → Nat → Nat → MM (Option (List UInt8))
  | 0, _, _ => return none
  | n + 1, srcva, max =>
    if max = 0 then return none
    else do
      let va0 := pgRoundDown srcva
      let pa0 ← walkaddr pagetable va0
      if pa0 = 0 then return none
      else
        let m := min (PGSIZE - (srcva - va0)) max
        let bytes := read (← get).mem (pa0 + (srcva - va0)) m
        if 0 ∈ bytes then return some (bytes.takeWhile (· ≠ 0))
        else
          match ← copyinstrLoop pagetable n ((va0 + PGSIZE) % 2 ^ 64) (max - m) with
          | none => return none
          | some rest => return some (bytes ++ rest)

def copyinstr (pagetable srcva max : Nat) : MM (Option (List UInt8)) :=
  copyinstrLoop pagetable (max / PGSIZE + 2) srcva max

def kvmmap (kpgtbl va pa sz perm : Nat) : MM Unit := do
  if ← mappages kpgtbl va sz pa perm then pure () else throw .kvmmap

def NPROC : Nat := 64

def KSTACK (p : Nat) : Nat := TRAMPOLINE - (p + 1) * 2 * PGSIZE

/-- proc_mapstacks for the last n processes; the pages of the stacks. -/
def mapstacks (kpgtbl : Nat) : Nat → MM (List Nat)
  | 0 => return []
  | n + 1 => do
    let pa ← kalloc
    if pa = 0 then throw .kalloc
    else
      kvmmap kpgtbl (KSTACK (NPROC - (n + 1))) pa PGSIZE (PTE_R ||| PTE_W)
      return pa :: (← mapstacks kpgtbl n)

def kvmmake (cfg : Config) : MM (Nat × List Nat) := do
  let kpgtbl ← kalloc
  if kpgtbl = 0 then throw .nullDeref
  else
    memset kpgtbl 0 PGSIZE
    kvmmap kpgtbl UART0 UART0 PGSIZE (PTE_R ||| PTE_W)
    kvmmap kpgtbl VIRT_TEST VIRT_TEST PGSIZE (PTE_R ||| PTE_W)
    kvmmap kpgtbl VIRTIO0 VIRTIO0 PGSIZE (PTE_R ||| PTE_W)
    kvmmap kpgtbl PLIC PLIC 0x4000000 (PTE_R ||| PTE_W)
    kvmmap kpgtbl KERNBASE KERNBASE (cfg.etext - KERNBASE) (PTE_R ||| PTE_X)
    kvmmap kpgtbl cfg.etext cfg.etext (cfg.physTop - cfg.etext) (PTE_R ||| PTE_W)
    kvmmap kpgtbl TRAMPOLINE cfg.trampoline PGSIZE (PTE_R ||| PTE_X)
    return (kpgtbl, ← mapstacks kpgtbl NPROC)

def rangePages (top : Nat) : Nat → Nat → List Nat
  | 0, _ => []
  | n + 1, p => if p + PGSIZE ≤ top then p :: rangePages top n (p + PGSIZE) else []

def pool (cfg : Config) : List Nat :=
  rangePages cfg.physTop (cfg.physTop / PGSIZE) (pgRoundUp cfg.kernelEnd)

def freeAll (cfg : Config) : List Nat → MM Unit
  | [] => return ()
  | p :: rest => do
    kfree cfg p
    freeAll cfg rest

def freerange (cfg : Config) : MM Unit := freeAll cfg (pool cfg)

def countFree (mem : Mem) : Nat → Nat → Nat
  | 0, _ => 0
  | n + 1, r => if r = 0 then 0 else 1 + countFree mem n (load mem r 8)

def kfreemem (cfg : Config) (s : Mach) : Nat :=
  countFree s.mem (cfg.physTop / PGSIZE) s.freelist * PGSIZE

end Xv6Lab.Mm
