import Xv6Lab.Fs.Model
import Xv6Lab.Proc.Model

/-!
Processes, exec and the system calls that own memory, files and inodes (proc.c,
exec.c, sysfile.c, syscall.c, sysproc.c), one call after the other. A process that
is not in a call and can run is RUNNABLE here.
-/

namespace Xv6Lab.Kernel
open Function (update)

open Bytes (Mem load store write read)
open Mm
open Fs
open Proc (ProcState)

def NOFILE : Nat := 16
def NDEV : Nat := 10
def CONSOLE : Int := 1
def MAXARG : Nat := 32
def MAXPATH : Nat := 128
def USERSTACK : Nat := 1
def initproc : Nat := 0
def O_RDONLY : Nat := 0
def O_WRONLY : Nat := 1
def O_RDWR : Nat := 2
def O_CREATE : Nat := 0x200
def O_TRUNC : Nat := 0x400

structure Process where
  state : ProcState
  pid : BitVec 32
  parent : Option Nat
  killed : Bool
  xstate : Int
  sz : Nat
  pagetable : Nat
  trapframe : Nat
  ofile : Nat → Option Nat
  cwd : Option Nat
  name : List UInt8

/-- kstacks and rings are the pages of the kernel stacks and of the virtio queue. -/
structure State where
  mach : Mach
  tables : Tables
  proc : Nat → Process
  nextpid : BitVec 32
  kernelPagetable : Nat
  kstacks : List Nat
  rings : List Nat

abbrev KM := Prog Panic State

def onMach {α : Type} (x : MM α) : KM α :=
  x.zoom (fun k => k.mach) fun mach k => { k with mach }

def onTables {α : Type} (x : FM α) : KM α :=
  x.zoom (fun k => k.tables) fun tables k => { k with tables }

def setProc (p : Nat) (f : Process → Process) : KM Unit :=
  modify fun k => { k with proc := update k.proc p (f (k.proc p)) }

def getProc (p : Nat) : KM Process := do return (← get).proc p

-- offsets in struct trapframe
def TF_EPC : Nat := 24
def TF_SP : Nat := 48
def TF_A0 : Nat := 112
def TF_A1 : Nat := 120
def TF_SIZE : Nat := 288

section
variable (cfg : Config)

def procPagetable (trapframe : Nat) : MM Nat := do
  let pagetable ← uvmcreate
  if pagetable = 0 then return 0
  else if ← mappages pagetable TRAMPOLINE PGSIZE cfg.trampoline (PTE_R ||| PTE_X) then
    if ← mappages pagetable TRAPFRAME PGSIZE trapframe (PTE_R ||| PTE_W) then return pagetable
    else
      uvmunmap cfg pagetable TRAMPOLINE 1 false
      uvmfree cfg pagetable 0
      return 0
  else
    uvmfree cfg pagetable 0
    return 0

def procFreepagetable (pagetable sz : Nat) : MM Unit := do
  uvmunmap cfg pagetable TRAMPOLINE 1 false
  uvmunmap cfg pagetable TRAPFRAME 1 false
  uvmfree cfg pagetable sz

def freeproc (p : Nat) : KM Unit := do
  let proc ← getProc p
  onMach (if proc.trapframe ≠ 0 then kfree cfg proc.trapframe else pure ())
  onMach (if proc.pagetable ≠ 0 then procFreepagetable cfg proc.pagetable proc.sz else pure ())
  setProc p fun proc =>
    { proc with
      trapframe := 0, pagetable := 0, sz := 0, pid := 0, parent := none, name := []
      killed := false, xstate := 0, state := .unused }

def allocproc : KM (Option Nat) := do
  let k ← get
  match (List.range NPROC).find? fun p => (k.proc p).state = .unused with
  | none => return none
  | some p =>
    set { k with nextpid := k.nextpid + 1 }
    setProc p fun proc => { proc with pid := k.nextpid, state := .used }
    let trapframe ← onMach kalloc
    setProc p fun proc => { proc with trapframe }
    if trapframe = 0 then
      freeproc cfg p
      return none
    else
      let pagetable ← onMach (procPagetable cfg trapframe)
      setProc p fun proc => { proc with pagetable }
      if pagetable = 0 then
        freeproc cfg p
        return none
      else return some p

def dupFiles (p np : Nat) : Nat → KM Unit
  | 0 => return ()
  | n + 1 => do
    match (← getProc p).ofile (NOFILE - (n + 1)) with
    | none => pure ()
    | some f =>
      onTables (filedup f)
      setProc np fun proc =>
        { proc with ofile := update proc.ofile (NOFILE - (n + 1)) (some f) }
    dupFiles p np n

def kfork (p : Nat) : KM Int := do
  match ← allocproc cfg with
  | none => return -1
  | some np =>
    let proc ← getProc p
    let child ← getProc np
    if ← onMach (uvmcopy cfg proc.pagetable child.pagetable proc.sz) then
      setProc np fun child => { child with sz := proc.sz }
      onMach (memmove child.trapframe proc.trapframe TF_SIZE)
      onMach (writePte (child.trapframe + TF_A0) 0)
      dupFiles p np NOFILE
      match proc.cwd with
      | none => throw .nullDeref
      | some i =>
        let i ← onTables (idup i)
        setProc np fun child =>
          { child with cwd := some i, name := proc.name, parent := some p, state := .runnable }
        return child.pid.toInt
    else
      freeproc cfg np
      return -1

/-- False for -1. -/
def growproc (p : Nat) (n : Int) : KM Bool := do
  let proc ← getProc p
  if 0 < n then
    if TRAPFRAME < proc.sz + n.toNat then return false
    else
      let sz ← onMach (uvmalloc cfg proc.pagetable proc.sz (proc.sz + n.toNat) PTE_W)
      if sz = 0 then return false
      else
        setProc p fun proc => { proc with sz }
        return true
  else if n < 0 then
    let sz ← onMach
      (uvmdealloc cfg proc.pagetable proc.sz ((proc.sz + n : Int) % 2 ^ 64).toNat)
    setProc p fun proc => { proc with sz }
    return true
  else return true

def sysSbrk (p : Nat) (n : Int) : KM Int := do
  let addr := (← getProc p).sz
  if ← growproc cfg p n then return addr else return -1

def closeFiles (p : Nat) : Nat → KM Unit
  | 0 => return ()
  | n + 1 => do
    match (← getProc p).ofile (NOFILE - (n + 1)) with
    | none => pure ()
    | some f =>
      onTables (fileclose f)
      setProc p fun proc =>
        { proc with ofile := update proc.ofile (NOFILE - (n + 1)) none }
    closeFiles p n

def reparent (p : Nat) : KM Unit :=
  modify fun k =>
    { k with
      proc := fun i =>
        if (k.proc i).parent = some p then { k.proc i with parent := some initproc }
        else k.proc i }

def kexit (p : Nat) (status : Int) : KM Unit := do
  if p = initproc then throw .initExiting
  else
    closeFiles p NOFILE
    match (← getProc p).cwd with
    | none => throw .nullDeref
    | some i =>
      onTables (iput i)
      setProc p fun proc => { proc with cwd := none }
      reparent p
      setProc p fun proc => { proc with xstate := status, state := .zombie }

/-- none while the process sleeps until a child exits. -/
def kwait (p addr : Nat) : KM (Option Int) := do
  let k ← get
  match (List.range NPROC).find? fun i =>
      (k.proc i).parent = some p ∧ (k.proc i).state = .zombie with
  | some i =>
    let copied ← onMach
      (if addr ≠ 0 then
        copyout (k.proc p).pagetable addr (encode 4 ((k.proc i).xstate % 2 ^ 32).toNat)
      else return true)
    if copied then
      freeproc cfg i
      return some (k.proc i).pid.toInt
    else return some (-1)
  | none =>
    if (∀ i < NPROC, (k.proc i).parent ≠ some p) ∨ (k.proc p).killed then return some (-1)
    else return none

def putPhys (pa tot : Nat) (bytes : List UInt8) : MM Bool := do
  modify fun s => { s with mem := write s.mem (pa + tot) bytes }
  return true

def loadLoop (pagetable va : Nat) (ip : Inode) (offset sz : Nat) : Nat → Nat → MM Bool
  | 0, _ => return true
  | n + 1, i =>
    if i < sz then do
      let pa ← walkaddr pagetable ((va + i) % 2 ^ 64)
      if pa = 0 then throw .loadseg
      else
        let len := min (sz - i) PGSIZE
        let r ← readi cfg.image ip (putPhys pa) ((offset + i) % 2 ^ 32) len
        if r ≠ len then return false else loadLoop pagetable va ip offset sz n (i + PGSIZE)
    else return true

/-- offset and sz are uints. -/
def loadseg (pagetable va : Nat) (ip : Inode) (offset sz : Nat) : MM Bool :=
  loadLoop cfg pagetable va ip (offset % 2 ^ 32) (sz % 2 ^ 32) (sz % 2 ^ 32 / PGSIZE + 1) 0

def flags2perm (flags : Nat) : Nat :=
  (if flags &&& 1 ≠ 0 then PTE_X else 0) ||| (if flags &&& 2 ≠ 0 then PTE_W else 0)

def ELF_MAGIC : Nat := 0x464C457F
def ELF_PROG_LOAD : Nat := 1
def ELFHDR : Nat := 64
def PROGHDR : Nat := 56

def field (bytes : List UInt8) (i n : Nat) : Nat := load (fun j => bytes.getD j 0) i n

/-- The loop of kexec over the program headers: the size so far, and false for bad. -/
def segLoop (pagetable : Nat) (ip : Inode) : Nat → Nat → Nat → MM (Nat × Bool)
  | 0, _, sz => return (sz, true)
  | n + 1, off, sz => do
    let (r, ph) ← Prog.lift (readKernel cfg.image ip off PROGHDR)
    let next := (off + PROGHDR) % 2 ^ 32
    let filesz := field ph 32 8
    let memsz := field ph 40 8
    let vaddr := field ph 16 8
    if r ≠ PROGHDR then return (sz, false)
    else if field ph 0 4 ≠ ELF_PROG_LOAD then segLoop pagetable ip n next sz
    else if memsz < filesz then return (sz, false)
    else if (vaddr + memsz) % 2 ^ 64 < vaddr then return (sz, false)
    else if vaddr % PGSIZE ≠ 0 then return (sz, false)
    else
      let sz1 ← uvmalloc cfg pagetable sz ((vaddr + memsz) % 2 ^ 64) (flags2perm (field ph 4 4))
      if sz1 = 0 then return (sz, false)
      else if ← loadseg cfg pagetable vaddr ip (field ph 8 8) filesz then
        segLoop pagetable ip n next sz1
      else return (sz1, false)

def sub64 (a b : Nat) : Nat := (a + 2 ^ 64 - b) % 2 ^ 64

def lowerSp (sp n : Nat) : Nat := sub64 sp n - sub64 sp n % 16

/-- The loop that copies the argument strings: the stack pointer and ustack so far,
none for bad. -/
def pushArgs (pagetable stackbase : Nat) :
    List (List UInt8) → Nat → List Nat → MM (Option (Nat × List Nat))
  | [], sp, ustack => return some (sp, ustack)
  | arg :: rest, sp, ustack =>
    if MAXARG ≤ ustack.length then return none
    else if lowerSp sp (arg.length + 1) < stackbase then return none
    else do
      let sp := lowerSp sp (arg.length + 1)
      if ← copyout pagetable sp (arg ++ [0]) then
        pushArgs pagetable stackbase rest sp (ustack ++ [sp])
      else return none

/-- The stack of the new image: its stack pointer, none for bad. -/
def pushStack (pagetable sz : Nat) (argv : List (List UInt8)) : MM (Option Nat) := do
  uvmclear pagetable (sz - (USERSTACK + 1) * PGSIZE)
  let stackbase := sz - USERSTACK * PGSIZE
  match ← pushArgs pagetable stackbase argv sz [] with
  | none => return none
  | some (sp, ustack) =>
    let sp := lowerSp sp ((argv.length + 1) * 8)
    if sp < stackbase then return none
    else if ← copyout pagetable sp ((ustack ++ [0]).flatMap (encode 8)) then return some sp
    else return none

def execBad (p pagetable sz : Nat) (ip : Option Nat) : KM Int := do
  onMach (procFreepagetable cfg pagetable sz)
  match ip with
  | none => return -1
  | some i =>
    onTables (iunlockput ((← getProc p).pid) i)
    return -1

def commit (p pagetable sz sp entry : Nat) (path : List UInt8) (argc : Nat) : KM Int := do
  let proc ← getProc p
  onMach (writePte (proc.trapframe + TF_A1) sp)
  setProc p fun proc =>
    { proc with
      name := (path.reverse.takeWhile (· ≠ slash)).reverse.take 15
      pagetable, sz }
  onMach (writePte (proc.trapframe + TF_EPC) entry)
  onMach (writePte (proc.trapframe + TF_SP) sp)
  onMach (procFreepagetable cfg proc.pagetable proc.sz)
  return argc

def kexec (p : Nat) (path : List UInt8) (argv : List (List UInt8)) : KM Int := do
  let proc ← getProc p
  match ← onTables (namei cfg.image proc.pid proc.cwd path) with
  | none => return -1
  | some i =>
    onTables (ilock cfg.image proc.pid i)
    let ip := (← get).tables.inode i
    let (r, elf) ← Prog.lift (readKernel cfg.image ip 0 ELFHDR)
    if r ≠ ELFHDR ∨ field elf 0 4 ≠ ELF_MAGIC then
      onTables (iunlockput proc.pid i)
      return -1
    else
      let pagetable ← onMach (procPagetable cfg proc.trapframe)
      if pagetable = 0 then
        onTables (iunlockput proc.pid i)
        return -1
      else
        let (sz, ok) ← onMach
          (segLoop cfg pagetable ip (field elf 56 2) (field elf 32 8 % 2 ^ 32) 0)
        if ok then
          onTables (iunlockput proc.pid i)
          let sz := roundUp sz
          let sz1 ← onMach
            (uvmalloc cfg pagetable sz ((sz + (USERSTACK + 1) * PGSIZE) % 2 ^ 64) PTE_W)
          if sz1 = 0 then execBad cfg p pagetable sz none
          else
            match ← onMach (pushStack pagetable sz1 argv) with
            | none => execBad cfg p pagetable sz1 none
            | some sp => commit cfg p pagetable sz1 sp (field elf 24 8) path argv.length
        else execBad cfg p pagetable sz (some i)

def fetchaddr (proc : Process) (addr : Nat) : MM (Option Nat) := do
  if proc.sz ≤ addr ∨ proc.sz < (addr + 8) % 2 ^ 64 then return none
  else
    match ← copyin proc.pagetable addr 8 with
    | none => return none
    | some bytes => return some (field bytes 0 8)

def fetchstr (proc : Process) (addr page max : Nat) : MM (Option (List UInt8)) := do
  match ← copyinstr proc.pagetable addr max with
  | none => return none
  | some bytes =>
    modify fun s => { s with mem := write s.mem page (bytes ++ [0]) }
    return some bytes

/-- The loop of sys_exec with room for n more arguments: the pages allocated, the
strings, and false for bad. -/
def argLoop (proc : Process) (uargv : Nat) : Nat → MM (List Nat × List (List UInt8) × Bool)
  | 0 => return ([], [], false)
  | n + 1 => do
    match ← fetchaddr proc ((uargv + 8 * (MAXARG - (n + 1))) % 2 ^ 64) with
    | none => return ([], [], false)
    | some uarg =>
      if uarg = 0 then return ([], [], true)
      else
        let page ← kalloc
        if page = 0 then return ([], [], false)
        else
          match ← fetchstr proc uarg page PGSIZE with
          | none => return ([page], [], false)
          | some arg =>
            let (pages, args, ok) ← argLoop proc uargv n
            return (page :: pages, arg :: args, ok)

def sysExec (p path uargv : Nat) : KM Int := do
  let proc ← getProc p
  match ← onMach (copyinstr proc.pagetable path MAXPATH) with
  | none => return -1
  | some path =>
    let (pages, argv, ok) ← onMach (argLoop proc uargv MAXARG)
    if ok then
      let ret ← kexec cfg p path argv
      onMach (freeAll cfg pages)
      return ret
    else
      onMach (freeAll cfg pages)
      return -1

/-- The first free descriptor of p gets file f; none for -1. -/
def fdalloc (p f : Nat) : KM (Option Nat) := do
  let proc ← getProc p
  match (List.range NOFILE).find? fun fd => (proc.ofile fd).isNone with
  | none => return none
  | some fd =>
    setProc p fun proc => { proc with ofile := update proc.ofile fd (some f) }
    return some fd

def argfd (p : Nat) (fd : Int) : KM (Option Nat) := do
  if fd < 0 ∨ NOFILE ≤ fd then return none else return (← getProc p).ofile fd.toNat

def sysDup (p : Nat) (fd : Int) : KM Int := do
  match ← argfd p fd with
  | none => return -1
  | some f =>
    match ← fdalloc p f with
    | none => return -1
    | some fd =>
      onTables (filedup f)
      return fd

def sysClose (p : Nat) (fd : Int) : KM Int := do
  match ← argfd p fd with
  | none => return -1
  | some f =>
    setProc p fun proc => { proc with ofile := update proc.ofile fd.toNat none }
    onTables (fileclose f)
    return 0

/-- consoleread as far as user memory goes: input is what it takes from the ring. -/
def consoleread (pagetable : Nat) : List UInt8 → Nat → MM Int
  | [], _ => return 0
  | c :: rest, dst => do
    if ← copyout pagetable (dst % 2 ^ 64) [c] then return 1 + (← consoleread pagetable rest (dst + 1))
    else return 0

def fileread (p f addr : Nat) (n : Int) (input : List UInt8) : KM Int := do
  let proc ← getProc p
  let file := (← get).tables.file f
  if file.readable = false then return -1
  else
    match file.type with
    | .device =>
      if file.major = CONSOLE then onMach (consoleread proc.pagetable (input.take n.toNat) addr)
      else return -1
    | .inode =>
      match file.ip with
      | none => throw .ilock
      | some i =>
        onTables (ilock cfg.image proc.pid i)
        let ip := (← get).tables.inode i
        let r ← onMach (readi cfg.image ip
          (fun tot bytes => copyout proc.pagetable ((addr + tot) % 2 ^ 64) bytes)
          file.off (n % 2 ^ 32).toNat)
        onTables (modify fun t =>
          if 0 < r then t.setFile f { t.file f with off := (file.off + r.toNat) % 2 ^ 32 } else t)
        onTables (iunlock proc.pid i)
        return r
    | .none => throw .fileread

def sysRead (p : Nat) (fd : Int) (addr : Nat) (n : Int) (input : List UInt8) : KM Int := do
  match ← argfd p fd with
  | none => return -1
  | some f => fileread cfg p f addr n input

def filestat (p f addr : Nat) : KM Int := do
  let proc ← getProc p
  let file := (← get).tables.file f
  if file.type = .none then return -1
  else
    match file.ip with
    | none => throw .ilock
    | some i =>
      onTables (ilock cfg.image proc.pid i)
      let st := stati ((← get).tables.inode i)
      onTables (iunlock proc.pid i)
      if ← onMach (copyout proc.pagetable addr st) then return 0 else return -1

def sysFstat (p : Nat) (fd : Int) (addr : Nat) : KM Int := do
  match ← argfd p fd with
  | none => return -1
  | some f => filestat cfg p f addr

def openFile (file : File) (i : Nat) (ip : Inode) (omode : Nat) : File :=
  { file with
    type := if ip.type = T_DEVICE then .device else .inode
    major := if ip.type = T_DEVICE then ip.major else file.major
    off := if ip.type = T_DEVICE then file.off else 0
    ip := some i
    readable := omode &&& O_WRONLY = 0
    writable := ip.type = T_DEVICE ∧ (omode &&& O_WRONLY ≠ 0 ∨ omode &&& O_RDWR ≠ 0) }

def sysOpen (p path omode : Nat) : KM Int := do
  let proc ← getProc p
  match ← onMach (copyinstr proc.pagetable path MAXPATH) with
  | none => return -1
  | some path =>
    if omode &&& (O_CREATE ||| O_TRUNC) ≠ 0 then return -1
    else
      match ← onTables (namei cfg.image proc.pid proc.cwd path) with
      | none => return -1
      | some i =>
        onTables (ilock cfg.image proc.pid i)
        let ip := (← get).tables.inode i
        if (ip.type = T_DIR ∧ omode ≠ O_RDONLY) ∨
            (ip.type = T_DEVICE ∧ (ip.major < 0 ∨ NDEV ≤ ip.major)) then
          onTables (iunlockput proc.pid i)
          return -1
        else
          match ← onTables filealloc with
          | none =>
            onTables (iunlockput proc.pid i)
            return -1
          | some f =>
            match ← fdalloc p f with
            | none =>
              onTables (fileclose f)
              onTables (iunlockput proc.pid i)
              return -1
            | some fd =>
              onTables (modify fun t => t.setFile f (openFile (t.file f) i ip omode))
              onTables (iunlock proc.pid i)
              return fd

def kkill (pid : BitVec 32) : KM Int := do
  let k ← get
  match (List.range NPROC).find? fun p => (k.proc p).pid = pid with
  | none => return -1
  | some p =>
    setProc p fun proc => { proc with killed := true }
    return 0

end

/-- What a process asks for; store is a store instruction of user code. -/
inductive Call
  | fork
  | exit (status : Int)
  | wait (addr : Nat)
  | sbrk (n : Int)
  | exec (path argv : Nat)
  | open (path omode : Nat)
  | close (fd : Int)
  | dup (fd : Int)
  | read (fd : Int) (addr : Nat) (n : Int) (input : List UInt8)
  | fstat (fd : Int) (addr : Nat)
  | kill (pid : BitVec 32)
  | store (va : Nat) (byte : UInt8)

structure Event where
  proc : Nat
  call : Call
  fail : List Bool

section
variable (cfg : Config)

/-- The value that goes to a0, none if the call does not return. -/
def syscall (p : Nat) : Call → KM (Option Int)
  | .fork => do return some (← kfork cfg p)
  | .exit status => do
    kexit p status
    return none
  | .wait addr => kwait cfg p addr
  | .sbrk n => do return some (← sysSbrk cfg p n)
  | .exec path argv => do return some (← sysExec cfg p path argv)
  | .open path omode => do return some (← sysOpen cfg p path omode)
  | .close fd => do return some (← sysClose p fd)
  | .dup fd => do return some (← sysDup p fd)
  | .read fd addr n input => do return some (← sysRead cfg p fd addr n input)
  | .fstat fd addr => do return some (← sysFstat cfg p fd addr)
  | .kill pid => do return some (← kkill pid)
  | .store va byte => do
    -- the hardware asks for PTE_V, PTE_U and PTE_W as copyout does
    let _ ← onMach (copyout ((← getProc p).pagetable) va [byte])
    return none

def perform (e : Event) : KM Unit := do
  if (← getProc e.proc).state = .runnable ∧ e.proc < NPROC then
    modify fun k => { k with mach := { k.mach with fail := e.fail } }
    match ← syscall cfg e.proc e.call with
    | none => pure ()
    | some r =>
      onMach (writePte ((← getProc e.proc).trapframe + TF_A0) (r % 2 ^ 64).toNat)
  else pure ()

def userinit : KM Unit := do
  match ← allocproc cfg with
  | none => throw .nullDeref
  | some p =>
    let cwd ← onTables (namei cfg.image 0 none [slash])
    setProc p fun proc => { proc with cwd, state := .runnable }

def ring : MM Nat := do
  let page ← kalloc
  if page = 0 then throw .virtioKalloc
  else
    memset page 0 PGSIZE
    return page

def initPath : List UInt8 := [slash, 105, 110, 105, 116]

def forkret : KM Unit := do
  onTables (fsinit cfg.image)
  let r ← kexec cfg initproc initPath [initPath]
  onMach (writePte ((← getProc initproc).trapframe + TF_A0) (r % 2 ^ 64).toNat)
  if r = -1 then throw .exec else pure ()

/-- main on the first CPU, as far as it owns memory, files and inodes, and the
start of the first process. -/
def main : KM Unit := do
  onMach (freerange cfg)
  let (kernelPagetable, kstacks) ← onMach (kvmmake cfg)
  let desc ← onMach ring
  let avail ← onMach ring
  let used ← onMach ring
  modify fun k => { k with kernelPagetable, kstacks, rings := [desc, avail, used] }
  userinit cfg
  forkret cfg

def blank (mem : Mem) (fail : List Bool) : State where
  mach := ⟨mem, 0, fail⟩
  tables :=
    { inode := fun _ => ⟨0, 0, 0, false, 0, false, 0, 0, 0, 0, 0, fun _ => 0⟩
      file := fun _ => ⟨.none, 0, false, false, none, 0, 0⟩
      sb := ⟨0, 0, 0, 0, 0, 0, 0, 0⟩ }
  proc := fun _ => ⟨.unused, 0, none, false, 0, 0, 0, 0, fun _ => none, none, []⟩
  nextpid := 1
  kernelPagetable := 0
  kstacks := []
  rings := []

def boot (mem : Mem) (fail : List Bool) : Except Panic State :=
  ((main cfg).run (blank mem fail)).map Prod.snd

def step (r : Except Panic State) (e : Event) : Except Panic State := do
  let k ← r
  ((perform cfg e).run k).map Prod.snd

def run (mem : Mem) (fail : List Bool) (events : List Event) : Except Panic State :=
  Machine.run (step cfg) (boot cfg mem fail) events

end
end Xv6Lab.Kernel
