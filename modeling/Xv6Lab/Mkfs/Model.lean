import Xv6Lab.Fs.Model

/-!
The program that builds the image of the file system (tools/mkfs.c). A run ends with
the first failed assertion, system call or allocation.
-/

namespace Xv6Lab.Mkfs
open Bytes (Mem load store write)
open Virtio (BSIZE)
open Fs

def FSSIZE : Nat := 70000
def LOGBLOCKS : Nat := 30
def BPB : Nat := BSIZE * 8
def NINODES : Nat := 200
def CONSOLE : Nat := 1

def nbitmap : Nat := FSSIZE / BPB + 1
def ninodeblocks : Nat := NINODES / IPB + 1
def nlog : Nat := LOGBLOCKS + 1
def nmeta : Nat := 2 + nlog + ninodeblocks + nbitmap
def nblocks : Nat := FSSIZE - nmeta
def inodestart : Nat := 2 + nlog
def bmapstart : Nat := 2 + nlog + ninodeblocks

inductive Exit
  | assert
  | openFile  -- die(argv[i])
  | read  -- die("read")
  | outOfBlocks
deriving DecidableEq, Repr

structure Dinode where
  type : Nat
  major : Nat
  minor : Nat
  nlink : Nat
  size : Nat
  addrs : Nat → Nat

/-- image and length are the contents of fsfd. log has the calls of winode, the last one
first; the program does not read it. -/
structure Disk where
  image : Mem
  length : Nat
  freeinode : Nat
  freeblock : Nat
  log : List (Nat × Dinode)

abbrev MkM := Prog Exit Disk

/-- sec * BSIZE is a uint. -/
def offset (sec : Nat) : Nat := sec * BSIZE % 2 ^ 32

def wsect (sec : Nat) (buf : Mem) : MkM Unit :=
  modify fun s =>
    { s with
      image := fun x =>
        if offset sec ≤ x ∧ x < offset sec + BSIZE then buf (x - offset sec) else s.image x
      length := max s.length (offset sec + BSIZE) }

def rsect (sec : Nat) : MkM Mem := do
  let s ← get
  if offset sec + BSIZE ≤ s.length then return fun i => s.image (offset sec + i) else throw .read

def storeAddrs (mem : Mem) (a : Nat) (addrs : Nat → Nat) : Nat → Mem
  | 0 => mem
  | n + 1 => store (storeAddrs mem a addrs n) (a + 12 + 4 * n) 4 (addrs n)

def storeDinode (mem : Mem) (a : Nat) (din : Dinode) : Mem :=
  let mem := store mem a 2 din.type
  let mem := store mem (a + 2) 2 din.major
  let mem := store mem (a + 4) 2 din.minor
  let mem := store mem (a + 6) 2 din.nlink
  let mem := store mem (a + 8) 4 din.size
  storeAddrs mem a din.addrs (NDIRECT + 2)

def loadDinode (mem : Mem) (a : Nat) : Dinode where
  type := load mem a 2
  major := load mem (a + 2) 2
  minor := load mem (a + 4) 2
  nlink := load mem (a + 6) 2
  size := load mem (a + 8) 4
  addrs := fun n => load mem (a + 12 + 4 * n) 4

def iblock (inum : Nat) : Nat := inum / IPB + inodestart

def winode (inum : Nat) (din : Dinode) : MkM Unit := do
  let buf ← rsect (iblock inum)
  wsect (iblock inum) (storeDinode buf (inum % IPB * DINODE) din)
  modify fun s => { s with log := (inum, din) :: s.log }

def rinode (inum : Nat) : MkM Dinode := do
  let buf ← rsect (iblock inum)
  return loadDinode buf (inum % IPB * DINODE)

def ialloc (type major minor : Nat) : MkM Nat := do
  let inum := (← get).freeinode
  modify fun s => { s with freeinode := inum + 1 }
  winode inum ⟨type, major, minor, 1, 0, fun _ => 0⟩
  return inum

def allocblock : MkM Nat := do
  let s ← get
  if FSSIZE ≤ s.freeblock then throw .outOfBlocks
  else
    set { s with freeblock := s.freeblock + 1 }
    return s.freeblock

/-- The inner loop of balloc for block b, over the first n bits. -/
def setBits (used b : Nat) : Nat → Mem
  | 0 => fun _ => 0
  | n + 1 =>
    let buf := setBits used b n
    if b * BPB + n < used then
      Function.update buf (n / 8) (buf (n / 8) ||| UInt8.ofNat (1 <<< (n % 8)))
    else buf

def ballocLoop (used : Nat) : Nat → MkM Unit
  | 0 => return ()
  | n + 1 => do
    ballocLoop used n
    wsect (bmapstart + n) (setBits used n BPB)

def balloc (used : Nat) : MkM Unit := ballocLoop used nbitmap

def inodeEntry (din : Dinode) (j : Nat) : MkM Dinode := do
  if din.addrs j = 0 then
    let b ← allocblock
    return { din with addrs := Function.update din.addrs j b }
  else return din

/-- Entry j of the table in block t, which is read and, if the entry is new, written. -/
def tableEntry (t j : Nat) : MkM Nat := do
  let indirect ← rsect t
  if load indirect (4 * j) 4 = 0 then
    let b ← allocblock
    wsect t (store indirect (4 * j) 4 b)
    return b
  else return load indirect (4 * j) 4

def fileBlock (din : Dinode) (fbn : Nat) : MkM (Nat × Dinode) := do
  if fbn < NDIRECT then
    let din ← inodeEntry din fbn
    return (din.addrs fbn, din)
  else if fbn < NDIRECT + NINDIRECT then
    let din ← inodeEntry din NDIRECT
    return (← tableEntry (din.addrs NDIRECT) (fbn - NDIRECT), din)
  else
    let dbn := fbn - NDIRECT - NINDIRECT
    let din ← inodeEntry din (NDIRECT + 1)
    let t ← tableEntry (din.addrs (NDIRECT + 1)) (dbn / NINDIRECT)
    return (← tableEntry t (dbn % NINDIRECT), din)

/-- The loop of iappend with room for k more blocks: the inode and off. -/
def appendLoop : Nat → Dinode → Nat → List UInt8 → MkM (Dinode × Nat)
  | 0, din, off, _ => return (din, off)
  | k + 1, din, off, p =>
    if p = [] then return (din, off)
    else if MAXFILE ≤ off / BSIZE then throw .assert
    else do
      let (x, din) ← fileBlock din (off / BSIZE)
      let n1 := min p.length ((off / BSIZE + 1) * BSIZE - off)
      let buf ← rsect x
      wsect x (write buf (off - off / BSIZE * BSIZE) (p.take n1))
      appendLoop k din (off + n1) (p.drop n1)

def iappend (inum : Nat) (p : List UInt8) : MkM Unit := do
  let din ← rinode inum
  let (din, off) ← appendLoop (p.length / BSIZE + 2) din din.size p
  winode inum { din with size := off }

def dirent (inum : Nat) (name : List UInt8) : List UInt8 :=
  encode 2 inum ++ (name ++ List.replicate DIRSIZ 0).take DIRSIZ

/-- An argument and what the calls of read on it return, none if it cannot be opened. -/
structure HostFile where
  path : List UInt8
  chunks : Option (List (List UInt8))
  nonul : 0 ∉ path

def underscore : UInt8 := 95

/-- The name in the image: without directories and without a leading underscore. -/
def shortname (path : List UInt8) : List UInt8 :=
  let base := (path.reverse.takeWhile (· ≠ slash)).reverse
  if base.head? = some underscore then base.tail else base

def copyFile (inum : Nat) : List (List UInt8) → MkM Unit
  | [] => return ()
  | buf :: rest => do
    iappend inum buf
    copyFile inum rest

def addFile (rootino : Nat) (file : HostFile) : MkM Unit := do
  match file.chunks with
  | none => throw .openFile
  | some chunks =>
    if DIRSIZ < (shortname file.path).length then throw .assert
    else
      let inum ← ialloc T_FILE.toNat 0 0
      iappend rootino (dirent inum (shortname file.path))
      copyFile inum chunks

def addFiles (rootino : Nat) : List HostFile → MkM Unit
  | [] => return ()
  | file :: rest => do
    addFile rootino file
    addFiles rootino rest

def zeroBlocks : Nat → MkM Unit
  | 0 => return ()
  | n + 1 => do
    zeroBlocks n
    wsect n fun _ => 0

def superblock : Mem :=
  let buf : Mem := fun _ => 0
  let buf := store buf 0 4 FSMAGIC
  let buf := store buf 4 4 FSSIZE
  let buf := store buf 8 4 nblocks
  let buf := store buf 12 4 NINODES
  let buf := store buf 16 4 nlog
  let buf := store buf 20 4 2
  let buf := store buf 24 4 inodestart
  store buf 28 4 bmapstart

def dot : List UInt8 := [46]
def consoleName : List UInt8 := [99, 111, 110, 115, 111, 108, 101]

def main (files : List HostFile) : MkM Unit := do
  zeroBlocks FSSIZE
  wsect 1 superblock
  let rootino ← ialloc T_DIR.toNat 0 0
  if rootino ≠ ROOTINO then throw .assert
  else
    iappend rootino (dirent rootino dot)
    let inum ← ialloc T_DEVICE.toNat CONSOLE 0
    iappend rootino (dirent inum consoleName)
    addFiles rootino files
    let din ← rinode rootino
    winode rootino { din with size := (din.size / BSIZE + 1) * BSIZE }
    balloc (← get).freeblock

def start : Disk := ⟨fun _ => 0, 0, 1, nmeta, []⟩

def mkfs (files : List HostFile) : Except Exit Disk := ((main files).run start).map Prod.snd

end Xv6Lab.Mkfs
