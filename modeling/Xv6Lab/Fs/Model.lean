import Xv6Lab.Mm.Model
import Xv6Lab.Virtio.Model

/-!
The read-only file system: inodes, directories and paths (fs.c) and the file
table (file.c). Inodes and files are named by their index in itable and ftable. A
call runs to its end before the next one starts.
-/

namespace Xv6Lab.Fs
open Bytes (Mem load store read)
open Mm (Panic)
open Virtio (BSIZE)

def NINODE : Nat := 50
def NFILE : Nat := 100
def NDIRECT : Nat := 11
def NINDIRECT : Nat := BSIZE / 4
def NDINDIRECT : Nat := NINDIRECT * NINDIRECT
def MAXFILE : Nat := NDIRECT + NINDIRECT + NDINDIRECT
def DINODE : Nat := 64  -- sizeof(struct dinode)
def IPB : Nat := BSIZE / DINODE
def DIRSIZ : Nat := 14
def DIRENT : Nat := 2 + DIRSIZ  -- sizeof(struct dirent)
def ROOTINO : Nat := 1
def ROOTDEV : Nat := 1
def T_DIR : Int := 1
def T_FILE : Int := 2
def T_DEVICE : Int := 3
def FSMAGIC : Nat := 0x10203040

def block (image : Mem) (b : Nat) : Mem := fun i => image (Virtio.sectorOf b * 512 + i)

def short (n : Nat) : Int := if n < 2 ^ 15 then n else n - 2 ^ 16

structure Superblock where
  magic : Nat
  size : Nat
  nblocks : Nat
  ninodes : Nat
  nlog : Nat
  logstart : Nat
  inodestart : Nat
  bmapstart : Nat
deriving DecidableEq, Repr

/-- struct inode; locked and pid are those of ip->lock. -/
structure Inode where
  dev : Nat
  inum : Nat
  ref : Int
  locked : Bool
  pid : BitVec 32
  valid : Bool
  type : Int
  major : Int
  minor : Int
  nlink : Int
  size : Nat
  addrs : Nat → Nat

inductive FileType
  | none
  | inode
  | device
deriving DecidableEq, Repr

structure File where
  type : FileType
  ref : Int
  readable : Bool
  writable : Bool
  ip : Option Nat
  off : Nat
  major : Int
deriving DecidableEq, Repr

structure Tables where
  inode : Nat → Inode
  file : Nat → File
  sb : Superblock

abbrev FM := Prog Panic Tables

def Tables.setInode (t : Tables) (i : Nat) (ip : Inode) : Tables :=
  { t with inode := Function.update t.inode i ip }

def Tables.setFile (t : Tables) (f : Nat) (file : File) : Tables :=
  { t with file := Function.update t.file f file }

def readsb (image : Mem) : Superblock :=
  let word := fun i => load (block image 1) (4 * i) 4
  ⟨word 0, word 1, word 2, word 3, word 4, word 5, word 6, word 7⟩

def fsinit (image : Mem) : FM Unit := do
  modify fun t => { t with sb := readsb image }
  if (readsb image).magic ≠ FSMAGIC then throw .fsinit else pure ()

def iget (dev inum : Nat) : FM Nat := do
  let t ← get
  match (List.range NINODE).find? fun i =>
      0 < (t.inode i).ref ∧ (t.inode i).dev = dev ∧ (t.inode i).inum = inum with
  | some i =>
    set (t.setInode i { t.inode i with ref := (t.inode i).ref + 1 })
    return i
  | none =>
    -- the first empty slot the loop has passed
    match (List.range NINODE).find? fun i => (t.inode i).ref = 0 with
    | none => throw .iget
    | some i =>
      set (t.setInode i { t.inode i with dev, inum, ref := 1, valid := false })
      return i

def idup (i : Nat) : FM Nat := do
  modify fun t => t.setInode i { t.inode i with ref := (t.inode i).ref + 1 }
  return i

def readDinode (image : Mem) (sb : Superblock) (ip : Inode) : Inode :=
  let dip := block image ((ip.inum / IPB + sb.inodestart) % 2 ^ 32)
  let at_ := ip.inum % IPB * DINODE
  { ip with
    type := short (load dip at_ 2)
    major := short (load dip (at_ + 2) 2)
    minor := short (load dip (at_ + 4) 2)
    nlink := short (load dip (at_ + 6) 2)
    size := load dip (at_ + 8) 4
    addrs := fun n => load dip (at_ + 12 + 4 * n) 4
    valid := true }

/-- pid is that of myproc(). -/
def ilock (image : Mem) (pid : BitVec 32) (i : Nat) : FM Unit := do
  let t ← get
  let ip := t.inode i
  if ip.ref < 1 then throw .ilock
  else if ip.locked then throw .endless
  else
    let ip := { ip with locked := true, pid }
    if ip.valid then set (t.setInode i ip)
    else
      let ip := readDinode image t.sb ip
      set (t.setInode i ip)
      if ip.type = 0 then throw .ilockNoType else pure ()

def iunlock (pid : BitVec 32) (i : Nat) : FM Unit := do
  let t ← get
  let ip := t.inode i
  if ¬(ip.locked ∧ ip.pid = pid) ∨ ip.ref < 1 then throw .iunlock
  else set (t.setInode i { ip with locked := false, pid := 0 })

def iput (i : Nat) : FM Unit :=
  modify fun t => t.setInode i { t.inode i with ref := (t.inode i).ref - 1 }

def iunlockput (pid : BitVec 32) (i : Nat) : FM Unit := do
  iunlock pid i
  iput i

def bmap (image : Mem) (ip : Inode) (bn : Nat) : Except Panic Nat :=
  if bn < NDIRECT then .ok (ip.addrs bn)
  else if bn - NDIRECT < NINDIRECT then
    let addr := ip.addrs NDIRECT
    if addr = 0 then .ok 0 else .ok (load (block image addr) (4 * (bn - NDIRECT)) 4)
  else if bn - NDIRECT - NINDIRECT < NDINDIRECT then
    let bn := bn - NDIRECT - NINDIRECT
    let addr := ip.addrs (NDIRECT + 1)
    if addr = 0 then .ok 0
    else
      let addr := load (block image addr) (4 * (bn / NINDIRECT)) 4
      if addr = 0 then .ok 0 else .ok (load (block image addr) (4 * (bn % NINDIRECT)) 4)
  else .error .bmap

section Read
variable {σ : Type} (image : Mem) (ip : Inode) (put : Nat → List UInt8 → Prog Panic σ Bool)

/-- The loop of readi with room for k more blocks. put delivers bytes at dst + tot
and says whether either_copyout succeeded. -/
def readLoop (n : Nat) : Nat → Nat → Nat → Prog Panic σ Int
  | 0, _, tot => return tot
  | k + 1, off, tot =>
    if tot < n then do
      let addr ← Prog.lift (bmap image ip (off / BSIZE))
      if addr = 0 then return tot
      else
        let m := min (n - tot) (BSIZE - off % BSIZE)
        if ← put tot (read (block image addr) (off % BSIZE) m) then
          readLoop n k (off + m) (tot + m)
        else return -1
    else return tot

/-- off and n are uints. -/
def readi (off n : Nat) : Prog Panic σ Int :=
  if ip.size < off ∨ (off + n) % 2 ^ 32 < off then return 0
  else
    let n := if ip.size < off + n then ip.size - off else n
    readLoop image ip put n (n / BSIZE + 2) off 0

end Read

/-- readi into a kernel variable: the result and the bytes stored. -/
def readKernel (image : Mem) (ip : Inode) (off n : Nat) : Except Panic (Int × List UInt8) :=
  (readi image ip (fun _ bytes => do
    modify (· ++ bytes)
    return true) off n).run []

/-- strncmp(p, q, n) == 0; a list stands for its bytes with a NUL behind them. -/
def strncmpEq : Nat → List UInt8 → List UInt8 → Bool
  | 0, _, _ => true
  | n + 1, p, q =>
    if p.headD 0 ≠ 0 ∧ p.headD 0 = q.headD 0 then strncmpEq n p.tail q.tail
    else p.headD 0 = q.headD 0

def namecmpEq (s t : List UInt8) : Bool := strncmpEq DIRSIZ s t

def dirLoop (image : Mem) (dp : Inode) (name : List UInt8) : Nat → Nat → Except Panic (Option Nat)
  | 0, _ => return none
  | k + 1, off =>
    if off < dp.size then do
      let (r, de) ← readKernel image dp off DIRENT
      if r ≠ DIRENT then throw .dirlookupRead
      else
        let inum := load (fun i => de.getD i 0) 0 2
        if inum = 0 then dirLoop image dp name k (off + DIRENT)
        else if namecmpEq name (de.drop 2) then return some inum
        else dirLoop image dp name k (off + DIRENT)
    else return none

def dirlookup (image : Mem) (i : Nat) (name : List UInt8) : FM (Option Nat) := do
  let dp := (← get).inode i
  if dp.type ≠ T_DIR then throw .dirlookupNotDir
  else
    match ← Prog.lift (dirLoop image dp name (dp.size / DIRENT + 1) 0) with
    | none => return none
    | some inum => return some (← iget dp.dev inum)

def slash : UInt8 := 47

/-- The next element, cut to DIRSIZ bytes, and what follows it. A path is the list
of its bytes before the NUL. -/
def skipelem (path : List UInt8) : Option (List UInt8 × List UInt8) :=
  let path := path.dropWhile (· = slash)
  if path = [] then none
  else
    some ((path.takeWhile (· ≠ slash)).take DIRSIZ,
      (path.dropWhile (· ≠ slash)).dropWhile (· = slash))

def namexLoop (image : Mem) (pid : BitVec 32) : Nat → Nat → List UInt8 → FM (Option Nat)
  | 0, i, _ => return some i
  | k + 1, i, path =>
    match skipelem path with
    | none => return some i
    | some (name, rest) => do
      ilock image pid i
      if ((← get).inode i).type ≠ T_DIR then
        iunlockput pid i
        return none
      else
        match ← dirlookup image i name with
        | none =>
          iunlockput pid i
          return none
        | some next =>
          iunlockput pid i
          namexLoop image pid k next rest

/-- pid and cwd are those of myproc(). -/
def namei (image : Mem) (pid : BitVec 32) (cwd : Option Nat) (path : List UInt8) :
    FM (Option Nat) := do
  if path.head? = some slash then
    namexLoop image pid (path.length + 1) (← iget ROOTDEV ROOTINO) path
  else
    match cwd with
    | none => throw .nullDeref
    | some i => namexLoop image pid (path.length + 1) (← idup i) path

def filealloc : FM (Option Nat) := do
  let t ← get
  match (List.range NFILE).find? fun f => (t.file f).ref = 0 with
  | none => return none
  | some f =>
    set (t.setFile f { t.file f with ref := 1 })
    return some f

def filedup (f : Nat) : FM Unit := do
  let t ← get
  if (t.file f).ref < 1 then throw .filedup
  else set (t.setFile f { t.file f with ref := (t.file f).ref + 1 })

def fileclose (f : Nat) : FM Unit := do
  let t ← get
  let ff := t.file f
  if ff.ref < 1 then throw .fileclose
  else if 0 < ff.ref - 1 then set (t.setFile f { ff with ref := ff.ref - 1 })
  else
    set (t.setFile f { ff with ref := 0, type := .none })
    if ff.type = .inode ∨ ff.type = .device then
      match ff.ip with
      | none => throw .nullDeref
      | some i => iput i
    else pure ()

def encode (n v : Nat) : List UInt8 := read (store (fun _ => 0) 0 n v) 0 n

/-- The bytes of struct stat; the four bytes of padding are shown as zero. -/
def stati (ip : Inode) : List UInt8 :=
  encode 4 ip.dev ++ encode 4 ip.inum ++ encode 2 (ip.type % 2 ^ 16).toNat ++
    encode 2 (ip.nlink % 2 ^ 16).toNat ++ encode 4 0 ++ encode 8 ip.size

end Xv6Lab.Fs
