import Xv6Lab.Mkfs.Append

/-!
The image as a volume: the contents of each inode are in its tree, and the dinode on
the disk is the last one written.
-/

namespace Xv6Lab.Mkfs
open List
open Function (update update_of_ne update_self)

open Bytes
open Virtio (BSIZE)
open Fs
variable {E : Exit → Prop}

/-- The inodes that come before the data blocks, the last of them in the bitmap. -/
def inums : Nat := (nmeta - inodestart) * IPB

theorem iblock_lt {inum : Nat} (room : inum < inums) : iblock inum < nmeta := by
  obtain ⟨room_, perBlock, first, last⟩ :
    inums = 352 ∧ IPB = 16 ∧ inodestart = 33 ∧ nmeta = 55 := by decide
  rw [iblock, perBlock, first, last]
  omega

def capacity : Nat := (bmapstart - inodestart) * IPB

theorem iblock_lt_bmapstart {inum : Nat} (few : inum < capacity) : iblock inum < bmapstart := by
  obtain ⟨room, perBlock, first, last⟩ :
    capacity = 208 ∧ IPB = 16 ∧ inodestart = 33 ∧ bmapstart = 46 := by decide
  rw [iblock, perBlock, first, last]
  omega

def noDinode : Dinode := ⟨0, 0, 0, 0, 0, fun _ => 0⟩

theorem loadDinode_zero {mem : Mem} {a : Nat} (zero : ∀ x, a ≤ x → x < a + DINODE → mem x = 0) :
    (loadDinode mem a).Same noDinode := by
  simp only [DINODE] at zero
  refine ⟨?_, ?_, ?_, ?_, ?_, fun n inside => ?_⟩
  case refine_6 =>
    refine load_zero fun x low high => zero x (by omega) ?_
    simp only [NDIRECT] at inside
    omega
  all_goals exact load_zero fun x low high => zero x (by omega) (by omega)

section Inodes
variable {s : Disk} {inum : Nat} {din : Dinode}

def Disk.wrote (s : Disk) (inum : Nat) (din : Dinode) : Disk :=
  { s.put (iblock inum) (storeDinode (block s.image (iblock inum)) (inum % IPB * DINODE) din) with
    log := (inum, din) :: s.log }

section
variable (room : inum < inums)
include room

theorem wp_winode {Q : Unit → Disk → Prop} (full : s.Full)
    (post : Q () (s.wrote inum din)) : wp (winode inum din) E Q s := by
  simp only [winode, wp_bind]
  refine wp_rsect ((iblock_lt room).trans (by decide)) full ?_
  rw [wp_wsect, wp_modify]
  exact post

theorem wp_rinode {Q : Dinode → Disk → Prop} (full : s.Full)
    (post : Q (dinodeAt s.image inum) s) : wp (rinode inum) E Q s := by
  simp only [rinode, wp_bind]
  exact wp_rsect ((iblock_lt room).trans (by decide)) full post

theorem dinodeAt_wrote (fits : din.Fits) : (dinodeAt (s.wrote inum din).image inum).Same din := by
  have inside : iblock inum < FSSIZE := (iblock_lt room).trans (by decide)
  have stored := @load_storeDinode (block s.image (iblock inum)) (inum % IPB * DINODE) din fits
  refine Dinode.Same.trans (loadDinode_congr fun k _ high => ?_) stored
  refine block_put_self inside _ ?_
  simp only [IPB, DINODE, BSIZE] at *
  omega

theorem dinodeAt_wrote_other {j : Nat} (room' : j < inums) (other : j ≠ inum) :
    (dinodeAt (s.wrote inum din).image j).Same (dinodeAt s.image j) := by
  have inside : iblock inum < FSSIZE := (iblock_lt room).trans (by decide)
  have inside' : iblock j < FSSIZE := (iblock_lt room').trans (by decide)
  refine loadDinode_congr fun k low high => ?_
  have small : k < BSIZE := by
    simp only [IPB, DINODE, BSIZE] at *
    omega
  change block (s.put _ _).image _ k = _
  by_cases same : iblock j = iblock inum
  · have apart : j % IPB ≠ inum % IPB := by
      intro equal
      apply other
      simp only [iblock, IPB, DINODE, BSIZE] at *
      omega
    rw [same, block_put_self inside _ small]
    refine storeDinode_outside din ?_
    simp only [DINODE] at *
    omega
  · exact block_put_other inside inside' same _ small

end

theorem fits_loadDinode (mem : Mem) (a : Nat) : (loadDinode mem a).Fits :=
  ⟨load_lt mem _ 2, load_lt mem _ 2, load_lt mem _ 2, load_lt mem _ 2, load_lt mem _ 4,
    fun _ _ => load_lt mem _ 4⟩

end Inodes

structure Volume where
  layout : Layout
  content : Nat → List UInt8
  type : Nat → Nat
  size : Nat → Nat

/-- The dinodes on the disk are the last ones written, and those of all inodes but i are as
they should be. -/
structure Volume.OnBut (v : Volume) (i : Nat) (s : Disk) : Prop
    extends Filled v.layout v.content s where
  room : s.freeinode ≤ inums
  named : ∀ j din, (j, din) ∈ s.log → 0 < j ∧ j < s.freeinode
  disk : ∀ j din, s.log.lookup j = some din → (dinodeAt s.image j).Same din
  inode : ∀ j, j ≠ i → 0 < j → j < s.freeinode → ∃ din, s.log.lookup j = some din ∧
    din.type = v.type j ∧ din.size = v.size j ∧ Pointers j v.layout din
  free : ∀ j, j = 0 ∨ s.freeinode ≤ j → v.content j = []
  unwritten : ∀ j < capacity, j = 0 ∨ s.freeinode ≤ j → (dinodeAt s.image j).Same noDinode
  super : ∀ k < BSIZE, block s.image 1 k = superblock k

abbrev Volume.On (v : Volume) (s : Disk) : Prop := v.OnBut 0 s

namespace Volume

def append (v : Volume) (i : Nat) (p : List UInt8) (L : Layout) : Volume where
  layout := L
  content := update v.content i (v.content i ++ p)
  type := v.type
  size := update v.size i ((v.content i).length + p.length)

def alloc (v : Volume) (i type : Nat) : Volume :=
  { v with type := update v.type i type, size := update v.size i 0 }

section Fields
variable (v : Volume) {i j : Nat} (p : List UInt8) (L : Layout) (t : Nat)

@[simp] theorem append_type : (v.append i p L).type = v.type := rfl

@[simp] theorem append_content : (v.append i p L).content i = v.content i ++ p :=
  update_self ..

@[simp] theorem append_size : (v.append i p L).size i = (v.content i).length + p.length :=
  update_self ..

theorem append_content_other (other : j ≠ i) : (v.append i p L).content j = v.content j :=
  update_of_ne other ..

theorem append_size_other (other : j ≠ i) : (v.append i p L).size j = v.size j :=
  update_of_ne other ..

@[simp] theorem alloc_content : (v.alloc i t).content = v.content := rfl

@[simp] theorem alloc_type : (v.alloc i t).type i = t := update_self ..

@[simp] theorem alloc_size : (v.alloc i t).size i = 0 := update_self ..

theorem alloc_type_other (other : j ≠ i) : (v.alloc i t).type j = v.type j :=
  update_of_ne other ..

theorem alloc_size_other (other : j ≠ i) : (v.alloc i t).size j = v.size j :=
  update_of_ne other ..

end Fields

variable {v : Volume} {s s' : Disk} {i : Nat}

theorem OnBut.inum_lt {j : Nat} {din : Dinode} (rest : v.OnBut i s)
    (last : s.log.lookup j = some din) : j < s.freeinode ∧ j < inums := by
  obtain ⟨l1, l2, equal, -⟩ := lookup_eq_some_iff.mp last
  have written : (j, din) ∈ s.log := by
    rw [equal]
    exact mem_append_right l1 mem_cons_self
  have used := (rest.named j din written).2
  exact ⟨used, used.trans_le rest.room⟩

theorem OnBut.wrote {din : Dinode} (rest : v.OnBut i s) (positive : 0 < i) (used : i < s.freeinode)
    (fits : din.Fits) (type : din.type = v.type i) (size : din.size = v.size i)
    (pointers : Pointers i v.layout din) : v.On (s.wrote i din) := by
  have room := used.trans_le rest.room
  have lookup_self : (s.wrote i din).log.lookup i = some din := by simp [Disk.wrote]
  have lookup_other : ∀ {j}, j ≠ i → (s.wrote i din).log.lookup j = s.log.lookup j := by
    intro j other
    simp [Disk.wrote, lookup_cons, beq_false_of_ne other]
  have filled := rest.toFilled.put (iblock_lt room)
    (storeDinode (block s.image (iblock i)) (i % IPB * DINODE) din)
  refine ⟨⟨⟨filled.full, filled.low, filled.high, filled.range, filled.inj, filled.onto,
    filled.parent, filled.table, filled.fresh⟩, filled.nodes, filled.bytes, filled.small⟩,
    rest.room, ?_, ?_, ?_, rest.free, ?_, ?_⟩
  · intro j d written
    rcases mem_cons.mp written with same | old
    · cases same
      exact ⟨positive, used⟩
    · exact rest.named j d old
  · intro j d last
    by_cases same : j = i
    · subst same
      rw [lookup_self] at last
      cases last
      exact dinodeAt_wrote room fits
    · rw [lookup_other same] at last
      exact (dinodeAt_wrote_other room (rest.inum_lt last).2 same).trans (rest.disk j d last)
  · intro j _ positive' used'
    by_cases same : j = i
    · subst same
      exact ⟨din, lookup_self, type, size, pointers⟩
    · rw [lookup_other same]
      exact rest.inode j same positive' used'
  · intro j few none
    have unused : j = 0 ∨ s.freeinode ≤ j := none
    have room' : j < inums := few.trans (by decide)
    exact (dinodeAt_wrote_other room room' (by omega)).trans (rest.unwritten j few none)
  · intro k small
    rw [← rest.super k small]
    refine block_put_other ((iblock_lt room).trans (by decide)) (by decide) ?_ _ small
    exact Nat.ne_of_lt (Nat.lt_of_lt_of_le (by decide) (Nat.le_add_left inodestart (i / IPB)))

theorem OnBut.dinode (on : v.On s) (positive : 0 < i) (used : i < s.freeinode) :
    (dinodeAt s.image i).type = v.type i ∧ (dinodeAt s.image i).size = v.size i ∧
      Pointers i v.layout (dinodeAt s.image i) := by
  obtain ⟨din, last, type, size, pointers⟩ := on.inode i (Nat.ne_of_gt positive) positive used
  have same := on.disk i din last
  refine ⟨same.type.trans type, same.size.trans size, fun n top => ?_⟩
  rw [same.addrs n.slot (Node.slot_lt_of_top top)]
  exact pointers n top

theorem OnBut.appended {din : Dinode} {p : List UInt8} {k : Nat} {L : Layout} {r : Dinode × Nat}
    (on : v.On s) (positive : 0 < i) (used : i < s.freeinode)
    (appended : Appended i v.layout v.content s din p k L r s') : (v.append i p L).OnBut i s' where
  toFilled := appended.filled
  room := by
    rw [appended.freeinode]
    exact on.room
  named j d written := by
    rw [appended.log] at written
    rw [appended.freeinode]
    exact on.named j d written
  disk j d last := by
    rw [appended.log] at last
    have front := appended.front (iblock j) (iblock_lt (on.inum_lt last).2)
    exact front.dinode.trans (on.disk j d last)
  inode j other positive' used' := by
    rw [appended.freeinode] at used'
    rw [appended.log]
    obtain ⟨d, last, type, size, pointers⟩ := on.inode j (Nat.ne_of_gt positive') positive' used'
    refine ⟨d, last, type, ?_, fun n top => ?_⟩
    · rw [size, v.append_size_other p L other]
    · rw [pointers n top]
      exact (congrFun (appended.others j other) n).symm
  free j none := by
    rw [appended.freeinode] at none
    have other : j ≠ i := by omega
    rw [v.append_content_other p L other]
    exact on.free j none
  unwritten j few none := by
    rw [appended.freeinode] at none
    have front := appended.front (iblock j) (iblock_lt (few.trans (by decide)))
    exact front.dinode.trans (on.unwritten j few none)
  super k small := by
    rw [appended.front 1 (by decide) k small]
    exact on.super k small

theorem wp_iappend {p : List UInt8} (on : v.On s) (positive : 0 < i) (used : i < s.freeinode)
    (size : v.size i = (v.content i).length) :
    wp (iappend i p) (AppendFails (v.content i).length p (p.length / BSIZE + 2) s)
      (fun _ s' => ∃ L, (v.append i p L).On s' ∧ s'.freeinode = s.freeinode ∧
        s'.freeblock ≤ s.freeblock + 3 * (p.length / BSIZE + 2)) s := by
  have room := used.trans_le on.room
  obtain ⟨type_, size_, pointers_⟩ := on.dinode positive used
  unfold iappend
  rw [wp_bind]
  refine wp_rinode room on.full ?_
  rw [size_, size, wp_bind]
  refine wp_post (wp_appendLoop _ on.toFilled pointers_ ?_) ?_
  · intro _
    simp only [BSIZE]
    omega
  rintro ⟨din, off⟩ s' ⟨L, appended⟩
  have rest := OnBut.appended on positive used appended
  have used' : i < s'.freeinode := by
    rw [appended.freeinode]
    exact used
  have fits : Dinode.Fits { din with size := off } := by
    refine appended.head.fits (fits_loadDinode _ _) ?_ ?_
    · have small := rest.small i
      rw [append_content, length_append] at small
      rw [show off = _ from appended.size]
      exact Nat.lt_of_le_of_lt small (by decide)
    · intro j inside
      obtain ⟨n, top, rfl⟩ := Node.exists_top inside
      rw [show din.addrs n.slot = _ from appended.pointers n top]
      exact (rest.toTrees.lt_freeblock i n).trans_le (rest.high.trans (by decide))
  refine wp_winode (used'.trans_le rest.room) rest.full ?_
  refine ⟨L, rest.wrote positive used' fits ?_ ?_ ?_, appended.freeinode, appended.freeblock⟩
  · rw [append_type, ← type_]
    exact appended.head.type
  · rw [append_size]
    exact appended.size
  · exact appended.pointers

theorem wp_ialloc {type major minor : Nat} (on : v.On s) (positive : 0 < s.freeinode)
    (room : s.freeinode < inums) (fits : type < 2 ^ 16 ∧ major < 2 ^ 16 ∧ minor < 2 ^ 16) :
    wp (ialloc type major minor) E
      (fun i s' => i = s.freeinode ∧ (v.alloc i type).On s' ∧ s'.freeinode = s.freeinode + 1 ∧
        s'.freeblock = s.freeblock) s := by
  have empty := on.free s.freeinode (.inr le_rfl)
  have rest : (v.alloc s.freeinode type).OnBut s.freeinode { s with freeinode := s.freeinode + 1 } := by
    refine ⟨⟨⟨on.full, on.low, on.high, on.range, on.inj, on.onto, on.parent, on.table, on.fresh⟩,
      on.nodes, on.bytes, on.small⟩, room, ?_, on.disk, ?_, ?_, ?_, on.super⟩
    · intro j din written
      obtain ⟨positive', used⟩ := on.named j din written
      exact ⟨positive', Nat.lt_succ_of_lt used⟩
    · intro j other positive' used
      rw [alloc_type_other _ _ other, alloc_size_other _ _ other]
      exact on.inode j (Nat.ne_of_gt positive') positive' (by dsimp only at used; omega)
    · intro j none
      exact on.free j (by dsimp only at none; omega)
    · intro j few none
      exact on.unwritten j few (by dsimp only at none; omega)
  simp only [ialloc, wp_bind, wp_get, wp_modify]
  refine wp_winode room rest.full ?_
  refine ⟨rfl, rest.wrote positive (Nat.lt_succ_self _) ?_ ?_ ?_ ?_, rfl, rfl⟩
  · exact ⟨fits.1, fits.2.1, fits.2.2, show 1 < 2 ^ 16 by decide, show 0 < 2 ^ 32 by decide,
      fun _ _ => show 0 < 2 ^ 32 by decide⟩
  · rw [alloc_type]
  · rw [alloc_size]
  · intro n _
    by_contra used
    have past : n.first * BSIZE < (v.content s.freeinode).length :=
      (on.nodes s.freeinode n).mp fun zero => used zero.symm
    rw [empty] at past
    cases past

end Volume
end Xv6Lab.Mkfs
