import Xv6Lab.Mkfs.Image

/-!
Where mkfs writes: inodes stay out of the bitmap exactly if there are at most 205 files.
-/

namespace Xv6Lab.Mkfs
open Bytes
open Virtio (BSIZE)
open Fs
variable {files : List HostFile}

section Counting

def AllWritten (s : Disk) : Prop := ∀ i, 0 < i → i < s.freeinode → ∃ din, (i, din) ∈ s.log

structure Counts {α : Type} (c : Nat) (x : MkM α) : Prop where
  run : ∀ s, AllWritten s →
    wp x (fun _ => True) (fun _ s' => AllWritten s' ∧ s'.freeinode = s.freeinode + c) s

variable {α β : Type} {c d : Nat}

theorem counts_pure (a : α) : Counts 0 (pure a : MkM α) := ⟨fun _ all => ⟨all, rfl⟩⟩

theorem counts_get : Counts 0 (get : MkM Disk) := ⟨fun _ all => ⟨all, rfl⟩⟩

theorem counts_throw (e : Exit) (c : Nat) : Counts c (throw e : MkM α) := ⟨fun _ _ => trivial⟩

theorem counts_bind {x : MkM α} {f : α → MkM β} (first : Counts c x) (rest : ∀ a, Counts d (f a)) :
    Counts (c + d) (x >>= f) := by
  refine ⟨fun s all => wp_seq (first.run s all) ?_⟩
  rintro a s' ⟨all', count⟩
  refine wp_post ((rest a).run s' all') ?_
  rintro b s'' ⟨all'', count'⟩
  exact ⟨all'', by omega⟩

theorem counts_seq {x : MkM α} {f : α → MkM β} (first : Counts 0 x) (rest : ∀ a, Counts c (f a)) :
    Counts c (x >>= f) := Nat.zero_add c ▸ counts_bind first rest

theorem counts_ite {p : Prop} [Decidable p] {x y : MkM α} (yes : Counts c x) (no : Counts c y) :
    Counts c (if p then x else y) :=
  ⟨fun s all => (wp_ite p x y).mpr ⟨fun _ => yes.run s all, fun _ => no.run s all⟩⟩

theorem counts_rsect (b : Nat) : Counts 0 (rsect b) :=
  counts_seq counts_get fun _ => counts_ite (counts_pure _) (counts_throw _ _)

theorem counts_wsect (b : Nat) (buf : Mem) : Counts 0 (wsect b buf) := ⟨fun _ all => ⟨all, rfl⟩⟩

theorem counts_allocblock : Counts 0 allocblock := by
  constructor
  intro s all
  exact wp_allocblock (fun _ => trivial) fun _ => ⟨all, rfl⟩

theorem counts_inodeEntry (din : Dinode) (j : Nat) : Counts 0 (inodeEntry din j) :=
  counts_ite (counts_seq counts_allocblock fun _ => counts_pure _) (counts_pure _)

theorem counts_tableEntry (t j : Nat) : Counts 0 (tableEntry t j) :=
  counts_seq (counts_rsect t) fun _ => counts_ite
    (counts_seq counts_allocblock fun _ => counts_seq (counts_wsect _ _) fun _ => counts_pure _)
    (counts_pure _)

theorem counts_fileBlock (din : Dinode) (fbn : Nat) : Counts 0 (fileBlock din fbn) :=
  counts_ite (counts_seq (counts_inodeEntry _ _) fun _ => counts_pure _)
    (counts_ite
      (counts_seq (counts_inodeEntry _ _) fun _ =>
        counts_seq (counts_tableEntry _ _) fun _ => counts_pure _)
      (counts_seq (counts_inodeEntry _ _) fun _ =>
        counts_seq (counts_tableEntry _ _) fun _ =>
          counts_seq (counts_tableEntry _ _) fun _ => counts_pure _))

theorem counts_appendLoop (k : Nat) (din : Dinode) (off : Nat) (p : List UInt8) :
    Counts 0 (appendLoop k din off p) := by
  induction k generalizing din off p with
  | zero => exact counts_pure _
  | succ k ih =>
    refine counts_ite (counts_pure _) (counts_ite (counts_throw _ _) ?_)
    refine counts_seq (counts_fileBlock _ _) fun r => ?_
    exact counts_seq (counts_rsect _) fun _ => counts_seq (counts_wsect _ _) fun _ => ih _ _ _

theorem wp_winode_log (inum : Nat) (din : Dinode) (s : Disk) : wp (winode inum din) (fun _ => True)
      (fun _ s' => s'.freeinode = s.freeinode ∧ s'.log = (inum, din) :: s.log) s := by
  simp only [winode, rsect, wp_bind, wp_get, wp_ite, wp_pure, wp_throw, wp_wsect, wp_modify]
  exact ⟨fun _ => ⟨rfl, rfl⟩, fun _ => trivial⟩

theorem counts_winode (inum : Nat) (din : Dinode) : Counts 0 (winode inum din) := by
  refine ⟨fun s all => wp_post (wp_winode_log inum din s) ?_⟩
  rintro - s' ⟨inodes, log⟩
  refine ⟨fun i positive used => ?_, inodes⟩
  obtain ⟨d, written⟩ := all i positive (inodes ▸ used)
  exact ⟨d, log ▸ List.mem_cons_of_mem _ written⟩

theorem counts_rinode (inum : Nat) : Counts 0 (rinode inum) :=
  counts_seq (counts_rsect _) fun _ => counts_pure _

theorem counts_iappend (inum : Nat) (p : List UInt8) : Counts 0 (iappend inum p) :=
  counts_seq (counts_rinode _) fun _ =>
    counts_seq (counts_appendLoop _ _ _ _) fun _ => counts_winode _ _

theorem counts_ialloc (type major minor : Nat) : Counts 1 (ialloc type major minor) := by
  constructor
  intro s all
  simp only [ialloc, wp_bind, wp_get, wp_modify, wp_pure]
  refine wp_post (wp_winode_log _ _ _) ?_
  rintro - s' ⟨inodes, log⟩
  refine ⟨fun i positive used => ?_, inodes⟩
  rw [inodes] at used
  rw [log]
  by_cases last : i = s.freeinode
  · rw [last]
    exact ⟨_, List.mem_cons_self⟩
  · obtain ⟨d, written⟩ := all i positive (by dsimp only at used; omega)
    exact ⟨d, List.mem_cons_of_mem _ written⟩

theorem counts_copyFile (inum : Nat) (chunks : List (List UInt8)) : Counts 0 (copyFile inum chunks) := by
  induction chunks with
  | nil => exact counts_pure _
  | cons buf rest ih => exact counts_seq (counts_iappend _ _) fun _ => ih

theorem counts_addFile (rootino : Nat) (file : HostFile) : Counts 1 (addFile rootino file) := by
  unfold addFile
  cases file.chunks with
  | none => exact counts_throw _ _
  | some chunks =>
    refine counts_ite (counts_throw _ _) (counts_bind (d := 0) (counts_ialloc _ _ _) fun _ => ?_)
    exact counts_seq (counts_iappend _ _) fun _ => counts_copyFile _ _

theorem counts_addFiles (rootino : Nat) (files : List HostFile) :
    Counts files.length (addFiles rootino files) := by
  induction files with
  | nil => exact counts_pure _
  | cons file rest ih =>
    rw [List.length_cons, Nat.add_comm]
    exact counts_bind (counts_addFile _ _) fun _ => ih

theorem counts_zeroBlocks (n : Nat) : Counts 0 (zeroBlocks n) := by
  induction n with
  | zero => exact counts_pure _
  | succ n ih => exact counts_seq ih fun _ => counts_wsect _ _

theorem counts_ballocLoop (used n : Nat) : Counts 0 (ballocLoop used n) := by
  induction n with
  | zero => exact counts_pure _
  | succ n ih => exact counts_seq ih fun _ => counts_wsect _ _

theorem counts_main (files : List HostFile) : Counts (2 + files.length) (main files) := by
  refine counts_seq (counts_zeroBlocks _) fun _ => counts_seq (counts_wsect _ _) fun _ => ?_
  rw [show 2 + files.length = 1 + (1 + files.length) by omega]
  refine counts_bind (counts_ialloc _ _ _) fun _ => counts_ite (counts_throw _ _) ?_
  refine counts_seq (counts_iappend _ _) fun _ => counts_bind (counts_ialloc _ _ _) fun _ => ?_
  refine counts_seq (counts_iappend _ _) fun _ =>
    counts_bind (d := 0) (counts_addFiles _ _) fun _ => ?_
  exact counts_seq (counts_rinode _) fun _ => counts_seq (counts_winode _ _) fun _ =>
    counts_seq counts_get fun _ => counts_ballocLoop _ _

end Counting

-- a run of main is not to be unfolded
attribute [local irreducible] main

theorem written_of_mkfs {s : Disk} (done : mkfs files = .ok s) :
    AllWritten s ∧ s.freeinode = 3 + files.length := by
  have none : AllWritten start := fun i positive used => absurd used (Nat.not_lt.mpr positive)
  rcases wp_cases ((counts_main files).run start none) with ⟨a, s', result, all, inodes⟩ | ⟨e, result, -⟩
  · rw [mkfs, result] at done
    cases done
    refine ⟨all, ?_⟩
    rw [inodes]
    change 1 + _ = _
    omega
  · rw [mkfs, result] at done
    cases done

/-- Every inode written is in the inode blocks, balloc writes none of these, and each inode
reads as it was last written. -/
structure RegionsApart (s : Disk) : Prop where
  region : ∀ written ∈ s.log, inodestart ≤ iblock written.1 ∧ iblock written.1 < bmapstart
  bitmap : ∀ written ∈ s.log, ∀ b < nbitmap, iblock written.1 ≠ bmapstart + b
  last : ∀ inum din, s.log.lookup inum = some din → (dinodeAt s.image inum).Same din

theorem regions_apart_iff {files : List HostFile} {s : Disk} (done : mkfs files = .ok s) :
    RegionsApart s ↔ files.length ≤ 205 := by
  have count : capacity = 208 := by decide
  constructor
  · intro apart
    by_contra many
    obtain ⟨all, inodes⟩ := written_of_mkfs done
    obtain ⟨din, written⟩ := all capacity (by decide) (by omega)
    exact absurd (apart.region _ written).2 (show ¬iblock 208 < bmapstart by decide)
  · intro few
    obtain ⟨v, built⟩ := built_of_mkfs (by omega) done
    have inodes := built.freeinode
    have region : ∀ written ∈ s.log, iblock written.1 < bmapstart := by
      intro written member
      have used := (built.on.named written.1 written.2 member).2
      exact iblock_lt_bmapstart (by omega)
    refine ⟨fun written member => ⟨Nat.le_add_left _ _, region written member⟩, ?_, built.on.disk⟩
    intro written member b _ equal
    have := region written member
    omega

theorem regions_apart_small : ∃ s, mkfs (numberedFiles 1) = .ok s ∧
    (RegionsApart s ↔ (numberedFiles 1).length ≤ 205) := by
  obtain ⟨s, done⟩ := mkfs_numbered (n := 1) (by decide)
  exact ⟨s, done, regions_apart_iff done⟩

/-- With 206 files mkfs exits with 0, but inode 208 is in the bitmap. -/
theorem inode_in_bitmap : ∃ s, mkfs (numberedFiles 206) = .ok s ∧ ¬RegionsApart s ∧
    ∃ din, (208, din) ∈ s.log ∧ iblock 208 = bmapstart := by
  obtain ⟨s, done⟩ := mkfs_numbered (n := 206) (by decide)
  obtain ⟨all, inodes⟩ := written_of_mkfs done
  rw [length_numberedFiles] at inodes
  obtain ⟨din, written⟩ := all 208 (by decide) (by omega)
  refine ⟨s, done, fun apart => ?_, din, written, by decide⟩
  exact absurd (apart.region _ written).2 (show ¬iblock 208 < bmapstart by decide)

section Reach

def address (image : Mem) (t j : Nat) : Nat := if t = 0 then 0 else entry image t j

def reach (image : Mem) (inum : Nat) : Node → Nat
  | .direct j => (dinodeAt image inum).addrs j
  | .single => (dinodeAt image inum).addrs NDIRECT
  | .entry j => address image ((dinodeAt image inum).addrs NDIRECT) j
  | .double => (dinodeAt image inum).addrs (NDIRECT + 1)
  | .table j => address image ((dinodeAt image inum).addrs (NDIRECT + 1)) j
  | .leaf j k => address image (address image ((dinodeAt image inum).addrs (NDIRECT + 1)) j) k

variable {v : Volume} {s : Disk} {i : Nat}

theorem Volume.OnBut.pointers (on : v.On s) (few : i < capacity) :
    Pointers i v.layout (dinodeAt s.image i) := by
  by_cases used : 0 < i ∧ i < s.freeinode
  · exact (OnBut.dinode on used.1 used.2).2.2
  · have none : i = 0 ∨ s.freeinode ≤ i := by omega
    intro n top
    rw [(on.unwritten i few none).addrs _ (Node.slot_lt_of_top top)]
    by_contra some
    have inside := (on.nodes i n).mp fun zero => some zero.symm
    rw [on.free i none] at inside
    cases inside

theorem Trees.address {L : Layout} (trees : Trees L s) {n m : Node} (child : n.parent = some m) :
    address s.image (L i m) n.slot = L i n := by
  unfold Mkfs.address
  by_cases none : L i m = 0
  · rw [if_pos none]
    by_contra some
    exact trees.parent i n m child (fun zero => some zero.symm) none
  · rw [if_neg none]
    exact trees.table i n m child none

theorem Volume.OnBut.reach (on : v.On s) (few : i < capacity) (n : Node) :
    reach s.image i n = v.layout i n := by
  have pointers := OnBut.pointers on few
  have trees := on.toTrees
  have single : (dinodeAt s.image i).addrs NDIRECT = v.layout i .single := pointers .single rfl
  have double : (dinodeAt s.image i).addrs (NDIRECT + 1) = v.layout i .double := pointers .double rfl
  have table (j : Fin NINDIRECT) : address s.image (v.layout i .double) j = v.layout i (.table j) :=
    trees.address (n := .table j) rfl
  cases n with
  | direct j => exact pointers (.direct j) rfl
  | single => exact single
  | entry j =>
    rw [Mkfs.reach, single]
    exact trees.address (n := .entry j) rfl
  | double => exact double
  | table j =>
    rw [Mkfs.reach, double]
    exact table j
  | leaf j k =>
    rw [Mkfs.reach, double, table]
    exact trees.address (n := .leaf j k) rfl

def bitmapBit (image : Mem) (b : Nat) : Bool :=
  (block image (bmapstart + b / BPB) (b % BPB / 8)).toNat.testBit (b % 8)

/-- The blocks handed out are those of the inodes, once each, and those marked as used. -/
structure Bijection (s : Disk) : Prop where
  range : ∀ i < capacity, ∀ n, reach s.image i n ≠ 0 →
    nmeta ≤ reach s.image i n ∧ reach s.image i n < s.freeblock
  once : ∀ i < capacity, ∀ i' < capacity, ∀ n n', reach s.image i n ≠ 0 →
    reach s.image i n = reach s.image i' n' → i = i' ∧ n = n'
  onto : ∀ b, nmeta ≤ b → b < s.freeblock → ∃ i < capacity, ∃ n, reach s.image i n = b
  bits : ∀ b < nbitmap * BPB, bitmapBit s.image b = decide (b < s.freeblock)

theorem Built.bitmapBit (built : Built files v s) {b : Nat}
    (covered : b < nbitmap * BPB) : bitmapBit s.image b = decide (b < s.freeblock) := by
  have sizes : BPB = 8192 ∧ nbitmap = 9 ∧ BSIZE = 1024 := by decide
  have place : b % BPB / 8 < BSIZE := by
    rw [sizes.1, sizes.2.2]
    omega
  have same : b % BPB % 8 = b % 8 := by
    rw [sizes.1]
    omega
  have index : b / BPB * BPB + b % BPB = b := Nat.div_add_mod' b BPB
  have small : b % BPB < BPB := Nat.mod_lt b (by decide)
  rw [Mkfs.bitmapBit, built.bits (b / BPB) ((Nat.div_lt_iff_lt_mul (by decide)).mpr covered) _ place, ← same,
    testBit_setBits, index]
  exact decide_eq_decide.mpr ⟨fun both => both.2, fun below => ⟨small, below⟩⟩

theorem blocks_bijection {files : List HostFile} {s : Disk} (done : mkfs files = .ok s)
    (few : files.length ≤ 205) : Bijection s := by
  have count : capacity = 208 := by decide
  obtain ⟨v, built⟩ := built_of_mkfs (by omega) done
  have on := built.on
  have reach_eq := fun {i} few n => Volume.OnBut.reach (i := i) on few n
  refine ⟨?_, ?_, ?_, fun b covered => built.bitmapBit covered⟩
  · intro i few n used
    rw [reach_eq few] at used ⊢
    exact on.range i n used
  · intro i few i' few' n n' used equal
    rw [reach_eq few] at used
    rw [reach_eq few, reach_eq few'] at equal
    exact on.inj i n i' n' used equal
  · intro b low high
    obtain ⟨i, n, here⟩ := on.onto b low high
    have used : v.layout i n ≠ 0 := by
      rw [here]
      exact Nat.ne_of_gt (Nat.lt_of_lt_of_le (by decide) low)
    have some : i < s.freeinode := by
      by_contra past
      have inside := (on.nodes i n).mp used
      rw [on.free i (.inr (Nat.not_lt.mp past))] at inside
      cases inside
    have inodes := built.freeinode
    exact ⟨i, by omega, n, by rw [reach_eq (by omega), here]⟩

theorem blocks_bijection_small : ∃ s, mkfs (numberedFiles 2) = .ok s ∧ Bijection s := by
  obtain ⟨s, done⟩ := mkfs_numbered (n := 2) (by decide)
  exact ⟨s, done, blocks_bijection done (by decide)⟩

end Reach
end Xv6Lab.Mkfs
