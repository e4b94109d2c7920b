import Xv6Lab.Mkfs.Model

/-!
The image as blocks, dinodes and tables of addresses.
-/

namespace Xv6Lab.Mkfs
open Bytes
open Virtio (BSIZE)
open Fs
variable {k x b' j : Nat} {image image' : Mem}

theorem offset_eq {b : Nat} (inside : b < FSSIZE) : offset b = b * BSIZE := by
  simp only [FSSIZE, offset, BSIZE] at *
  omega

theorem block_apply {b : Nat} (inside : b < FSSIZE) (image : Mem) (k : Nat) :
    block image b k = image (b * BSIZE + k) := by
  have sector : Virtio.sectorOf b * 512 = b * BSIZE := by
    simp only [FSSIZE, Virtio.sectorOf, BSIZE] at *
    omega
  rw [block, sector]

def Disk.put (s : Disk) (b : Nat) (buf : Mem) : Disk :=
  { s with
    image := fun x => if offset b ≤ x ∧ x < offset b + BSIZE then buf (x - offset b) else s.image x
    length := max s.length (offset b + BSIZE) }

def Disk.Full (s : Disk) : Prop := s.length = FSSIZE * BSIZE

section Writes
variable {s : Disk} {b : Nat} {E : Exit → Prop}

theorem wp_wsect {Q : Unit → Disk → Prop} (buf : Mem) : wp (wsect b buf) E Q s ↔ Q () (s.put b buf) :=
  Iff.rfl

theorem wp_rsect {Q : Mem → Disk → Prop} (inside : b < FSSIZE) (full : s.Full)
    (post : Q (block s.image b) s) : wp (rsect b) E Q s := by
  have end_le : offset b + BSIZE ≤ s.length := by
    rw [full, offset_eq inside]
    simp only [FSSIZE, BSIZE] at *
    omega
  have same : (fun i => s.image (offset b + i)) = block s.image b := by
    funext k
    rw [block_apply inside, offset_eq inside]
  simp only [rsect, wp_bind, wp_get, wp_ite, wp_pure, wp_throw]
  refine ⟨fun _ => ?_, fun short => absurd end_le short⟩
  rw [same]
  exact post

theorem Disk.Full.put (full : s.Full) (inside : b < FSSIZE) (buf : Mem) : (s.put b buf).Full := by
  simp only [Disk.Full, Disk.put] at *
  rw [full, offset_eq inside]
  simp only [FSSIZE, BSIZE] at *
  omega

theorem block_put (inside : b < FSSIZE) (inside' : b' < FSSIZE) (buf : Mem) (small : k < BSIZE) :
    block (s.put b buf).image b' k = if b' = b then buf k else block s.image b' k := by
  rw [block_apply inside', block_apply inside']
  simp only [Disk.put, offset_eq inside]
  by_cases same : b' = b
  · have within : b * BSIZE ≤ b' * BSIZE + k ∧ b' * BSIZE + k < b * BSIZE + BSIZE := by
      rw [same]
      omega
    rw [if_pos within, if_pos same, same, Nat.add_sub_cancel_left]
  · have outside : ¬(b * BSIZE ≤ b' * BSIZE + k ∧ b' * BSIZE + k < b * BSIZE + BSIZE) := by
      simp only [BSIZE] at *
      omega
    rw [if_neg outside, if_neg same]

theorem block_put_self (inside : b < FSSIZE) (buf : Mem) (small : k < BSIZE) :
    block (s.put b buf).image b k = buf k := by
  rw [block_put inside inside buf small, if_pos rfl]

theorem block_put_other (inside : b < FSSIZE) (inside' : b' < FSSIZE) (other : b' ≠ b)
    (buf : Mem) (small : k < BSIZE) : block (s.put b buf).image b' k = block s.image b' k := by
  rw [block_put inside inside' buf small, if_neg other]

end Writes

def entry (image : Mem) (b j : Nat) : Nat := load (block image b) (4 * j) 4

def SameBlock (image image' : Mem) (b : Nat) : Prop :=
  ∀ k < BSIZE, block image' b k = block image b k

theorem SameBlock.entry {b : Nat} (same : SameBlock image image' b)
    (inside : j < NINDIRECT) : entry image' b j = entry image b j := by
  refine load_congr fun k _ high => same k ?_
  simp only [NINDIRECT, BSIZE] at *
  omega

section Dinodes

structure Dinode.Same (d d' : Dinode) : Prop where
  type : d.type = d'.type
  major : d.major = d'.major
  minor : d.minor = d'.minor
  nlink : d.nlink = d'.nlink
  size : d.size = d'.size
  addrs : ∀ n < NDIRECT + 2, d.addrs n = d'.addrs n

structure Dinode.Fits (d : Dinode) : Prop where
  type : d.type < 2 ^ 16
  major : d.major < 2 ^ 16
  minor : d.minor < 2 ^ 16
  nlink : d.nlink < 2 ^ 16
  size : d.size < 2 ^ 32
  addrs : ∀ n < NDIRECT + 2, d.addrs n < 2 ^ 32

theorem Dinode.Same.trans {d d' d'' : Dinode} (first : d.Same d') (second : d'.Same d'') :
    d.Same d'' where
  type := first.type.trans second.type
  major := first.major.trans second.major
  minor := first.minor.trans second.minor
  nlink := first.nlink.trans second.nlink
  size := first.size.trans second.size
  addrs n inside := (first.addrs n inside).trans (second.addrs n inside)

variable {mem mem' : Mem} {a : Nat}

theorem loadDinode_congr (same : ∀ x, a ≤ x → x < a + DINODE → mem' x = mem x) :
    (loadDinode mem' a).Same (loadDinode mem a) := by
  simp only [DINODE] at same
  refine ⟨?_, ?_, ?_, ?_, ?_, fun n inside => ?_⟩
  case refine_6 =>
    refine load_congr fun x low high => same x (by omega) ?_
    simp only [NDIRECT] at inside
    omega
  all_goals exact load_congr fun x low high => same x (by omega) (by omega)

theorem storeAddrs_outside (addrs : Nat → Nat) (n : Nat)
    (outside : x < a + 12 ∨ a + 12 + 4 * n ≤ x) : storeAddrs mem a addrs n x = mem x := by
  induction n with
  | zero => rfl
  | succ n ih =>
    rw [storeAddrs, store_outside (by omega)]
    exact ih (by omega)

theorem load_storeAddrs {addrs : Nat → Nat} {n : Nat} (inside : j < n) (fits : addrs j < 2 ^ 32) :
    load (storeAddrs mem a addrs n) (a + 12 + 4 * j) 4 = addrs j := by
  induction n with
  | zero => omega
  | succ n ih =>
    rw [storeAddrs]
    by_cases last : j = n
    · rw [last] at fits ⊢
      exact load_store fits
    · rw [load_store_disjoint (by omega)]
      exact ih (by omega)

theorem storeDinode_outside (din : Dinode) (outside : x < a ∨ a + DINODE ≤ x) :
    storeDinode mem a din x = mem x := by
  simp only [DINODE] at outside
  simp only [storeDinode, NDIRECT]
  rw [storeAddrs_outside _ _ (by omega), store_outside (by omega), store_outside (by omega),
    store_outside (by omega), store_outside (by omega), store_outside (by omega)]

theorem load_storeAddrs_below (addrs : Nat → Nat) (n : Nat) {m : Nat} (below : x + m ≤ a + 12) :
    load (storeAddrs mem a addrs n) x m = load mem x m :=
  load_congr fun y _ high => storeAddrs_outside addrs n (by omega)

theorem load_storeDinode {din : Dinode} (fits : din.Fits) :
    (loadDinode (storeDinode mem a din) a).Same din := by
  simp only [loadDinode, storeDinode]
  refine ⟨?_, ?_, ?_, ?_, ?_, fun n inside => load_storeAddrs inside (fits.addrs n inside)⟩
  · dsimp only
    rw [load_storeAddrs_below _ _ (by omega), load_store_disjoint (by omega),
      load_store_disjoint (by omega), load_store_disjoint (by omega),
      load_store_disjoint (by omega)]
    exact load_store (n := 2) fits.type
  · dsimp only
    rw [load_storeAddrs_below _ _ (by omega), load_store_disjoint (by omega),
      load_store_disjoint (by omega), load_store_disjoint (by omega)]
    exact load_store (n := 2) fits.major
  · dsimp only
    rw [load_storeAddrs_below _ _ (by omega), load_store_disjoint (by omega),
      load_store_disjoint (by omega)]
    exact load_store (n := 2) fits.minor
  · dsimp only
    rw [load_storeAddrs_below _ _ (by omega), load_store_disjoint (by omega)]
    exact load_store (n := 2) fits.nlink
  · dsimp only
    rw [load_storeAddrs_below _ _ (by omega)]
    exact load_store (n := 4) fits.size

def dinodeAt (image : Mem) (inum : Nat) : Dinode :=
  loadDinode (block image (iblock inum)) (inum % IPB * DINODE)

theorem SameBlock.dinode {inum : Nat} (same : SameBlock image image' (iblock inum)) :
    (dinodeAt image' inum).Same (dinodeAt image inum) := by
  refine loadDinode_congr fun k _ high => same k ?_
  simp only [IPB, DINODE, BSIZE] at *
  omega

end Dinodes
end Xv6Lab.Mkfs
