import Xv6Lab.Mkfs.Regions

/-!
The kernel's view of an image of mkfs.
-/

namespace Xv6Lab.Mkfs
open List
open Bytes
open Virtio (BSIZE)
open Fs
open Mm (Panic)
variable {off n k bn tot : Nat}

def bytesAt (C : List UInt8) (off n : Nat) : List UInt8 := (List.range n).map fun k => C.getD (off + k) 0

section Bytes
variable (C : List UInt8)

theorem length_bytesAt (off n : Nat) : (bytesAt C off n).length = n := by simp [bytesAt]

theorem bytesAt_add (off m n : Nat) : bytesAt C off (m + n) = bytesAt C off m ++ bytesAt C (off + m) n := by
  simp [bytesAt, range_add, Function.comp_def, Nat.add_assoc]

theorem bytesAt_inside (inside : off + n ≤ C.length) : bytesAt C off n = (C.drop off).take n := by
  refine ext_getElem ?_ fun k left right => ?_
  · rw [length_bytesAt, length_take, length_drop]
    omega
  · rw [length_bytesAt] at left
    simp only [bytesAt, getElem_map, getElem_range, getElem_take, getElem_drop]
    exact getD_eq_getElem C 0 (by omega)

end Bytes

structure Volume.Loaded (v : Volume) (i : Nat) (ip : Inode) : Prop where
  type : ip.type = short (v.type i)
  size : ip.size = v.size i
  addrs : ∀ n, n.parent = none → ip.addrs n.slot = v.layout i n

section Inodes
variable {v : Volume} {s : Disk} {i : Nat} {ip : Inode}

theorem readsb_inodestart (on : v.On s) : (readsb s.image).inodestart = inodestart := by
  have same : load (block s.image 1) (4 * 6) 4 = load superblock (4 * 6) 4 :=
    load_congr fun k _ high => on.super k (high.trans_le (by decide))
  exact same.trans (by decide)

theorem loaded_readDinode (on : v.On s) (positive : 0 < i) (used : i < s.freeinode)
    (inum : ip.inum = i) : v.Loaded i (readDinode s.image (readsb s.image) ip) := by
  have place : (i / IPB + inodestart) % 2 ^ 32 = iblock i := by
    have below := iblock_lt (used.trans_le on.room)
    exact Nat.mod_eq_of_lt (below.trans (by decide))
  obtain ⟨type, size, pointers⟩ := Volume.OnBut.dinode on positive used
  simp only [readDinode, inum, readsb_inodestart on, place]
  exact ⟨congrArg short type, size, pointers⟩

theorem ite_address {ε : Type} (image : Mem) (t j : Nat) :
    (if t = 0 then .ok 0 else .ok (load (block image t) (4 * j) 4) : Except ε Nat) =
      .ok (address image t j) := by
  unfold address entry
  split_ifs <;> rfl

theorem bmap_eq (on : v.On s) (loaded : v.Loaded i ip) (inside : bn < MAXFILE) :
    bmap s.image ip bn = .ok (v.layout i (Node.data bn inside)) := by
  have trees := on.toTrees
  have single : ip.addrs NDIRECT = v.layout i .single := loaded.addrs .single rfl
  have double : ip.addrs (NDIRECT + 1) = v.layout i .double := loaded.addrs .double rfl
  by_cases direct : bn < NDIRECT
  · rw [bmap, if_pos direct, Node.data, dif_pos direct]
    exact congrArg Except.ok (loaded.addrs (.direct ⟨bn, direct⟩) rfl)
  by_cases indirect : bn - NDIRECT < NINDIRECT
  · obtain ⟨j, here, value⟩ : ∃ j : Fin NINDIRECT, Node.data bn inside = .entry j ∧ bn - NDIRECT = j :=
      ⟨_, by rw [Node.data, dif_neg direct, dif_pos indirect], rfl⟩
    rw [bmap, if_neg direct, if_pos indirect, single, here, value]
    dsimp only
    rw [ite_address]
    exact congrArg Except.ok (trees.address (n := .entry j) rfl)
  · obtain ⟨j, k, here, first, second⟩ := Node.exists_leaf inside (by omega)
    have most : bn - NDIRECT - NINDIRECT < NDINDIRECT := by
      simp only [MAXFILE] at inside
      omega
    have table : address s.image (v.layout i .double) j = v.layout i (.table j) :=
      trees.address (n := .table j) rfl
    rw [bmap, if_neg direct, if_neg indirect, if_pos most, double, here]
    dsimp only
    rw [first, second]
    by_cases none : v.layout i .double = 0
    · have absent : v.layout i (.leaf j k) = 0 := by
        by_contra some
        exact trees.parent i (.table j) .double rfl (trees.parent i (.leaf j k) _ rfl some) none
      rw [if_pos none, absent]
    · have read : load (block s.image (v.layout i .double)) (4 * j) 4 = v.layout i (.table j) :=
        trees.table i (.table j) .double rfl none
      rw [if_neg none, read, ite_address]
      exact congrArg Except.ok (trees.address (n := .leaf j k) rfl)

theorem block_eq (on : v.On s) (inside : bn < MAXFILE)
    (some : bn * BSIZE < (v.content i).length) (small : k < BSIZE) :
    block s.image (v.layout i (Node.data bn inside)) k = (v.content i).getD (bn * BSIZE + k) 0 := by
  have first := Node.first_data bn inside
  have used : v.layout i (Node.data bn inside) ≠ 0 := (on.nodes i _).mpr (by rwa [first])
  rw [on.bytes i _ (Node.isData_data bn inside) used k small, first]

def collect (_ : Nat) (bytes : List UInt8) : Prog Panic (List UInt8) Bool := do
  modify (· ++ bytes)
  return true

theorem read_room {m : Nat} (count : m = min (n - tot) (BSIZE - off % BSIZE))
    (room : off % BSIZE + (n - tot) ≤ (k + 1) * BSIZE) (more : tot + m < n) :
    (off + m) % BSIZE + (n - (tot + m)) ≤ k * BSIZE := by
  simp only [BSIZE] at *
  omega

theorem readLoop_eq (on : v.On s) (loaded : v.Loaded i ip) (some : tot ≤ n)
    (room : tot < n → off % BSIZE + (n - tot) ≤ k * BSIZE)
    (there : tot < n → (off + (n - tot) - 1) / BSIZE * BSIZE < (v.content i).length)
    (done : List UInt8) : (readLoop s.image ip collect n k off tot).run done =
      .ok ((n : Int), done ++ bytesAt (v.content i) off (n - tot)) := by
  induction k generalizing off tot done with
  | zero =>
    obtain rfl : tot = n := by
      by_contra more
      have := room (by omega)
      omega
    rw [readLoop, Nat.sub_self, bytesAt, range_zero, map_nil, append_nil]
    rfl
  | succ k ih =>
    rw [readLoop]
    by_cases more : tot < n
    · have there := there more
      have room := room more
      have before : off / BSIZE * BSIZE < (v.content i).length := by
        refine Nat.lt_of_le_of_lt (Nat.mul_le_mul_right BSIZE (Nat.div_le_div_right ?_)) there
        omega
      have inside : off / BSIZE < MAXFILE :=
        Nat.lt_of_mul_lt_mul_right (before.trans_le (on.small i))
      have used : v.layout i (Node.data (off / BSIZE) inside) ≠ 0 :=
        (on.nodes i _).mpr (by rwa [Node.first_data])
      obtain ⟨m, count⟩ : ∃ m, m = min (n - tot) (BSIZE - off % BSIZE) := ⟨_, rfl⟩
      have small : m ≤ n - tot ∧ off % BSIZE + m ≤ BSIZE := by
        simp only [BSIZE] at *
        omega
      have bytes : read (block s.image (v.layout i (Node.data (off / BSIZE) inside))) (off % BSIZE) m =
          bytesAt (v.content i) off m := by
        refine map_congr_left fun k inside' => ?_
        rw [mem_range] at inside'
        rw [block_eq on inside before (by omega), ← Nat.add_assoc, Nat.div_add_mod' off BSIZE]
      rw [if_pos more, bmap_eq on loaded inside]
      change (if v.layout i (Node.data (off / BSIZE) inside) = 0 then _ else _ : Prog _ _ _).run done = _
      rw [if_neg used, ← count]
      change (readLoop s.image ip collect n k (off + m) (tot + m)).run (done ++ read _ _ _) = _
      have whole : n - tot = m + (n - (tot + m)) := by omega
      rw [bytes, whole, bytesAt_add, ← append_assoc]
      refine ih (by omega) (fun more' => ?_) (fun more' => ?_) _
      · exact read_room count room more'
      · have last : off + m + (n - (tot + m)) - 1 = off + (n - tot) - 1 := by omega
        rw [last]
        exact there
    · obtain rfl : tot = n := by omega
      rw [if_neg more, Nat.sub_self, bytesAt, range_zero, map_nil, append_nil]
      rfl

theorem readKernel_there (on : v.On s) (loaded : v.Loaded i ip)
    (inside : off + n ≤ v.size i) (fits : off + n < 2 ^ 32)
    (there : 0 < n → (off + n - 1) / BSIZE * BSIZE < (v.content i).length) :
    readKernel s.image ip off n = .ok ((n : Int), bytesAt (v.content i) off n) := by
  have bounds : ¬(ip.size < off ∨ (off + n) % 2 ^ 32 < off) := by
    rw [loaded.size, Nat.mod_eq_of_lt fits]
    omega
  have all : ¬ip.size < off + n := by
    rw [loaded.size]
    omega
  rw [readKernel, readi, if_neg bounds, if_neg all]
  refine readLoop_eq on loaded (Nat.zero_le n) (fun _ => ?_) there []
  simp only [BSIZE]
  omega

theorem readKernel_absent (on : v.On s) (loaded : v.Loaded i ip)
    (inside : off + n ≤ v.size i) (fits : off + n < 2 ^ 32) (some : 0 < n)
    (low : off / BSIZE < MAXFILE) (absent : (v.content i).length ≤ off / BSIZE * BSIZE) :
    readKernel s.image ip off n = .ok (0, []) := by
  have bounds : ¬(ip.size < off ∨ (off + n) % 2 ^ 32 < off) := by
    rw [loaded.size, Nat.mod_eq_of_lt fits]
    omega
  have all : ¬ip.size < off + n := by
    rw [loaded.size]
    omega
  have none : v.layout i (Node.data (off / BSIZE) low) = 0 := by
    by_contra used
    have before := (on.nodes i _).mp used
    rw [Node.first_data] at before
    omega
  rw [readKernel, readi, if_neg bounds, if_neg all, readLoop, if_pos some, bmap_eq on loaded low, none]
  rfl

theorem readKernel_eq (on : v.On s) (loaded : v.Loaded i ip)
    (sized : v.size i = (v.content i).length) (off n : Nat) : readKernel s.image ip off n =
      if (v.content i).length < off ∨ (off + n) % 2 ^ 32 < off then .ok (0, [])
      else .ok ((min n ((v.content i).length - off) : Nat), ((v.content i).drop off).take n) := by
  obtain ⟨count, whole⟩ : ∃ count, count = (v.content i).length := ⟨_, rfl⟩
  rw [← whole]
  have size : ip.size = count := by rw [loaded.size, sized, whole]
  rw [readKernel, readi, size]
  by_cases bounds : count < off ∨ (off + n) % 2 ^ 32 < off
  · rw [if_pos bounds, if_pos bounds]
    rfl
  · have clipped : (if count < off + n then count - off else n) = min n (count - off) := by
      split_ifs <;> omega
    have inside : off + min n (count - off) ≤ (v.content i).length := by omega
    have taken : ((v.content i).drop off).take n = bytesAt (v.content i) off (min n (count - off)) := by
      rw [bytesAt_inside _ inside, take_eq_take_min, length_drop, whole]
    rw [if_neg bounds, if_neg bounds, clipped, taken]
    refine readLoop_eq on loaded (Nat.zero_le _) (fun _ => ?_) (fun some => ?_) []
    · simp only [BSIZE]
      omega
    · refine Nat.lt_of_le_of_lt (Nat.div_mul_le_self _ _) ?_
      omega

end Inodes
end Xv6Lab.Mkfs
