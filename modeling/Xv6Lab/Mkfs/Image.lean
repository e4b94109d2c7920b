import Xv6Lab.Mkfs.Volume

/-!
main of mkfs: the image holds the root directory, the console and the files.
-/

namespace Xv6Lab.Mkfs
open List
open Function (update update_eq_self update_idem update_of_ne update_self)

open Bytes
open Virtio (BSIZE)
open Fs

namespace Volume

variable {v : Volume} {s s' : Disk} {i n : Nat} {file : HostFile} {rest : List HostFile} {e : Exit}
  {E : Exit → Prop}

def resize (v : Volume) (i n : Nat) : Volume := { v with size := update v.size i n }

theorem resize_size (v : Volume) (i n : Nat) : (v.resize i n).size i = n := update_self ..

theorem resize_size_other (v : Volume) {i j : Nat} (n : Nat) (other : j ≠ i) :
    (v.resize i n).size j = v.size j := update_of_ne other ..

def Sized (v : Volume) : Prop := ∀ j, v.size j = (v.content j).length

theorem Sized.append (sized : v.Sized) (p : List UInt8) (L : Layout) : (v.append i p L).Sized := by
  intro j
  by_cases same : j = i
  · rw [same, append_size, append_content, length_append]
  · rw [v.append_size_other p L same, v.append_content_other p L same]
    exact sized j

theorem Sized.alloc (sized : v.Sized) (empty : v.content i = []) (t : Nat) : (v.alloc i t).Sized := by
  intro j
  by_cases same : j = i
  · rw [same, alloc_size, alloc_content, empty]
    rfl
  · rw [v.alloc_size_other t same]
    exact sized j

theorem append_append (p q : List UInt8) (L L' : Layout) :
    (v.append i p L).append i q L' = v.append i (p ++ q) L' := by
  simp only [append, update_self, update_idem, append_assoc, length_append,
    Nat.add_assoc]

theorem Sized.append_nil (sized : v.Sized) : v.append i [] v.layout = v := by
  have same : (v.content i).length + ([] : List UInt8).length = v.size i := (sized i).symm
  rw [Volume.append, List.append_nil, same, update_eq_self, update_eq_self]

end Volume

def copyNeed (chunks : List (List UInt8)) : Nat :=
  (chunks.map fun buf => 3 * (buf.length / BSIZE + 2)).sum

def HostFile.content (file : HostFile) : List UInt8 := (file.chunks.getD []).flatten

def filesNeed (files : List HostFile) : Nat :=
  (files.map fun file => 6 + copyNeed (file.chunks.getD [])).sum

def entries (i : Nat) : List HostFile → List UInt8
  | [] => []
  | file :: rest => dirent i (shortname file.path) ++ entries (i + 1) rest

section Files
variable {v : Volume} {s : Disk} {i : Nat}

theorem wp_copyFile {chunks : List (List UInt8)} (on : v.On s) (sized : v.Sized) (positive : 0 < i)
    (used : i < s.freeinode) : wp (copyFile i chunks) (fun e => OutOfBlocks s (copyNeed chunks) e ∨
        e = .assert ∧ MAXFILE * BSIZE < (v.content i).length + chunks.flatten.length)
      (fun _ s' => ∃ L, (v.append i chunks.flatten L).On s' ∧ s'.freeinode = s.freeinode ∧
        s'.freeblock ≤ s.freeblock + copyNeed chunks) s := by
  induction chunks generalizing v s with
  | nil =>
    refine ⟨v.layout, ?_, rfl, Nat.le_refl _⟩
    rw [flatten_nil, sized.append_nil]
    exact on
  | cons buf rest ih =>
    have need : copyNeed (buf :: rest) = 3 * (buf.length / BSIZE + 2) + copyNeed rest := by
      simp [copyNeed]
    rw [copyFile, wp_bind, flatten_cons, length_append, need]
    refine wp_mono (Volume.wp_iappend on positive used (sized i)) ?_ ?_
    · rintro - s1 ⟨L1, on1, inodes1, blocks1⟩
      refine wp_mono (ih on1 (sized.append buf L1) (inodes1 ▸ used)) ?_ ?_
      · rintro - s2 ⟨L2, on2, inodes2, blocks2⟩
        rw [Volume.append_append] at on2
        exact ⟨L2, on2, inodes2.trans inodes1, by omega⟩
      · rintro e (none | ⟨failed, large⟩)
        · exact .inl (none.mono (by omega))
        · rw [Volume.append_content, length_append] at large
          exact .inr ⟨failed, by omega⟩
    · rintro e (none | ⟨failed, large⟩)
      · exact .inl (none.mono (by omega))
      · exact .inr ⟨failed, by omega⟩

structure Copied (v : Volume) (i : Nat) (files : List HostFile) (v' : Volume) : Prop where
  sized : v'.Sized
  root : v'.content ROOTINO = v.content ROOTINO ++ entries i files
  content : ∀ k file, files[k]? = some file → v'.content (i + k) = file.content
  type : ∀ k, k < files.length → v'.type (i + k) = T_FILE.toNat
  old : ∀ j < i, j ≠ ROOTINO → v'.content j = v.content j
  oldType : ∀ j < i, v'.type j = v.type j

def FilesFail (files : List HostFile) (s : Disk) (e : Exit) : Prop :=
  OutOfBlocks s (filesNeed files) e ∨
    (∃ file ∈ files, e = .openFile ∧ file.chunks = none) ∨
      ∃ file ∈ files, e = .assert ∧
        (DIRSIZ < (shortname file.path).length ∨ MAXFILE * BSIZE < file.content.length)

theorem length_dirent (i : Nat) (name : List UInt8) : (dirent i name).length = DIRENT := by
  simp [dirent, encode, length_read, DIRENT]

theorem length_entries (i : Nat) (files : List HostFile) :
    (entries i files).length = DIRENT * files.length := by
  induction files generalizing i with
  | nil => rfl
  | cons file rest ih =>
    rw [entries, length_append, length_dirent, ih, length_cons, Nat.mul_succ, Nat.add_comm]

theorem copied_one (sized : v.Sized) (later : ROOTINO < i)
    (empty : v.content i = []) (L L' : Layout) :
    Copied v i [file] (((v.alloc i T_FILE.toNat).append ROOTINO
      (dirent i (shortname file.path)) L).append i file.content L') := by
  have apart : i ≠ ROOTINO := Nat.ne_of_gt later
  refine ⟨((sized.alloc empty _).append _ L).append _ L', ?_, ?_, ?_, ?_, ?_⟩
  · rw [Volume.append_content_other _ _ _ apart.symm, Volume.append_content, Volume.alloc_content,
      entries, entries, List.append_nil]
  · intro k file' here
    obtain ⟨rfl, rfl⟩ : k = 0 ∧ file = file' := by
      cases k with
      | zero => exact ⟨rfl, Option.some.inj here⟩
      | succ k => cases here
    rw [Nat.add_zero, Volume.append_content, Volume.append_content_other _ _ _ apart,
      Volume.alloc_content, empty, nil_append]
  · intro k inside
    obtain rfl : k = 0 := Nat.lt_one_iff.mp inside
    rw [Nat.add_zero, Volume.append_type, Volume.append_type, Volume.alloc_type]
  · intro j below other
    rw [Volume.append_content_other _ _ _ (Nat.ne_of_lt below),
      Volume.append_content_other _ _ _ other, Volume.alloc_content]
  · intro j below
    rw [Volume.append_type, Volume.append_type, Volume.alloc_type_other _ _ (Nat.ne_of_lt below)]

theorem Copied.cons {v' v'' : Volume} (first : Copied v i [file] v') (later : ROOTINO < i)
    (others : Copied v' (i + 1) rest v'') : Copied v i (file :: rest) v'' where
  sized := others.sized
  root := by
    rw [others.root, first.root]
    simp [entries]
  content k file' here := by
    cases k with
    | zero =>
      rw [Nat.add_zero, others.old i (Nat.lt_succ_self i) (Nat.ne_of_gt later)]
      exact first.content 0 file' here
    | succ k =>
      rw [Nat.add_comm k 1, ← Nat.add_assoc]
      exact others.content k file' here
  type k inside := by
    cases k with
    | zero =>
      rw [Nat.add_zero, others.oldType i (Nat.lt_succ_self i)]
      exact first.type 0 Nat.one_pos
    | succ k =>
      rw [Nat.add_comm k 1, ← Nat.add_assoc]
      exact others.type k (Nat.lt_of_succ_lt_succ inside)
  old j below other := (others.old j (Nat.lt_succ_of_lt below) other).trans (first.old j below other)
  oldType j below := (others.oldType j (Nat.lt_succ_of_lt below)).trans (first.oldType j below)

theorem wp_addFile (on : v.On s) (sized : v.Sized) (root : ROOTINO < s.freeinode)
    (room : s.freeinode < inums) (small : (v.content ROOTINO).length + DIRENT ≤ MAXFILE * BSIZE) :
    wp (addFile ROOTINO file) (FilesFail [file] s)
      (fun _ s' => ∃ v', v'.On s' ∧ Copied v s.freeinode [file] v' ∧
        s'.freeinode = s.freeinode + 1 ∧ s'.freeblock ≤ s.freeblock + filesNeed [file]) s := by
  have positive : 0 < s.freeinode := Nat.lt_of_le_of_lt (Nat.zero_le _) root
  have empty := on.free s.freeinode (.inr le_rfl)
  have need : filesNeed [file] = 6 + copyNeed (file.chunks.getD []) := by simp [filesNeed]
  have dirent_need : 3 * (DIRENT / BSIZE + 2) = 6 := by decide
  unfold addFile
  cases open_ : file.chunks with
  | none => exact .inr (.inl ⟨file, mem_singleton_self file, rfl, open_⟩)
  | some chunks =>
  have content : file.content = chunks.flatten := by simp [HostFile.content, open_]
  rw [open_] at need
  simp only [wp_ite, wp_throw, wp_bind]
  refine ⟨fun long => .inr (.inr ⟨file, mem_singleton_self file, rfl, .inl long⟩), fun _ => ?_⟩
  refine wp_post (Volume.wp_ialloc on positive room ⟨by decide, by decide, by decide⟩) ?_
  rintro i s1 ⟨rfl, on1, inodes1, blocks1⟩
  have sized1 := sized.alloc empty T_FILE.toNat
  refine wp_mono (Volume.wp_iappend on1 (by decide) (by omega) (sized1 ROOTINO)) ?_ ?_
  · rintro - s2 ⟨L2, on2, inodes2, blocks2⟩
    rw [length_dirent, dirent_need] at blocks2
    have sized2 := sized1.append (i := ROOTINO) (dirent s.freeinode (shortname file.path)) L2
    refine wp_mono (wp_copyFile on2 sized2 positive (by omega)) ?_ ?_
    · rintro - s3 ⟨L3, on3, inodes3, blocks3⟩
      rw [← content] at on3
      exact ⟨_, on3, copied_one sized root empty L2 L3, by omega, by simp at need; omega⟩
    · rintro e (none | ⟨failed, large⟩)
      · exact .inl (none.mono (by simp at need; omega))
      · rw [Volume.append_content_other _ _ _ (Nat.ne_of_gt root), Volume.alloc_content, empty,
          ← content, length_nil, Nat.zero_add] at large
        exact .inr (.inr ⟨file, mem_singleton_self file, failed, .inr large⟩)
  · rintro e (none | ⟨-, large⟩)
    · rw [length_dirent, dirent_need] at none
      exact .inl (none.mono (by omega))
    · rw [length_dirent, Volume.alloc_content] at large
      omega

theorem FilesFail.head (fails : FilesFail [file] s e) : FilesFail (file :: rest) s e := by
  rcases fails with none | ⟨file', here, failed⟩ | ⟨file', here, failed⟩
  · refine .inl (none.mono ?_)
    simp only [filesNeed, map_cons, sum_cons, map_nil, sum_nil]
    omega
  · rw [mem_singleton.mp here] at failed
    exact .inr (.inl ⟨file, mem_cons_self, failed⟩)
  · rw [mem_singleton.mp here] at failed
    exact .inr (.inr ⟨file, mem_cons_self, failed⟩)

theorem FilesFail.tail (more : s'.freeblock ≤ s.freeblock + filesNeed [file])
    (fails : FilesFail rest s' e) : FilesFail (file :: rest) s e := by
  rcases fails with none | ⟨file', here, failed⟩ | ⟨file', here, failed⟩
  · refine .inl (none.mono ?_)
    simp only [filesNeed, map_cons, sum_cons, map_nil, sum_nil] at *
    omega
  · exact .inr (.inl ⟨file', mem_cons_of_mem file here, failed⟩)
  · exact .inr (.inr ⟨file', mem_cons_of_mem file here, failed⟩)

theorem wp_addFiles {files : List HostFile} (on : v.On s) (sized : v.Sized)
    (root : ROOTINO < s.freeinode) (room : s.freeinode + files.length ≤ inums)
    (small : (v.content ROOTINO).length + DIRENT * files.length ≤ MAXFILE * BSIZE) :
    wp (addFiles ROOTINO files) (FilesFail files s)
      (fun _ s' => ∃ v', v'.On s' ∧ Copied v s.freeinode files v' ∧
        s'.freeinode = s.freeinode + files.length) s := by
  induction files generalizing v s with
  | nil =>
    refine ⟨v, on, ⟨sized, ?_, ?_, ?_, fun _ _ _ => rfl, fun _ _ => rfl⟩, rfl⟩
    · rw [entries, List.append_nil]
    · intro k file here
      cases here
    · intro k inside
      cases inside
  | cons file rest ih =>
    rw [length_cons] at room small
    rw [Nat.mul_succ] at small
    rw [addFiles, wp_bind]
    refine wp_mono (wp_addFile on sized root (by omega) (by omega)) ?_ fun e fails => fails.head
    rintro - s1 ⟨v1, on1, copied, inodes, blocks⟩
    have longer : (v1.content ROOTINO).length = (v.content ROOTINO).length + DIRENT := by
      rw [copied.root, length_append, length_entries]
      rfl
    refine wp_mono (ih on1 copied.sized (by omega) (by omega) (by omega)) ?_ fun e fails =>
      fails.tail blocks
    rintro - s2 ⟨v2, on2, others, inodes2⟩
    rw [inodes] at others
    refine ⟨v2, on2, copied.cons root others, ?_⟩
    rw [length_cons]
    omega

end Files

section Bitmap

theorem testBit_setBits (used b n m : Nat) :
    (setBits used b n (m / 8)).toNat.testBit (m % 8) = decide (m < n ∧ b * BPB + m < used) := by
  induction n with
  | zero => simp [setBits]
  | succ n ih =>
    have bit : (UInt8.ofNat (1 <<< (n % 8))).toNat = 2 ^ (n % 8) := by
      have small : 2 ^ (n % 8) < 2 ^ 8 := Nat.pow_lt_pow_right (by decide) (Nat.mod_lt n (by decide))
      rw [Nat.shiftLeft_eq, Nat.one_mul, UInt8.toNat_ofNat_of_lt' small]
    rw [setBits]
    by_cases low : b * BPB + n < used
    · rw [if_pos low]
      by_cases here : m / 8 = n / 8
      · rw [here] at ih ⊢
        rw [update_self, UInt8.toNat_or, Nat.testBit_or, ih, bit, Nat.testBit_two_pow,
          ← Bool.decide_or]
        refine decide_eq_decide.mpr ?_
        omega
      · rw [update_of_ne here, ih]
        refine decide_eq_decide.mpr ?_
        omega
    · rw [if_neg low, ih]
      refine decide_eq_decide.mpr ?_
      omega

variable {v : Volume} {s : Disk}

theorem Volume.OnBut.put {b : Nat} (on : v.On s) (few : s.freeinode ≤ capacity) (low : bmapstart ≤ b)
    (high : b < nmeta) (buf : Mem) : v.On (s.put b buf) := by
  have inside : b < FSSIZE := high.trans (by decide)
  have same : ∀ j < capacity, (dinodeAt (s.put b buf).image j).Same (dinodeAt s.image j) := by
    intro j small
    have before := iblock_lt_bmapstart small
    refine SameBlock.dinode fun k small => ?_
    exact block_put_other inside (before.trans (by decide)) (by omega) buf small
  refine ⟨on.toFilled.put high buf, on.room, on.named, ?_, on.inode, on.free, ?_, ?_⟩
  · intro j din last
    exact (same j ((OnBut.inum_lt on last).1.trans_le few)).trans (on.disk j din last)
  · intro j small none
    exact (same j small).trans (on.unwritten j small none)
  · intro k small
    rw [← on.super k small]
    refine block_put_other inside (by decide) ?_ buf small
    exact Nat.ne_of_lt (Nat.lt_of_lt_of_le (by decide) low)

theorem wp_ballocLoop {used : Nat} (on : v.On s) (few : s.freeinode ≤ capacity)
    (small : n ≤ nbitmap) : wp (ballocLoop used n) E
      (fun _ s' => v.On s' ∧ s'.freeinode = s.freeinode ∧ s'.freeblock = s.freeblock ∧
        s'.log = s.log ∧
        ∀ b < n, ∀ k < BSIZE, block s'.image (bmapstart + b) k = setBits used b BPB k) s := by
  induction n with
  | zero => exact ⟨on, rfl, rfl, rfl, fun b inside => absurd inside (Nat.not_lt_zero b)⟩
  | succ n ih =>
    rw [ballocLoop, wp_bind]
    refine wp_post (ih (by omega)) ?_
    rintro - s' ⟨on', inodes, blocks, log, bits⟩
    have sizes : bmapstart + nbitmap = nmeta ∧ nmeta < FSSIZE := by decide
    have high : bmapstart + n < nmeta := by omega
    rw [wp_wsect]
    refine ⟨Volume.OnBut.put on' (inodes ▸ few) (Nat.le_add_right _ n) high _, inodes, blocks, log, ?_⟩
    intro b inside k small
    by_cases last : b = n
    · rw [last]
      exact block_put_self (by omega) _ small
    · rw [block_put_other (by omega) (by omega) (by omega) _ small]
      exact bits b (by omega) k small

theorem wp_ballocLoop_true (used n : Nat) : wp (ballocLoop used n) E (fun _ _ => True) s := by
  induction n with
  | zero => trivial
  | succ n ih =>
    rw [ballocLoop, wp_bind]
    exact wp_post ih fun _ _ _ => trivial

end Bitmap

section Main

def blank : Volume := ⟨fun _ _ => 0, fun _ => [], fun _ => 0, fun _ => 0⟩

theorem wp_zeroBlocks (inside : n ≤ FSSIZE) :
    wp (zeroBlocks n) E (fun _ s' => s' = { start with length := n * BSIZE }) start := by
  induction n with
  | zero => rfl
  | succ n ih =>
    rw [zeroBlocks, wp_bind]
    refine wp_post (ih (by omega)) ?_
    rintro - s' rfl
    rw [wp_wsect, Disk.put, offset_eq (by omega)]
    simp only [start, ite_self, Nat.succ_mul]
    congr 1
    omega

-- 70000 turns are not to be unfolded
attribute [local irreducible] zeroBlocks

theorem blank_on : blank.On (Disk.put { start with length := FSSIZE * BSIZE } 1 superblock) := by
  have inside : 1 < FSSIZE := by decide
  have full : Disk.Full { start with length := FSSIZE * BSIZE } := rfl
  refine ⟨⟨⟨full.put inside superblock, le_rfl, by decide, ?_, ?_, ?_, ?_, ?_, ?_⟩, ?_, ?_, ?_⟩, by decide,
    ?_, ?_, ?_, fun _ _ => rfl, ?_, ?_⟩
  · intro i n used
    exact absurd rfl used
  · intro i n i' n' used
    exact absurd rfl used
  · intro b low high
    exact absurd high (Nat.not_lt.mpr low)
  · intro i n m _ used
    exact absurd rfl used
  · intro i n m _ used
    exact absurd rfl used
  · intro b low high k small
    have apart : b ≠ 1 := Nat.ne_of_gt (Nat.lt_of_lt_of_le (by decide) low)
    rw [block_put_other inside high apart _ small]
    rfl
  · intro i n
    exact ⟨fun used => absurd rfl used, fun some => absurd some (Nat.not_lt_zero _)⟩
  · intro i n _ used
    exact absurd rfl used
  · intro i
    exact Nat.zero_le _
  · intro j din written
    cases written
  · intro j din last
    cases last
  · intro j _ positive used
    exact absurd used (Nat.not_lt.mpr positive)
  · intro j few _
    have before := iblock_lt_bmapstart few
    have apart : iblock j ≠ 1 :=
      Nat.ne_of_gt (Nat.lt_of_lt_of_le (by decide) (Nat.le_add_left inodestart (j / IPB)))
    refine loadDinode_zero fun k _ high => ?_
    have small : k < BSIZE := by
      simp only [IPB, DINODE, BSIZE] at *
      omega
    rw [block_put_other inside (before.trans (by decide)) apart _ small]
    rfl
  · intro k small
    exact block_put_self inside _ small

def firstEntries : List UInt8 := dirent ROOTINO dot ++ dirent 2 consoleName

structure Built (files : List HostFile) (v : Volume) (s : Disk) : Prop where
  on : v.On s
  freeinode : s.freeinode = 3 + files.length
  root : v.content ROOTINO = firstEntries ++ entries 3 files
  rootType : v.type ROOTINO = T_DIR.toNat
  rootSize : v.size ROOTINO = ((v.content ROOTINO).length / BSIZE + 1) * BSIZE
  console : v.type 2 = T_DEVICE.toNat
  content : ∀ k file, files[k]? = some file → v.content (3 + k) = file.content
  type : ∀ k, k < files.length → v.type (3 + k) = T_FILE.toNat
  size : ∀ j, j ≠ ROOTINO → v.size j = (v.content j).length
  bits : ∀ b < nbitmap, ∀ k < BSIZE, block s.image (bmapstart + b) k = setBits s.freeblock b BPB k

def MainFails (files : List HostFile) (e : Exit) : Prop :=
  FilesFail files { start with freeblock := nmeta + 12 } e

theorem FilesFail.mono {files : List HostFile} {s : Disk}
    (fails : FilesFail files s' e) (more : s'.freeblock ≤ s.freeblock) : FilesFail files s e := by
  rcases fails with none | other
  · exact .inl (none.mono (by omega))
  · exact .inr other

structure Ready (files : List HostFile) (v : Volume) (s : Disk) : Prop where
  on : v.On s
  sized : v.Sized
  freeinode : s.freeinode = 3 + files.length
  root : v.content ROOTINO = firstEntries ++ entries 3 files
  rootType : v.type ROOTINO = T_DIR.toNat
  console : v.type 2 = T_DEVICE.toNat
  content : ∀ k file, files[k]? = some file → v.content (3 + k) = file.content
  type : ∀ k, k < files.length → v.type (3 + k) = T_FILE.toNat

variable {files : List HostFile} {v : Volume} {s : Disk}

theorem Ready.rounded (ready : Ready files v s) :
    (v.resize ROOTINO ((v.size ROOTINO / BSIZE + 1) * BSIZE)).On
      (s.wrote ROOTINO { dinodeAt s.image ROOTINO with
        size := (v.size ROOTINO / BSIZE + 1) * BSIZE }) := by
  have on := ready.on
  have used : ROOTINO < s.freeinode := by
    rw [ready.freeinode]
    exact Nat.lt_of_lt_of_le (by decide) (Nat.le_add_right 3 _)
  obtain ⟨type, size, pointers⟩ := Volume.OnBut.dinode on (by decide) used
  have fits := fits_loadDinode (block s.image (iblock ROOTINO)) (ROOTINO % IPB * DINODE)
  have small : (v.size ROOTINO / BSIZE + 1) * BSIZE < 2 ^ 32 := by
    have content := on.small ROOTINO
    rw [← ready.sized ROOTINO] at content
    have most : MAXFILE * BSIZE = 67382272 := by decide
    simp only [BSIZE] at *
    omega
  refine Volume.OnBut.wrote ⟨on.toFilled, on.room, on.named, on.disk, ?_, on.free, on.unwritten, on.super⟩ (by decide)
    used ⟨fits.type, fits.major, fits.minor, fits.nlink, small, fits.addrs⟩ type
    (v.resize_size _ _).symm pointers
  intro j other positive used'
  rw [v.resize_size_other _ other]
  exact on.inode j (Nat.ne_of_gt positive) positive used'

theorem wp_finish (ready : Ready files v s) :
    wp (do let din ← rinode ROOTINO
           winode ROOTINO { din with size := (din.size / BSIZE + 1) * BSIZE }
           balloc (← get).freeblock) E
      (fun _ s' => 3 + files.length ≤ capacity → ∃ v', Built files v' s') s := by
  have on := ready.on
  have used : ROOTINO < s.freeinode := by
    rw [ready.freeinode]
    exact Nat.lt_of_lt_of_le (by decide) (Nat.le_add_right 3 _)
  have room := used.trans_le on.room
  rw [wp_bind]
  refine wp_rinode room on.full ?_
  rw [(Volume.OnBut.dinode on (by decide) used).2.1, wp_bind]
  refine wp_winode room on.full ?_
  rw [wp_bind, wp_get]
  by_cases few : 3 + files.length ≤ capacity
  case neg => exact wp_post (wp_ballocLoop_true _ _) fun _ _ _ few' => absurd few' few
  rw [← ready.freeinode] at few
  refine wp_post (wp_ballocLoop ready.rounded few le_rfl) ?_
  rintro - s' ⟨on', inodes, blocks, -, bits⟩ -
  refine ⟨_, on', inodes.trans ready.freeinode, ready.root, ready.rootType, ?_, ready.console,
    ready.content, ready.type, ?_, ?_⟩
  · rw [v.resize_size, ready.sized]
    rfl
  · intro j other
    rw [v.resize_size_other _ other]
    exact ready.sized j
  · rw [blocks]
    exact bits

structure Founded (v : Volume) (s : Disk) : Prop where
  on : v.On s
  sized : v.Sized
  freeinode : s.freeinode = 3
  freeblock : s.freeblock ≤ nmeta + 12
  root : v.content ROOTINO = firstEntries
  rootType : v.type ROOTINO = T_DIR.toNat
  console : v.type 2 = T_DEVICE.toNat

theorem Founded.ready {v' : Volume} (founded : Founded v s) (on : v'.On s')
    (copied : Copied v 3 files v') (freeinode : s'.freeinode = 3 + files.length) :
    Ready files v' s' where
  on := on
  sized := copied.sized
  freeinode := freeinode
  root := by rw [copied.root, founded.root]
  rootType := by rw [copied.oldType ROOTINO (by decide), founded.rootType]
  console := by rw [copied.oldType 2 (by decide), founded.console]
  content := copied.content
  type := copied.type

theorem Founded.wp_files (founded : Founded v s) (few : 3 + files.length ≤ inums) :
    wp (do addFiles ROOTINO files
           let din ← rinode ROOTINO
           winode ROOTINO { din with size := (din.size / BSIZE + 1) * BSIZE }
           balloc (← get).freeblock) (MainFails files)
      (fun _ s' => 3 + files.length ≤ capacity → ∃ v', Built files v' s') s := by
  have sizes : inums = 352 ∧ DIRENT = 16 ∧ MAXFILE * BSIZE = 67382272 ∧
    firstEntries.length = 32 := by decide
  have inodes := founded.freeinode
  rw [wp_bind]
  refine wp_mono (wp_addFiles founded.on founded.sized ?_ ?_ ?_) ?_ fun e fails =>
    fails.mono founded.freeblock
  · rw [inodes]
    decide
  · rw [inodes]
    exact few
  · rw [founded.root, sizes.2.1]
    omega
  · rintro - s' ⟨v', on', copied, inodes'⟩
    rw [inodes] at copied inodes'
    exact wp_finish (founded.ready on' copied inodes')

theorem wp_main (few : 3 + files.length ≤ inums) : wp (main files) (MainFails files)
      (fun _ s => 3 + files.length ≤ capacity → ∃ v, Built files v s) start := by
  have sizes : inums = 352 ∧ nmeta = 55 ∧ FSSIZE = 70000 ∧ DIRENT = 16 ∧
    MAXFILE * BSIZE = 67382272 ∧ 3 * (DIRENT / BSIZE + 2) = 6 := by decide
  obtain ⟨count, before, blocks, entry, most, need⟩ := sizes
  unfold main
  rw [wp_bind]
  refine wp_post (wp_zeroBlocks le_rfl) ?_
  rintro - s zero
  rw [wp_bind, wp_wsect]
  obtain ⟨s0, here⟩ : ∃ s0, s0 = s.put 1 superblock := ⟨_, rfl⟩
  have on0 : blank.On s0 := by
    rw [here, zero]
    exact blank_on
  have inodes0 : s0.freeinode = 1 := by
    rw [here, zero]
    rfl
  have blocks0 : s0.freeblock = nmeta := by
    rw [here, zero]
    rfl
  rw [← here, wp_bind]
  clear here zero
  refine wp_post (Volume.wp_ialloc on0 (by omega) (by omega) ⟨by decide, by decide, by decide⟩) ?_
  rintro i s1 ⟨rfl, on1, inodes1, blocks1⟩
  rw [inodes0] at on1 ⊢
  rw [if_neg (by decide), wp_bind]
  have sized1 : (blank.alloc 1 T_DIR.toNat).Sized := Volume.Sized.alloc (fun _ => rfl) rfl _
  refine wp_mono (Volume.wp_iappend on1 (by decide) (by omega) (sized1 ROOTINO)) ?_ ?_
  · rintro - s2 ⟨L2, on2, inodes2, blocks2⟩
    rw [length_dirent, need] at blocks2
    have sized2 := sized1.append (i := ROOTINO) (dirent 1 dot) L2
    have inodes : s2.freeinode = 2 := by omega
    have empty := on2.free s2.freeinode (.inr le_rfl)
    rw [wp_bind]
    refine wp_post (Volume.wp_ialloc on2 (by omega) (by omega) ⟨by decide, by decide, by decide⟩) ?_
    rintro i s3 ⟨rfl, on3, inodes3, blocks3⟩
    have sized3 := sized2.alloc empty T_DEVICE.toNat
    rw [inodes] at on3 sized3 ⊢
    rw [wp_bind]
    refine wp_mono (Volume.wp_iappend on3 (by decide) (by omega) (sized3 ROOTINO)) ?_ ?_
    · rintro - s4 ⟨L4, on4, inodes4, blocks4⟩
      rw [length_dirent, need] at blocks4
      have sized4 := sized3.append (i := ROOTINO) (dirent 2 consoleName) L4
      have founded : Founded _ s4 := ⟨on4, sized4, by omega, by omega, rfl, rfl, rfl⟩
      exact founded.wp_files few
    · rintro e (⟨-, none⟩ | ⟨-, large⟩)
      · rw [length_dirent, need] at none
        omega
      · rw [length_dirent, Volume.alloc_content, Volume.append_content, length_append,
          length_dirent] at large
        change _ < 0 + _ + _ at large
        omega
  · rintro e (⟨-, none⟩ | ⟨-, large⟩)
    · rw [length_dirent, need] at none
      omega
    · rw [length_dirent] at large
      change _ < 0 + _ at large
      omega

theorem mkfs_spec (few : 3 + files.length ≤ inums) :
    match mkfs files with
    | .ok s => 3 + files.length ≤ capacity → ∃ v, Built files v s
    | .error e => MainFails files e := by
  rcases wp_cases (wp_main few) with ⟨a, s, result, built⟩ | ⟨e, result, fails⟩
  · rw [mkfs, result]
    exact built
  · rw [mkfs, result]
    exact fails

theorem built_of_mkfs (few : 3 + files.length ≤ capacity) (done : mkfs files = .ok s) :
    ∃ v, Built files v s := by
  have spec := mkfs_spec (few.trans (by decide))
  rw [done] at spec
  exact spec few

theorem length_shortname_le (path : List UInt8) : (shortname path).length ≤ path.length := by
  have base : (path.reverse.takeWhile (· ≠ slash)).reverse.length ≤ path.length := by
    rw [length_reverse]
    exact (takeWhile_sublist _).length_le.trans_eq length_reverse
  unfold shortname
  dsimp only
  split_ifs
  · rw [length_tail]
    omega
  · exact base

def HostFile.Tiny (file : HostFile) : Prop :=
  file.path.length ≤ 2 ∧ ∃ b, file.chunks = some [[b]]

theorem mkfs_tiny (tiny : ∀ file ∈ files, file.Tiny) (few : 3 + files.length ≤ inums) :
    ∃ s, mkfs files = .ok s := by
  have sizes : inums = 352 ∧ nmeta = 55 ∧ FSSIZE = 70000 ∧ MAXFILE * BSIZE = 67382272 := by decide
  have need : filesNeed files = 12 * files.length := by
    have each : ∀ file ∈ files, 6 + copyNeed (file.chunks.getD []) = 12 := by
      intro file member
      obtain ⟨-, b, chunks⟩ := tiny file member
      rw [chunks]
      simp [copyNeed, BSIZE]
    rw [filesNeed, map_congr_left each, map_const', sum_replicate, smul_eq_mul, Nat.mul_comm]
  have spec := mkfs_spec few
  cases result : mkfs files with
  | ok s => exact ⟨s, rfl⟩
  | error e =>
    rw [result] at spec
    rcases spec with ⟨-, none⟩ | ⟨file, member, -, closed⟩ | ⟨file, member, -, large⟩
    · rw [need] at none
      change _ ≤ nmeta + 12 + _ at none
      omega
    · obtain ⟨-, b, chunks⟩ := tiny file member
      rw [chunks] at closed
      cases closed
    · obtain ⟨short, b, chunks⟩ := tiny file member
      rcases large with long | large
      · have fits := (length_shortname_le file.path).trans short
        exact absurd long (Nat.not_lt.mpr (fits.trans (by decide)))
      · have one : file.content.length = 1 := by
          rw [HostFile.content, chunks]
          rfl
        omega

def numbered (k : Nat) : HostFile where
  path := [UInt8.ofNat (65 + k / 16 % 16), UInt8.ofNat (65 + k % 16)]
  chunks := some [[UInt8.ofNat k]]
  nonul := by
    have letter : ∀ m < 16, (0 : UInt8) ≠ UInt8.ofNat (65 + m) := by decide
    rw [mem_cons, mem_singleton, not_or]
    exact ⟨letter _ (Nat.mod_lt _ (by decide)), letter _ (Nat.mod_lt _ (by decide))⟩

def numberedFiles (n : Nat) : List HostFile := (List.range n).map numbered

theorem length_numberedFiles (n : Nat) : (numberedFiles n).length = n := by simp [numberedFiles]

theorem mkfs_numbered (few : 3 + n ≤ inums) : ∃ s, mkfs (numberedFiles n) = .ok s := by
  refine mkfs_tiny (fun file member => ?_) (by rw [length_numberedFiles]; exact few)
  obtain ⟨k, -, rfl⟩ := mem_map.mp member
  exact ⟨Nat.le_refl 2, _, rfl⟩

end Main
end Xv6Lab.Mkfs
