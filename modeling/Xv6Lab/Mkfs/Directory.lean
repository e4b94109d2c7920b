import Xv6Lab.Mkfs.Reading

/-!
dirlookup in the root directory of an image. If its entries end with a block, the
search of a missing name panics.
-/

namespace Xv6Lab.Mkfs
open List
open Bytes
open Virtio (BSIZE)
open Fs
open Mm (Panic)

section Names

theorem strncmpEq_congr (n : Nat) (p : List UInt8) {q q' : List UInt8}
    (same : ∀ k < n, q.getD k 0 = q'.getD k 0) : strncmpEq n p q = strncmpEq n p q' := by
  induction n generalizing p q q' with
  | zero => rfl
  | succ n ih =>
    have first : q.headD 0 = q'.headD 0 := by
      have := same 0 (Nat.succ_pos n)
      cases q <;> cases q' <;> exact this
    have rest : strncmpEq n p.tail q.tail = strncmpEq n p.tail q'.tail := by
      refine ih p.tail fun k small => ?_
      have := same (k + 1) (Nat.succ_lt_succ small)
      cases q <;> cases q' <;> exact this
    rw [strncmpEq, strncmpEq, first, rest]

theorem namecmpEq_padded (name stored : List UInt8) :
    namecmpEq name ((stored ++ List.replicate DIRSIZ 0).take DIRSIZ) = namecmpEq name stored := by
  refine strncmpEq_congr DIRSIZ name fun k small => ?_
  simp only [getD_eq_getElem?_getD, getElem?_take_of_lt small]
  by_cases within : k < stored.length
  · rw [getElem?_append_left within]
  · rw [getElem?_append_right (by omega), getElem?_replicate_of_lt (by omega),
      getElem?_eq_none (by omega)]
    rfl

end Names

section Entries

def encodeEntries (list : List (Nat × List UInt8)) : List UInt8 :=
  (list.map fun e => dirent e.1 e.2).flatten

theorem length_encodeEntries (list : List (Nat × List UInt8)) :
    (encodeEntries list).length = DIRENT * list.length := by
  induction list with
  | nil => rfl
  | cons e rest ih =>
    rw [encodeEntries, map_cons, flatten_cons, length_append, length_dirent,
      ← encodeEntries, ih, length_cons, Nat.mul_succ, Nat.add_comm]

theorem bytesAt_encodeEntries (front : List (Nat × List UInt8)) (e : Nat × List UInt8)
    (rest : List (Nat × List UInt8)) :
    bytesAt (encodeEntries (front ++ e :: rest)) (DIRENT * front.length) DIRENT = dirent e.1 e.2 := by
  have parts : encodeEntries (front ++ e :: rest) =
      encodeEntries front ++ (dirent e.1 e.2 ++ encodeEntries rest) := by
    simp [encodeEntries]
  rw [bytesAt_inside, parts, ← length_encodeEntries, drop_left, ← length_dirent e.1 e.2, take_left]
  rw [length_encodeEntries, length_append, length_cons, ← Nat.mul_succ]
  exact Nat.mul_le_mul_left _ (by omega)

theorem load_dirent {inum : Nat} (small : inum < 2 ^ 16) (name : List UInt8) :
    load (fun k => (dirent inum name).getD k 0) 0 2 = inum := by
  have same : load (fun k => (dirent inum name).getD k 0) 0 2 = load (store (fun _ => 0) 0 2 inum) 0 2 := by
    refine load_congr fun k _ high => ?_
    have two : k < 2 := by omega
    simp only [dirent, encode]
    rw [getD_append _ _ _ _ (by rw [length_read]; exact two)]
    simp [Bytes.read, getD_eq_getElem?_getD, two]
  exact same.trans (load_store small)

theorem drop_dirent (inum : Nat) (name : List UInt8) :
    (dirent inum name).drop 2 = (name ++ List.replicate DIRSIZ 0).take DIRSIZ := by
  have two : (encode 2 inum).length = 2 := length_read _ _ _
  rw [dirent, drop_left' two]

theorem dirLoop_succ {image : Mem} {dp : Inode} {off : Nat} {r : Int} {de : List UInt8} (name : List UInt8)
    (k : Nat) (more : off < dp.size) (bytes : readKernel image dp off DIRENT = .ok (r, de)) :
    dirLoop image dp name (k + 1) off =
      if r ≠ DIRENT then .error .dirlookupRead
      else if load (fun i => de.getD i 0) 0 2 = 0 then dirLoop image dp name k (off + DIRENT)
      else if namecmpEq name (de.drop 2) then .ok (some (load (fun i => de.getD i 0) 0 2))
      else dirLoop image dp name k (off + DIRENT) := by
  rw [dirLoop, if_pos more, bytes]
  rfl

variable {v : Volume} {s : Disk} {i : Nat} {ip : Inode}

theorem dirLoop_entries (on : v.On s) (loaded : v.Loaded i ip) (name : List UInt8) (k : Nat)
    {front rest : List (Nat × List UInt8)} (content : v.content i = encodeEntries (front ++ rest))
    (inside : (v.content i).length ≤ v.size i) (fits : v.size i < 2 ^ 32)
    (inums : ∀ e ∈ rest, 0 < e.1 ∧ e.1 < 2 ^ 16) :
    dirLoop s.image ip name (rest.length + k) (DIRENT * front.length) =
      match rest.find? fun e => namecmpEq name e.2 with
      | some e => .ok (some e.1)
      | none => dirLoop s.image ip name k (DIRENT * (front.length + rest.length)) := by
  induction rest generalizing front with
  | nil => simp
  | cons e rest ih =>
    obtain ⟨some, small⟩ := inums e mem_cons_self
    have length : (v.content i).length = DIRENT * front.length + DIRENT + DIRENT * rest.length := by
      rw [content, length_encodeEntries, length_append, length_cons, Nat.mul_add, Nat.mul_succ]
      omega
    have positive : 0 < DIRENT := by decide
    have more : DIRENT * front.length < ip.size := by
      rw [loaded.size]
      omega
    have bytes : readKernel s.image ip (DIRENT * front.length) DIRENT =
        .ok ((DIRENT : Int), dirent e.1 e.2) := by
      rw [readKernel_there on loaded (by omega) (by omega), content, bytesAt_encodeEntries]
      intro _
      refine Nat.lt_of_le_of_lt (Nat.div_mul_le_self _ _) ?_
      omega
    rw [length_cons, Nat.add_right_comm, dirLoop_succ name _ more bytes, if_neg (not_not.mpr rfl),
      load_dirent small, if_neg (Nat.ne_of_gt some), drop_dirent, namecmpEq_padded]
    by_cases found : namecmpEq name e.2 = true
    · rw [if_pos found, find?_cons_of_pos (p := fun e : Nat × List UInt8 => namecmpEq name e.2) found]
    · rw [if_neg found, find?_cons_of_neg (p := fun e : Nat × List UInt8 => namecmpEq name e.2) found]
      have moved : v.content i = encodeEntries (front ++ [e] ++ rest) := by
        rw [content, append_assoc]
        rfl
      have next := ih moved fun e' here => inums e' (mem_cons_of_mem e here)
      rw [length_append, length_singleton, Nat.mul_succ] at next
      rw [next, Nat.add_assoc, Nat.add_comm 1]

theorem last_block {off length size : Nat} (past : length ≤ off) (aligned : off % DIRENT = 0)
    (more : off < size) (sized : size = (length / BSIZE + 1) * BSIZE) :
    off + DIRENT ≤ size ∧ (off + DIRENT - 1) / BSIZE = length / BSIZE := by
  simp only [DIRENT, DIRSIZ, BSIZE] at *
  omega

theorem dirLoop_zeroes (on : v.On s) (loaded : v.Loaded i ip) (name : List UInt8) {k off : Nat}
    (past : (v.content i).length ≤ off) (aligned : off % DIRENT = 0)
    (sized : v.size i = ((v.content i).length / BSIZE + 1) * BSIZE) (fits : v.size i < 2 ^ 32)
    (part : (v.content i).length % BSIZE ≠ 0) : dirLoop s.image ip name k off = .ok none := by
  have size := loaded.size
  have two : 2 ≤ DIRENT := by decide
  induction k generalizing off with
  | zero => rfl
  | succ k ih =>
    by_cases more : off < ip.size
    · have room := last_block past aligned (size ▸ more) sized
      have bytes : readKernel s.image ip off DIRENT =
          .ok ((DIRENT : Int), bytesAt (v.content i) off DIRENT) := by
        refine readKernel_there on loaded room.1 (by omega) fun _ => ?_
        rw [room.2]
        have := Nat.div_add_mod' (v.content i).length BSIZE
        omega
      have zero : load (fun k => (bytesAt (v.content i) off DIRENT).getD k 0) 0 2 = 0 := by
        refine load_zero fun k _ high => ?_
        have small : k < DIRENT := by omega
        simp [bytesAt, small, getD_eq_getElem?_getD, getElem?_eq_none (by omega : (v.content i).length ≤ off + k)]
      rw [dirLoop_succ name k more bytes, if_neg (not_not.mpr rfl), if_pos zero]
      exact ih (by omega) (by rw [Nat.add_mod_right]; exact aligned)
    · rw [dirLoop, if_neg more]
      rfl

end Entries

section Root

def fileEntries (i : Nat) : List HostFile → List (Nat × List UInt8)
  | [] => []
  | file :: rest => (i, shortname file.path) :: fileEntries (i + 1) rest

def rootEntries (files : List HostFile) : List (Nat × List UInt8) :=
  (ROOTINO, dot) :: (2, consoleName) :: fileEntries 3 files

def firstMatch (files : List HostFile) (name : List UInt8) : Option Nat :=
  ((rootEntries files).find? fun e => namecmpEq name e.2).map Prod.fst

theorem entries_eq (i : Nat) (files : List HostFile) : entries i files = encodeEntries (fileEntries i files) := by
  induction files generalizing i with
  | nil => rfl
  | cons file rest ih =>
    rw [entries, ih]
    rfl

theorem length_fileEntries (i : Nat) (files : List HostFile) : (fileEntries i files).length = files.length := by
  induction files generalizing i with
  | nil => rfl
  | cons file rest ih => rw [fileEntries, length_cons, length_cons, ih]

theorem mem_fileEntries {i : Nat} {files : List HostFile} {e : Nat × List UInt8}
    (here : e ∈ fileEntries i files) : i ≤ e.1 ∧ e.1 < i + files.length := by
  induction files generalizing i with
  | nil => cases here
  | cons file rest ih =>
    rw [length_cons]
    rcases mem_cons.mp here with rfl | later
    · exact ⟨le_rfl, by dsimp only; omega⟩
    · have := ih later
      omega

variable {files : List HostFile} {v : Volume} {s : Disk} {ip : Inode}

theorem Built.root_eq (built : Built files v s) : v.content ROOTINO = encodeEntries (rootEntries files) := by
  rw [built.root, entries_eq]
  simp [firstEntries, rootEntries, encodeEntries]

theorem length_rootEntries (files : List HostFile) : (rootEntries files).length = files.length + 2 := by
  rw [rootEntries, length_cons, length_cons, length_fileEntries]

theorem Built.dirLoop_root (built : Built files v s) (few : 3 + files.length ≤ capacity)
    (loaded : v.Loaded ROOTINO ip) (name : List UInt8) :
    dirLoop s.image ip name (ip.size / DIRENT + 1) 0 =
      match firstMatch files name with
      | some inum => .ok (some inum)
      | none => if (files.length + 2) % 64 = 0 then .error .dirlookupRead else .ok none := by
  have on := built.on
  obtain ⟨entry, unit, room, most⟩ : DIRENT = 16 ∧ BSIZE = 1024 ∧ capacity = 208 ∧ MAXFILE = 65803 := by
    decide
  have length : (v.content ROOTINO).length = 16 * (files.length + 2) := by
    rw [built.root_eq, length_encodeEntries, length_rootEntries, entry]
  have size := built.rootSize
  rw [length, unit] at size
  have fits : v.size ROOTINO < 2 ^ 32 := by omega
  obtain ⟨k, fuel⟩ : ∃ k, ip.size / DIRENT + 1 = (rootEntries files).length + (k + 1) := by
    refine ⟨ip.size / DIRENT - (files.length + 2), ?_⟩
    rw [loaded.size, size, length_rootEntries, entry]
    omega
  have inums : ∀ e ∈ rootEntries files, 0 < e.1 ∧ e.1 < 2 ^ 16 := by
    intro e here
    rcases mem_cons.mp here with rfl | later
    · decide
    rcases mem_cons.mp later with rfl | later
    · decide
    · have := mem_fileEntries later
      omega
  have whole : v.content ROOTINO = encodeEntries ([] ++ rootEntries files) := built.root_eq
  have search := dirLoop_entries on loaded name (k + 1) whole (by omega) fits inums
  rw [length_nil, Nat.mul_zero, Nat.zero_add, length_rootEntries, entry] at search
  rw [fuel, length_rootEntries, search, firstMatch]
  cases (rootEntries files).find? fun e => namecmpEq name e.2 with
  | some e => rfl
  | none =>
    dsimp only [Option.map_none]
    by_cases full : (files.length + 2) % 64 = 0
    · have more : 16 * (files.length + 2) < ip.size := by
        rw [loaded.size]
        omega
      have absent : readKernel s.image ip (16 * (files.length + 2)) DIRENT = .ok (0, []) := by
        refine readKernel_absent on loaded ?_ ?_ (by decide) ?_ ?_
        all_goals
          simp only [entry, unit, most, length] at *
          omega
      rw [if_pos full, dirLoop_succ name k more absent, if_pos (by decide)]
    · rw [if_neg full]
      refine dirLoop_zeroes on loaded name length.le ?_ ?_ fits ?_
      · rw [entry]
        omega
      · rw [length, unit]
        exact size
      · rw [length, unit]
        omega

structure RootLoaded (image : Mem) (t : Tables) (i : Nat) : Prop where
  inum : (t.inode i).inum = ROOTINO
  fields : readDinode image (readsb image) (t.inode i) = t.inode i

/-- dirlookup returns the inode of the first entry that matches, or 0 if there is none. -/
def LookupCorrect (files : List HostFile) (image : Mem) (t : Tables) (i : Nat) (name : List UInt8) : Prop :=
  (dirlookup image i name).run t =
    match firstMatch files name with
    | some inum => (do return some (← iget (t.inode i).dev inum) : FM (Option Nat)).run t
    | none => .ok (none, t)

theorem loaded_root (done : mkfs files = .ok s) (few : files.length ≤ 205) {ip : Inode}
    (inum : ip.inum = ROOTINO) : ∃ v, Built files v s ∧
      v.Loaded ROOTINO (readDinode s.image (readsb s.image) ip) ∧
      (readDinode s.image (readsb s.image) ip).type = T_DIR := by
  have room : capacity = 208 := by decide
  obtain ⟨v, built⟩ := built_of_mkfs (by omega) done
  have used : ROOTINO < s.freeinode := by
    rw [built.freeinode]
    exact Nat.lt_of_lt_of_le (by decide) (Nat.le_add_right 3 _)
  have loaded := loaded_readDinode built.on (by decide) used inum
  refine ⟨v, built, loaded, ?_⟩
  rw [loaded.type, built.rootType]
  decide

theorem dirlookup_root (done : mkfs files = .ok s) (few : files.length ≤ 205) {t : Tables} {i : Nat}
    (root : RootLoaded s.image t i) (name : List UInt8) :
    (dirlookup s.image i name).run t =
      match firstMatch files name with
      | some inum => (do return some (← iget (t.inode i).dev inum) : FM (Option Nat)).run t
      | none => if (files.length + 2) % 64 = 0 then .error .dirlookupRead else .ok (none, t) := by
  have room : capacity = 208 := by decide
  obtain ⟨v, built, loaded, directory⟩ := loaded_root done few root.inum
  rw [root.fields] at loaded directory
  have search := built.dirLoop_root (by omega) loaded name
  change (if (t.inode i).type ≠ T_DIR then _ else _ : FM (Option Nat)).run t = _
  rw [if_neg (not_not.mpr directory), search]
  cases firstMatch files name with
  | some inum => rfl
  | none =>
    by_cases full : (files.length + 2) % 64 = 0
    · rw [if_pos full, if_pos full]
      rfl
    · rw [if_neg full, if_neg full]
      rfl

/-- The lookup of a name in the root directory is right exactly if its entries do not end
with a block, or one of them matches. -/
theorem root_lookup_iff (done : mkfs files = .ok s) (few : files.length ≤ 205) {t : Tables} {i : Nat}
    (root : RootLoaded s.image t i) (name : List UInt8) :
    LookupCorrect files s.image t i name ↔
      ((files.length + 2) % 64 ≠ 0 ∨ ∃ inum, firstMatch files name = some inum) := by
  rw [LookupCorrect, dirlookup_root done few root name]
  cases firstMatch files name with
  | some inum => exact ⟨fun _ => .inr ⟨inum, rfl⟩, fun _ => rfl⟩
  | none =>
    by_cases full : (files.length + 2) % 64 = 0
    · simp [full]
    · simp [full]

def rootTables (image : Mem) : Tables where
  inode _ := readDinode image (readsb image) ⟨ROOTDEV, ROOTINO, 1, true, 1, false, 0, 0, 0, 0, 0, fun _ => 0⟩
  file _ := ⟨.none, 0, false, false, none, 0, 0⟩
  sb := readsb image

theorem rootLoaded_rootTables (image : Mem) : RootLoaded image (rootTables image) 0 := ⟨rfl, rfl⟩

theorem root_lookup_small : ∃ s, mkfs (numberedFiles 1) = .ok s ∧
    (LookupCorrect (numberedFiles 1) s.image (rootTables s.image) 0 [122] ↔
      (((numberedFiles 1).length + 2) % 64 ≠ 0 ∨
        ∃ inum, firstMatch (numberedFiles 1) [122] = some inum)) := by
  obtain ⟨s, done⟩ := mkfs_numbered (n := 1) (by decide)
  exact ⟨s, done, root_lookup_iff done (by decide) (rootLoaded_rootTables s.image) [122]⟩

theorem lookup_panics : ∃ s, mkfs (numberedFiles 62) = .ok s ∧
    RootLoaded s.image (rootTables s.image) 0 ∧
    (dirlookup s.image 0 [122]).run (rootTables s.image) = .error .dirlookupRead ∧
    ¬LookupCorrect (numberedFiles 62) s.image (rootTables s.image) 0 [122] := by
  have missing : firstMatch (numberedFiles 62) [122] = none := by decide +kernel
  obtain ⟨s, done⟩ := mkfs_numbered (n := 62) (by decide)
  have root := rootLoaded_rootTables s.image
  have panics := dirlookup_root done (by decide) root [122]
  rw [missing, length_numberedFiles] at panics
  refine ⟨s, done, root, panics, ?_⟩
  rw [LookupCorrect, panics, missing]
  simp

end Root
end Xv6Lab.Mkfs
