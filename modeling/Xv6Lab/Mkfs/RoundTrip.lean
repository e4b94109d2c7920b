import Mathlib.Data.List.TakeWhile
import Xv6Lab.Fs.Tables
import Xv6Lab.Mkfs.Directory

/-!
What goes into an image comes out of it: namei finds each file under its name, and
readi returns its bytes.
-/

namespace Xv6Lab.Mkfs
open List
open Bytes
open Virtio (BSIZE)
open Fs
open Mm (Panic)
variable {name : List UInt8} {n k : Nat} {path : List UInt8}

section Names

theorem strncmpEq_iff {p q : List UInt8} (fits : p.length ≤ n) (fits' : q.length ≤ n)
    (text : 0 ∉ p) (text' : 0 ∉ q) : strncmpEq n p q = true ↔ p = q := by
  induction n generalizing p q with
  | zero =>
    rw [length_eq_zero_iff.mp (Nat.le_zero.mp fits), length_eq_zero_iff.mp (Nat.le_zero.mp fits')]
    exact ⟨fun _ => rfl, fun _ => rfl⟩
  | succ n ih =>
    cases p with
    | nil =>
      cases q with
      | nil => exact ⟨fun _ => rfl, fun _ => rfl⟩
      | cons c q =>
        have other : c ≠ 0 := fun zero => text' (zero ▸ mem_cons_self)
        simp [strncmpEq, other.symm]
    | cons b p =>
      have some : b ≠ 0 := fun zero => text (zero ▸ mem_cons_self)
      cases q with
      | nil => simp [strncmpEq, some]
      | cons c q =>
        have rest := ih (p := p) (q := q) (Nat.le_of_succ_le_succ fits) (Nat.le_of_succ_le_succ fits')
          (fun zero => text (mem_cons_of_mem b zero))
          (fun zero => text' (mem_cons_of_mem c zero))
        by_cases same : b = c
        · subst same
          simp [strncmpEq, some, rest]
        · simp [strncmpEq, some, same]

theorem mem_shortname {c : UInt8} (here : c ∈ shortname path) : c ∈ path ∧ c ≠ slash := by
  have base : c ∈ (path.reverse.takeWhile (· ≠ slash)).reverse := by
    unfold shortname at here
    dsimp only at here
    split_ifs at here
    · exact mem_of_mem_tail here
    · exact here
  rw [mem_reverse] at base
  refine ⟨mem_reverse.mp ((takeWhile_sublist _).subset base), ?_⟩
  simpa using mem_takeWhile_imp base

theorem skipelem_root (some : name ≠ []) (fits : name.length ≤ DIRSIZ)
    (element : slash ∉ name) : skipelem (slash :: name) = .some (name, []) := by
  obtain ⟨c, rest, rfl⟩ := exists_cons_of_ne_nil some
  have first : c ≠ slash := fun same => element (same ▸ mem_cons_self)
  have start : (slash :: c :: rest).dropWhile (· = slash) = c :: rest := by
    rw [dropWhile_cons_of_pos (by decide), dropWhile_cons_of_neg (by simpa using first)]
  have all : ∀ x ∈ c :: rest, decide (x ≠ slash) = true := by
    intro x here
    rw [decide_eq_true_eq]
    rintro rfl
    exact element here
  have whole : (c :: rest).takeWhile (· ≠ slash) = c :: rest := takeWhile_eq_self_iff.mpr all
  have behind : (c :: rest).dropWhile (· ≠ slash) = [] := dropWhile_eq_nil_iff.mpr all
  unfold skipelem
  dsimp only
  rw [start, if_neg (cons_ne_nil c rest), whole, behind, take_of_length_le fits]
  rfl

/-- The names as mkfs stores them: pairwise distinct, none empty, too long or taken. -/
structure GoodNames (files : List HostFile) : Prop where
  distinct : (files.map fun file => shortname file.path).Nodup
  some : ∀ file ∈ files, shortname file.path ≠ []
  fits : ∀ file ∈ files, (shortname file.path).length ≤ DIRSIZ
  free : ∀ file ∈ files, shortname file.path ≠ dot ∧ shortname file.path ≠ consoleName

theorem mem_fileEntries_iff {i : Nat} {files : List HostFile} {e : Nat × List UInt8} :
    e ∈ fileEntries i files ↔ ∃ k file, files[k]? = some file ∧ e = (i + k, shortname file.path) := by
  induction files generalizing i with
  | nil => simp [fileEntries]
  | cons first rest ih =>
    rw [fileEntries, mem_cons, ih]
    constructor
    · rintro (rfl | ⟨k, file, here, rfl⟩)
      · exact ⟨0, first, rfl, rfl⟩
      · exact ⟨k + 1, file, here, by rw [Nat.add_assoc, Nat.add_comm 1 k]⟩
    · rintro ⟨k, file, here, rfl⟩
      cases k with
      | zero =>
        cases here
        exact .inl rfl
      | succ k => exact .inr ⟨k, file, here, by rw [Nat.add_assoc, Nat.add_comm 1 k]⟩

theorem firstMatch_file {files : List HostFile} (names : GoodNames files) {file : HostFile}
    (here : files[k]? = some file) : firstMatch files (shortname file.path) = some (3 + k) := by
  have member : file ∈ files := mem_of_getElem? here
  have text : ∀ f : HostFile, 0 ∉ shortname f.path := fun f zero => f.nonul (mem_shortname zero).1
  have compare : ∀ other : List UInt8, other.length ≤ DIRSIZ → 0 ∉ other →
      (namecmpEq (shortname file.path) other = true ↔ shortname file.path = other) :=
    fun other fits text' => strncmpEq_iff (names.fits file member) fits (text file) text'
  have found : (rootEntries files).find? (fun e => namecmpEq (shortname file.path) e.2) =
      some (3 + k, shortname file.path) := by
    cases result : (rootEntries files).find? fun e => namecmpEq (shortname file.path) e.2 with
    | none =>
      have absent := find?_eq_none.mp result (3 + k, shortname file.path)
        (mem_cons_of_mem _ (mem_cons_of_mem _ (mem_fileEntries_iff.mpr ⟨k, file, here, rfl⟩)))
      exact absurd ((compare _ (names.fits file member) (text file)).mpr rfl) absent
    | some e =>
      have matches_ := find?_some result
      rcases mem_cons.mp (mem_of_find?_eq_some result) with rfl | later
      · exact absurd ((compare dot (by decide) (by decide)).mp matches_) (names.free file member).1
      rcases mem_cons.mp later with rfl | later
      · exact absurd ((compare consoleName (by decide) (by decide)).mp matches_) (names.free file member).2
      · obtain ⟨k', file', here', rfl⟩ := mem_fileEntries_iff.mp later
        have same := (compare _ (names.fits file' (mem_of_getElem? here')) (text file')).mp matches_
        have index : k = k' := by
          have inside : k < (files.map fun file => shortname file.path).length := by
            rw [length_map]
            exact (List.getElem?_eq_some_iff.mp here).1
          refine (getElem?_inj inside names.distinct).mp ?_
          rw [getElem?_map, getElem?_map, here, here', Option.map_some, Option.map_some, same]
        rw [index, same]
  rw [firstMatch, found]
  rfl

end Names

section Paths
variable {files : List HostFile} {s : Disk} {t : Tables} {r inum : Nat} {pid : BitVec 32}

def rested (image : Mem) (ip : Inode) : Inode :=
  { readDinode image (readsb image) ip with locked := false, pid := 0 }

theorem namexLoop_lookup (done : mkfs files = .ok s) (few : files.length ≤ 205)
    (settled : t.Settled s.image) (used : 0 < (t.inode r).ref) (ino : (t.inode r).inum = ROOTINO)
    {path name rest : List UInt8} (element : skipelem path = some (name, rest)) (k : Nat) :
    ∃ t2 : Tables, t2 = t.setInode r
        { readDinode s.image (readsb s.image) (t.inode r) with locked := true, pid } ∧
      RootLoaded s.image t2 r ∧
      (namexLoop s.image pid (k + 1) r path).run t =
        (do
          let found ← dirlookup s.image r name
          iunlockput pid r
          found.elim (return none) fun next => namexLoop s.image pid k next rest : FM (Option Nat)).run
          t2 := by
  obtain ⟨v, -, -, directory⟩ := loaded_root done few ino
  obtain ⟨t2, here2⟩ : ∃ t2, t2 = t.setInode r
    { readDinode s.image (readsb s.image) (t.inode r) with locked := true, pid } := ⟨_, rfl⟩
  have inode2 : t2.inode r =
      { readDinode s.image (readsb s.image) (t.inode r) with locked := true, pid } := by
    rw [here2, t.setInode_self]
  have locking : (ilock s.image pid r).run t = .ok ((), t2) := by
    rw [here2]
    exact ilock_run settled used (by rw [directory]; decide)
  refine ⟨t2, here2, ⟨?_, ?_⟩, ?_⟩
  · rw [inode2]
    exact ino
  · rw [inode2]
    rfl
  · rw [namexLoop, element]
    dsimp only
    rw [Prog.run_ok locking]
    change (if (t2.inode r).type ≠ T_DIR then _ else _ : FM (Option Nat)).run t2 = _
    rw [if_neg (by rw [inode2]; exact not_not.mpr directory)]
    refine congrArg (fun next => (dirlookup s.image r name >>= next).run t2) (funext fun found => ?_)
    cases found with
    | none => exact Eq.refl _
    | some next => exact Eq.refl _

theorem namexLoop_run (done : mkfs files = .ok s) (few : files.length ≤ 205) (settled : t.Settled s.image)
    (used : 0 < (t.inode r).ref) (dev : (t.inode r).dev = ROOTDEV) (ino : (t.inode r).inum = ROOTINO)
    {rest : List UInt8} (element : skipelem path = some (name, rest))
    (found : firstMatch files name = some inum) (other : inum ≠ ROOTINO) (k : Nat) :
    (namexLoop s.image pid (k + 1) r path).run t =
      match t.pick ROOTDEV inum with
      | some i => (namexLoop s.image pid k i rest).run
          ((t.setInode r { rested s.image (t.inode r) with ref := (t.inode r).ref - 1 }).setInode i
            ((t.inode i).grab ROOTDEV inum))
      | none => .error .iget := by
  obtain ⟨t2, here2, loaded, walk⟩ :=
    @namexLoop_lookup files s t r pid done few settled used ino path name rest element k
  have inode2 : t2.inode r =
      { readDinode s.image (readsb s.image) (t.inode r) with locked := true, pid } := by
    rw [here2, t.setInode_self]
  have lookup := dirlookup_root done few loaded name
  rw [found] at lookup
  dsimp only at lookup
  have dev2 : (t2.inode r).dev = ROOTDEV := by
    rw [inode2]
    exact dev
  have picks : t2.pick ROOTDEV inum = t.pick ROOTDEV inum := by
    rw [here2]
    refine Tables.pick_set used ?_ ?_ ?_ ROOTDEV inum
    · exact used
    · rfl
    · rfl
  have got := iget_run t2 ROOTDEV inum
  rw [dev2] at lookup
  rw [picks] at got
  rw [walk]
  cases picked : t.pick ROOTDEV inum with
  | none =>
    rw [picked] at got
    rw [Prog.run_error got] at lookup
    rw [Prog.run_error lookup]
  | some i =>
    rw [picked] at got
    dsimp only at got
    rw [Prog.run_ok got] at lookup
    rw [Prog.run_ok lookup]
    have apart : i ≠ r := by
      rintro rfl
      rcases (t.pick_some picked).2 with ⟨-, -, same⟩ | zero
      · exact other (same.symm.trans ino)
      · omega
    have inode3 : (t2.setInode i ((t2.inode i).grab ROOTDEV inum)).inode r = t2.inode r :=
      t2.setInode_other _ apart.symm
    have untouched : t2.inode i = t.inode i := by
      rw [here2, t.setInode_other _ apart]
    have unlocking : (iunlockput pid r).run (t2.setInode i ((t2.inode i).grab ROOTDEV inum)) = _ :=
      iunlockput_run (by rw [inode3, inode2]) (by rw [inode3, inode2]) (by rw [inode3, inode2]; exact used)
    rw [inode3, inode2, untouched, here2, Tables.setInode_comm _ _ _ apart.symm,
      Tables.setInode_setInode] at unlocking
    rw [untouched, here2]
    dsimp only
    rw [Prog.run_ok unlocking]
    rfl

def rooted (t : Tables) (r : Nat) : Tables :=
  t.setInode r ((t.inode r).grab ROOTDEV ROOTINO)

theorem namei_rooted {image : Mem} (settled : t.Settled image) (root : t.pick ROOTDEV ROOTINO = some r)
    (cwd : Option Nat) (name : List UInt8) :
    (rooted t r).Settled image ∧ ((rooted t r).inode r).dev = ROOTDEV ∧
      ((rooted t r).inode r).inum = ROOTINO ∧ 0 < ((rooted t r).inode r).ref ∧
      (namei image pid cwd (slash :: name)).run t =
        (namexLoop image pid (name.length + 1 + 1) r (slash :: name)).run (rooted t r) := by
  obtain ⟨-, key⟩ := t.pick_some root
  have first := iget_run t ROOTDEV ROOTINO
  rw [root] at first
  obtain ⟨dev, ino, used⟩ := Inode.grab_key key
  have self : (rooted t r).inode r = (t.inode r).grab ROOTDEV ROOTINO := t.setInode_self _
  refine ⟨?_, ?_, ?_, ?_, ?_⟩
  · exact settled.grab r ROOTDEV ROOTINO
  · rw [self]
    exact dev
  · rw [self]
    exact ino
  · rw [self]
    exact used
  · unfold namei
    rw [if_pos (by rfl), Prog.run_ok first, length_cons]
    rfl

theorem namei_run (done : mkfs files = .ok s) (few : files.length ≤ 205)
    (settled : t.Settled s.image) (root : t.pick ROOTDEV ROOTINO = some r) (cwd : Option Nat)
    (some : name ≠ []) (fits : name.length ≤ DIRSIZ) (element : slash ∉ name)
    (found : firstMatch files name = .some inum) (other : inum ≠ ROOTINO) :
    (namei s.image pid cwd (slash :: name)).run t =
      match (rooted t r).pick ROOTDEV inum with
      | .some i => .ok (.some i, ((rooted t r).setInode r
          { rested s.image ((rooted t r).inode r) with ref := ((rooted t r).inode r).ref - 1 }).setInode i
          (((rooted t r).inode i).grab ROOTDEV inum))
      | none => .error .iget := by
  obtain ⟨settled1, dev, ino, used, start⟩ := @namei_rooted t r pid s.image settled root cwd name
  rw [start, namexLoop_run done few settled1 used dev ino (skipelem_root some fits element) found other]
  cases (rooted t r).pick ROOTDEV inum with
  | none => rfl
  | some i => rfl

theorem namei_missing (done : mkfs files = .ok s) (few : files.length ≤ 205)
    (settled : t.Settled s.image) (root : t.pick ROOTDEV ROOTINO = some r) (cwd : Option Nat)
    (some : name ≠ []) (fits : name.length ≤ DIRSIZ) (element : slash ∉ name)
    (missing : firstMatch files name = none) (part : (files.length + 2) % 64 ≠ 0) :
    (namei s.image pid cwd (slash :: name)).run t = .ok (none, (rooted t r).setInode r
      { rested s.image ((rooted t r).inode r) with ref := ((rooted t r).inode r).ref - 1 }) := by
  obtain ⟨settled1, dev, ino, used, start⟩ := @namei_rooted t r pid s.image settled root cwd name
  obtain ⟨t2, here2, loaded, walk⟩ := @namexLoop_lookup files s (rooted t r) r pid done few settled1 used ino
    (slash :: name) name [] (skipelem_root some fits element) (name.length + 1)
  have inode2 : t2.inode r =
      { readDinode s.image (readsb s.image) ((rooted t r).inode r) with locked := true, pid } := by
    rw [here2, Tables.setInode_self]
  have lookup := dirlookup_root done few loaded name
  rw [missing, if_neg part] at lookup
  have unlocking : (iunlockput pid r).run t2 = _ :=
    iunlockput_run (by rw [inode2]) (by rw [inode2]) (by rw [inode2]; exact used)
  rw [inode2, here2, Tables.setInode_setInode, ← here2] at unlocking
  rw [start, walk, Prog.run_ok lookup]
  dsimp only
  rw [Prog.run_ok unlocking]
  rfl

structure RoundTrip (files : List HostFile) (s : Disk) : Prop where
  resolves : ∀ k file, files[k]? = some file → ∀ (t : Tables) (r i : Nat) (pid : BitVec 32)
    (cwd : Option Nat), t.Settled s.image → t.pick ROOTDEV ROOTINO = some r →
    (rooted t r).pick ROOTDEV (3 + k) = some i → ∃ t' : Tables,
      (namei s.image pid cwd (slash :: shortname file.path)).run t = .ok (some i, t') ∧
        (t'.inode i).dev = ROOTDEV ∧ (t'.inode i).inum = 3 + k ∧ 0 < (t'.inode i).ref
  reads : ∀ k file, files[k]? = some file → ∀ ip : Inode, ip.inum = 3 + k → ∀ off n,
    readKernel s.image (readDinode s.image (readsb s.image) ip) off n =
      if file.content.length < off ∨ (off + n) % 2 ^ 32 < off then .ok (0, [])
      else .ok ((min n (file.content.length - off) : Nat), (file.content.drop off).take n)

theorem roundTrip_of_mkfs (names : GoodNames files) (few : files.length ≤ 205)
    (done : mkfs files = .ok s) : RoundTrip files s := by
  have sizes : inums = 352 ∧ capacity = 208 := by decide
  obtain ⟨v, built⟩ := built_of_mkfs (by omega) done
  constructor
  · intro k file here t r i pid cwd settled root picked
    have member : file ∈ files := mem_of_getElem? here
    have resolved : (namei s.image pid cwd (slash :: shortname file.path)).run t = _ :=
      namei_run done few settled root cwd (names.some file member)
        (names.fits file member) (fun here => (mem_shortname here).2 rfl) (firstMatch_file names here)
        (by change 3 + k ≠ 1; omega)
    rw [picked] at resolved
    have key := Inode.grab_key ((rooted t r).pick_some picked).2
    refine ⟨_, resolved, ?_⟩
    rw [Tables.setInode_self]
    exact key
  · intro k file here ip inum off n
    have inside : k < files.length := (List.getElem?_eq_some_iff.mp here).1
    have used : 3 + k < s.freeinode := by
      rw [built.freeinode]
      omega
    have loaded := loaded_readDinode built.on (by omega) used inum
    have content := built.content k file here
    have bytes := readKernel_eq built.on loaded (built.size (3 + k) (by change 3 + k ≠ 1; omega)) off n
    rw [content] at bytes
    exact bytes

attribute [local irreducible] main

theorem image_round_trip (names : GoodNames files) (opened : ∀ file ∈ files, file.chunks ≠ none)
    (small : ∀ file ∈ files, file.content.length ≤ MAXFILE * BSIZE)
    (few : 3 + files.length ≤ NINODES) :
    match mkfs files with
    | .ok s => RoundTrip files s
    | .error e => e = .outOfBlocks := by
  have sizes : NINODES = 200 ∧ inums = 352 := by decide
  have spec := @mkfs_spec files (by omega)
  cases result : mkfs files with
  | error e =>
    rw [result] at spec
    rcases spec with ⟨none, -⟩ | ⟨file, member, -, closed⟩ | ⟨file, member, -, long | large⟩
    · exact none
    · exact absurd closed (opened file member)
    · exact absurd (names.fits file member) (Nat.not_le.mpr long)
    · exact absurd (small file member) (Nat.not_le.mpr large)
  | ok s => exact roundTrip_of_mkfs names (by omega) result

theorem image_round_trip_small :
    ∃ s, mkfs (numberedFiles 2) = .ok s ∧ RoundTrip (numberedFiles 2) s := by
  obtain ⟨s, done⟩ := mkfs_numbered (n := 2) (by decide)
  have names : GoodNames (numberedFiles 2) := ⟨by decide, by decide, by decide, by decide⟩
  have round := image_round_trip names (by decide) (by decide +kernel) (by decide)
  rw [done] at round
  exact ⟨s, done, round⟩

def freshTables (image : Mem) : Tables where
  inode _ := ⟨0, 0, 0, false, 0, false, 0, 0, 0, 0, 0, fun _ => 0⟩
  file _ := ⟨.none, 0, false, false, none, 0, 0⟩
  sb := readsb image

theorem freshTables_settled (image : Mem) : (freshTables image).Settled image :=
  ⟨rfl, fun _ => rfl, fun _ used _ => absurd used (show ¬(0 : Int) < 0 by decide)⟩

def underscored : HostFile := ⟨[95, 97], some [[1]], by decide⟩

/-- mkfs stores the file _a as a, and namei finds no _a. -/
theorem underscore_dropped : ∃ s, mkfs [underscored] = .ok s ∧ ∃ t',
    (namei s.image 1 none (slash :: underscored.path)).run (freshTables s.image) = .ok (none, t') := by
  have tiny : ∀ file ∈ [underscored], file.Tiny := by
    rw [forall_mem_singleton]
    exact ⟨by decide, 1, rfl⟩
  obtain ⟨s, done⟩ := mkfs_tiny tiny (by decide)
  have root : (freshTables s.image).pick ROOTDEV ROOTINO = some 0 := rfl
  exact ⟨s, done, _, namei_missing done (by decide) (freshTables_settled s.image) root none (by decide)
    (by decide) (by decide) (by decide) (by decide)⟩

end Paths
end Xv6Lab.Mkfs
