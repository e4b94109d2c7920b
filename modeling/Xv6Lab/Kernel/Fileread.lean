import Xv6Lab.Kernel.Memory
import Xv6Lab.Mm.Copy

/-!
fileread on an inode; the count is an int that readi takes as a uint.
-/

namespace Xv6Lab.Kernel
open Bytes (Mem load store write read)
open Mm
open Fs
open Virtio (BSIZE)
variable {image : Mem} {ip : Inode} {off m : Nat}

section Delivery
variable {S : Shape} {I : Nat → Prop} {own : Nat → Label} {s s' : Mach} {r addr tot i x : Nat}

def OnlyUser (S : Shape) (s s' : Mach) (addr count : Nat) : Prop :=
  ∀ x, (∀ j < count, userAddr S (rangeAddr addr j) ≠ some x) → s'.mem x = s.mem x

theorem OnlyUser.mono {count count' : Nat} (only : OnlyUser S s s' addr count) (more : count ≤ count') :
    OnlyUser S s s' addr count' :=
  fun x outside => only x fun j inside => outside j (inside.trans_le more)

theorem rangeAddr_add (below : rangeAddr addr tot + i < 2 ^ 64) :
    rangeAddr addr tot + i = rangeAddr addr (tot + i) := by
  simp only [rangeAddr] at *
  omega

theorem Writable.small (writable : Writable S x) : x < 2 ^ 64 := writable.1.trans (by decide)

/-- The read comes to the end of the largest file there can be and asks for more: all bytes up to
there are in the file, and user code can write what they go to. -/
def RunsOff (image : Mem) (ip : Inode) (S : Shape) (addr off n : Nat) : Prop :=
  0 < readCount ip off n ∧ MAXFILE * BSIZE < off + readCount ip off n ∧
    ∀ j, off + j < MAXFILE * BSIZE → Backed image ip (off + j) ∧ Writable S (rangeAddr addr j)

section
variable (targets : Targets own r S) (pages : ∀ x, own x ≠ .outside → Phys x)
include targets pages

theorem copyout_next {s1 : Mach} (tree : Tree I own s1.mem r S) (only : OnlyUser S s s1 addr tot)
    (bytes : List UInt8) :
    wp (copyout r (rangeAddr addr tot) bytes) (fun _ => False)
      (fun ok s2 => OnlyUser S s s2 addr (tot + bytes.length) ∧ Tree I own s2.mem r S ∧
        (ok = true ↔ ∀ i < bytes.length, Writable S (rangeAddr addr tot + i))) s1 := by
  apply wp_post (copyout_bytes tree targets pages _ _)
  rintro ok s2 ⟨tree2, stored⟩
  refine ⟨fun x outside => ?_, tree2, stored.success⟩
  rw [stored.others x fun i inside all there => ?_, only x fun j low => outside j (by omega)]
  rw [rangeAddr_add (Writable.small (all i le_rfl))] at there
  exact outside (tot + i) (by omega) there

theorem readi_user {n : Nat} (tree : Tree I own s.mem r S) (stays : ¬RunsOff image ip S addr off n) :
    wp (readi image ip (fun tot bytes => copyout r ((addr + tot) % 2 ^ 64) bytes) off n) (fun _ => False)
      (fun c s' => OnlyUser S s s' addr (readCount ip off n) ∧
        (c = -1 ∨ ∃ count : Nat, c = count ∧ count ≤ readCount ip off n)) s := by
  apply wp_post (readi_spec (P := fun tot s1 => Tree I own s1.mem r S ∧ OnlyUser S s s1 addr tot ∧
    ∀ j < tot, Backed image ip (off + j) ∧ Writable S (rangeAddr addr j))
    (F := fun s1 => OnlyUser S s s1 addr (readCount ip off n)) ?_ ?_
    ⟨tree, fun _ _ => rfl, fun j none => absurd none (by omega)⟩)
  · rintro c s' (⟨count, rfl, bound, ⟨-, only, -⟩, -⟩ | ⟨rfl, only⟩)
    · exact ⟨only.mono bound, .inr ⟨count, rfl, bound⟩⟩
    · exact ⟨only, .inl rfl⟩
  · rintro tot s1 e more ⟨-, -, there⟩ failed
    have outside : MAXFILE ≤ (off + tot) / BSIZE := by
      by_contra inside
      obtain ⟨addr, here⟩ := bmap_ok (Nat.not_le.mp inside)
      cases failed.symm.trans here
    rw [Nat.le_div_iff_mul_le (by decide)] at outside
    exact stays ⟨by omega, by omega, fun j inside => there j (by omega)⟩
  · rintro tot m s1 - fits same backed ⟨tree1, only, there⟩
    have length := length_fileBytes image ip (off + tot) m
    apply wp_never (copyout_next targets pages tree1 only _)
    rintro ok s2 ⟨only2, tree2, success⟩
    rw [length] at only2 success
    cases ok with
    | false => exact only2.mono fits
    | true =>
      refine ⟨tree2, only2, fun j inside => ?_⟩
      by_cases early : j < tot
      · exact there j early
      · obtain ⟨i, rfl⟩ : ∃ i, j = tot + i := ⟨j - tot, by omega⟩
        have writable := success.mp rfl i (by omega)
        rw [← Nat.add_assoc]
        exact ⟨(backed.next (by omega)).2, rangeAddr_add (Writable.small writable) ▸ writable⟩

theorem readi_runs_off {n : Nat} (tree : Tree I own s.mem r S) (runs : RunsOff image ip S addr off n) :
    wp (readi image ip (fun tot bytes => copyout r ((addr + tot) % 2 ^ 64) bytes) off n) (fun _ => True)
      (fun _ _ => False) s := by
  obtain ⟨positive, far, there⟩ := runs
  apply wp_post (readi_spec (P := fun tot s1 => Tree I own s1.mem r S ∧
    (tot = 0 ∨ off + tot ≤ MAXFILE * BSIZE)) (F := fun _ => False) (fun _ _ _ _ _ _ => trivial) ?_
    ⟨tree, .inl rfl⟩)
  · rintro c s' (⟨count, rfl, bound, ⟨-, early⟩, done | hole⟩ | ⟨-, never⟩)
    · omega
    · have inside : (off + count) / BSIZE < MAXFILE := by
        by_contra outside
        rw [Hole, bmap_outside (Nat.not_lt.mp outside)] at hole
        cases hole
      rw [Nat.div_lt_iff_lt_mul (by decide)] at inside
      obtain ⟨⟨addr, nonzero, here⟩, -⟩ := there count inside
      exact nonzero (Except.ok.inj (here.symm.trans hole))
    · exact never
  · rintro tot m s1 positive' fits same backed ⟨tree1, -⟩
    have length := length_fileBytes image ip (off + tot) m
    apply wp_never (copyout_bytes tree1 targets pages _ _)
    rintro ok s2 ⟨tree2, stored⟩
    have all : ok = true := stored.success.mpr fun i inside => by
      have first := (there tot (backed.next (i := 0) (by omega)).1).2.1
      have writable := (there (tot + i) (by have := (backed.next (i := i) (by omega)).1; omega)).2
      rwa [← rangeAddr_add (by simp only [MAXVA, BSIZE] at *; omega)] at writable
    have last := (backed.next (i := m - 1) (by omega)).1
    rw [all]
    exact ⟨tree2, .inr (by omega)⟩

end
end Delivery

def loaded (image : Mem) (t : Tables) (i : Nat) : Inode :=
  if (t.inode i).valid then t.inode i else readDinode image t.sb (t.inode i)

def lockedBy (image : Mem) (t : Tables) (i : Nat) (pid : BitVec 32) : Inode :=
  { loaded image t i with locked := true, pid }

structure OpenInode (image : Mem) (t : Tables) (f i : Nat) : Prop where
  readable : (t.file f).readable = true
  type : (t.file f).type = .inode
  ip : (t.file f).ip = some i
  off : (t.file f).off < 2 ^ 32
  used : 1 ≤ (t.inode i).ref
  free : (t.inode i).locked = false
  typed : (t.inode i).valid = false → (loaded image t i).type ≠ 0
  size : (loaded image t i).size < 2 ^ 32

/-- What fileread(f, addr, n) may do: it changes at most n bytes, all of them in the range,
and moves the offset by what it returns. -/
structure ReadSpec (k k' : State) (p f addr : Nat) (n r : Int) : Prop where
  count : r = -1 ∨ 0 ≤ r ∧ r ≤ max n 0
  inside : OnlyUser (shapeAt k.mach.mem (k.proc p).pagetable) k.mach k'.mach addr n.toNat
  most : ∃ changed : Finset Nat, changed.card ≤ n.toNat ∧
    ∀ x, k'.mach.mem x ≠ k.mach.mem x → x ∈ changed
  offset : (k'.tables.file f).off =
    (k.tables.file f).off + if 0 < r then r.toNat else 0

section Fileread
variable {cfg : Config} {k : State} {p f i addr : Nat} {n : Int}

theorem ilock_open {t : Tables} (pid : BitVec 32) (opened : OpenInode image t f i) :
    wp (ilock image pid i) (fun _ => False)
      (fun _ t' => t' = t.setInode i (lockedBy image t i pid)) t := by
  have used := opened.used
  unfold ilock
  simp only [wp_bind, wp_get, wp_ite, wp_throw, wp_set, wp_pure]
  refine ⟨fun none => by omega, fun _ => ⟨fun held => ?_, fun _ => ⟨fun valid => ?_, fun fresh => ⟨?_, ?_⟩⟩⟩⟩
  · rw [opened.free] at held
    cases held
  · rw [lockedBy, loaded, if_pos valid]
  · have typed := opened.typed (by simpa using fresh)
    rw [loaded, if_neg fresh] at typed
    exact typed
  · intro _
    rw [lockedBy, loaded, if_neg fresh]
    rfl

theorem OnlyUser.card {S : Shape} {s s' : Mach} {count : Nat} (only : OnlyUser S s s' addr count) :
    ∃ changed : Finset Nat, changed.card ≤ count ∧ ∀ x, s'.mem x ≠ s.mem x → x ∈ changed := by
  refine ⟨(Finset.range count).image fun j => (userAddr S (rangeAddr addr j)).getD 0, ?_, fun x differs => ?_⟩
  · exact Finset.card_image_le.trans (le_of_eq (Finset.card_range count))
  · by_contra outside
    refine differs (only x fun j inside there => outside ?_)
    exact Finset.mem_image.mpr ⟨j, Finset.mem_range.mpr inside, by rw [there]; rfl⟩

theorem fileread_step {E : Panic → Prop} {Q : Int → State → Prop} (opened : OpenInode cfg.image k.tables f i)
    (input : List UInt8) (body : wp (readi cfg.image (lockedBy cfg.image k.tables i (k.proc p).pid)
      (fun tot bytes => copyout (k.proc p).pagetable ((addr + tot) % 2 ^ 64) bytes)
      (k.tables.file f).off (n % 2 ^ 32).toNat) E (fun r mach => ∀ k', k'.mach = mach →
        (k'.tables.file f).off = (if 0 < r then ((k.tables.file f).off + r.toNat) % 2 ^ 32
          else (k.tables.file f).off) → Q r k') k.mach) :
    wp (fileread cfg p f addr n input) E Q k := by
  unfold fileread
  simp only [wp_bind, wp_getProc, wp_get, wp_ite, wp_pure]
  refine ⟨fun unreadable => absurd (opened.readable.symm.trans unreadable) (by decide), fun _ => ?_⟩
  rw [opened.type]
  simp only [opened.ip, wp_bind, wp_onTables, wp_onMach, wp_get, wp_modify, wp_pure]
  apply wp_never (ilock_open _ opened)
  rintro _ t rfl
  have used : 1 ≤ (lockedBy cfg.image k.tables i (k.proc p).pid).ref := by
    have used := opened.used
    unfold lockedBy loaded
    split_ifs <;> exact used
  have inode : (k.tables.setInode i (lockedBy cfg.image k.tables i (k.proc p).pid)).inode i =
      lockedBy cfg.image k.tables i (k.proc p).pid := Function.update_self ..
  rw [inode]
  apply wp_post body
  intro r mach post
  have unlock : ∀ t : Fs.Tables, t.inode i = lockedBy cfg.image k.tables i (k.proc p).pid →
      wp (iunlock (k.proc p).pid i) E (fun _ t' => t'.file = t.file) t := by
    intro t here
    unfold iunlock
    simp only [wp_bind, wp_get, wp_ite, wp_throw, wp_set, here]
    refine ⟨fun wrong => ?_, fun _ => rfl⟩
    simp only [lockedBy, and_self, not_true_eq_false, false_or] at wrong used
    omega
  apply wp_post (unlock _ (by split_ifs <;> exact inode))
  intro _ t files
  refine post _ rfl ?_
  rw [files]
  split_ifs with moved
  · simp [Fs.Tables.setFile]
  · rfl

theorem ReadSpec.of_delivery {k' : State} {r : Int} {size : Nat} (off : (k.tables.file f).off < 2 ^ 32)
    (fits : size < 2 ^ 32)
    (count : r = -1 ∨ 0 ≤ r ∧ r ≤ n.toNat ∧ (0 < r → (k.tables.file f).off + r ≤ size))
    (only : OnlyUser (shapeAt k.mach.mem (k.proc p).pagetable) k.mach k'.mach addr n.toNat)
    (moved : (k'.tables.file f).off = if 0 < r then ((k.tables.file f).off + r.toNat) % 2 ^ 32
      else (k.tables.file f).off) : ReadSpec k k' p f addr n r where
  count := by omega
  inside := only
  most := only.card
  offset := by
    rw [moved]
    split_ifs <;> omega

theorem readCount_bound (some : 0 < readCount ip off m) : off + readCount ip off m ≤ ip.size := by
  unfold readCount at *
  split_ifs at * <;> omega

theorem runsOff_locked {t : Tables} {S : Shape} {pid : BitVec 32} :
    RunsOff image (lockedBy image t i pid) S addr off m ↔ RunsOff image (loaded image t i) S addr off m := by
  have same : bmap image (lockedBy image t i pid) = bmap image (loaded image t i) := rfl
  have count : readCount (lockedBy image t i pid) off m = readCount (loaded image t i) off m := rfl
  simp only [RunsOff, Backed, same, count]

theorem fileread_bounded (opened : OpenInode cfg.image k.tables f i)
    (wf : WellFormed k.mach.mem (k.proc p).pagetable)
    (distinct : DistinctTargets k.mach.mem (k.proc p).pagetable) (input : List UInt8)
    (short : readCount (loaded cfg.image k.tables i) (k.tables.file f).off (n % 2 ^ 32).toNat ≤ n.toNat)
    (stays : ¬RunsOff cfg.image (loaded cfg.image k.tables i) (shapeAt k.mach.mem (k.proc p).pagetable) addr
      (k.tables.file f).off (n % 2 ^ 32).toNat) :
    wp (fileread cfg p f addr n input) (fun _ => False) (fun r k' => ReadSpec k k' p f addr n r) k := by
  apply fileread_step opened
  apply wp_post (readi_user (wf.targets distinct) wf.labelled wf.shape (mt runsOff_locked.mp stays))
  rintro r mach ⟨only, outcome⟩ k' rfl moved
  refine ReadSpec.of_delivery opened.off opened.size ?_ (only.mono short) moved
  rcases outcome with rfl | ⟨count, rfl, bound⟩
  · exact .inl rfl
  · change count ≤ readCount (loaded cfg.image k.tables i) _ _ at bound
    refine .inr ⟨by omega, by omega, fun some => ?_⟩
    have size := readCount_bound (bound.trans_lt' (by omega : 0 < count))
    omega

theorem fileread_panics (opened : OpenInode cfg.image k.tables f i)
    (wf : WellFormed k.mach.mem (k.proc p).pagetable)
    (distinct : DistinctTargets k.mach.mem (k.proc p).pagetable) (input : List UInt8)
    (runs : RunsOff cfg.image (loaded cfg.image k.tables i) (shapeAt k.mach.mem (k.proc p).pagetable) addr
      (k.tables.file f).off (n % 2 ^ 32).toNat) :
    wp (fileread cfg p f addr n input) (fun _ => True) (fun _ _ => False) k :=
  fileread_step opened input (wp_post (readi_runs_off (wf.targets distinct) wf.labelled wf.shape (runsOff_locked.mpr runs))
    fun _ _ never => never.elim)

/-- With a negative count, nothing may be there to read: off + n wraps, or the offset is behind
the end, or at a hole. -/
def Nothing (image : Mem) (ip : Inode) (off : Nat) (n : Int) : Prop :=
  -n ≤ off ∨ ip.size ≤ off ∨ Hole image ip off

theorem fileread_nothing (opened : OpenInode cfg.image k.tables f i) (input : List UInt8)
    (wf : WellFormed k.mach.mem (k.proc p).pagetable)
    (distinct : DistinctTargets k.mach.mem (k.proc p).pagetable) (negative : n < 0) (low : -2 ^ 31 ≤ n)
    (nothing : Nothing cfg.image (loaded cfg.image k.tables i) (k.tables.file f).off n) :
    wp (fileread cfg p f addr n input) (fun _ => False) (fun r k' => ReadSpec k k' p f addr n r) k := by
  have small := opened.off
  by_cases count : readCount (loaded cfg.image k.tables i) (k.tables.file f).off (n % 2 ^ 32).toNat = 0
  · exact fileread_bounded opened wf distinct input (by omega) fun runs => by have := runs.1; omega
  · have hole : Hole cfg.image (loaded cfg.image k.tables i) (k.tables.file f).off := by
      unfold readCount at count
      split_ifs at count
      · omega
      exact (nothing.resolve_left (by omega)).resolve_left (by omega)
    apply fileread_step opened
    apply wp_post (readi_spec (P := fun tot mach => tot = 0 ∧ mach = k.mach) (F := fun _ => False) ?_ ?_
      ⟨rfl, rfl⟩)
    · rintro r mach (⟨c, rfl, -, ⟨rfl, rfl⟩, -⟩ | ⟨-, never⟩) k' here moved
      · refine ReadSpec.of_delivery opened.off opened.size (.inr ⟨le_rfl, by omega, by omega⟩) ?_ moved
        exact fun x _ => congrFun (congrArg Mach.mem here) x
      · exact never.elim
    · rintro _ _ e - ⟨rfl, -⟩ failed
      cases hole.symm.trans failed
    · rintro _ m mach - - - ⟨addr, nonzero, here⟩ ⟨rfl, -⟩
      exact absurd (Except.ok.inj (here.symm.trans hole)) nonzero

def reader : Process where
  state := .running
  pid := 1
  parent := none
  killed := false
  xstate := 0
  sz := PGSIZE
  pagetable := 4096
  trapframe := 0
  ofile := fun _ => none
  cwd := none
  name := []

def readerKernel (mach : Mach) (t : Fs.Tables) : State where
  mach := mach
  tables := t
  proc := fun _ => reader
  nextpid := 2
  kernelPagetable := 0
  kstacks := []
  rings := []

theorem exists_reader (b : UInt8) : ∃ (mach : Mach) (x : Nat), WellFormed mach.mem 4096 ∧
    DistinctTargets mach.mem 4096 ∧ userAddr (shapeAt mach.mem 4096) 4095 = some x ∧ mach.mem x ≠ b ∧
    ∀ va, Writable (shapeAt mach.mem 4096) va ↔ va < PGSIZE := by
  obtain ⟨mach, wf, distinct, bytes, writable, -⟩ := small_user (List.replicate PGSIZE (b + 1)) (by simp)
  obtain ⟨x, address⟩ := Option.isSome_iff_exists.mp ((writable 4095).mpr (by decide)).addr
  refine ⟨mach, x, wf, distinct, address, fun same => ?_, writable⟩
  have value := bytes 4095 (by rw [List.length_replicate]; decide)
  rw [userByte_shapeAt wf, address, List.getElem?_replicate, if_pos (by decide), Option.map_some,
    Option.some.injEq, same] at value
  have zero : (1 : UInt8) = 0 := by simpa using value.symm
  exact absurd zero (by decide)

theorem readi_exceeds {image : Mem} {ip : Inode} {off m x : Nat} {mach : Mach}
    (wf : WellFormed mach.mem 4096) (distinct : DistinctTargets mach.mem 4096)
    (address : userAddr (shapeAt mach.mem 4096) 4095 = some x) (other : mach.mem x ≠ fileByte image ip off)
    (writable : ∀ va, Writable (shapeAt mach.mem 4096) va ↔ va < PGSIZE) (present : ¬Hole image ip off)
    (some : 0 < readCount ip off m) :
    wp (readi image ip (fun tot bytes => copyout 4096 ((4095 + tot) % 2 ^ 64) bytes) off m)
      (fun _ => Backed image ip off → readCount ip off m ≠ 1)
      (fun r mach' => mach'.mem ≠ mach.mem ∧ (readCount ip off m = 1 → r = 1)) mach := by
  have targets := wf.targets distinct
  have changed : ∀ {mach' : Mach}, mach'.mem x = fileByte image ip off → mach'.mem ≠ mach.mem :=
    fun new same => other (congrFun same x ▸ new)
  apply wp_post (readi_spec (P := fun tot mach' => tot = 0 ∧ mach' = mach ∨ tot = 1 ∧
    Tree (fun _ => True) (labelling mach.mem 4096 []) mach'.mem 4096 (shapeAt mach.mem 4096) ∧
      mach'.mem x = fileByte image ip off)
    (F := fun mach' => mach'.mem x = fileByte image ip off ∧ readCount ip off m ≠ 1) ?_ ?_ (.inl ⟨rfl, rfl⟩))
  · rintro r mach' (⟨c, rfl, -, ⟨rfl, -⟩ | ⟨rfl, -, new⟩, stop⟩ | ⟨-, new, more⟩)
    · rcases stop with done | hole
      · omega
      · exact absurd hole present
    · exact ⟨changed new, fun _ => rfl⟩
    · exact ⟨changed new, fun one => absurd one more⟩
  · rintro tot mach' e more (⟨rfl, -⟩ | ⟨rfl, -⟩) failed
    · rintro ⟨addr, -, here⟩
      cases here.symm.trans failed
    · omega
  · rintro tot count mach' positive bound - - (⟨rfl, rfl⟩ | ⟨rfl, tree, new⟩)
    · apply wp_never (copyout_bytes wf.shape targets wf.labelled _ _)
      rintro ok mach2 ⟨tree2, stored⟩
      have length := length_fileBytes image ip (off + 0) count
      have new : mach2.mem x = fileByte image ip off := by
        have first : ∀ j ≤ 0, Writable (shapeAt mach'.mem 4096) ((4095 + 0) % 2 ^ 64 + j) := by
          intro j zero
          obtain rfl := Nat.le_zero.mp zero
          exact (writable _).mpr (by decide)
        have value := stored.bytes 0 (by omega) first x address
        rwa [getD_fileBytes positive] at value
      cases ok with
      | true =>
        have last := (writable _).mp (stored.success.mp rfl (count - 1) (by omega))
        simp only [PGSIZE] at last
        exact .inr ⟨by omega, tree2, new⟩
      | false =>
        refine ⟨new, fun one => ?_⟩
        refine absurd (stored.success.mpr fun j inside => (writable _).mpr ?_) (by decide)
        simp only [PGSIZE]
        omega
    · apply wp_never (copyout_bytes tree targets wf.labelled _ _)
      rintro ok mach2 ⟨-, stored⟩
      have length := length_fileBytes image ip (off + 1) count
      have beyond : ¬Writable (shapeAt mach.mem 4096) ((4095 + 1) % 2 ^ 64 + 0) := by
        rw [writable]
        decide
      cases ok with
      | true => exact absurd (stored.success.mp rfl 0 (by omega)) beyond
      | false =>
        refine ⟨?_, by omega⟩
        rw [stored.others x fun j _ all => absurd (all 0 (Nat.zero_le j)) beyond, new]

theorem fileread_exceeds {t : Fs.Tables} (opened : OpenInode cfg.image t f i) (input : List UInt8)
    (negative : n < 0) (low : -2 ^ 31 ≤ n)
    (something : ¬Nothing cfg.image (loaded cfg.image t i) (t.file f).off n) :
    ∃ mach, WellFormed mach.mem 4096 ∧ DistinctTargets mach.mem 4096 ∧
      wp (fileread cfg 0 f 4095 n input) (fun _ => Backed cfg.image (loaded cfg.image t i) (t.file f).off →
        (loaded cfg.image t i).size ≠ (t.file f).off + 1)
      (fun r k' => k'.mach.mem ≠ mach.mem ∧ ((loaded cfg.image t i).size = (t.file f).off + 1 → r = 1))
      (readerKernel mach t) := by
  simp only [Nothing, not_or, not_le] at something
  obtain ⟨enough, before, present⟩ := something
  have small := opened.off
  have count : 0 < readCount (loaded cfg.image t i) (t.file f).off (n % 2 ^ 32).toNat ∧
      readCount (loaded cfg.image t i) (t.file f).off (n % 2 ^ 32).toNat ≤
        (loaded cfg.image t i).size - (t.file f).off := by
    unfold readCount
    split_ifs <;> omega
  obtain ⟨mach, x, wf, distinct, address, other, writable⟩ :=
    exists_reader (fileByte cfg.image (loaded cfg.image t i) (t.file f).off)
  refine ⟨mach, wf, distinct, fileread_step (k := readerKernel mach t) opened input ?_⟩
  apply wp_mono (@readi_exceeds cfg.image (lockedBy cfg.image t i 1) _ _ _ _ wf distinct address other writable
    present count.1)
  · rintro r mach' ⟨changed, one⟩ k' rfl -
    exact ⟨changed, fun last => one (by change readCount (loaded cfg.image t i) _ _ = 1; omega)⟩
  · intro _ more backed last
    exact more backed (by change readCount (loaded cfg.image t i) _ _ = 1; omega)

end Fileread

/-- With a count that is not negative, a read keeps to what was asked exactly if it does not run
off the largest file. With a negative one it does, whatever the buffer, exactly if there is nothing
to read. -/
theorem fileread_bounded_iff (cfg : Config) (t : Fs.Tables) (f i : Nat) (n : Int)
    (opened : OpenInode cfg.image t f i) (low : -2 ^ 31 ≤ n) (high : n < 2 ^ 31) :
    (0 ≤ n → ∀ k p addr input, k.tables = t → WellFormed k.mach.mem (k.proc p).pagetable →
      DistinctTargets k.mach.mem (k.proc p).pagetable → addr < 2 ^ 64 →
      (wp (fileread cfg p f addr n input) (fun _ => False) (fun r k' => ReadSpec k k' p f addr n r) k ↔
        ¬RunsOff cfg.image (loaded cfg.image t i) (shapeAt k.mach.mem (k.proc p).pagetable) addr
          (t.file f).off n.toNat)) ∧
    (n < 0 → ((∀ k p addr input, k.tables = t → WellFormed k.mach.mem (k.proc p).pagetable →
      DistinctTargets k.mach.mem (k.proc p).pagetable → addr < 2 ^ 64 →
      wp (fileread cfg p f addr n input) (fun _ => False) (fun r k' => ReadSpec k k' p f addr n r) k) ↔
        Nothing cfg.image (loaded cfg.image t i) (t.file f).off n)) := by
  refine ⟨?_, fun negative => ⟨fun all => ?_, ?_⟩⟩
  · rintro count k p addr input rfl wf distinct -
    have same : (n % 2 ^ 32).toNat = n.toNat := by omega
    rw [← same]
    refine ⟨fun spec runs => ?_, fun stays => fileread_bounded opened wf distinct input ?_ stays⟩
    · obtain ⟨r, k', run, -⟩ := wp_returns spec
      have panics := fileread_panics opened wf distinct input runs
      rwa [wp, run] at panics
    · rw [same]
      exact readCount_le _ _ _
  · by_contra something
    obtain ⟨mach, wf, distinct, exceeds⟩ := fileread_exceeds opened [] negative low something
    obtain ⟨r, k', run, spec⟩ := wp_returns (all (readerKernel mach t) 0 4095 [] rfl wf distinct (by decide))
    rw [wp, run] at exceeds
    refine exceeds.1 (funext fun x => spec.inside x fun j inside => ?_)
    omega
  · rintro nothing k p addr input rfl wf distinct -
    exact fileread_nothing opened input wf distinct negative low nothing

def oneByte : Fs.Tables where
  inode := fun _ =>
    { dev := 1, inum := 2, ref := 1, locked := false, pid := 0, valid := true, type := T_FILE, major := 0
      minor := 0, nlink := 1, size := 1, addrs := fun _ => 1 }
  file := fun _ =>
    { type := .inode, ref := 1, readable := true, writable := false, ip := some 0, off := 0, major := 0 }
  sb := ⟨0, 0, 0, 0, 0, 0, 0, 0⟩

theorem oneByte_open : OpenInode smallConfig.image oneByte 0 0 where
  readable := rfl
  type := rfl
  ip := rfl
  off := by decide
  used := by decide
  free := rfl
  typed fresh := by cases fresh
  size := by decide

theorem fileread_bounded_five : OpenInode smallConfig.image oneByte 0 0 ∧ ∃ mach r k',
    WellFormed mach.mem 4096 ∧ DistinctTargets mach.mem 4096 ∧
      (fileread smallConfig 0 0 4095 5 []).run (readerKernel mach oneByte) = .ok (r, k') ∧
      ReadSpec (readerKernel mach oneByte) k' 0 0 4095 5 r := by
  obtain ⟨mach, -, wf, distinct, -⟩ := exists_reader 0
  have bounded := (fileread_bounded_iff smallConfig oneByte 0 0 5 oneByte_open (by decide) (by decide)).1
    (by decide) (readerKernel mach oneByte) 0 4095 [] rfl wf distinct (by decide)
  obtain ⟨r, k', run, spec⟩ := wp_returns (bounded.mpr fun runs => absurd runs.2.1 (by decide))
  exact ⟨oneByte_open, mach, r, k', wf, distinct, run, spec⟩

theorem fileread_negative_count : OpenInode smallConfig.image oneByte 0 0 ∧ ∃ mach k',
    WellFormed mach.mem 4096 ∧ DistinctTargets mach.mem 4096 ∧
      (fileread smallConfig 0 0 4095 (-1) []).run (readerKernel mach oneByte) = .ok (1, k') ∧
      k'.mach.mem ≠ mach.mem ∧ ¬ReadSpec (readerKernel mach oneByte) k' 0 0 4095 (-1) 1 := by
  have something : ¬Nothing smallConfig.image (loaded smallConfig.image oneByte 0) (oneByte.file 0).off
      (-1) := by
    rintro (wraps | ended | hole)
    · exact absurd wraps (by decide)
    · exact absurd ended (by decide)
    · cases hole
  obtain ⟨mach, wf, distinct, exceeds⟩ :=
    fileread_exceeds oneByte_open [] (by decide) (show -2 ^ 31 ≤ (-1 : Int) by decide) something
  obtain ⟨r, k', run, changed, one⟩ := wp_returns (wp_mono exceeds (fun _ _ spec => spec)
    fun _ never => never ⟨1, by decide, rfl⟩ rfl)
  obtain rfl := one rfl
  refine ⟨oneByte_open, mach, k', wf, distinct, run, changed, fun spec => ?_⟩
  exact absurd spec.count (by decide)

end Xv6Lab.Kernel
