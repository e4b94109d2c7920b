import Xv6Lab.Fs.Tables
import Xv6Lab.Kernel.Books
import Xv6Lab.Kernel.Reach

/-!
The calls on descriptors: the counts of the file and inode tables are exact in every
state that the kernel reaches.
-/

namespace Xv6Lab.Kernel
open Function (update update_of_ne update_self)

open Bytes (Mem)
open Mm
open Fs
variable {f : Nat} {mach : Mach}

section Calls
variable {cfg : Config} {k : State} {p : Nat} {E : Panic → Prop}

theorem Books.tables {tables : Tables} (books : Books k)
    (counted : Counted none (fileUsers k.proc) (cwdUsers k.proc) unlocked tables) :
    Books { k with mach, tables } := ⟨counted, books.idle, books.inside⟩

theorem Books.setFd {tables : Tables} {fd : Nat} {o : Option Nat} (books : Books k)
    (runs : (k.proc p).state = .runnable)
    (counted : Counted none (fileUsers (setFd k.proc p fd o)) (cwdUsers k.proc) unlocked tables) :
    Books { k with mach, tables, proc := Kernel.setFd k.proc p fd o } := by
  apply books.update (p := p)
  · rw [← cwdUsers_setFd k.proc p fd o] at counted
    exact counted
  · intro q other
    simp only [setFd_of_ne other]
    exact SameFiles.refl _
  · exact books.low (by simp [runs])
  · simp [setFd_self, runs]

theorem wp_argfd {α : Type} {fd : Int} {rest : Option Nat → KM α} {Q : α → State → Prop}
    (none : wp (rest none) E Q k) (some : ∀ f, fd.toNat < NOFILE → (k.proc p).ofile fd.toNat = some f →
      wp (rest (some f)) E Q k) : wp (argfd p fd >>= rest) E Q k := by
  simp only [argfd, wp_ite, wp_pure, wp_bind, wp_getProc]
  refine ⟨fun _ => none, fun small => ?_⟩
  cases open' : (k.proc p).ofile fd.toNat with
  | none => exact none
  | some f => exact some f (by omega) open'

theorem fdalloc_files : wp (fdalloc p f) E (fun r k' => match r with
    | none => k' = k
    | some fd => fd < NOFILE ∧ (k.proc p).ofile fd = none ∧
        k' = { k with proc := setFd k.proc p fd (some f) }) k := by
  unfold fdalloc
  rw [wp_bind, wp_getProc]
  cases found : (List.range NOFILE).find? fun fd => ((k.proc p).ofile fd).isNone with
  | none => exact rfl
  | some fd =>
    have empty := List.find?_some found
    have member := List.mem_of_find?_eq_some found
    rw [Option.isNone_iff_eq_none] at empty
    rw [List.mem_range] at member
    exact ⟨member, empty, rfl⟩

section
variable (books : Books k)
include books

theorem sysDup_files (runs : (k.proc p).state = .runnable) (fd : Int) :
    wp (sysDup p fd) Sane (fun _ k' => Books k') k := by
  have low := books.low (p := p) (by simp [runs])
  unfold sysDup
  refine wp_argfd books fun f small holds => ?_
  apply wp_seq fdalloc_files
  intro r k2 allocated
  cases r with
  | none => exact allocated ▸ books
  | some new =>
    obtain ⟨inside, empty, rfl⟩ := allocated
    rw [wp_bind, wp_onTables]
    apply wp_post (filedup_counted books.counted (fileUsers_used low small holds))
    intro _ tables counted
    rw [← fileUsers_take low inside empty] at counted
    exact books.setFd runs counted

theorem sysClose_files (runs : (k.proc p).state = .runnable) (fd : Int) :
    wp (sysClose p fd) Sane (fun _ k' => Books k') k := by
  have low := books.low (p := p) (by simp [runs])
  unfold sysClose
  refine wp_argfd books fun f small holds => ?_
  have counted := books.counted
  unfold Exact at counted
  rw [← fileUsers_drop low small holds] at counted
  rw [wp_bind, wp_setProc, wp_bind, wp_onTables]
  apply wp_post (fileclose_counted counted)
  exact fun _ tables counted => books.setFd runs counted

theorem fileread_files (used : fileUsers k.proc f ≠ 0) (addr : Nat) (n : Int)
    (input : List UInt8) : wp (fileread cfg p f addr n input) Sane (fun _ k' => Books k') k := by
  obtain ⟨i, ip, held⟩ := books.counted.used used
  unfold fileread
  simp only [wp_bind, wp_getProc, wp_get, wp_ite, wp_pure]
  refine ⟨fun _ => books, fun _ => ?_⟩
  cases (k.tables.file f).type with
  | none => exact id
  | device =>
    simp only [wp_ite, wp_pure]
    refine ⟨fun _ => ?_, fun _ => books⟩
    apply wp_mm (consoleread_fails ..)
    exact fun _ mach => books.tables books.counted
  | inode =>
    simp only [ip]
    rw [wp_bind, wp_onTables]
    apply wp_post (ilock_counted books.counted held)
    rintro _ tables1 ⟨counted1, file1⟩
    rw [wp_bind, wp_get, wp_bind]
    apply wp_mm (readi_fails _ _ fun _ _ => copyout_fails ..)
    intro r mach
    rw [wp_bind, wp_onTables, wp_modify, wp_bind, wp_onTables]
    have counted2 : Counted none (fileUsers k.proc) (cwdUsers k.proc)
        (update unlocked i (some (k.proc p).pid)) (if 0 < r then tables1.setFile f
          { tables1.file f with off := ((k.tables.file f).off + r.toNat) % 2 ^ 32 } else tables1) := by
      split
      · exact counted1.touch _ rfl rfl rfl
      · exact counted1
    have held2 : openings (if 0 < r then tables1.setFile f
        { tables1.file f with off := ((k.tables.file f).off + r.toNat) % 2 ^ 32 }
        else tables1).file i + cwdUsers k.proc i ≠ 0 := by
      split
      · rw [setFile_file, openings_same (by rfl) (by rfl), file1]
        exact held
      · rw [file1]
        exact held
    apply wp_post (iunlock_counted counted2 held2)
    rintro _ tables2 ⟨counted3, _⟩
    exact books.tables counted3

theorem filestat_files (used : fileUsers k.proc f ≠ 0) (addr : Nat) :
    wp (filestat cfg p f addr) Sane (fun _ k' => Books k') k := by
  obtain ⟨i, ip, held⟩ := books.counted.used used
  unfold filestat
  simp only [wp_bind, wp_getProc, wp_get, wp_ite, wp_pure]
  refine ⟨fun _ => books, fun _ => ?_⟩
  simp only [ip]
  rw [wp_bind, wp_onTables]
  apply wp_post (ilock_counted books.counted held)
  rintro _ tables1 ⟨counted1, file1⟩
  rw [wp_bind, wp_get, wp_bind, wp_onTables]
  rw [← file1] at held
  apply wp_post (iunlock_counted counted1 held)
  rintro _ tables2 ⟨counted2, _⟩
  rw [wp_bind]
  apply wp_mm (copyout_fails ..)
  intro ok mach
  simp only [wp_ite, wp_pure]
  exact ⟨fun _ => books.tables counted2, fun _ => books.tables counted2⟩

section
variable (runs : (k.proc p).state = .runnable)
include runs

theorem sysRead_files (fd : Int) (addr : Nat)
    (n : Int) (input : List UInt8) : wp (sysRead cfg p fd addr n input) Sane (fun _ k' => Books k') k := by
  have low := books.low (p := p) (by simp [runs])
  unfold sysRead
  refine wp_argfd books fun f small holds => ?_
  exact fileread_files books (fileUsers_used low small holds) addr n input

theorem sysFstat_files (fd : Int) (addr : Nat) :
    wp (sysFstat cfg p fd addr) Sane (fun _ k' => Books k') k := by
  have low := books.low (p := p) (by simp [runs])
  unfold sysFstat
  refine wp_argfd books fun f small holds => ?_
  exact filestat_files books (fileUsers_used low small holds) addr

theorem sysOpen_files (path omode : Nat) :
    wp (sysOpen cfg p path omode) Sane (fun _ k' => Books k') k := by
  have low := books.low (p := p) (by simp [runs])
  unfold sysOpen
  rw [wp_bind, wp_getProc, wp_bind]
  apply wp_mm (copyinstr_fails ..)
  intro path mach
  cases path with
  | none => exact books.tables books.counted
  | some path =>
    simp only [wp_ite, wp_pure]
    refine ⟨fun _ => books.tables books.counted, fun _ => ?_⟩
    rw [wp_bind, wp_onTables]
    apply wp_post (namei_counted books.counted fun i cwd => cwdUsers_used low cwd)
    rintro found tables1 ⟨counted1, _⟩
    cases found with
    | none => exact books.tables counted1
    | some i =>
      rw [wp_bind, wp_onTables]
      apply wp_post (ilock_counted counted1 (by simp))
      rintro _ tables2 ⟨counted2, _⟩
      -- the inode goes back and the call fails
      have back : ∀ tables, Counted none (fileUsers k.proc) (bump (cwdUsers k.proc) i)
          (update unlocked i (some (k.proc p).pid)) tables → wp (do
            onTables (iunlockput (k.proc p).pid i)
            return -1) Sane (fun (_ : Int) k' => Books k') { k with mach, tables } := by
        intro tables counted
        rw [wp_bind, wp_onTables]
        apply wp_post (iunlockput_counted counted)
        rintro _ tables' ⟨counted', _⟩
        exact books.tables counted'
      rw [wp_bind, wp_get]
      simp only [wp_ite]
      refine ⟨fun _ => back _ counted2, fun _ => ?_⟩
      rw [wp_bind, wp_onTables]
      apply wp_post (filealloc_counted counted2)
      intro found tables3 allocated
      cases found with
      | none => exact back _ allocated
      | some f =>
        obtain ⟨zero, untyped, counted3⟩ := allocated
        apply wp_seq fdalloc_files
        intro r k4 descriptor
        cases r with
        | none =>
          subst descriptor
          rw [wp_bind, wp_onTables]
          apply wp_post (fileclose_counted counted3)
          exact fun _ tables4 counted4 => back _ (counted4.drop zero)
        | some fd =>
          obtain ⟨inside, empty, rfl⟩ := descriptor
          rw [wp_bind, wp_onTables, wp_modify, wp_bind, wp_onTables]
          have type : (openFile (tables3.file f) i (tables2.inode i) omode).type ≠ .none := by
            unfold openFile
            dsimp only
            split <;> simp
          have counted4 := counted3.settle (by simp) untyped
            (openFile (tables3.file f) i (tables2.inode i) omode) rfl type rfl
          obtain ⟨j, ip, held⟩ := counted4.used (f := f) (by simp)
          obtain rfl : i = j := by simpa [setFile_file, openFile] using ip
          apply wp_post (iunlock_counted counted4 held)
          rintro _ tables5 ⟨counted5, _⟩
          rw [← fileUsers_take low inside empty] at counted5
          exact books.setFd runs counted5

end
end
end Calls

section Run
variable {cfg : Config} {k : State} {p : Nat}

theorem syscall_files (books : Books k) (runs : (k.proc p).state = .runnable) (call : Call) :
    wp (syscall cfg p call) Sane (fun _ k' => Books k') k := by
  have low := books.low (p := p) (by simp [runs])
  have aside : ∀ {k'}, Aside k k' → Books k' := fun aside => books.same aside.1 aside.2
  cases call with
  | fork => exact wp_seq (kfork_files books runs) fun _ k' post => post
  | exit status => exact wp_seq (kexit_files books runs status) fun _ k' post => post
  | wait addr => exact kwait_files books addr
  | sbrk n => exact wp_seq (sysSbrk_files n) fun _ k' post => aside post
  | exec path argv =>
    apply wp_seq (sysExec_files books.counted.refs fun i cwd => by
      have := cwdUsers_used low cwd
      omega)
    exact fun _ k' balanced => books.balanced balanced
  | «open» path omode => exact wp_seq (sysOpen_files books runs path omode) fun _ k' post => post
  | close fd => exact wp_seq (sysClose_files books runs fd) fun _ k' post => post
  | dup fd => exact wp_seq (sysDup_files books runs fd) fun _ k' post => post
  | read fd addr n input => exact wp_seq (sysRead_files books runs fd addr n input) fun _ k' post => post
  | fstat fd addr => exact wp_seq (sysFstat_files books runs fd addr) fun _ k' post => post
  | kill pid => exact wp_seq (kkill_files pid) fun _ k' post => aside post
  | store va byte =>
    unfold syscall
    rw [wp_bind, wp_getProc, wp_bind]
    apply wp_mm (copyout_fails ..)
    exact fun _ mach => books.tables books.counted

theorem perform_files (books : Books k) (e : Event) :
    wp (perform cfg e) Sane (fun _ k' => Books k') k := by
  unfold perform
  simp only [wp_bind, wp_getProc, wp_ite, wp_pure, wp_modify]
  refine ⟨fun ready => ?_, fun _ => books⟩
  have start : Books { k with mach := { k.mach with fail := e.fail } } := books.tables books.counted
  apply wp_post (syscall_files start ready.1 e.call)
  intro r k1 books1
  cases r with
  | none => exact books1
  | some r =>
    rw [wp_bind, wp_getProc]
    apply wp_mm (writePte_fails ..)
    exact fun _ mach => books1.tables books1.counted

@[grind ←] theorem kvmmap_fails (kpgtbl va pa sz perm : Nat) :
    MemFails (kvmmap kpgtbl va pa sz perm) := by grind [kvmmap]

theorem mapstacks_fails (kpgtbl n : Nat) : MemFails (mapstacks kpgtbl n) := by
  induction n <;> grind [mapstacks]

theorem kvmmake_fails : MemFails (kvmmake cfg) := by
  apply keeps_bind kalloc_fails
  intro r
  apply keeps_ite (keeps_throw id)
  apply keeps_bind (memset_fails ..)
  intro _
  iterate 7
    apply keeps_bind (kvmmap_fails ..)
    intro _
  exact keeps_bind (mapstacks_fails ..) fun _ => keeps_pure _

theorem ring_fails : MemFails ring := by grind [ring]

theorem setup_files : wp (setup cfg) Sane (fun _ k' => k'.tables = k.tables ∧ k'.proc = k.proc) k := by
  unfold setup
  rw [wp_bind]
  apply wp_mm (freeAll_fails _)
  intro _ mach
  rw [wp_bind]
  apply wp_mm kvmmake_fails
  rintro ⟨r, kstacks⟩ mach
  rw [wp_bind]
  apply wp_mm ring_fails
  intro desc mach
  rw [wp_bind]
  apply wp_mm ring_fails
  intro avail mach
  rw [wp_bind]
  apply wp_mm ring_fails
  intro used mach
  exact ⟨rfl, rfl⟩

theorem userinit_files (books : Books k) : wp (userinit cfg) Sane (fun _ k' => Books k') k := by
  unfold userinit
  apply wp_seq allocproc_files
  rintro result k1 ⟨tables1, allocated⟩
  cases result with
  | none => exact id
  | some p =>
    obtain ⟨inside, unused, others1, ofile1, cwd1, state1⟩ := allocated
    have bare := books.idle p (.inl unused)
    have counted1 := exact_process books.counted tables1 others1 ofile1 cwd1
    rw [wp_bind, wp_onTables]
    apply wp_post (namei_counted counted1 fun _ never => by cases never)
    rintro cwd tables2 ⟨counted2, _⟩
    rw [wp_setProc]
    generalize shape : ({ k1.proc p with cwd, state := .runnable } : Process) = proc
    have directory : proc.cwd = cwd := by rw [← shape]
    have users : cwdUsers (update k1.proc p proc) =
        cwd.elim (cwdUsers k1.proc) (bump (cwdUsers k1.proc)) := by
      have elsewhere : ∀ q, q ≠ p → (update k1.proc p proc q).cwd = (k1.proc q).cwd :=
        fun q other => by rw [update_of_ne other]
      cases cwd with
      | none =>
        apply cwdUsers_congr
        intro q
        by_cases here : q = p
        · rw [here, update_self, directory, cwd1, bare.2]
        · exact elsewhere q here
      | some i =>
        apply cwdUsers_take inside (cwd1.trans bare.2) elsewhere
        rw [update_self, directory]
    rw [← users] at counted2
    apply books.update (p := p)
    · apply exact_of counted2 _ fun _ => rfl
      intro q
      by_cases here : q = p
      · subst here
        simp [← shape]
      · simp only [update_of_ne here]
    · intro q other
      simp only [update_of_ne other, others1 q other]
      exact SameFiles.refl _
    · exact inside
    · simp [← shape]

theorem forkret_files (books : Books k) (low : initproc < NPROC) :
    wp (forkret cfg) Sane (fun _ k' => Books k') k := by
  unfold forkret
  rw [wp_bind, wp_onTables]
  have counted : ∀ tables : Tables, tables.file = k.tables.file → tables.inode = k.tables.inode →
      Counted none (fileUsers k.proc) (cwdUsers k.proc) unlocked tables :=
    fun tables file inode => books.counted.inode file (books.counted.refs.inodes inode)
  have init : wp (fsinit cfg.image) Sane (fun _ tables => tables.file = k.tables.file ∧
      tables.inode = k.tables.inode) k.tables := by
    unfold fsinit
    simp only [wp_bind, wp_modify, wp_ite, wp_throw, wp_pure]
    exact ⟨fun _ => id, fun _ => ⟨trivial, trivial⟩⟩
  apply wp_post init
  rintro _ tables1 ⟨file1, inode1⟩
  have books1 : Books { k with tables := tables1 } := books.tables (counted tables1 file1 inode1)
  apply wp_seq (kexec_files books1.counted.refs fun i cwd => by
    have := cwdUsers_used low cwd
    omega)
  intro r k2 balanced
  have books2 := books1.balanced balanced
  rw [wp_bind, wp_getProc, wp_bind]
  apply wp_mm (writePte_fails ..)
  intro _ mach
  simp only [wp_ite, wp_throw, wp_pure]
  exact ⟨fun _ => id, fun _ => books2.tables books2.counted⟩

theorem blank_books (mem : Mem) (fail : List Bool) : Books (blank mem fail) := by
  have files : fileUsers (blank mem fail).proc = fun _ => 0 := by
    funext f
    simp [fileUsers, holders, blank]
  have cwds : cwdUsers (blank mem fail).proc = fun _ => 0 := by
    funext i
    simp [cwdUsers, holders, blank]
  have openings : openings (blank mem fail).tables.file = fun _ => 0 := by
    funext i
    simp [openings, opened, holders, blank]
  refine ⟨?_, fun p _ => ⟨fun fd _ => rfl, rfl⟩, fun p _ => rfl⟩
  unfold Exact
  rw [files, cwds]
  refine ⟨fun f => rfl, fun f _ => rfl, fun f used => absurd rfl used, fun f used => absurd rfl used,
    fun f typed => absurd rfl typed, ?_⟩
  rw [openings]
  exact ⟨fun i => rfl, fun i used => absurd rfl used, fun i j used => absurd rfl used, fun i => rfl,
    fun i pid locked => by cases locked⟩

theorem main_files (mem : Mem) (fail : List Bool) :
    wp (main cfg) Sane (fun _ k' => Books k') (blank mem fail) := by
  rw [main_eq]
  apply wp_seq setup_files
  rintro _ k1 ⟨tables, proc⟩
  have books : Books k1 := (blank_books mem fail).same tables fun q => by rw [proc]; exact SameFiles.refl _
  apply wp_seq (userinit_files books)
  exact fun _ k2 books2 => forkret_files books2 (by decide)

theorem run_books (mem : Mem) (fail : List Bool) (events : List Event) :
    Ends Books Sane (run cfg mem fail events) := by
  apply Machine.run_invariant (P := Ends Books Sane)
  · exact fun r e ends => ends.step fun k books => perform_files books e
  · exact ends_of_wp (main_files mem fail)

end Run

structure References (k : State) : Prop where
  file : ∀ f, (k.tables.file f).ref = ((Finset.range NPROC ×ˢ Finset.range NOFILE).filter fun s =>
    (k.proc s.1).ofile s.2 = some f).card
  closed : ∀ f, (k.tables.file f).ref = 0 → (k.tables.file f).type = .none
  inode : ∀ i, (k.tables.inode i).ref =
    ((Finset.range NFILE).filter fun f =>
      0 < (k.tables.file f).ref ∧ (k.tables.file f).ip = some i).card +
    ((Finset.range NPROC).filter fun p => (k.proc p).cwd = some i).card
  unique : ∀ i j, 0 < (k.tables.inode i).ref → 0 < (k.tables.inode j).ref →
    (k.tables.inode i).dev = (k.tables.inode j).dev →
    (k.tables.inode i).inum = (k.tables.inode j).inum → i = j
  unused : ∀ p, (k.proc p).state = .unused →
    (∀ fd, fd < NOFILE → (k.proc p).ofile fd = none) ∧ (k.proc p).cwd = none

theorem Books.references {k : State} (books : Books k) : References k := by
  have counted := books.counted
  constructor
  · exact counted.ref
  · intro f zero
    have := counted.ref f
    exact counted.closed f (by omega)
  · intro i
    have same : openings k.tables.file i = ((Finset.range NFILE).filter fun f =>
        0 < (k.tables.file f).ref ∧ (k.tables.file f).ip = some i).card := by
      unfold openings holders
      congr 1
      apply Finset.filter_congr
      intro f _
      rw [← counted.typed_iff f]
      simp [opened]
    rw [counted.refs.ref, same]
    rfl
  · intro i j first second
    have refs := counted.refs
    rw [refs.ref] at first second
    exact refs.unique i j (by omega) (by omega)
  · intro p unused
    exact books.idle p (.inl unused)

/-- The counts of files and inodes are exact, and no panic says that one of them is wrong. -/
theorem reference_counts (cfg : Config) (mem : Mem) (fail : List Bool) (events : List Event) :
    Ends References (fun e => e ≠ .filedup ∧ e ≠ .fileclose ∧ e ≠ .ilock ∧ e ≠ .iunlock)
      (run cfg mem fail events) := by
  apply (run_books mem fail events).imp
  · exact fun k books => books.references
  · intro e sane
    refine ⟨?_, ?_, ?_, ?_⟩ <;> (rintro rfl; exact sane trivial)

/-- iget runs out of entries exactly if none is for the inode and each is in use: by an
open file, or as the directory of a process. -/
theorem no_inodes_iff (cfg : Config) (mem : Mem) (fail : List Bool) (events : List Event) :
    Ends (fun k => ∀ dev inum, (iget dev inum).run k.tables = .error .iget ↔ ∀ i < NINODE,
        ((k.tables.inode i).dev = dev → (k.tables.inode i).inum ≠ inum) ∧
          ((∃ f < NFILE, 0 < (k.tables.file f).ref ∧ (k.tables.file f).ip = some i) ∨
            ∃ p < NPROC, (k.proc p).cwd = some i))
      (fun _ => True) (run cfg mem fail events) := by
  refine (run_books mem fail events).imp (fun k books dev inum => ?_) fun _ _ => trivial
  have busy (i : Nat) : 0 < (k.tables.inode i).ref ↔
      (∃ f < NFILE, 0 < (k.tables.file f).ref ∧ (k.tables.file f).ip = some i) ∨
        ∃ p < NPROC, (k.proc p).cwd = some i := by
    rw [books.references.inode i, ← Nat.cast_add, Nat.cast_pos, Nat.add_pos_iff_pos_or_pos,
      Finset.card_pos, Finset.card_pos]
    simp [Finset.Nonempty]
  have counts (i : Nat) : 0 ≤ (k.tables.inode i).ref := by
    rw [books.references.inode i]
    positivity
  have missing : (iget dev inum).run k.tables = .error .iget ↔ k.tables.pick dev inum = none := by
    rw [iget_run]
    cases k.tables.pick dev inum <;> simp
  rw [missing, Tables.pick, Option.or_eq_none_iff, List.find?_eq_none, List.find?_eq_none]
  simp only [List.mem_range, decide_eq_true_eq, ← busy, ← forall₂_and]
  refine forall₂_congr fun i inside => ?_
  have := counts i
  grind

end Xv6Lab.Kernel
