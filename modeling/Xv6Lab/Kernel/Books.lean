import Xv6Lab.Kernel.Calls
import Xv6Lab.Kernel.Refs

/-!
The references that processes hold to files and inodes.
-/

namespace Xv6Lab.Kernel
open List
open Function (update update_idem update_of_ne update_self)

open Bytes (Mem)
open Mm
open Fs
open Proc (ProcState)
variable {old new : Nat → Process} {proc' : Process} {o : Option Nat} {k1 : State} {r sz : Nat}
  {path : List UInt8}

def descriptors : Finset (Nat × Nat) := Finset.range NPROC ×ˢ Finset.range NOFILE

def fileUsers (proc : Nat → Process) : Nat → Nat :=
  holders descriptors fun s => (proc s.1).ofile s.2

def cwdUsers (proc : Nat → Process) : Nat → Nat :=
  holders (Finset.range NPROC) fun p => (proc p).cwd

abbrev Exact (k : State) : Prop :=
  Counted none (fileUsers k.proc) (cwdUsers k.proc) unlocked k.tables

def Bare (proc : Process) : Prop := (∀ fd, fd < NOFILE → proc.ofile fd = none) ∧ proc.cwd = none

structure Books (k : State) : Prop where
  counted : Exact k
  idle : ∀ p, (k.proc p).state = .unused ∨ (k.proc p).state = .zombie → Bare (k.proc p)
  inside : ∀ p, NPROC ≤ p → (k.proc p).state = .unused

structure SameFiles (proc proc' : Process) : Prop where
  ofile : proc'.ofile = proc.ofile
  cwd : proc'.cwd = proc.cwd
  state : proc'.state = proc.state

theorem SameFiles.refl (proc : Process) : SameFiles proc proc := ⟨rfl, rfl, rfl⟩

theorem SameFiles.trans {proc proc'' : Process} (first : SameFiles proc proc')
    (second : SameFiles proc' proc'') : SameFiles proc proc'' :=
  ⟨second.ofile.trans first.ofile, second.cwd.trans first.cwd, second.state.trans first.state⟩

section Holdings
variable {k k' : State} {p fd f i : Nat} {proc : Process}

theorem fileUsers_congr (same : ∀ q, (new q).ofile = (old q).ofile) :
    fileUsers new = fileUsers old := by
  unfold fileUsers
  simp only [same]

theorem cwdUsers_congr (same : ∀ q, (new q).cwd = (old q).cwd) : cwdUsers new = cwdUsers old := by
  unfold cwdUsers
  simp only [same]

def setFd (proc : Nat → Process) (p fd : Nat) (o : Option Nat) : Nat → Process :=
  update proc p { proc p with ofile := update (proc p).ofile fd o }

theorem setFd_descriptors (proc : Nat → Process) (p fd : Nat) (o : Option Nat) :
    (fun s : Nat × Nat => (setFd proc p fd o s.1).ofile s.2) =
      update (fun s : Nat × Nat => (proc s.1).ofile s.2) (p, fd) o := by
  funext ⟨q, d⟩
  unfold setFd
  by_cases same : q = p
  · subst same
    by_cases slot : d = fd
    · subst slot
      simp
    · have other : (q, d) ≠ (q, fd) := fun equal => slot (Prod.ext_iff.mp equal).2
      simp [update_of_ne other, update_of_ne slot]
  · have other : (q, d) ≠ (p, fd) := fun equal => same (Prod.ext_iff.mp equal).1
    simp [update_of_ne other, update_of_ne same]

theorem fileUsers_take {proc : Nat → Process} (low : p < NPROC) (small : fd < NOFILE)
    (empty : (proc p).ofile fd = none) (f : Nat) :
    fileUsers (setFd proc p fd (some f)) = bump (fileUsers proc) f := by
  unfold fileUsers
  rw [setFd_descriptors]
  exact holders_take (by simp [descriptors, low, small]) empty

theorem fileUsers_drop {proc : Nat → Process} (low : p < NPROC) (small : fd < NOFILE)
    (holds : (proc p).ofile fd = some f) :
    bump (fileUsers (setFd proc p fd none)) f = fileUsers proc := by
  unfold fileUsers
  rw [setFd_descriptors]
  exact holders_drop (by simp [descriptors, low, small]) holds

theorem setFd_of_ne {proc : Nat → Process} {q : Nat} (other : q ≠ p) :
    setFd proc p fd o q = proc q := update_of_ne other ..

theorem setFd_self (proc : Nat → Process) (p fd : Nat) (o : Option Nat) : setFd proc p fd o p =
    { proc p with ofile := update (proc p).ofile fd o } := update_self ..

theorem cwdUsers_setFd (proc : Nat → Process) (p fd : Nat) (o : Option Nat) :
    cwdUsers (setFd proc p fd o) = cwdUsers proc := by
  apply cwdUsers_congr
  intro q
  by_cases same : q = p
  · rw [same, setFd_self]
  · rw [setFd_of_ne same]

theorem fileUsers_used {proc : Nat → Process} (low : p < NPROC) (small : fd < NOFILE)
    (holds : (proc p).ofile fd = some f) : fileUsers proc f ≠ 0 :=
  holders_pos (s := (p, fd)) (by simp [descriptors, low, small]) holds

theorem cwdUsers_used {proc : Nat → Process} (low : p < NPROC) (holds : (proc p).cwd = some i) :
    cwdUsers proc i ≠ 0 := holders_pos (Finset.mem_range.mpr low) holds

theorem cwd_update (others : ∀ q, q ≠ p → (new q).cwd = (old q).cwd) (here : (new p).cwd = o) :
    (fun q => (new q).cwd) = update (fun q => (old q).cwd) p o := by
  funext q
  by_cases same : q = p
  · subst same
    simp [here]
  · simp [same, others q same]

theorem cwdUsers_take (low : p < NPROC) (empty : (old p).cwd = none)
    (others : ∀ q, q ≠ p → (new q).cwd = (old q).cwd) (here : (new p).cwd = some i) :
    cwdUsers new = bump (cwdUsers old) i := by
  unfold cwdUsers
  rw [cwd_update others here]
  exact holders_take (Finset.mem_range.mpr low) empty

theorem cwdUsers_drop (low : p < NPROC) (holds : (old p).cwd = some i)
    (others : ∀ q, q ≠ p → (new q).cwd = (old q).cwd) (here : (new p).cwd = none) :
    bump (cwdUsers new) i = cwdUsers old := by
  unfold cwdUsers
  rw [cwd_update others here]
  exact holders_drop (Finset.mem_range.mpr low) holds

theorem exact_of {old' : Nat → Process}
    (counted : Counted none (fileUsers old) (cwdUsers old') unlocked k'.tables)
    (ofile : ∀ q, (k'.proc q).ofile = (old q).ofile) (cwd : ∀ q, (k'.proc q).cwd = (old' q).cwd) :
    Exact k' := by
  unfold Exact
  rw [fileUsers_congr ofile, cwdUsers_congr cwd]
  exact counted

theorem exact_process (counted : Exact k) (tables : k'.tables = k.tables)
    (others : ∀ q, q ≠ p → k'.proc q = k.proc q) (ofile : (k'.proc p).ofile = (k.proc p).ofile)
    (cwd : (k'.proc p).cwd = (k.proc p).cwd) : Exact k' := by
  have counted' : Counted none (fileUsers k.proc) (cwdUsers k.proc) unlocked k'.tables := by
    rw [tables]
    exact counted
  apply exact_of counted'
  · intro q
    by_cases here : q = p
    · rw [here, ofile]
    · rw [others q here]
  · intro q
    by_cases here : q = p
    · rw [here, cwd]
    · rw [others q here]

theorem sameFiles_update {procs : Nat → Process} (same : SameFiles (procs p) proc) (q : Nat) :
    SameFiles (procs q) (update procs p proc q) := by
  by_cases here : q = p
  · rw [here, update_self]
    exact same
  · rw [update_of_ne here]
    exact .refl _

theorem Books.same (books : Books k) (tables : k'.tables = k.tables)
    (procs : ∀ q, SameFiles (k.proc q) (k'.proc q)) : Books k' := by
  constructor
  · exact exact_of (tables ▸ books.counted) (fun q => (procs q).ofile) fun q => (procs q).cwd
  · intro q state
    rw [(procs q).state] at state
    unfold Bare
    rw [(procs q).ofile, (procs q).cwd]
    exact books.idle q state
  · intro q high
    rw [(procs q).state]
    exact books.inside q high

theorem Books.low (books : Books k) (used : (k.proc p).state ≠ .unused) : p < NPROC := by
  by_contra high
  exact used (books.inside p (by omega))

theorem wp_mm {α : Type} {Q : α → State → Prop} {x : MM α} (fails : MemFails x)
    (post : ∀ a mach, Q a { k with mach }) : wp (onMach x) Sane Q k := by
  rw [wp_onMach]
  apply wp_mono (fails.safe k.mach trivial)
  · exact fun a mach _ => post a mach
  · exact fun e sane => sane

end Holdings

section Processes
variable {cfg : Config} {k : State} {p : Nat}

theorem freeproc_files : wp (freeproc cfg p) Sane (fun _ k' => k'.tables = k.tables ∧
    (∀ q, q ≠ p → k'.proc q = k.proc q) ∧ k'.proc p = cleared (k.proc p)) k := by
  have frame : MemFails (if (k.proc p).trapframe ≠ 0 then kfree cfg (k.proc p).trapframe else pure ()) :=
    keeps_ite (kfree_fails _) (keeps_pure _)
  have table : MemFails (if (k.proc p).pagetable ≠ 0 then
      procFreepagetable cfg (k.proc p).pagetable (k.proc p).sz else pure ()) :=
    keeps_ite (procFreepagetable_fails ..) (keeps_pure _)
  unfold freeproc
  rw [wp_bind, wp_getProc, wp_bind]
  apply wp_mm frame
  intro _ mach
  rw [wp_bind]
  apply wp_mm table
  intro _ mach
  rw [wp_setProc]
  exact ⟨rfl, fun q other => update_of_ne other .., update_self ..⟩

theorem SameFiles.cleared {proc : Process} (unused : proc.state = .unused)
    (ofile : proc'.ofile = proc.ofile) (cwd : proc'.cwd = proc.cwd) :
    SameFiles proc (Kernel.cleared proc') := ⟨ofile, cwd, unused.symm⟩

theorem allocproc_files : wp (allocproc cfg) Sane (fun r k' => k'.tables = k.tables ∧ match r with
    | none => ∀ q, SameFiles (k.proc q) (k'.proc q)
    | some p => p < NPROC ∧ (k.proc p).state = .unused ∧ (∀ q, q ≠ p → k'.proc q = k.proc q) ∧
        (k'.proc p).ofile = (k.proc p).ofile ∧ (k'.proc p).cwd = (k.proc p).cwd ∧
        (k'.proc p).state = .used) k := by
  unfold allocproc
  rw [wp_bind, wp_get]
  cases found : (List.range NPROC).find? fun p => (k.proc p).state = .unused with
  | none => exact ⟨rfl, fun q => .refl _⟩
  | some p =>
    have unused := find?_some found
    have member := mem_of_find?_eq_some found
    simp only [decide_eq_true_eq, mem_range] at unused member
    have undo : ∀ k1 : State, k1.tables = k.tables → (∀ q, q ≠ p → k1.proc q = k.proc q) →
        (k1.proc p).ofile = (k.proc p).ofile → (k1.proc p).cwd = (k.proc p).cwd →
        wp (freeproc cfg p) Sane (fun _ k' => k'.tables = k.tables ∧
          ∀ q, SameFiles (k.proc q) (k'.proc q)) k1 := by
      intro k1 tables others ofile cwd
      apply wp_post freeproc_files
      rintro _ k2 ⟨tables', others', here⟩
      refine ⟨tables'.trans tables, fun q => ?_⟩
      by_cases same : q = p
      · subst same
        rw [here]
        exact SameFiles.cleared unused ofile cwd
      · rw [others' q same, others q same]
        exact .refl _
    simp only [wp_bind, wp_set, wp_setProc]
    apply wp_mm kalloc_fails
    intro tf mach
    rw [wp_ite]
    simp only [wp_bind, wp_setProc, wp_pure, update_self, update_idem]
    refine ⟨fun _ => ?_, fun _ => ?_⟩
    · apply undo
      · rfl
      · exact fun q other => update_of_ne other ..
      · simp
      · simp
    · apply wp_mm (procPagetable_fails tf)
      intro r mach
      simp only [wp_ite, wp_bind, wp_pure, update_self, update_idem]
      refine ⟨fun _ => ?_, fun _ => ?_⟩
      · apply undo
        · rfl
        · exact fun q other => update_of_ne other ..
        · simp
        · simp
      · exact ⟨trivial, member, unused, fun q other => update_of_ne other .., by simp, by simp,
          by simp⟩

theorem dupFiles_files {np : Nat} (n : Nat) (few : n ≤ NOFILE) (counted : Exact k) (low : p < NPROC)
    (inside : np < NPROC) (empty : ∀ fd, NOFILE - n ≤ fd → fd < NOFILE →
      (k.proc np).ofile fd = none) :
    wp (dupFiles p np n) Sane (fun _ k' => Exact k' ∧ (∀ q, q ≠ np → k'.proc q = k.proc q) ∧
      (k'.proc np).cwd = (k.proc np).cwd ∧ (k'.proc np).state = (k.proc np).state) k := by
  induction n generalizing k with
  | zero => exact ⟨counted, fun _ _ => rfl, rfl, rfl⟩
  | succ n ih =>
    rw [dupFiles, wp_bind, wp_getProc]
    cases file : (k.proc p).ofile (NOFILE - (n + 1)) with
    | none =>
      exact ih (by omega) counted fun fd high small => empty fd (by omega) small
    | some f =>
      have small : NOFILE - (n + 1) < NOFILE := by
        simp only [NOFILE]
        omega
      simp only [wp_bind, wp_onTables, wp_setProc]
      apply wp_post (filedup_counted counted (fileUsers_used low small file))
      intro _ tables counted1
      rw [← fileUsers_take inside small (empty _ le_rfl small),
        ← cwdUsers_setFd k.proc np (NOFILE - (n + 1)) (some f)] at counted1
      apply wp_post (ih (k := { k with tables, proc := setFd k.proc np (NOFILE - (n + 1)) (some f) })
        (by omega) counted1 _)
      · rintro _ k' ⟨counted', others, cwd, state⟩
        simp only [setFd_self] at cwd state
        exact ⟨counted', fun q other => (others q other).trans (setFd_of_ne other), cwd, state⟩
      · intro fd high small
        simp only [setFd_self]
        rw [update_of_ne (by omega)]
        exact empty fd (by omega) small

theorem Books.update {k' : State} (books : Books k) (counted : Exact k')
    (others : ∀ q, q ≠ p → SameFiles (k.proc q) (k'.proc q)) (low : p < NPROC)
    (idle : (k'.proc p).state = .unused ∨ (k'.proc p).state = .zombie → Bare (k'.proc p)) :
    Books k' := by
  constructor
  · exact counted
  · intro q state
    by_cases here : q = p
    · subst here
      exact idle state
    · have same := others q here
      rw [same.state] at state
      unfold Bare
      rw [same.ofile, same.cwd]
      exact books.idle q state
  · intro q high
    rw [(others q (by omega)).state]
    exact books.inside q high

theorem kfork_files (books : Books k) (runs : (k.proc p).state = .runnable) :
    wp (kfork cfg p) Sane (fun _ k' => Books k') k := by
  have low := books.low (p := p) (by simp [runs])
  unfold kfork
  apply wp_seq allocproc_files
  rintro result k1 ⟨tables1, allocated⟩
  cases result with
  | none => exact books.same tables1 allocated
  | some np =>
    obtain ⟨inside, unused, others1, ofile1, cwd1, state1⟩ := allocated
    have apart : p ≠ np := by
      rintro rfl
      rw [runs] at unused
      cases unused
    have bare := books.idle np (.inl unused)
    have counted1 := exact_process books.counted tables1 others1 ofile1 cwd1
    simp only [wp_bind, wp_getProc]
    apply wp_mm (copyLoop_fails ..)
    intro ok mach
    cases ok with
    | false =>
      rw [if_neg (by simp), wp_bind]
      apply wp_post freeproc_files
      rintro _ k2 ⟨tables2, others2, here2⟩
      apply books.same (tables2.trans tables1)
      intro q
      by_cases here : q = np
      · rw [here, here2]
        exact SameFiles.cleared unused ofile1 cwd1
      · rw [others2 q here, others1 q here]
        exact .refl _
    | true =>
      rw [if_pos rfl, wp_bind, wp_setProc, wp_bind]
      apply wp_mm (fails_modify _)
      intro _ mach
      rw [wp_bind]
      apply wp_mm (writePte_fails ..)
      intro _ mach
      have child : ∀ q, SameFiles (k1.proc q)
          (update k1.proc np { k1.proc np with sz := (k1.proc p).sz } q) :=
        sameFiles_update ⟨rfl, rfl, rfl⟩
      have counted2 : Exact { k1 with
          mach, proc := update k1.proc np { k1.proc np with sz := (k1.proc p).sz } } :=
        exact_of counted1 (fun q => (child q).ofile) fun q => (child q).cwd
      apply wp_seq (dupFiles_files NOFILE le_rfl counted2 low inside fun fd _ small => by
        simp only [update_self, ofile1]
        exact bare.1 fd small)
      rintro _ k3 ⟨counted3, others3, cwd3, state3⟩
      simp only [update_self] at cwd3 state3
      have others : ∀ q, q ≠ np → k3.proc q = k.proc q := by
        intro q other
        have same := others3 q other
        simp only [update_of_ne other] at same
        rw [same, others1 q other]
      rw [others1 p apart]
      cases cwd : (k.proc p).cwd with
      | none => exact id
      | some i =>
        rw [wp_bind, wp_onTables]
        apply wp_post (idup_counted counted3 (cwdUsers_used low (by rw [others p apart, cwd])))
        rintro j tables ⟨same, counted4⟩
        subst same
        rw [wp_bind, wp_setProc, wp_pure]
        generalize shape : ({ k3.proc np with
          cwd := some j, name := (k.proc p).name, parent := some p
          state := .runnable } : Process) = proc
        have ofile : ∀ q, (update k3.proc np proc q).ofile = (k3.proc q).ofile := by
          intro q
          by_cases here : q = np
          · rw [here, update_self, ← shape]
          · rw [update_of_ne here]
        apply books.update (p := np)
        · have users : cwdUsers (update k3.proc np proc) = bump (cwdUsers k3.proc) j := by
            apply cwdUsers_take inside
            · rw [cwd3, cwd1, bare.2]
            · exact fun q other => by rw [update_of_ne other]
            · rw [update_self, ← shape]
          rw [← users] at counted4
          exact exact_of counted4 ofile fun _ => rfl
        · intro q other
          simp only [update_of_ne other, others q other]
          exact .refl _
        · exact inside
        · simp [← shape]

theorem closeFiles_files (n : Nat) (few : n ≤ NOFILE) (counted : Exact k) (low : p < NPROC)
    (done : ∀ fd, fd < NOFILE - n → (k.proc p).ofile fd = none) :
    wp (closeFiles p n) Sane (fun _ k' => Exact k' ∧ (∀ q, q ≠ p → k'.proc q = k.proc q) ∧
      (∀ fd, fd < NOFILE → (k'.proc p).ofile fd = none) ∧ (k'.proc p).cwd = (k.proc p).cwd) k := by
  induction n generalizing k with
  | zero => exact ⟨counted, fun _ _ => rfl, fun fd small => done fd small, rfl⟩
  | succ n ih =>
    rw [closeFiles, wp_bind, wp_getProc]
    cases file : (k.proc p).ofile (NOFILE - (n + 1)) with
    | none =>
      apply ih (by omega) counted
      intro fd small
      by_cases here : fd = NOFILE - (n + 1)
      · rw [here, file]
      · exact done fd (by omega)
    | some f =>
      have small : NOFILE - (n + 1) < NOFILE := by
        simp only [NOFILE]
        omega
      simp only [wp_bind, wp_onTables, wp_setProc]
      unfold Exact at counted
      rw [← fileUsers_drop low small file,
        ← cwdUsers_setFd k.proc p (NOFILE - (n + 1)) none] at counted
      apply wp_post (fileclose_counted counted)
      intro _ tables counted1
      apply wp_post (ih (k := { k with tables, proc := setFd k.proc p (NOFILE - (n + 1)) none })
        (by omega) counted1 _)
      · rintro _ k' ⟨counted', others, empty, cwd⟩
        simp only [setFd_self] at cwd
        exact ⟨counted', fun q other => (others q other).trans (setFd_of_ne other), empty, cwd⟩
      · intro fd below
        simp only [setFd_self]
        by_cases here : fd = NOFILE - (n + 1)
        · rw [here, update_self]
        · rw [update_of_ne here]
          exact done fd (by omega)

theorem kexit_files (books : Books k) (runs : (k.proc p).state = .runnable) (status : Int) :
    wp (kexit p status) Sane (fun _ k' => Books k') k := by
  have low := books.low (p := p) (by simp [runs])
  unfold kexit
  simp only [wp_ite, wp_throw]
  refine ⟨fun _ => id, fun _ => ?_⟩
  apply wp_seq (closeFiles_files NOFILE le_rfl books.counted low fun fd small => by omega)
  rintro _ k1 ⟨counted1, others1, empty, cwd1⟩
  rw [wp_bind, wp_getProc, cwd1]
  cases cwd : (k.proc p).cwd with
  | none => exact id
  | some i =>
    rw [wp_bind, wp_onTables]
    have users : bump (cwdUsers (update k1.proc p { k1.proc p with cwd := none })) i =
        cwdUsers k1.proc := by
      apply cwdUsers_drop low (cwd1.trans cwd)
      · exact fun q other => by rw [update_of_ne other]
      · rw [update_self]
    unfold Exact at counted1
    rw [← users] at counted1
    apply wp_post (iput_counted counted1)
    rintro _ tables ⟨counted2, _⟩
    rw [wp_bind, wp_setProc]
    apply wp_seq reparent_spec
    rintro _ k2 ⟨parent, shape⟩
    subst shape
    rw [wp_setProc]
    apply books.update (p := p)
    · apply exact_of counted2
      · intro q
        by_cases here : q = p
        · subst here
          simp
        · simp [here]
      · intro q
        by_cases here : q = p
        · subst here
          simp
        · simp [here]
    · intro q other
      simp only [update_of_ne other, others1 q other]
      exact ⟨rfl, rfl, rfl⟩
    · exact low
    · simp only [update_self]
      exact fun _ => ⟨empty, rfl⟩

theorem kwait_files (books : Books k) (addr : Nat) :
    wp (kwait cfg p addr) Sane (fun _ k' => Books k') k := by
  unfold kwait
  rw [wp_bind, wp_get]
  cases found : (List.range NPROC).find? fun i =>
      (k.proc i).parent = some p ∧ (k.proc i).state = .zombie with
  | none =>
    simp only [wp_ite, wp_pure]
    exact ⟨fun _ => books, fun _ => books⟩
  | some i =>
    have both := find?_some found
    have member := mem_of_find?_eq_some found
    simp only [decide_eq_true_eq, mem_range] at both member
    have bare := books.idle i (.inr both.2)
    have copy : MemFails (if addr ≠ 0 then
        Mm.copyout (k.proc p).pagetable addr (encode 4 ((k.proc i).xstate % 2 ^ 32).toNat)
      else return true) := keeps_ite (copyout_fails ..) (keeps_pure _)
    rw [wp_bind]
    apply wp_mm copy
    intro ok mach
    simp only [wp_ite, wp_bind, wp_pure]
    refine ⟨fun _ => ?_, fun _ => books.same rfl fun q => .refl _⟩
    apply wp_post freeproc_files
    rintro _ k' ⟨tables, others, here⟩
    have same : ∀ q, (k'.proc q).ofile = (k.proc q).ofile ∧ (k'.proc q).cwd = (k.proc q).cwd := by
      intro q
      by_cases at_ : q = i
      · rw [at_, here]
        exact ⟨rfl, rfl⟩
      · rw [others q at_]
        exact ⟨rfl, rfl⟩
    apply books.update (p := i)
    · exact exact_of (tables ▸ books.counted) (fun q => (same q).1) fun q => (same q).2
    · intro q other
      rw [others q other]
      exact .refl _
    · exact member
    · intro _
      unfold Bare
      rw [(same i).1, (same i).2]
      exact bare

def Aside (k k' : State) : Prop := k'.tables = k.tables ∧ ∀ q, SameFiles (k.proc q) (k'.proc q)

theorem Aside.refl (k : State) : Aside k k := ⟨rfl, fun _ => .refl _⟩

theorem growproc_files (n : Int) : wp (growproc cfg p n) Sane (fun _ k' => Aside k k') k := by
  unfold growproc
  rw [wp_bind, wp_getProc]
  simp only [wp_ite, wp_pure]
  refine ⟨fun _ => ⟨fun _ => Aside.refl k, fun _ => ?_⟩, fun _ => ⟨fun _ => ?_, fun _ => Aside.refl k⟩⟩
  · rw [wp_bind]
    apply wp_mm (uvmalloc_fails ..)
    intro sz mach
    simp only [wp_ite, wp_bind, wp_pure, wp_setProc]
    exact ⟨fun _ => ⟨rfl, fun _ => .refl _⟩, fun _ => ⟨rfl, sameFiles_update ⟨rfl, rfl, rfl⟩⟩⟩
  · rw [wp_bind]
    apply wp_mm (uvmdealloc_fails ..)
    intro sz mach
    simp only [wp_bind, wp_pure, wp_setProc]
    exact ⟨rfl, sameFiles_update ⟨rfl, rfl, rfl⟩⟩

theorem sysSbrk_files (n : Int) : wp (sysSbrk cfg p n) Sane (fun _ k' => Aside k k') k := by
  unfold sysSbrk
  rw [wp_bind, wp_getProc]
  apply wp_seq (growproc_files n)
  intro ok k' aside
  simp only [wp_ite, wp_pure]
  exact ⟨fun _ => aside, fun _ => aside⟩

theorem kkill_files (pid : BitVec 32) : wp (kkill pid) Sane (fun _ k' => Aside k k') k := by
  unfold kkill
  rw [wp_bind, wp_get]
  split
  · exact Aside.refl k
  · exact ⟨rfl, sameFiles_update ⟨rfl, rfl, rfl⟩⟩

end Processes

section Exec
variable {cfg : Config} {k : State} {p : Nat} {held : Nat → Nat}

def Balanced (held : Nat → Nat) (k k' : State) : Prop :=
  Refs held unlocked k'.tables ∧ k'.tables.file = k.tables.file ∧
    ∀ q, SameFiles (k.proc q) (k'.proc q)

theorem Books.balanced {k' : State} (books : Books k)
    (balanced : Balanced (fun i => openings k.tables.file i + cwdUsers k.proc i) k k') : Books k' := by
  obtain ⟨refs, file, procs⟩ := balanced
  have same : Books { k' with tables := k.tables } := books.same rfl procs
  refine ⟨?_, same.idle, same.inside⟩
  exact exact_of (books.counted.inode file refs) (fun q => (procs q).ofile) fun q => (procs q).cwd

theorem execBad_files {ip : Option Nat} (file : k1.tables.file = k.tables.file)
    (proc : k1.proc = k.proc) (refs : Refs (ip.elim held (bump held))
      (ip.elim unlocked fun i => update unlocked i (some (k.proc p).pid)) k1.tables) :
    wp (execBad cfg p r sz ip) Sane (fun _ k' => Balanced held k k') k1 := by
  unfold execBad
  rw [wp_bind]
  apply wp_mm (procFreepagetable_fails ..)
  intro _ mach
  cases ip with
  | none => exact ⟨refs, file, fun q => by rw [proc]; exact .refl _⟩
  | some i =>
    rw [wp_bind, wp_getProc, wp_bind, wp_onTables]
    simp only [proc]
    apply wp_post (iunlockput_refs refs)
    rintro _ tables ⟨refs', file'⟩
    exact ⟨refs', file'.trans file, fun q => .refl _⟩

theorem commit_files {sp entry argc : Nat} (balanced : Balanced held k k1) :
    wp (commit cfg p r sz sp entry path argc) Sane (fun _ k' => Balanced held k k') k1 := by
  unfold commit
  rw [wp_bind, wp_getProc, wp_bind]
  apply wp_mm (writePte_fails ..)
  intro _ mach
  rw [wp_bind, wp_setProc, wp_bind]
  apply wp_mm (writePte_fails ..)
  intro _ mach
  rw [wp_bind]
  apply wp_mm (writePte_fails ..)
  intro _ mach
  rw [wp_bind]
  apply wp_mm (procFreepagetable_fails ..)
  intro _ mach
  refine ⟨balanced.1, balanced.2.1, fun q => (balanced.2.2 q).trans ?_⟩
  apply sameFiles_update
  exact ⟨rfl, rfl, rfl⟩

-- Lean would compute with the addresses in it
attribute [local irreducible] pushStack

theorem kexec_files {argv : List (List UInt8)} (refs : Refs held unlocked k.tables)
    (used : ∀ i, (k.proc p).cwd = some i → held i ≠ 0) :
    wp (kexec cfg p path argv) Sane (fun _ k' => Balanced held k k') k := by
  unfold kexec
  rw [wp_bind, wp_getProc, wp_bind, wp_onTables]
  apply wp_post (namei_refs refs used)
  rintro found tables1 ⟨refs1, file1⟩
  cases found with
  | none => exact ⟨refs1, file1, fun q => .refl _⟩
  | some i =>
    rw [wp_bind, wp_onTables]
    apply wp_post (ilock_refs refs1 (by simp))
    rintro _ tables2 ⟨refs2, file2⟩
    have file2 := file2.trans file1
    -- the inode goes back and the call fails
    have back : ∀ mach, wp (do
        onTables (iunlockput (k.proc p).pid i)
        return -1) Sane (fun _ k' => Balanced held k k') { k with mach, tables := tables2 } := by
      intro mach
      rw [wp_bind, wp_onTables]
      apply wp_post (iunlockput_refs refs2)
      rintro _ tables ⟨refs3, file3⟩
      exact ⟨refs3, file3.trans file2, fun q => .refl _⟩
    rw [wp_bind, wp_get, wp_bind, wp_lift]
    cases header : readKernel cfg.image (tables2.inode i) 0 ELFHDR with
    | error e =>
      rw [readKernel_error header]
      exact id
    | ok result =>
      obtain ⟨r, elf⟩ := result
      simp only [wp_ite]
      refine ⟨fun _ => back _, fun _ => ?_⟩
      rw [wp_bind]
      apply wp_mm (procPagetable_fails _)
      intro r mach
      simp only [wp_ite]
      refine ⟨fun _ => back _, fun _ => ?_⟩
      rw [wp_bind]
      apply wp_mm (segLoop_fails ..)
      rintro ⟨sz, ok⟩ mach
      simp only [wp_ite]
      refine ⟨fun _ => ?_, fun _ => execBad_files file2 rfl refs2⟩
      rw [wp_bind, wp_onTables]
      apply wp_post (iunlockput_refs refs2)
      rintro _ tables3 ⟨refs3, file3⟩
      have file3 := file3.trans file2
      rw [wp_bind]
      apply wp_mm (uvmalloc_fails ..)
      intro sz1 mach
      simp only [wp_ite]
      refine ⟨fun _ => execBad_files file3 rfl refs3, fun _ => ?_⟩
      rw [wp_bind]
      apply wp_mm (pushStack_fails ..)
      intro sp mach
      cases sp with
      | none => exact execBad_files file3 rfl refs3
      | some sp => exact commit_files ⟨refs3, file3, fun q => .refl _⟩

theorem sysExec_files {path uargv : Nat} (refs : Refs held unlocked k.tables)
    (used : ∀ i, (k.proc p).cwd = some i → held i ≠ 0) :
    wp (sysExec cfg p path uargv) Sane (fun _ k' => Balanced held k k') k := by
  have still : ∀ mach, Balanced held k { k with mach } :=
    fun mach => ⟨refs, rfl, fun q => .refl _⟩
  unfold sysExec
  rw [wp_bind, wp_getProc, wp_bind]
  apply wp_mm (copyinstr_fails ..)
  intro path mach
  cases path with
  | none => exact still mach
  | some path =>
    rw [wp_bind]
    apply wp_mm (argLoop_fails ..)
    rintro ⟨pages, argv, ok⟩ mach
    simp only [wp_ite]
    constructor
    · intro _
      apply wp_seq (kexec_files (k := { k with mach }) refs used)
      intro ret k1 balanced
      rw [wp_bind]
      apply wp_mm (freeAll_fails _)
      exact fun _ mach' => balanced
    · intro _
      rw [wp_bind]
      apply wp_mm (freeAll_fails _)
      exact fun _ mach' => still mach'

end Exec
end Xv6Lab.Kernel
