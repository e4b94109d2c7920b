import Xv6Lab.Kernel.Processes

/-!
The other system calls, exec apart, and what they leave of memory.
-/

namespace Xv6Lab.Kernel
open Function (update update_idem update_of_ne update_self)
open Bytes (Mem load store write read)
open Mm
open Fs
open Proc (ProcState)
variable {dst : Nat} {src : List UInt8}

section Own
variable {cfg : Config} {own own' : Nat → Label} {k k' : State} {p : Nat}

theorem Memory.outcome (memory : Memory cfg own' k') (settled : Settled own k)
    (runs : (k.proc p).pagetable ≠ 0)
    (within : Within (Private k p) own own' k.mach.mem k'.mach.mem)
    (others : ∀ q, q ≠ p → (k'.proc q).state = (k.proc q).state ∧ SameSpace (k.proc q) (k'.proc q))
    (state : (k'.proc p).state ≠ .unused) (table : (k'.proc p).pagetable ≠ 0)
    (frame : (k'.proc p).trapframe ≠ 0) : Outcome cfg own k p k' := by
  have inside : p < NPROC := by
    by_contra high
    exact runs ((settled.unused p).mp (settled.inside p (by omega)))
  refine ⟨own', memory, ?_, table, ?_, fun q other _ => others q other⟩
  · apply settled.update others
    · simp [state, table]
    · simp [table, frame]
    · exact .inr inside
    · exact Within.arguments within
  · exact within.mono fun l mine => mine.not_foreign (.inl rfl)

theorem Memory.idle (memory : Memory cfg own k') (settled : Settled own k)
    (runs : (k.proc p).pagetable ≠ 0) (within : Within (Private k p) own own k.mach.mem k'.mach.mem)
    (others : ∀ q, (k'.proc q).state = (k.proc q).state ∧ SameSpace (k.proc q) (k'.proc q)) :
    Outcome cfg own k p k' := by
  apply memory.outcome settled runs within fun q _ => others q
  · rw [(others p).1, Ne, settled.unused]
    exact runs
  · rw [(others p).2.pagetable]
    exact runs
  · rw [(others p).2.trapframe, Ne, ← settled.frame]
    exact runs

end Own

section Grow
variable {cfg : Config} {own : Nat → Label} {k : State} {p : Nat}

theorem Memory.setSize {own' : Nat → Label} {mach : Mach} {S : Shape} {sz : Nat}
    (memory : Memory cfg own k) (settled : Settled own k) (runs : (k.proc p).pagetable ≠ 0)
    (heap : Heap (IsPage cfg) own' mach)
    (within : Within (Mine (k.proc p).pagetable) own own' k.mach.mem mach.mem) (small : sz ≤ TRAPFRAME)
    (space : Space cfg own' mach.mem (k.proc p).pagetable (k.proc p).trapframe (pagesOf sz) S) :
    Outcome cfg own k p { k with mach, proc := Function.update k.proc p { k.proc p with sz } } := by
  obtain ⟨kernel, alone⟩ := memory.exclusive runs
  have memory' : Memory cfg own'
      { k with mach, proc := Function.update k.proc p { k.proc p with sz } } := by
    apply memory.resize (p := p)
    · exact elsewhere_update ..
    · exact heap
    · simpa using small
    · simpa using runs
    · simpa using within
    · simp only [update_self]
      exact ⟨S, space⟩
    · simp
    · simp
  apply memory'.outcome settled runs
    (within.mono fun l mine => private_of_mine mine kernel alone)
  · intro q other
    simp only [update_of_ne other]
    exact ⟨trivial, rfl, rfl, rfl⟩
  · simpa [settled.unused] using runs
  · simpa using runs
  · simpa [← settled.frame] using runs

theorem growproc_spec (memory : Memory cfg own k) (settled : Settled own k)
    (runs : (k.proc p).pagetable ≠ 0) (n : Int) :
    wp (growproc cfg p n) (Expected cfg) (fun _ k' => Outcome cfg own k p k') k := by
  have still : Outcome cfg own k p k :=
    memory.idle settled runs (Within.refl _ _ _) fun _ => ⟨rfl, rfl, rfl, rfl⟩
  obtain ⟨S, space⟩ := memory.space p runs
  have size := memory.size p
  unfold growproc
  simp only [wp_bind, wp_getProc, wp_ite, wp_pure, wp_onMach, wp_setProc]
  refine ⟨fun _ => ⟨fun _ => still, fun _ => ?_⟩, fun _ => ⟨fun _ => ?_, fun _ => still⟩⟩
  · apply wp_mono (uvmalloc_spec memory.heap size space (by decide)) _ fun _ => Big.expected
    rintro sz s1 ⟨own1, S1, sz1, result, small, heap1, space1, within1, _⟩
    constructor
    · intro failed
      obtain rfl : sz1 = (k.proc p).sz := by omega
      have outcome := memory.setSize settled runs heap1 within1 small space1
      simpa using outcome
    · intro done
      obtain rfl : sz = sz1 := by omega
      exact memory.setSize settled runs heap1 within1 small space1
  · apply wp_never (uvmdealloc_spec memory.heap size space)
    rintro sz s1 ⟨value, own1, S1, heap1, space1, within1, _⟩
    exact memory.setSize settled runs heap1 within1 (by omega) space1

theorem sysSbrk_spec (memory : Memory cfg own k) (settled : Settled own k)
    (runs : (k.proc p).pagetable ≠ 0) (n : Int) :
    wp (sysSbrk cfg p n) (Expected cfg) (fun _ k' => Outcome cfg own k p k') k := by
  unfold sysSbrk
  rw [wp_bind, wp_getProc]
  apply wp_seq (growproc_spec memory settled runs n)
  intro ok k' outcome
  simp only [wp_ite, wp_pure]
  exact ⟨fun _ => outcome, fun _ => outcome⟩

end Grow

section Exit
variable {cfg : Config} {own : Nat → Label} {k : State} {p : Nat}

theorem closeFiles_spec (n : Nat) :
    wp (closeFiles p n) (Expected cfg) (fun _ k' => ∃ tables ofile,
      k' = { k with tables, proc := update k.proc p { k.proc p with ofile } }) k := by
  induction n generalizing k with
  | zero => exact ⟨k.tables, (k.proc p).ofile, by simp⟩
  | succ n ih =>
    rw [closeFiles, wp_bind, wp_getProc]
    cases (k.proc p).ofile (NOFILE - (n + 1)) with
    | none => exact ih
    | some f =>
      simp only [wp_bind]
      apply wp_fs (fileclose_fails f)
      intro _ tables
      rw [wp_setProc]
      apply wp_post ih
      rintro _ k' ⟨tables', ofile, shape⟩
      refine ⟨tables', ofile, ?_⟩
      rw [shape]
      simp

theorem reparent_spec {E : Panic → Prop} :
    wp (reparent p) E (fun _ k' => ∃ parent : Nat → Option Nat,
      k' = { k with proc := fun q => { k.proc q with parent := parent q } }) k := by
  unfold reparent
  rw [wp_modify]
  refine ⟨fun q => if (k.proc q).parent = some p then some initproc else (k.proc q).parent, ?_⟩
  congr 1
  funext q
  by_cases child : (k.proc q).parent = some p
  · simp [child]
  · simp [child]

theorem kexit_spec (memory : Memory cfg own k) (settled : Settled own k)
    (runs : (k.proc p).pagetable ≠ 0) (status : Int) :
    wp (kexit p status) (Expected cfg) (fun _ k' => Outcome cfg own k p k') k := by
  unfold kexit
  simp only [wp_ite, wp_throw]
  refine ⟨fun _ panic => panic.elim, fun _ => ?_⟩
  apply wp_seq (closeFiles_spec NOFILE)
  rintro _ k1 ⟨tables, ofile, shape⟩
  subst shape
  rw [wp_bind, wp_getProc]
  cases (update k.proc p { k.proc p with ofile } p).cwd with
  | none => exact fun panic => panic.elim
  | some i =>
    rw [wp_bind]
    apply wp_fs (iput_fails i)
    intro _ tables
    rw [wp_bind, wp_setProc]
    apply wp_seq reparent_spec
    rintro _ k2 ⟨parent, shape⟩
    subst shape
    rw [wp_setProc]
    simp only [update_self, update_idem]
    have others : ∀ q, q ≠ p → ∀ proc proc' : Process,
        update (fun q => { update k.proc p proc q with parent := parent q }) p
          proc' q = { k.proc q with parent := parent q } := by
      intro q other proc proc'
      rw [update_of_ne other, update_of_ne other]
    refine Memory.outcome (memory.same ⟨rfl, fun q => ?_, rfl, rfl, rfl⟩) settled runs
      (Within.refl _ _ _) ?_ ?_ ?_ ?_
    · by_cases here : q = p
      · subst here
        simp only [update_self]
        exact ⟨rfl, rfl, rfl⟩
      · simp only [others q here]
        exact ⟨rfl, rfl, rfl⟩
    · intro q other
      simp only [others q other]
      exact ⟨trivial, rfl, rfl, rfl⟩
    · simp
    · simpa using runs
    · simpa [← settled.frame] using runs

end Exit

section Copies
variable {cfg : Config} {own : Nat → Label} {k : State} {p : Nat} {E : Panic → Prop}

def Written (cfg : Config) (own : Nat → Label) (k : State) (p : Nat) (mach : Mach) : Prop :=
  Memory cfg own { k with mach } ∧ Within (Private k p) own own k.mach.mem mach.mem

theorem Memory.copyout (memory : Memory cfg own k) (runs : (k.proc p).pagetable ≠ 0) {mach : Mach}
    (written : Written cfg own k p mach) :
    wp (copyout (k.proc p).pagetable dst src) E (fun _ mach' => Written cfg own k p mach') mach := by
  obtain ⟨memory1, within1⟩ := written
  obtain ⟨kernel, alone⟩ := memory.exclusive runs
  obtain ⟨S, space⟩ := memory1.space p runs
  apply wp_never (copyout_spec memory1.heap space)
  rintro _ mach' ⟨heap, _, within⟩
  have memory' := memory1.touch heap within (by simp [Data])
  exact ⟨memory', within1.trans (within.mono fun l data => private_of_mine data.mine kernel alone)⟩

theorem Memory.written (memory : Memory cfg own k) : Written cfg own k p k.mach :=
  ⟨memory, Within.refl _ _ _⟩

theorem Written.outcome {mach : Mach} {tables : Tables} (written : Written cfg own k p mach)
    (settled : Settled own k) (runs : (k.proc p).pagetable ≠ 0) :
    Outcome cfg own k p { k with mach, tables } :=
  Memory.idle (written.1.same ⟨rfl, fun _ => ⟨rfl, rfl, rfl⟩, rfl, rfl, rfl⟩) settled runs written.2
    fun _ => ⟨rfl, rfl, rfl, rfl⟩

theorem kwait_spec (memory : Memory cfg own k) (settled : Settled own k)
    (runs : (k.proc p).state = .runnable) (addr : Nat) :
    wp (kwait cfg p addr) (Expected cfg) (fun _ k' => Outcome cfg own k p k') k := by
  have table : (k.proc p).pagetable ≠ 0 := by
    rw [Ne, ← settled.unused, runs]
    simp
  have still : Outcome cfg own k p k := memory.written.outcome settled table
  unfold kwait
  rw [wp_bind, wp_get]
  cases found : (List.range NPROC).find? fun i =>
      (k.proc i).parent = some p ∧ (k.proc i).state = .zombie with
  | none =>
    simp only [wp_ite, wp_pure]
    exact ⟨fun _ => still, fun _ => still⟩
  | some i =>
    have zombie : (k.proc i).state = .zombie := by
      have both := List.find?_some found
      simp only [decide_eq_true_eq] at both
      exact both.2
    have apart : p ≠ i := by
      rintro rfl
      rw [runs] at zombie
      cases zombie
    rw [wp_bind, wp_onMach]
    have copied : wp (if addr ≠ 0 then
        Mm.copyout (k.proc p).pagetable addr (encode 4 ((k.proc i).xstate % 2 ^ 32).toNat)
      else return true) (Expected cfg) (fun _ mach => Written cfg own k p mach) k.mach := by
      simp only [wp_ite, wp_pure]
      exact ⟨fun _ => memory.copyout table memory.written, fun _ => memory.written⟩
    apply wp_post copied
    intro ok mach written
    simp only [wp_ite, wp_bind, wp_pure]
    refine ⟨fun _ => ?_, fun _ => written.outcome settled table⟩
    apply wp_never (freeproc_spec written.1)
    rintro _ k' ⟨own', mach', shape, memory', within'⟩
    subst shape
    refine ⟨own', memory', ?_, ?_, ?_, ?_⟩
    · apply settled.update (p := i)
      · intro q other
        simp only [update_of_ne other]
        exact ⟨trivial, rfl, rfl, rfl⟩
      · simp [cleared]
      · simp [cleared]
      · exact .inl (by simp [cleared])
      · exact Within.arguments within'
    · simp only [update_of_ne apart]
      exact table
    · apply (written.2.mono fun l mine => mine.not_foreign (.inl rfl)).trans
      exact within'.mono fun l mine => Private.not_foreign (k := k) (q := i) mine
        (.inr fun live => live.2 zombie)
    · intro q _ live
      have other : q ≠ i := by
        rintro rfl
        exact live.2 zombie
      simp only [update_of_ne other]
      exact ⟨trivial, rfl, rfl, rfl⟩

end Copies

/-- A state in which p has changed nothing of memory but bytes of its own pages. -/
structure Quiet (cfg : Config) (own : Nat → Label) (k : State) (p : Nat) (k' : State) : Prop where
  memory : Memory cfg own k'
  within : Within (Private k p) own own k.mach.mem k'.mach.mem
  procs : ∀ q, (k'.proc q).state = (k.proc q).state ∧ SameSpace (k.proc q) (k'.proc q)
  rest : Elsewhere k k' p

section Files
variable {cfg : Config} {own : Nat → Label} {k k1 : State} {p : Nat} {E : Panic → Prop}

theorem Memory.quiet (memory : Memory cfg own k) : Quiet cfg own k p k :=
  ⟨memory, Within.refl _ _ _, fun _ => ⟨rfl, rfl, rfl, rfl⟩,
    ⟨fun _ _ => ⟨rfl, rfl, rfl⟩, rfl, rfl, rfl⟩⟩

section
variable (quiet : Quiet cfg own k p k1)
include quiet

theorem Quiet.outcome (settled : Settled own k)
    (runs : (k.proc p).pagetable ≠ 0) : Outcome cfg own k p k1 :=
  quiet.memory.idle settled runs quiet.within quiet.procs

theorem Quiet.tables (tables : Tables) : Quiet cfg own k p { k1 with tables } :=
  ⟨quiet.memory.same ⟨rfl, fun _ => ⟨rfl, rfl, rfl⟩, rfl, rfl, rfl⟩, quiet.within, quiet.procs,
    ⟨quiet.rest.spaces, quiet.rest.kernel, quiet.rest.kstacks, quiet.rest.rings⟩⟩

theorem Quiet.mach (runs : (k.proc p).pagetable ≠ 0) :
    wp (onMach (Mm.copyout (k.proc p).pagetable dst src)) E (fun _ k' => Quiet cfg own k p k') k1 := by
  have table := (quiet.procs p).2.pagetable
  have runs1 : (k1.proc p).pagetable ≠ 0 := by rwa [table]
  rw [wp_onMach, ← table]
  apply wp_post (quiet.memory.copyout runs1 quiet.memory.written)
  intro _ mach written
  exact ⟨written.1, quiet.within.trans (written.2.mono fun l => quiet.rest.private), quiet.procs,
    ⟨quiet.rest.spaces, quiet.rest.kernel, quiet.rest.kstacks, quiet.rest.rings⟩⟩

theorem Quiet.setProc {q : Nat} {proc : Process}
    (same : proc.state = (k1.proc q).state ∧ SameSpace (k1.proc q) proc) :
    Quiet cfg own k p { k1 with proc := update k1.proc q proc } := by
  have all : ∀ q', (update k1.proc q proc q').state = (k1.proc q').state ∧
      SameSpace (k1.proc q') (update k1.proc q proc q') := by
    intro q'
    by_cases here : q' = q
    · subst here
      rw [update_self]
      exact same
    · rw [update_of_ne here]
      exact ⟨rfl, rfl, rfl, rfl⟩
  have procs : ∀ q', (update k1.proc q proc q').state = (k.proc q').state ∧
      SameSpace (k.proc q') (update k1.proc q proc q') := by
    intro q'
    obtain ⟨state, space⟩ := quiet.procs q'
    obtain ⟨state', space'⟩ := all q'
    exact ⟨state'.trans state, space'.pagetable.trans space.pagetable,
      space'.trapframe.trans space.trapframe, space'.sz.trans space.sz⟩
  exact ⟨quiet.memory.same ⟨rfl, fun q' => (all q').2, rfl, rfl, rfl⟩, quiet.within, procs,
    ⟨fun q' _ => (procs q').2, quiet.rest.kernel, quiet.rest.kstacks, quiet.rest.rings⟩⟩

end

/-- A call that leaves p's state quiet whatever quiet state it starts from. -/
abbrev Quietly (cfg : Config) (own : Nat → Label) (k : State) (p : Nat) {α : Type} (x : KM α) : Prop :=
  Keeps (Expected cfg) (Quiet cfg own k p) x

@[grind ←] theorem onTables_quietly {α : Type} {x : FM α} (fails : FsFails x) :
    Quietly cfg own k p (onTables x) :=
  ⟨fun _ quiet => wp_fs fails fun _ tables => quiet.tables tables⟩

@[grind ←] theorem getProc_quietly {α : Type} {f : Process → KM α}
    (rest : ∀ proc, proc.pagetable = (k.proc p).pagetable → Quietly cfg own k p (f proc)) :
    Quietly cfg own k p (getProc p >>= f) := by
  constructor
  intro k1 quiet
  rw [wp_bind, wp_getProc]
  exact (rest _ (quiet.procs p).2.pagetable).safe k1 quiet

@[grind ←] theorem setProc_quietly {q : Nat} {f : Process → Process}
    (same : ∀ proc, (f proc).state = proc.state ∧ SameSpace proc (f proc)) :
    Quietly cfg own k p (setProc q f) := ⟨fun _ quiet => quiet.setProc (same _)⟩

@[grind ←] theorem readi_quietly {put : Nat → List UInt8 → MM Bool} {ip : Inode} {off n : Nat}
    (each : ∀ tot bytes, Quietly cfg own k p (onMach (put tot bytes))) :
    Quietly cfg own k p (onMach (readi cfg.image ip put off n)) := by
  constructor
  intro k1 quiet
  rw [wp_onMach]
  apply readi_rule (P := fun mach => Quiet cfg own k p { k1 with mach })
  · exact fun panic => panic.elim
  · intro tot bytes mach _ quiet'
    exact (wp_onMach ..).mp ((each tot bytes).safe { k1 with mach } quiet')
  · exact quiet

@[grind ←] theorem argfd_quietly (fd : Int) : Quietly cfg own k p (argfd p fd) := by grind [argfd]

@[grind ←] theorem fdalloc_quietly (f : Nat) : Quietly cfg own k p (fdalloc p f) := by
  grind [fdalloc, SameSpace.mk]

theorem sysDup_quietly (fd : Int) : Quietly cfg own k p (sysDup p fd) := by
  refine keeps_bind (argfd_quietly fd) fun f => ?_
  grind

theorem sysClose_quietly (fd : Int) : Quietly cfg own k p (sysClose p fd) := by
  grind [sysClose, SameSpace.mk]

theorem kkill_quietly (pid : BitVec 32) : Quietly cfg own k p (kkill pid) := by
  grind [kkill, SameSpace.mk]

section
variable (runs : (k.proc p).pagetable ≠ 0)
include runs

@[grind ←] theorem copyout_quietly {r : Nat} (same : r = (k.proc p).pagetable) :
    Quietly cfg own k p (onMach (Mm.copyout r dst src)) := ⟨fun _ quiet => same ▸ quiet.mach runs⟩

@[grind ←] theorem copyinstr_quietly {r va n : Nat} (same : r = (k.proc p).pagetable) :
    Quietly cfg own k p (onMach (Mm.copyinstr r va n)) := by
  constructor
  intro k1 quiet
  have table := (quiet.procs p).2.pagetable
  obtain ⟨S, space⟩ := quiet.memory.space p (by rwa [table])
  rw [wp_onMach, same, ← table]
  apply wp_never (copyinstr_spec quiet.memory.heap space)
  rintro path mach ⟨rfl, _⟩
  exact quiet

@[grind ←] theorem consoleread_quietly {r : Nat} (same : r = (k.proc p).pagetable)
    (input : List UInt8) : Quietly cfg own k p (onMach (consoleread r input dst)) := by
  induction input generalizing dst with
  | nil => exact ⟨fun _ quiet => quiet⟩
  | cons c rest ih =>
    constructor
    intro k1 quiet
    have copied : Quietly cfg own k p (onMach (Mm.copyout r (dst % 2 ^ 64) [c])) :=
      copyout_quietly runs same
    rw [wp_onMach, consoleread]
    apply wp_seq ((wp_onMach ..).mp (copied.safe k1 quiet))
    intro ok mach quiet1
    simp only [wp_ite, wp_bind, wp_pure]
    exact ⟨fun _ => (wp_onMach ..).mp (ih.safe _ quiet1), fun _ => quiet1⟩

@[grind ←] theorem fileread_quietly (f addr : Nat) (n : Int) (input : List UInt8) :
    Quietly cfg own k p (fileread cfg p f addr n input) := by
  refine getProc_quietly fun proc same => keeps_bind keeps_get fun k1 => keeps_ite (keeps_pure _) ?_
  cases (k1.tables.file f).type with
  | none => exact keeps_throw fun panic => panic.elim
  | device => exact keeps_ite (consoleread_quietly runs same _) (keeps_pure _)
  | inode =>
    cases (k1.tables.file f).ip with
    | none => exact keeps_throw fun panic => panic.elim
    | some i =>
      refine keeps_bind (onTables_quietly (ilock_fails i)) fun _ => keeps_bind keeps_get fun k2 => ?_
      refine keeps_bind (readi_quietly fun _ _ => copyout_quietly runs same) fun r => ?_
      grind

@[grind ←] theorem filestat_quietly (f addr : Nat) : Quietly cfg own k p (filestat cfg p f addr) := by
  refine getProc_quietly fun proc same => keeps_bind keeps_get fun k1 => keeps_ite (keeps_pure _) ?_
  grind

theorem sysRead_quietly (fd : Int) (addr : Nat) (n : Int) (input : List UInt8) :
    Quietly cfg own k p (sysRead cfg p fd addr n input) := by grind [sysRead]

theorem sysFstat_quietly (fd : Int) (addr : Nat) : Quietly cfg own k p (sysFstat cfg p fd addr) := by
  grind [sysFstat]

theorem sysOpen_quietly (path omode : Nat) : Quietly cfg own k p (sysOpen cfg p path omode) := by
  refine getProc_quietly fun proc same => keeps_bind (copyinstr_quietly runs same) fun path => ?_
  cases path with
  | none => exact keeps_pure _
  | some path =>
    refine keeps_ite (keeps_pure _) (keeps_bind (onTables_quietly (namei_fails ..)) fun found => ?_)
    cases found with
    | none => exact keeps_pure _
    | some i =>
      refine keeps_bind (onTables_quietly (ilock_fails i)) fun _ => keeps_bind keeps_get fun k1 => ?_
      refine keeps_ite (by grind) (keeps_bind (onTables_quietly filealloc_fails) fun f => ?_)
      cases f with
      | none => grind
      | some f =>
        refine keeps_bind (fdalloc_quietly f) fun fd => ?_
        grind

end
end Files
end Xv6Lab.Kernel
