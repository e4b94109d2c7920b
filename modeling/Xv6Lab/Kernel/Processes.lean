import Xv6Lab.Kernel.Memory

/-!
allocproc, freeproc, fork, sbrk and wait keep the owners of all pages straight.
-/

namespace Xv6Lab.Kernel
open Function (update update_eq_self update_idem update_of_ne update_self)
open Bytes (Mem load store write read)
open Mm
open Fs
open Proc (ProcState)
variable {own1 : Nat → Label} {q : Nat}

/-- Between two calls: a process has a page table and a trapframe unless it is UNUSED,
and no page holds an argument. -/
structure Settled (own : Nat → Label) (k : State) : Prop where
  unused : ∀ p, (k.proc p).state = .unused ↔ (k.proc p).pagetable = 0
  frame : ∀ p, (k.proc p).pagetable = 0 ↔ (k.proc p).trapframe = 0
  inside : ∀ p, NPROC ≤ p → (k.proc p).state = .unused
  arguments : ∀ x, own x ≠ .argument

def Live (k : State) (p : Nat) : Prop := (k.proc p).state ≠ .unused ∧ (k.proc p).state ≠ .zombie

def Foreign (k : State) (p : Nat) (l : Label) : Prop :=
  ∃ q, q ≠ p ∧ Live k q ∧ l.root = some (k.proc q).pagetable

/-- What a call of p leaves: all pages have their owners, and the other processes
their pages. -/
def Outcome (cfg : Config) (own : Nat → Label) (k : State) (p : Nat) (k' : State) : Prop :=
  ∃ own', Memory cfg own' k' ∧ Settled own' k' ∧ (k'.proc p).pagetable ≠ 0 ∧
    Within (fun l => ¬Foreign k p l) own own' k.mach.mem k'.mach.mem ∧
    ∀ q, q ≠ p → Live k q →
      (k'.proc q).state = (k.proc q).state ∧ SameSpace (k.proc q) (k'.proc q)

section Settled
variable {cfg : Config} {own own' : Nat → Label} {k k' : State} {p : Nat} {l : Label}

theorem Settled.update (settled : Settled own k)
    (others : ∀ q, q ≠ p → (k'.proc q).state = (k.proc q).state ∧
      SameSpace (k.proc q) (k'.proc q))
    (unused : (k'.proc p).state = .unused ↔ (k'.proc p).pagetable = 0)
    (frame : (k'.proc p).pagetable = 0 ↔ (k'.proc p).trapframe = 0)
    (inside : (k'.proc p).state = .unused ∨ p < NPROC)
    (arguments : ∀ x, own' x = .argument ↔ own x = .argument) : Settled own' k' := by
  constructor
  · intro q
    by_cases here : q = p
    · exact here ▸ unused
    · rw [(others q here).1, (others q here).2.pagetable]
      exact settled.unused q
  · intro q
    by_cases here : q = p
    · exact here ▸ frame
    · rw [(others q here).2.trapframe, (others q here).2.pagetable]
      exact settled.frame q
  · intro q high
    by_cases here : q = p
    · subst here
      exact inside.resolve_right (by omega)
    · rw [(others q here).1]
      exact settled.inside q high
  · intro x label
    exact settled.arguments x ((arguments x).mp label)

theorem Private.not_foreign (mine : Private k q l) (dead : q = p ∨ ¬Live k q) : ¬Foreign k p l := by
  rintro ⟨r, other, live, root⟩
  have alone := (mine.root root).2
  apply alone r _ rfl
  rintro rfl
  rcases dead with same | dead
  · exact other same
  · exact dead live

theorem Within.arguments {mem mem' : Mem} (within : Within (Private k q) own own' mem mem')
    (x : Nat) : own' x = .argument ↔ own x = .argument := within.iff id

end Settled

section Free
variable {cfg : Config} {own : Nat → Label} {k : State} {p : Nat}

def Frame (p : Nat) (l : Label) : Prop := l = .free ∨ l = .trapframe p

theorem Frame.private {l : Label} (frame : Frame p l) : Private k p l := by
  rcases frame with label | label
  · rw [label]
    trivial
  · rw [label]
    rfl

def cleared (proc : Process) : Process :=
  { proc with
    trapframe := 0, pagetable := 0, sz := 0, pid := 0, parent := none, name := []
    killed := false, xstate := 0, state := .unused }

section
variable (memory : Memory cfg own k)
include memory

theorem freeFrame_spec :
    wp (if (k.proc p).trapframe ≠ 0 then kfree cfg (k.proc p).trapframe else pure ())
      (fun _ => False) (fun _ s' => ∃ own', Heap (IsPage cfg) own' s' ∧
        Within (Frame p) own own' k.mach.mem s'.mem ∧ ∀ x, own' x ≠ .trapframe p) k.mach := by
  simp only [wp_ite, wp_pure]
  constructor
  · intro some
    have label := (memory.trapframe p (k.proc p).trapframe).mpr ⟨some, rfl⟩
    apply wp_post (kfree_spec memory.heap (memory.heap.page _ (by simp [label])) (by simp [label])
      (by simp [label]))
    rintro _ s' ⟨only, heap⟩
    refine ⟨_, heap, Within.relabel (.inr label) (.inl rfl) only, fun x found => ?_⟩
    by_cases same : x = (k.proc p).trapframe
    · rw [same, update_self] at found
      cases found
    · rw [update_of_ne same, memory.trapframe] at found
      exact same found.2.symm
  · intro none
    refine ⟨own, memory.heap, Within.refl _ _ _, fun x found => ?_⟩
    rw [memory.trapframe] at found
    exact none (found.2 ▸ found.1)

theorem freeTable_spec {s1 : Mach}
    (heap : Heap (IsPage cfg) own1 s1) (within : Within (Frame p) own own1 k.mach.mem s1.mem) :
    wp (if (k.proc p).pagetable ≠ 0 then procFreepagetable cfg (k.proc p).pagetable (k.proc p).sz
      else pure ()) (fun _ => False) (fun _ s' => ∃ own', Heap (IsPage cfg) own' s' ∧
        Within (Private k p) own1 own' s1.mem s'.mem ∧
        (∀ q x, own' x = .trapframe q ↔ own1 x = .trapframe q) ∧
        ∀ x r, (own' x).root = some r → (own1 x).root = some r ∧ r ≠ (k.proc p).pagetable) s1 := by
  simp only [wp_ite, wp_pure]
  constructor
  · intro some
    obtain ⟨S, space⟩ := memory.space p some
    obtain ⟨kernel, alone⟩ := memory.exclusive some
    have space1 := space.frame memory.used within (by simp [Frame]) (by simp [Frame])
    apply wp_post (procFreepagetable_spec heap space1)
    rintro _ s' ⟨own', heap', within', gone⟩
    refine ⟨own', heap', within'.mono fun l mine => private_of_mine mine kernel alone, ?_, ?_⟩
    · intro q x
      exact within'.iff (by simp [Mine, Label.root])
    · intro x r root
      have other : r ≠ (k.proc p).pagetable := by
        rintro rfl
        exact gone x root
      have foreign : ¬Mine (k.proc p).pagetable (own' x) := by
        rintro (free | mine)
        · simp [free, Label.root] at root
        · exact gone x mine
      rw [(within'.iff foreign).mp rfl]
      exact ⟨root, other⟩
  · intro none
    refine ⟨own1, heap, Within.refl _ _ _, fun _ _ => Iff.rfl, fun x r root => ⟨root, ?_⟩⟩
    have before : own x = own1 x := (within.iff (by
      rintro (free | frame)
      · simp [free, Label.root] at root
      · simp [frame, Label.root] at root)).mp rfl
    rw [← before] at root
    rcases memory.roots x r root with kernel | ⟨nonzero, _⟩
    · rw [kernel]
      exact (memory.kernelApart p).symm
    · rw [not_not.mp none]
      exact nonzero

theorem freeproc_spec : wp (freeproc cfg p) (fun _ => False) (fun _ k' => ∃ own' mach,
      k' = { k with mach, proc := update k.proc p (cleared (k.proc p)) } ∧
        Memory cfg own' k' ∧ Within (Private k p) own own' k.mach.mem mach.mem) k := by
  unfold freeproc
  simp only [wp_bind, wp_getProc, wp_onMach, wp_setProc]
  apply wp_post (freeFrame_spec memory)
  rintro _ s1 ⟨own1, heap1, within1, unframed⟩
  apply wp_post (freeTable_spec memory heap1 within1)
  rintro _ s2 ⟨own2, heap2, within2, frames, gone⟩
  have within := (within1.mono fun _ => Frame.private).trans within2
  refine ⟨own2, s2, rfl, ?_, within⟩
  have here : update k.proc p (cleared (k.proc p)) p = cleared (k.proc p) :=
    update_self ..
  change Memory cfg own2 { k with mach := s2, proc := update k.proc p (cleared (k.proc p)) }
  apply memory.update (p := p)
  · exact ⟨fun q other => by simp only [update_of_ne other]; exact ⟨rfl, rfl, rfl⟩, rfl, rfl,
      rfl⟩
  · exact heap2
  · exact within
  · simp [cleared]
  · simp [cleared]
  · simp [cleared]
  · intro x
    simp only [here]
    rw [frames]
    exact ⟨fun found => absurd found (unframed x), fun both => absurd both.2.symm both.1⟩
  · intro x r root kernel alone
    obtain ⟨root1, other⟩ := gone x r root
    have before : own x = own1 x := (within1.iff (by
      rintro (free | frame)
      · simp [free, Label.root] at root1
      · simp [frame, Label.root] at root1)).mp rfl
    rw [← before] at root1
    obtain ⟨_, q, pagetable⟩ := (memory.roots x r root1).resolve_left kernel
    by_cases same : q = p
    · exact absurd pagetable.symm (same ▸ other)
    · exact absurd pagetable (alone q same)

end
end Free

section Alloc
variable {cfg : Config} {own : Nat → Label} {k : State} {p : Nat}

theorem elsewhere_update (mach : Mach) (tables : Tables) (nextpid : BitVec 32) (proc : Process) :
    Elsewhere k { k with mach, tables, nextpid, proc := update k.proc p proc } p :=
  ⟨fun q other => by simp only [update_of_ne other]; exact ⟨rfl, rfl, rfl⟩, rfl, rfl, rfl⟩

theorem Memory.addFrame {own' : Nat → Label} {k' : State} {y : Nat} (memory : Memory cfg own k)
    (rest : Elsewhere k k' p) (heap : Heap (IsPage cfg) own' k'.mach)
    (none : (k.proc p).pagetable = 0 ∧ (k.proc p).trapframe = 0)
    (new : (k'.proc p).pagetable = 0 ∧ (k'.proc p).trapframe = y ∧ (k'.proc p).sz = 0)
    (free : own y = .free) (label : own' = Function.update own y (.trapframe p))
    (only : OnlyPage k.mach.mem k'.mach.mem y) : Memory cfg own' k' := by
  have page := memory.heap.page y (by simp [free])
  subst label
  have within : Within (Frame p) own _ k.mach.mem k'.mach.mem :=
    Within.relabel (.inl free) (.inr rfl) only
  apply memory.update rest heap (within.mono fun _ => Frame.private)
  · rw [new.2.2]
    exact Nat.zero_le _
  · exact fun _ => new.2.2
  · exact fun some => absurd new.1 some
  · intro x
    rw [new.2.1]
    by_cases same : x = y
    · subst same
      simp [page.pos]
    · rw [update_of_ne same, memory.trapframe, none.2]
      constructor
      · rintro ⟨nonzero, zero⟩
        exact absurd zero.symm nonzero
      · rintro ⟨_, here⟩
        exact absurd here.symm same
  · intro x r root kernel alone
    have before : own x = Function.update own y (.trapframe p) x := (within.iff (by
      rintro (free | frame)
      · simp [free, Label.root] at root
      · simp [frame, Label.root] at root)).mp rfl
    rw [← before] at root
    obtain ⟨nonzero, q, table⟩ := (memory.roots x r root).resolve_left kernel
    by_cases here : q = p
    · exact absurd (table.symm.trans (here ▸ none.1)) nonzero
    · exact absurd table (alone q here)

def Allocated (cfg : Config) (own : Nat → Label) (k : State) : Option Nat → State → Prop
  | none, k' => ∃ p mach nextpid proc own', (k.proc p).state = .unused ∧
      k' = { k with mach, nextpid, proc := update k.proc p proc } ∧
      proc.state = .unused ∧ proc.pagetable = 0 ∧ proc.trapframe = 0 ∧
      proc.ofile = (k.proc p).ofile ∧ proc.cwd = (k.proc p).cwd ∧
      Memory cfg own' k' ∧ Within (Private k p) own own' k.mach.mem k'.mach.mem
  | some p, k' => p < NPROC ∧ (k.proc p).state = .unused ∧
      (∀ q, q < p → (k.proc q).state ≠ .unused) ∧ ∃ mach nextpid pid trapframe pagetable own',
      k' = { k with
        mach, nextpid
        proc := update k.proc p
          { k.proc p with pid, state := .used, trapframe, pagetable } } ∧
      pagetable ≠ 0 ∧ trapframe ≠ 0 ∧ Memory cfg own' k' ∧
      Within (Private k p) own own' k.mach.mem k'.mach.mem

theorem allocproc_undo {mach : Mach} {nextpid : BitVec 32} {proc : Process}
    (unused : (k.proc p).state = .unused) (files : proc.ofile = (k.proc p).ofile)
    (cwd : proc.cwd = (k.proc p).cwd)
    (memory : Memory cfg own1 { k with mach, nextpid, proc := update k.proc p proc })
    (within : Within (Private k p) own own1 k.mach.mem mach.mem) :
    wp (freeproc cfg p) (fun _ => False) (fun _ k' => Allocated cfg own k none k')
      { k with mach, nextpid, proc := update k.proc p proc } := by
  apply wp_post (freeproc_spec memory)
  rintro _ k' ⟨own', mach', shape, memory', within'⟩
  simp only [update_self, update_idem] at shape
  refine ⟨p, mach', nextpid, cleared proc, own', unused, shape, rfl, rfl, rfl, files, cwd, memory', ?_⟩
  rw [shape]
  exact within.trans (within'.mono fun l => (elsewhere_update mach k.tables nextpid proc).private)

theorem allocproc_spec (memory : Memory cfg own k) (settled : Settled own k) :
    wp (allocproc cfg) (fun _ => False) (Allocated cfg own k) k := by
  unfold allocproc
  rw [wp_bind, wp_get]
  cases found : (List.range NPROC).find? fun p => (k.proc p).state = .unused with
  | none =>
    have unused := settled.inside NPROC le_rfl
    have table := (settled.unused NPROC).mp unused
    exact ⟨NPROC, k.mach, k.nextpid, k.proc NPROC, own, unused, by rw [update_eq_self],
      unused, table, (settled.frame NPROC).mp table, rfl, rfl, memory, Within.refl _ _ _⟩
  | some p =>
    have inside : p < NPROC := List.mem_range.mp (List.mem_of_find?_eq_some found)
    have unused : (k.proc p).state = .unused := by simpa using List.find?_some found
    have first : ∀ q, q < p → (k.proc q).state ≠ .unused := by
      simpa using (List.find?_range_eq_some.mp found).2.2
    have table := (settled.unused p).mp unused
    have frame := (settled.frame p).mp table
    have size := memory.empty p table
    simp only [wp_bind, wp_set, wp_setProc, wp_onMach]
    apply wp_post (kalloc_spec memory.heap (.trapframe p) (by simp))
    intro y s1 taken
    rcases taken with ⟨zero, same, heap1⟩ | ⟨free, nonzero, only, heap1⟩
    · simp only [zero, if_true, wp_bind, wp_pure, update_self, update_idem]
      have memory1 : Memory cfg own { k with mach := s1 } :=
        memory.touch (P := fun _ => False) heap1 (by rw [same]; exact Within.refl _ _ _)
          fun _ _ _ => id
      apply allocproc_undo unused
      · rfl
      · rfl
      · apply memory1.same
        refine ⟨rfl, fun q => ?_, rfl, rfl, rfl⟩
        by_cases here : q = p
        · subst here
          simp only [update_self]
          exact ⟨rfl, frame.symm, rfl⟩
        · simp only [update_of_ne here]
          exact ⟨rfl, rfl, rfl⟩
      · rw [same]
        exact Within.refl _ _ _
    · simp only [nonzero, if_false, wp_bind, wp_onMach, wp_setProc, update_self,
        update_idem]
      let proc : Process := { k.proc p with pid := k.nextpid, state := .used, trapframe := y }
      let k1 : State :=
        { k with mach := s1, nextpid := k.nextpid + 1, proc := update k.proc p proc }
      have here : k1.proc p = proc := update_self ..
      have rest : Elsewhere k k1 p := elsewhere_update s1 k.tables _ proc
      have memory1 : Memory cfg _ k1 :=
        memory.addFrame rest heap1 ⟨table, frame⟩ (by rw [here]; exact ⟨table, rfl, size⟩) free rfl
          only
      have within1 : Within (Private k p) own _ k.mach.mem s1.mem :=
        (Within.relabel (.inl free) (.inr rfl) only).mono fun _ => Frame.private
      have page := memory.heap.page y (by simp [free])
      apply wp_post (procPagetable_spec memory1.heap memory1.rooted page.phys)
      intro r s2 result
      rcases result with ⟨zero, heap2, within2⟩ | ⟨some, free2, own2, S, heap2, space, within2⟩
      · simp only [zero, if_true, wp_bind, wp_pure]
        have memory2 := memory1.touch heap2 within2 (by simp)
        apply allocproc_undo unused
        · rfl
        · rfl
        · apply memory2.same
          refine ⟨rfl, fun q => ?_, rfl, rfl, rfl⟩
          by_cases same : q = p
          · subst same
            simp only [update_self, k1]
            exact ⟨table.symm, rfl, rfl⟩
          · simp only [update_of_ne same, k1]
            exact ⟨rfl, rfl, rfl⟩
        · exact within1.trans (within2.mono fun l free => by rw [free]; trivial)
      · simp only [some, if_false, wp_pure]
        refine ⟨inside, unused, first, s2, _, k.nextpid, y, r, own2, rfl, some, nonzero, ?_, ?_⟩
        · apply memory1.resize (p := p)
          · refine ⟨fun q other => ?_, rfl, rfl, rfl⟩
            simp only [update_of_ne other, k1]
            exact ⟨rfl, rfl, rfl⟩
          · exact heap2
          · simp [size]
          · simpa using some
          · simpa using within2
          · simp only [update_self, size]
            exact ⟨S, space⟩
          · simp only [update_self, here]
            rfl
          · simp only [update_self, here]
            exact .inr ⟨table, free2⟩
        · have alone := memory1.alone free2
          exact within1.trans (within2.mono fun l mine =>
            rest.private (private_of_mine mine alone.1 fun q _ => alone.2 q))

end Alloc

section Fork
variable {cfg : Config} {own : Nat → Label} {k : State} {p np : Nat}

theorem Allocated.outcome {k' : State} (settled : Settled own k) (runs : (k.proc p).pagetable ≠ 0)
    (failed : Allocated cfg own k none k') : Outcome cfg own k p k' := by
  obtain ⟨q, mach, nextpid, proc, own', unused, shape, state, table, frame, _, _, memory', within⟩ :=
    failed
  have here : k'.proc q = proc := by
    rw [shape]
    exact update_self ..
  have others : ∀ q', q' ≠ q → k'.proc q' = k.proc q' := by
    intro q' other
    rw [shape]
    exact update_of_ne other ..
  have apart : p ≠ q := by
    rintro rfl
    exact runs ((settled.unused p).mp unused)
  refine ⟨own', memory', ?_, ?_, ?_, ?_⟩
  · apply settled.update (p := q)
    · intro q' other
      rw [others q' other]
      exact ⟨rfl, rfl, rfl, rfl⟩
    · rw [here, state, table]
      simp
    · rw [here, frame, table]
    · exact .inl (by rw [here, state])
    · exact Within.arguments within
  · rw [others p apart]
    exact runs
  · exact within.mono fun l mine => mine.not_foreign (.inr fun live => live.1 unused)
  · intro q' _ live
    have other : q' ≠ q := by
      rintro rfl
      exact live.1 unused
    rw [others q' other]
    exact ⟨rfl, rfl, rfl, rfl⟩

theorem dupFiles_spec (n : Nat) :
    wp (dupFiles p np n) (Expected cfg) (fun _ k' => ∃ tables ofile,
      k' = { k with tables, proc := update k.proc np { k.proc np with ofile } }) k := by
  induction n generalizing k with
  | zero => exact ⟨k.tables, (k.proc np).ofile, by simp⟩
  | succ n ih =>
    rw [dupFiles, wp_bind, wp_getProc]
    cases (k.proc p).ofile (NOFILE - (n + 1)) with
    | none => exact ih
    | some f =>
      simp only [wp_bind]
      apply wp_fs (filedup_fails f)
      intro _ tables
      rw [wp_setProc]
      apply wp_post ih
      rintro _ k' ⟨tables', ofile, shape⟩
      refine ⟨tables', ofile, ?_⟩
      rw [shape]
      simp

theorem Memory.writeFrame {tf : Nat} (memory : Memory cfg own k) (mach : Mach)
    (label : own tf = .trapframe p) (free : mach.freelist = k.mach.freelist)
    (only : OnlyPage k.mach.mem mach.mem tf) :
    Memory cfg own { k with mach } ∧ Within (· = .trapframe p) own own k.mach.mem mach.mem := by
  have within : Within (· = .trapframe p) own own k.mach.mem mach.mem := Within.touch label only
  have heap := memory.heap.frame within (by simp) (by simp)
  refine ⟨memory.touch ⟨?_, heap.page, heap.phys⟩ within (by simp), within⟩
  obtain ⟨F, chain, rest⟩ := heap.list
  exact ⟨F, by rw [free]; exact chain, rest⟩

def Twins (k k' : State) (p : Nat) : Prop :=
  ∀ c, (k.proc c).state = .unused → (k'.proc c).state ≠ .unused → ∀ va,
    userByte k'.mach.mem (k'.proc c).pagetable va = userByte k'.mach.mem (k'.proc p).pagetable va

theorem Allocated.twins {k' : State} (failed : Allocated cfg own k none k') : Twins k k' p := by
  obtain ⟨q, mach, nextpid, proc, _, _, shape, state, _⟩ := failed
  intro c unused used
  subst shape
  by_cases here : c = q
  · subst here
    simp [state] at used
  · simp [update_of_ne here, unused] at used

theorem kfork_finish {k1 : State} {parent child : Process} (settled : Settled own k)
    (runs : (k.proc p).pagetable ≠ 0) (unused : (k.proc np).state = .unused) (inside : np < NPROC)
    (memory : Memory cfg own1 k1) (others : ∀ q, q ≠ np → k1.proc q = k.proc q)
    (table : (k1.proc np).pagetable ≠ 0) (frame : (k1.proc np).trapframe ≠ 0)
    (within : Within (Private k np) own own1 k.mach.mem k1.mach.mem)
    (same : ∀ va, userByte k1.mach.mem (k1.proc np).pagetable va =
      userByte k1.mach.mem (k1.proc p).pagetable va) :
    wp (do
      dupFiles p np NOFILE
      match parent.cwd with
      | none => throw .nullDeref
      | some i =>
        let i ← onTables (idup i)
        setProc np fun child =>
          { child with cwd := some i, name := parent.name, parent := some p, state := .runnable }
        return child.pid.toInt) (Expected cfg) (fun _ k' => Outcome cfg own k p k' ∧ Twins k k' p) k1 := by
  have apart : p ≠ np := by
    rintro rfl
    exact runs ((settled.unused p).mp unused)
  apply wp_seq (dupFiles_spec NOFILE)
  rintro _ k2 ⟨tables, ofile, shape⟩
  subst shape
  cases parent.cwd with
  | none => exact fun panic => panic.elim
  | some i =>
    rw [wp_bind]
    apply wp_fs (idup_fails i)
    intro i tables
    rw [wp_bind, wp_setProc, wp_pure]
    simp only [update_self, update_idem]
    refine ⟨⟨own1, ?_, ?_, ?_, ?_, ?_⟩, ?_⟩
    · apply memory.same
      refine ⟨rfl, fun q => ?_, rfl, rfl, rfl⟩
      by_cases here : q = np
      · subst here
        simp only [update_self]
        exact ⟨rfl, rfl, rfl⟩
      · simp only [update_of_ne here]
        exact ⟨rfl, rfl, rfl⟩
    · apply settled.update (p := np)
      · intro q other
        simp only [update_of_ne other, others q other]
        exact ⟨trivial, rfl, rfl, rfl⟩
      · simp [table]
      · simp [table, frame]
      · exact .inr inside
      · exact Within.arguments within
    · simp only [update_of_ne apart, others p apart]
      exact runs
    · exact within.mono fun l mine => mine.not_foreign (.inr fun live => live.1 unused)
    · intro q _ live
      have other : q ≠ np := by
        rintro rfl
        exact live.1 unused
      simp only [update_of_ne other, others q other]
      exact ⟨trivial, rfl, rfl, rfl⟩
    · intro c unused' used va
      by_cases here : c = np
      · subst here
        simp only [update_self, update_of_ne apart]
        exact same va
      · simp only [update_of_ne here, others c here] at used
        exact absurd unused' used

theorem kfork_spec (memory : Memory cfg own k) (settled : Settled own k)
    (runs : (k.proc p).pagetable ≠ 0) :
    wp (kfork cfg p) (Expected cfg) (fun _ k' => Outcome cfg own k p k' ∧ Twins k k' p) k := by
  unfold kfork
  apply wp_seq (wp_never (allocproc_spec memory settled) fun _ _ h => h)
  intro result k1 allocated
  cases result with
  | none => exact ⟨allocated.outcome settled runs, allocated.twins⟩
  | some np =>
    obtain ⟨inside, unused, _, mach, nextpid, pid, tf, r, own1, shape, some, frame, memory1,
      within1⟩ := allocated
    have apart : p ≠ np := by
      rintro rfl
      exact runs ((settled.unused p).mp unused)
    have here : k1.proc np = { k.proc np with pid, state := .used, trapframe := tf, pagetable := r } := by
      rw [shape]
      exact update_self ..
    have there : ∀ q, q ≠ np → k1.proc q = k.proc q := by
      intro q other
      rw [shape]
      exact update_of_ne other ..
    have rest1 : Elsewhere k k1 np := by
      rw [shape]
      exact elsewhere_update ..
    have runs1 : (k1.proc p).pagetable ≠ 0 := by rwa [there p apart]
    have fresh : (k1.proc np).pagetable ≠ 0 := by rwa [here]
    obtain ⟨S, space⟩ := memory1.space p runs1
    obtain ⟨Sn, child⟩ := memory1.space np fresh
    have empty : pagesOf (k1.proc np).sz = 0 := by
      rw [here, memory.empty np ((settled.unused np).mp unused)]
      decide
    rw [empty] at child
    have other : (k1.proc p).pagetable ≠ (k1.proc np).pagetable :=
      fun same => apart (memory1.apart p np runs1 same)
    simp only [wp_bind, wp_getProc, wp_onMach]
    apply wp_mono (uvmcopy_spec memory1.heap (memory1.size p) other space child) _
      fun _ => Big.expected
    rintro ok s2 ⟨own2, S2, m, heap2, space2, within2, copied⟩
    obtain ⟨kernel, alone⟩ := memory1.exclusive fresh
    have within2' : Within (Private k np) own1 own2 k1.mach.mem s2.mem :=
      within2.mono fun l mine => rest1.private (private_of_mine mine kernel alone)
    cases ok with
    | false =>
      simp only [Bool.false_eq_true, if_false, wp_bind, wp_pure]
      have memory2 : Memory cfg own2 { k1 with mach := s2 } := by
        apply memory1.redraw fresh heap2 within2
        rw [empty]
        obtain rfl : m = 0 := copied
        exact ⟨S2, space2⟩
      have within := within1.trans within2'
      subst shape
      apply wp_never (allocproc_undo unused (by rfl) (by rfl) memory2 within)
      intro _ k' failed
      exact ⟨failed.outcome settled runs, failed.twins⟩
    | true =>
      obtain ⟨rfl, copied⟩ := copied
      simp only [if_true, wp_bind, wp_setProc, wp_onMach, wp_memmove, wp_writePte]
      have memory2 : Memory cfg own2 { k1 with
          mach := s2
          proc := update k1.proc np { k1.proc np with sz := (k1.proc p).sz } } := by
        apply memory1.resize (p := np)
        · exact elsewhere_update ..
        · exact heap2
        · simpa using memory1.size p
        · simpa using fresh
        · simpa using within2
        · simp only [update_self]
          exact ⟨S2, space2⟩
        · simp
        · simp
      have page : own2 (k1.proc np).trapframe = .trapframe np := by
        rw [memory2.trapframe]
        simp [here, frame]
      have aligned := (memory2.used (k1.proc np).trapframe (by simp [page])).1
      let moved : Mach := { s2 with
        mem := write s2.mem (k1.proc np).trapframe (read s2.mem (k1.proc p).trapframe TF_SIZE) }
      let zeroed : Mach := { s2 with mem := store moved.mem ((k1.proc np).trapframe + TF_A0) 8 0 }
      have only3 : OnlyPage s2.mem moved.mem (k1.proc np).trapframe :=
        onlyPage_write aligned le_rfl (by simp [Bytes.length_read, TF_SIZE, PGSIZE])
      have only4 : OnlyPage moved.mem zeroed.mem (k1.proc np).trapframe :=
        onlyPage_store aligned (by omega) (by simp [TF_A0, PGSIZE])
      obtain ⟨memory3, within3⟩ := memory2.writeFrame moved page rfl only3
      obtain ⟨memory4, within4⟩ := memory3.writeFrame zeroed page rfl only4
      have frames := within3.trans within4
      have old := space.frame memory1.used within2 (by simp [Mine, Label.root, other])
        (by simp [Mine, Label.root, other])
      refine (wp_bind _ _).mp ?_
      apply kfork_finish settled runs unused inside memory4
      · intro q away
        simp only [update_of_ne away, there q away]
      · simpa using fresh
      · simpa [here] using frame
      · exact (within1.trans within2').trans (frames.mono fun l label => by rw [label]; rfl)
      · intro va
        simp only [update_self, update_of_ne apart]
        calc
          _ = userByte s2.mem (k1.proc np).pagetable va :=
            space2.userByte_frame memory2.used frames (by simp) (by simp)
          _ = userByte s2.mem (k1.proc p).pagetable va := copied.userByte old space2
          _ = _ := (old.userByte_frame memory2.used frames (by simp) (by simp)).symm

end Fork
end Xv6Lab.Kernel
