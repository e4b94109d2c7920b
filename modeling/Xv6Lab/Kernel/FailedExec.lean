import Xv6Lab.Kernel.Files
import Xv6Lab.Kernel.Ownership

/-!
An exec that fails leaves no trace, wherever it fails.
-/

namespace Xv6Lab.Kernel
open Bytes (Mem)
open Mm
open Fs

/-- What p and the rest of the kernel can see is as it was. -/
structure Invisible (cfg : Config) (k k' : State) (p : Nat) : Prop where
  proc : k'.proc = k.proc
  tables : ∀ l n, tableAt k'.mach.mem (k.proc p).pagetable l n =
    tableAt k.mach.mem (k.proc p).pagetable l n
  leaves : ∀ v, leafAt k'.mach.mem (k.proc p).pagetable v = leafAt k.mach.mem (k.proc p).pagetable v
  bytes : ∀ v e, v < TRAPFRAME / PGSIZE → leafAt k.mach.mem (k.proc p).pagetable v = some e →
    SamePage k.mach.mem k'.mach.mem (PTE2PA e)
  trapframe : SamePage k.mach.mem k'.mach.mem (k.proc p).trapframe
  files : k'.tables.file = k.tables.file
  refs : ∀ i, (k'.tables.inode i).ref = (k.tables.inode i).ref
  unlocked : ∀ i, (k'.tables.inode i).locked = false
  free : kfreemem cfg k'.mach = kfreemem cfg k.mach

section Invisible
variable {cfg : Config} {own : Nat → Label} {k k' : State} {p : Nat}

theorem kfreemem_eq (heap : Heap (IsPage cfg) own k.mach) (heap' : Heap (IsPage cfg) own k'.mach)
    (pool : ∀ x, own x ≠ .outside → x ∈ pool cfg) : kfreemem cfg k'.mach = kfreemem cfg k.mach := by
  have room : ∀ {F : List Nat}, F.Nodup → (∀ x, x ∈ F ↔ own x = .free) →
      F.length ≤ cfg.physTop / PGSIZE := by
    intro F nodup labels
    have part : F ⊆ Mm.pool cfg := fun x member => pool x (by simp [(labels x).mp member])
    exact ((nodup.subperm part).length_le).trans (length_rangePages _ _ _)
  obtain ⟨F, chain, nodup, labels⟩ := heap.list
  obtain ⟨F', chain', nodup', labels'⟩ := heap'.list
  have same : F'.length = F.length := by
    apply List.Perm.length_eq
    rw [List.perm_ext_iff_of_nodup nodup' nodup]
    intro x
    rw [labels', labels]
  unfold kfreemem
  rw [chain.countFree (room nodup labels),
    chain'.countFree (room nodup' labels'), same]

theorem Unchanged.invisible (same : Unchanged cfg own k k') (memory : Memory cfg own k)
    (settled : Settled own k) (books : Books k) (runs : (k.proc p).pagetable ≠ 0)
    (balanced : Balanced (fun i => openings k.tables.file i + cwdUsers k.proc i) k k') :
    Invisible cfg k k' p := by
  obtain ⟨S, space⟩ := memory.space p runs
  have proc : k'.proc = k.proc := by
    obtain ⟨mach, tables, rfl⟩ := same.shape
    rfl
  have tree := space.tree.frame memory.used same.within (by simp)
  have frame : (k.proc p).trapframe ≠ 0 := by rwa [Ne, ← settled.frame]
  have label := (memory.trapframe p (k.proc p).trapframe).mpr ⟨frame, rfl⟩
  obtain ⟨refs, files, _⟩ := balanced
  constructor
  · exact proc
  · intro l n
    rw [tree.tableAt, space.tree.tableAt]
  · intro v
    rw [tree.leafAt, space.tree.leafAt]
  · intro v e low leaf
    rw [space.tree.leafAt] at leaf
    have label := space.users.label low leaf
    exact same.within.bytes _ (memory.used _ (by simp [label])).1 (by simp [label])
  · exact same.within.bytes _ (memory.used _ (by simp [label])).1 (by simp [label])
  · exact files
  · intro i
    rw [refs.ref, books.counted.refs.ref]
  · exact refs.locked
  · exact kfreemem_eq memory.heap same.heap fun x => (memory.pool x).mp

end Invisible

/-- An exec that returns -1 has changed nothing, and exec raises no panic of memory management.
-/
theorem failed_exec_invisible (cfg : Config) (mem : Mem) (fail : List Bool) (events : List Event)
    (p path uargv : Nat) (fail' : List Bool) :
    Ends (fun k => (k.proc p).state = .runnable →
        match (sysExec cfg p path uargv).run { k with mach := { k.mach with fail := fail' } } with
        | .ok (ret, k') => ret = -1 → Invisible cfg k k' p
        | .error e => cfg.physTop - KERNBASE < TRAPFRAME → ¬MemPanic e)
      (fun _ => True) (run cfg mem fail events) := by
  apply ((run_sound mem fail events).and (run_books mem fail events)).imp _ fun _ _ => trivial
  rintro k ⟨⟨own, memory, settled⟩, books⟩ runs
  have table : (k.proc p).pagetable ≠ 0 := by
    rw [Ne, ← settled.unused, runs]
    simp
  have low := books.low (p := p) (by simp [runs])
  have memory1 := memory.setFail fail'
  have settled1 : Settled own { k with mach := { k.mach with fail := fail' } } :=
    ⟨settled.unused, settled.frame, settled.inside, settled.arguments⟩
  have books1 : Books { k with mach := { k.mach with fail := fail' } } := books.tables books.counted
  have files : wp (sysExec cfg p path uargv) Sane
      (fun _ k' => Balanced (fun i => openings k.tables.file i + cwdUsers k.proc i)
        { k with mach := { k.mach with fail := fail' } } k')
      { k with mach := { k.mach with fail := fail' } } := by
    apply sysExec_files books1.counted.refs
    intro i cwd
    have := cwdUsers_used low cwd
    omega
  have both := wp_and (sysExec_spec memory1 settled1 table path uargv) files
  unfold wp at both
  cases result : (sysExec cfg p path uargv).run { k with mach := { k.mach with fail := fail' } } with
  | error e =>
    rw [result] at both
    exact fun small panic => both.1 panic small
  | ok pair =>
    obtain ⟨ret, k'⟩ := pair
    rw [result] at both
    intro failed
    obtain ⟨executed, balanced⟩ := both
    rcases executed with ⟨_, same⟩ | ⟨done, _⟩
    · have seen := same.invisible memory1 settled1 books1 table balanced
      exact ⟨seen.proc, seen.tables, seen.leaves, seen.bytes, seen.trapframe, seen.files, seen.refs,
        seen.unlocked, seen.free⟩
    · exact absurd failed done

end Xv6Lab.Kernel
