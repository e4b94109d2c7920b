import Xv6Lab.Kernel.Panics

/-!
Whose page is whose: the invariant of physical memory that every system call keeps.
-/

namespace Xv6Lab.Kernel
open Bytes (Mem load store write read)
open Mm
open Fs
variable {k' : State} {mach : Mach}

section Rules
variable {α : Type} {E : Panic → Prop} {k : State}

@[simp] theorem wp_onMach {Q : α → State → Prop} (x : MM α) :
    wp (onMach x) E Q k ↔ wp x E (fun a mach => Q a { k with mach }) k.mach := wp_zoom _ _ _

@[simp] theorem wp_onTables {Q : α → State → Prop} (x : FM α) :
    wp (onTables x) E Q k ↔ wp x E (fun a tables => Q a { k with tables }) k.tables := wp_zoom _ _ _

@[simp] theorem wp_setProc {Q : Unit → State → Prop} (p : Nat) (f : Process → Process) :
    wp (setProc p f) E Q k ↔
      Q () { k with proc := Function.update k.proc p (f (k.proc p)) } := Iff.rfl

@[simp] theorem wp_getProc {Q : Process → State → Prop} (p : Nat) :
    wp (getProc p) E Q k ↔ Q (k.proc p) k := Iff.rfl

end Rules

@[grind] def Expected (cfg : Config) (e : Panic) : Prop := MemPanic e → ¬Small cfg

theorem Big.expected {cfg : Config} {e : Panic} (big : Big cfg e) : Expected cfg e := fun _ => big.2

theorem wp_fs {α : Type} {cfg : Config} {Q : α → State → Prop} {k : State} {x : FM α}
    (fails : FsFails x) (post : ∀ a tables, Q a { k with tables }) :
    wp (onTables x) (Expected cfg) Q k := by
  rw [wp_onTables]
  apply wp_mono (fails.safe k.tables trivial)
  · exact fun a tables _ => post a tables
  · exact fun e other panic => absurd panic other

/-- Every page of the pool has one owner; the owners' page tables and lists say so. -/
structure Memory (cfg : Config) (own : Nat → Label) (k : State) : Prop where
  heap : Heap (IsPage cfg) own k.mach
  pool : ∀ x, own x ≠ .outside ↔ x ∈ pool cfg
  size : ∀ p, (k.proc p).sz ≤ TRAPFRAME
  empty : ∀ p, (k.proc p).pagetable = 0 → (k.proc p).sz = 0
  space : ∀ p, (k.proc p).pagetable ≠ 0 → ∃ S, Space cfg own k.mach.mem (k.proc p).pagetable
    (k.proc p).trapframe (pagesOf (k.proc p).sz) S
  apart : ∀ p q, (k.proc p).pagetable ≠ 0 → (k.proc p).pagetable = (k.proc q).pagetable → p = q
  trapframe : ∀ p x, own x = .trapframe p ↔ x ≠ 0 ∧ (k.proc p).trapframe = x
  roots : ∀ x r, (own x).root = some r →
    r = k.kernelPagetable ∨ r ≠ 0 ∧ ∃ p, (k.proc p).pagetable = r
  kernel : ∃ S, Tree Plain own k.mach.mem k.kernelPagetable S
  kernelUser : ∀ x v, own x ≠ .user k.kernelPagetable v
  kernelApart : ∀ p, (k.proc p).pagetable ≠ k.kernelPagetable
  kstack : ∀ n x, own x = .kstack n ↔ k.kstacks[n]? = some x
  ring : ∀ n x, own x = .ring n ↔ k.rings[n]? = some x

def Private (k : State) (p : Nat) : Label → Prop
  | .free => True
  | .table r _ _ => r ≠ k.kernelPagetable ∧ ∀ q, q ≠ p → (k.proc q).pagetable ≠ r
  | .user r _ => r ≠ k.kernelPagetable ∧ ∀ q, q ≠ p → (k.proc q).pagetable ≠ r
  | .trapframe q => q = p
  | .outside => False
  | .argument => False
  | .kstack _ => False
  | .ring _ => False

structure SameSpace (proc proc' : Process) : Prop where
  pagetable : proc'.pagetable = proc.pagetable
  trapframe : proc'.trapframe = proc.trapframe
  sz : proc'.sz = proc.sz

structure Elsewhere (k k' : State) (p : Nat) : Prop where
  spaces : ∀ q, q ≠ p → SameSpace (k.proc q) (k'.proc q)
  kernel : k'.kernelPagetable = k.kernelPagetable
  kstacks : k'.kstacks = k.kstacks
  rings : k'.rings = k.rings

structure SameMemory (k k' : State) : Prop where
  mach : k'.mach = k.mach
  spaces : ∀ q, SameSpace (k.proc q) (k'.proc q)
  kernel : k'.kernelPagetable = k.kernelPagetable
  kstacks : k'.kstacks = k.kstacks
  rings : k'.rings = k.rings

section Invariant
variable {cfg : Config} {own own' : Nat → Label} {k : State} {p r : Nat} {l : Label}

theorem private_of_root (root : l.root = some r) (other : r ≠ k.kernelPagetable)
    (alone : ∀ q, q ≠ p → (k.proc q).pagetable ≠ r) : Private k p l := by
  cases l with
  | table r' level n | user r' v =>
    obtain rfl : r' = r := Option.some.inj root
    exact ⟨other, alone⟩
  | outside | free | trapframe | argument | kstack | ring => cases root

theorem private_of_mine (mine : Mine r l) (other : r ≠ k.kernelPagetable)
    (alone : ∀ q, q ≠ p → (k.proc q).pagetable ≠ r) : Private k p l := by
  rcases mine with free | root
  · rw [free]
    trivial
  · exact private_of_root root other alone

theorem Private.root (mine : Private k p l) (root : l.root = some r) :
    r ≠ k.kernelPagetable ∧ ∀ q, q ≠ p → (k.proc q).pagetable ≠ r := by
  cases l with
  | table r' level n | user r' v =>
    obtain rfl : r' = r := Option.some.inj root
    exact mine
  | outside | free | trapframe | argument | kstack | ring => cases root

section
variable (memory : Memory cfg own k)
include memory

theorem Memory.used : ∀ x, own x ≠ .outside → Phys x :=
  fun _ => memory.heap.used

theorem Memory.root {x : Nat} (root : (own x).root = some r) : own r = .table r 2 0 := by
  rcases memory.roots x r root with kernel | ⟨nonzero, p, pagetable⟩
  · obtain ⟨S, tree⟩ := memory.kernel
    rw [kernel]
    exact (tree.labels 2 0 _).mpr tree.root
  · subst pagetable
    obtain ⟨S, space⟩ := memory.space p nonzero
    exact (space.tree.labels 2 0 _).mpr space.tree.root

theorem Memory.rooted : Rooted own := by
  intro x r root
  simp [memory.root root]

theorem Memory.pagetable (some : (k.proc p).pagetable ≠ 0) :
    own (k.proc p).pagetable = .table (k.proc p).pagetable 2 0 := by
  obtain ⟨S, space⟩ := memory.space p some
  exact (space.tree.labels 2 0 _).mpr space.tree.root

theorem Memory.alone (free : own r = .free) :
    r ≠ k.kernelPagetable ∧ ∀ q, (k.proc q).pagetable ≠ r := by
  have page := memory.heap.page r (by simp [free])
  constructor
  · rintro rfl
    obtain ⟨S, tree⟩ := memory.kernel
    rw [(tree.labels 2 0 _).mpr tree.root] at free
    cases free
  · rintro q rfl
    rw [memory.pagetable page.pos] at free
    cases free

theorem Memory.exclusive (some : (k.proc p).pagetable ≠ 0) :
    (k.proc p).pagetable ≠ k.kernelPagetable ∧
      ∀ q, q ≠ p → (k.proc q).pagetable ≠ (k.proc p).pagetable :=
  ⟨memory.kernelApart p, fun q other same => other (memory.apart p q some same.symm).symm⟩

theorem Memory.kernelPos : k.kernelPagetable ≠ 0 := by
  obtain ⟨S, tree⟩ := memory.kernel
  have label := (tree.labels 2 0 _).mpr tree.root
  exact (memory.heap.page k.kernelPagetable (by simp [label])).pos

theorem Memory.update (rest : Elsewhere k k' p) (heap : Heap (IsPage cfg) own' k'.mach)
    (within : Within (Private k p) own own' k.mach.mem k'.mach.mem)
    (size : (k'.proc p).sz ≤ TRAPFRAME) (empty : (k'.proc p).pagetable = 0 → (k'.proc p).sz = 0)
    (space : (k'.proc p).pagetable ≠ 0 → ((k'.proc p).pagetable ≠ k.kernelPagetable ∧
      ∀ q, q ≠ p → (k.proc q).pagetable ≠ (k'.proc p).pagetable) ∧ ∃ S, Space cfg own' k'.mach.mem
        (k'.proc p).pagetable (k'.proc p).trapframe (pagesOf (k'.proc p).sz) S)
    (trapframe : ∀ x, own' x = .trapframe p ↔ x ≠ 0 ∧ (k'.proc p).trapframe = x)
    (roots : ∀ x r, (own' x).root = some r → r ≠ k.kernelPagetable →
      (∀ q, q ≠ p → (k.proc q).pagetable ≠ r) → r ≠ 0 ∧ (k'.proc p).pagetable = r) :
    Memory cfg own' k' := by
  constructor
  · exact heap
  · intro x
    rw [← memory.pool, not_iff_not]
    exact within.iff (by simp [Private])
  · intro q
    by_cases same : q = p
    · exact same ▸ size
    · rw [(rest.spaces q same).sz]
      exact memory.size q
  · intro q
    by_cases same : q = p
    · exact same ▸ empty
    · rw [(rest.spaces q same).sz, (rest.spaces q same).pagetable]
      exact memory.empty q
  · intro q some
    by_cases same : q = p
    · subst same
      exact (space some).2
    · rw [(rest.spaces q same).pagetable] at some ⊢
      rw [(rest.spaces q same).sz, (rest.spaces q same).trapframe]
      obtain ⟨S, old⟩ := memory.space q some
      refine ⟨S, old.frame memory.used within ?_ ?_⟩
      · exact fun l n mine => mine.2 q same rfl
      · exact fun v mine => mine.2 q same rfl
  · intro q q' some equal
    by_cases first : q = p
    · by_cases second : q' = p
      · rw [first, second]
      · subst first
        rw [(rest.spaces q' second).pagetable] at equal
        exact absurd equal.symm ((space some).1.2 q' second)
    · by_cases second : q' = p
      · subst second
        have nonzero := equal ▸ some
        rw [(rest.spaces q first).pagetable] at equal
        exact absurd equal ((space nonzero).1.2 q first)
      · rw [(rest.spaces q first).pagetable] at some equal
        rw [(rest.spaces q' second).pagetable] at equal
        exact memory.apart q q' some equal
  · intro q x
    by_cases same : q = p
    · subst same
      exact trapframe x
    · rw [(rest.spaces q same).trapframe, ← memory.trapframe]
      exact within.iff same
  · intro x r root
    rw [rest.kernel]
    by_cases kernel : r = k.kernelPagetable
    · exact .inl kernel
    · by_cases alone : ∀ q, q ≠ p → (k.proc q).pagetable ≠ r
      · obtain ⟨nonzero, mine⟩ := roots x r root kernel alone
        exact .inr ⟨nonzero, p, mine⟩
      · -- the page belongs to another process, and did so before
        have foreign : ¬Private k p (own' x) := fun mine => alone (mine.root root).2
        have before : (own x).root = some r := by
          rw [(within.iff foreign).mp rfl]
          exact root
        push Not at alone
        obtain ⟨q, other, pagetable⟩ := alone
        refine .inr ⟨((memory.roots x r before).resolve_left kernel).1, q, ?_⟩
        rw [(rest.spaces q other).pagetable, pagetable]
  · obtain ⟨S, tree⟩ := memory.kernel
    rw [rest.kernel]
    exact ⟨S, tree.frame memory.used within fun l n mine => mine.1 rfl⟩
  · intro x v label
    rw [rest.kernel] at label
    have foreign : ¬Private k p (.user k.kernelPagetable v) := fun mine => mine.1 rfl
    exact memory.kernelUser x v ((within.iff foreign).mp label)
  · intro q
    rw [rest.kernel]
    by_cases same : q = p
    · by_cases none : (k'.proc p).pagetable = 0
      · rw [same, none]
        exact memory.kernelPos.symm
      · exact same ▸ (space none).1.1
    · rw [(rest.spaces q same).pagetable]
      exact memory.kernelApart q
  · intro n x
    rw [rest.kstacks, ← memory.kstack]
    exact within.iff id
  · intro n x
    rw [rest.rings, ← memory.ring]
    exact within.iff id

theorem Memory.same (same : SameMemory k k') : Memory cfg own k' := by
  have pagetable := fun q => (same.spaces q).pagetable
  have trapframe := fun q => (same.spaces q).trapframe
  have sz := fun q => (same.spaces q).sz
  have mach := same.mach
  have kernel := same.kernel
  constructor
  · exact mach ▸ memory.heap
  · exact memory.pool
  · simpa only [sz] using memory.size
  · simpa only [sz, pagetable] using memory.empty
  · simpa only [sz, pagetable, trapframe, mach] using memory.space
  · simpa only [pagetable] using memory.apart
  · simpa only [trapframe] using memory.trapframe
  · simpa only [pagetable, kernel] using memory.roots
  · simpa only [mach, kernel] using memory.kernel
  · simpa only [kernel] using memory.kernelUser
  · simpa only [pagetable, kernel] using memory.kernelApart
  · simpa only [same.kstacks] using memory.kstack
  · simpa only [same.rings] using memory.ring

end

theorem root_before {mem mem' : Mem} (within : Within (Mine r) own own' mem mem') {x r' : Nat}
    (root : (own' x).root = some r') : r' = r ∨ own x = own' x := by
  by_cases mine : Mine r (own' x)
  · rcases mine with free | same
    · simp [free, Label.root] at root
    · rw [same] at root
      exact .inl (Option.some.inj root).symm
  · exact .inr ((within.iff mine).mp rfl)

theorem Memory.resize (memory : Memory cfg own k) (rest : Elsewhere k k' p)
    (heap : Heap (IsPage cfg) own' k'.mach) (size : (k'.proc p).sz ≤ TRAPFRAME)
    (some : (k'.proc p).pagetable ≠ 0)
    (within : Within (Mine (k'.proc p).pagetable) own own' k.mach.mem k'.mach.mem)
    (space : ∃ S, Space cfg own' k'.mach.mem (k'.proc p).pagetable (k'.proc p).trapframe
      (pagesOf (k'.proc p).sz) S) (trapframe : (k'.proc p).trapframe = (k.proc p).trapframe)
    (pagetable : (k.proc p).pagetable = (k'.proc p).pagetable ∨
      (k.proc p).pagetable = 0 ∧ own (k'.proc p).pagetable = .free) : Memory cfg own' k' := by
  have alone : (k'.proc p).pagetable ≠ k.kernelPagetable ∧
      ∀ q, q ≠ p → (k.proc q).pagetable ≠ (k'.proc p).pagetable := by
    rcases pagetable with same | ⟨_, free⟩
    · rw [← same] at some ⊢
      exact memory.exclusive some
    · exact ⟨(memory.alone free).1, fun q _ => (memory.alone free).2 q⟩
  apply memory.update rest heap (within.mono fun l mine => private_of_mine mine alone.1 alone.2) size
    (fun none => absurd none some) (fun _ => ⟨alone, space⟩)
  · intro x
    rw [trapframe, ← memory.trapframe]
    exact within.iff (by simp [Mine, Label.root])
  · intro x r root kernel others
    rcases root_before within root with same | before
    · exact ⟨same ▸ some, same.symm⟩
    · rw [← before] at root
      obtain ⟨nonzero, q, table⟩ := (memory.roots x r root).resolve_left kernel
      by_cases here : q = p
      · subst here
        rcases pagetable with same | ⟨none, _⟩
        · exact ⟨nonzero, same.symm.trans table⟩
        · exact absurd (table.symm.trans none) nonzero
      · exact absurd table (others q here)

theorem Memory.redraw (memory : Memory cfg own k) (some : (k.proc p).pagetable ≠ 0)
    (heap : Heap (IsPage cfg) own' mach)
    (within : Within (Mine (k.proc p).pagetable) own own' k.mach.mem mach.mem)
    (space : ∃ S, Space cfg own' mach.mem (k.proc p).pagetable (k.proc p).trapframe
      (pagesOf (k.proc p).sz) S) : Memory cfg own' { k with mach } := by
  apply memory.resize (p := p)
  · exact ⟨fun _ _ => ⟨rfl, rfl, rfl⟩, rfl, rfl, rfl⟩
  · exact heap
  · exact memory.size p
  · exact some
  · exact within
  · exact space
  · rfl
  · exact .inl rfl

theorem Elsewhere.private (rest : Elsewhere k k' p) (mine : Private k' p l) : Private k p l := by
  cases l with
  | table r level n | user r v =>
    exact ⟨rest.kernel ▸ mine.1, fun q other => (rest.spaces q other).pagetable ▸ mine.2 q other⟩
  | outside | free | trapframe | argument | kstack | ring => exact mine

theorem Memory.touch {P : Label → Prop} (memory : Memory cfg own k)
    (heap : Heap (IsPage cfg) own mach) (within : Within P own own k.mach.mem mach.mem)
    (tables : ∀ r l n, ¬P (.table r l n)) : Memory cfg own { k with mach } :=
  { memory with
    heap
    space := fun p some =>
      (memory.space p some).imp fun _ space => space.touch memory.used within (tables _)
    kernel := memory.kernel.imp fun _ tree => tree.frame memory.used within (tables _) }

theorem Memory.scratch (memory : Memory cfg own k) (heap : Heap (IsPage cfg) own' mach)
    (within : Within Scratch own own' k.mach.mem mach.mem) : Memory cfg own' { k with mach } := by
  have same : ∀ l, l ≠ .free → l ≠ .argument → ∀ x, own' x = l ↔ own x = l := by
    intro l busy other x
    exact within.iff fun inside => inside.elim busy other
  exact
    { memory with
      heap
      pool := fun x => by rw [← memory.pool, not_iff_not, same _ (by simp) (by simp)]
      space := fun p some => (memory.space p some).imp fun _ space =>
        space.frame memory.used within (by simp [Scratch]) (by simp [Scratch])
      trapframe := fun p x => by rw [same _ (by simp) (by simp), memory.trapframe]
      roots := fun x r root => by
        have before := (same (own' x) (by rintro h; simp [h, Label.root] at root)
          (by rintro h; simp [h, Label.root] at root) x).mp rfl
        exact memory.roots x r (by rw [before]; exact root)
      kernel := memory.kernel.imp fun _ tree => tree.frame memory.used within (by simp [Scratch])
      kernelUser := fun x v label => memory.kernelUser x v ((same _ (by simp) (by simp) x).mp label)
      kstack := fun n x => by rw [same _ (by simp) (by simp), memory.kstack]
      ring := fun n x => by rw [same _ (by simp) (by simp), memory.ring] }

end Invariant
end Xv6Lab.Kernel
