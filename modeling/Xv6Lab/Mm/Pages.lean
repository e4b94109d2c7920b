import Xv6Lab.Mm.Model

/-!
Who owns each page of physical memory: every page carries one label.
-/

namespace Xv6Lab.Mm
open List
open Function (update update_eq_self update_of_ne update_self)

open Bytes (Mem load store fill write read)

/-- table r level n is the page-table page of the tree with root r that translates the n-th
range of 512 ^ (level + 1) pages; user r v is the user page behind leaf v. -/
inductive Label
  | outside
  | free
  | table (r level n : Nat)
  | user (r v : Nat)
  | trapframe (p : Nat)
  | argument
  | kstack (n : Nat)
  | ring (n : Nat)
deriving DecidableEq, Repr

def SamePage (mem mem' : Mem) (x : Nat) : Prop := ∀ o, o < PGSIZE → mem' (x + o) = mem (x + o)

section Bytes
variable {mem mem' : Mem} {x y a n v : Nat}

theorem SamePage.refl (mem : Mem) (x : Nat) : SamePage mem mem x := fun _ _ => rfl

theorem SamePage.trans {mem'' : Mem} (first : SamePage mem mem' x)
    (second : SamePage mem' mem'' x) : SamePage mem mem'' x :=
  fun o inside => (second o inside).trans (first o inside)

theorem apart_of_ne (first : x % PGSIZE = 0) (second : y % PGSIZE = 0) (other : x ≠ y) :
    x + PGSIZE ≤ y ∨ y + PGSIZE ≤ x := by
  simp only [PGSIZE] at *
  omega

theorem SamePage.load (same : SamePage mem mem' x) (low : x ≤ a) (high : a + n ≤ x + PGSIZE) :
    load mem' a n = load mem a n := by
  refine Bytes.load_congr fun b above below => ?_
  have byte := same (b - x) (by omega)
  rwa [Nat.add_sub_cancel' (by omega)] at byte

def OnlyPage (mem mem' : Mem) (x : Nat) : Prop :=
  ∀ y, y % PGSIZE = 0 → y ≠ x → SamePage mem mem' y

theorem OnlyPage.trans {mem'' : Mem} (first : OnlyPage mem mem' x)
    (second : OnlyPage mem' mem'' x) : OnlyPage mem mem'' x :=
  fun y aligned other => (first y aligned other).trans (second y aligned other)

section
variable (aligned : x % PGSIZE = 0)
include aligned

theorem onlyPage_of_outside (low : x ≤ a) (high : a + n ≤ x + PGSIZE)
    (outside : ∀ b, b < a ∨ a + n ≤ b → mem' b = mem b) : OnlyPage mem mem' x := by
  intro y aligned' other o inside
  have apart := apart_of_ne aligned aligned' (fun same => other same.symm)
  exact outside (y + o) (by omega)

theorem onlyPage_store (low : x ≤ a) (high : a + n ≤ x + PGSIZE) :
    OnlyPage mem (store mem a n v) x :=
  onlyPage_of_outside aligned low high fun _ outside => Bytes.store_outside outside

theorem onlyPage_fill {b : UInt8} : OnlyPage mem (fill mem x PGSIZE b) x :=
  onlyPage_of_outside aligned le_rfl le_rfl fun _ outside => Bytes.fill_outside outside

theorem onlyPage_write {bytes : List UInt8} (low : x ≤ a)
    (high : a + bytes.length ≤ x + PGSIZE) : OnlyPage mem (write mem a bytes) x :=
  onlyPage_of_outside aligned low high fun _ outside => Bytes.write_outside outside

end
end Bytes

/-- Only pages with a label in P get a new label, again in P, or are written to. -/
structure Within (P : Label → Prop) (own own' : Nat → Label) (mem mem' : Mem) : Prop where
  label : ∀ x, ¬P (own x) → own' x = own x
  stay : ∀ x, P (own x) → P (own' x)
  bytes : ∀ x, x % PGSIZE = 0 → ¬P (own x) → SamePage mem mem' x

section Within
variable {P Q : Label → Prop} {own own' own'' : Nat → Label} {mem mem' mem'' : Mem} {x : Nat}

theorem Within.refl (P : Label → Prop) (own : Nat → Label) (mem : Mem) : Within P own own mem mem :=
  ⟨fun _ _ => rfl, fun _ inside => inside, fun x _ _ => SamePage.refl mem x⟩

theorem Within.trans (first : Within P own own' mem mem') (second : Within P own' own'' mem' mem'') :
    Within P own own'' mem mem'' where
  label x outside := by
    have same := first.label x outside
    rw [second.label x (by rwa [same]), same]
  stay x inside := second.stay x (first.stay x inside)
  bytes x aligned outside := by
    refine (first.bytes x aligned outside).trans (second.bytes x aligned ?_)
    rwa [first.label x outside]

theorem Within.mono (within : Within P own own' mem mem') (more : ∀ l, P l → Q l) :
    Within Q own own' mem mem' where
  label x outside := within.label x fun inside => outside (more _ inside)
  stay x inside := by
    by_cases narrow : P (own x)
    · exact more _ (within.stay x narrow)
    · rwa [within.label x narrow]
  bytes x aligned outside := within.bytes x aligned fun inside => outside (more _ inside)

theorem Within.iff (within : Within P own own' mem mem') {l : Label} (outside : ¬P l) :
    own' x = l ↔ own x = l := by
  by_cases inside : P (own x)
  · constructor
    · rintro rfl
      exact absurd (within.stay x inside) outside
    · rintro rfl
      exact absurd inside outside
  · rw [within.label x inside]

theorem Within.relabel {l : Label} (before : P (own x)) (after : P l)
    (only : OnlyPage mem mem' x) : Within P own (update own x l) mem mem' where
  label y outside := by
    have other : y ≠ x := by
      rintro rfl
      exact outside before
    rw [update_of_ne other]
  stay y inside := by
    by_cases same : y = x
    · subst same
      rwa [update_self]
    · rwa [update_of_ne same]
  bytes y aligned outside := only y aligned (by
    rintro rfl
    exact outside before)

theorem Within.touch (inside : P (own x)) (only : OnlyPage mem mem' x) :
    Within P own own mem mem' := by
  have relabel := Within.relabel inside inside only
  rwa [update_eq_self] at relabel

end Within

def Chain (mem : Mem) : Nat → List Nat → Prop
  | head, [] => head = 0
  | head, x :: rest => head = x ∧ x ≠ 0 ∧ Chain mem (load mem x 8) rest

section FreeList
variable {mem mem' : Mem} {head : Nat} {F : List Nat}

theorem Chain.congr (chain : Chain mem head F) (same : ∀ x ∈ F, SamePage mem mem' x) :
    Chain mem' head F := by
  induction F generalizing head with
  | nil => exact chain
  | cons x rest ih =>
    obtain ⟨first, nonzero, tail⟩ := chain
    refine ⟨first, nonzero, ?_⟩
    rw [(same x mem_cons_self).load (by omega) (by simp [PGSIZE])]
    exact ih tail fun y member => same y (mem_cons_of_mem _ member)

theorem Chain.countFree (chain : Chain mem head F) {n : Nat} (room : F.length ≤ n) :
    countFree mem n head = F.length := by
  induction F generalizing head n with
  | nil =>
    obtain rfl : head = 0 := chain
    cases n <;> simp [Mm.countFree]
  | cons x rest ih =>
    obtain ⟨rfl, nonzero, tail⟩ := chain
    cases n with
    | zero => simp at room
    | succ n =>
      rw [Mm.countFree, if_neg nonzero, ih tail (by simpa using room), length_cons]
      omega

end FreeList

def Phys (x : Nat) : Prop := x % PGSIZE = 0 ∧ x < 2 ^ 56

instance (x : Nat) : Decidable (Phys x) := inferInstanceAs (Decidable (_ ∧ _))

def IsPage (cfg : Config) (x : Nat) : Prop :=
  x % PGSIZE = 0 ∧ cfg.kernelEnd ≤ x ∧ x < cfg.physTop

instance (cfg : Config) (x : Nat) : Decidable (IsPage cfg x) := inferInstanceAs (Decidable (_ ∧ _))

theorem IsPage.pos {cfg : Config} {x : Nat} (page : IsPage cfg x) : x ≠ 0 := by
  have text := cfg.text
  have data := cfg.data
  simp only [KERNBASE, PGSIZE] at text
  have := page.2.1
  omega

theorem IsPage.phys {cfg : Config} {x : Nat} (page : IsPage cfg x) : Phys x :=
  ⟨page.1, lt_of_lt_of_le page.2.2 cfg.top⟩

/-- The free list holds the pages labelled free, each once. Labels are for pages in Pg. -/
structure Heap (Pg : Nat → Prop) (own : Nat → Label) (s : Mach) : Prop where
  list : ∃ F, Chain s.mem s.freelist F ∧ F.Nodup ∧ ∀ x, x ∈ F ↔ own x = .free
  page : ∀ x, own x ≠ .outside → Pg x
  phys : ∀ x, Pg x → Phys x

section Specs
variable {cfg : Config} {Pg : Nat → Prop} {own own' : Nat → Label} {s s' : Mach} {x : Nat}
  {P : Label → Prop}

section
variable (heap : Heap Pg own s)
include heap

theorem Heap.used (used : own x ≠ .outside) : Phys x :=
  heap.phys x (heap.page x used)

theorem Heap.frame {mem : Mem} (within : Within P own own' s.mem mem)
    (busy : ¬P .free) (inside : ¬P .outside) : Heap Pg own' { s with mem } := by
  obtain ⟨F, chain, nodup, members⟩ := heap.list
  refine ⟨⟨F, chain.congr ?_, nodup, ?_⟩, ?_, heap.phys⟩
  · intro x member
    have label := (members x).mp member
    exact within.bytes x (heap.used (by simp [label])).1 (by rwa [label])
  · intro x
    rw [members, within.iff busy]
  · intro x used
    exact heap.page x fun label => used ((within.iff inside).mpr label)

theorem Heap.relabel {l : Label} (busy : own x ≠ .free)
    (used : own x ≠ .outside) (busy' : l ≠ .free) : Heap Pg (update own x l) s := by
  obtain ⟨F, chain, nodup, members⟩ := heap.list
  refine ⟨⟨F, chain, nodup, ?_⟩, ?_, heap.phys⟩
  · intro y
    by_cases same : y = x
    · subst same
      simp [members, busy, busy']
    · rw [members, update_of_ne same]
  · intro y inside
    by_cases same : y = x
    · subst same
      exact heap.page y used
    · rw [update_of_ne same] at inside
      exact heap.page y inside

theorem kalloc_spec (l : Label) (busy : l ≠ .free) : wp kalloc (fun _ => False) (fun x s' =>
      (x = 0 ∧ s'.mem = s.mem ∧ Heap Pg own s') ∨
      (own x = .free ∧ x ≠ 0 ∧ OnlyPage s.mem s'.mem x ∧
        Heap Pg (update own x l) s')) s := by
  obtain ⟨F, chain, nodup, members⟩ := heap.list
  unfold kalloc memset
  simp only [wp_bind, wp_get, wp_ite, wp_set, wp_modify, wp_pure]
  refine ⟨fun _ => .inl ⟨trivial, trivial, ⟨⟨F, chain, nodup, members⟩, heap.page, heap.phys⟩⟩,
    fun available => .inr ?_⟩
  have nonzero : s.freelist ≠ 0 := fun zero => available (.inr zero)
  cases F with
  | nil => exact absurd chain nonzero
  | cons x rest =>
    obtain ⟨first, positive, tail⟩ := chain
    obtain ⟨fresh, nodup⟩ := nodup_cons.mp nodup
    have label := (members x).mp mem_cons_self
    have page := heap.page x (by simp [label])
    have only : OnlyPage s.mem (fill s.mem x PGSIZE 5) x := onlyPage_fill (heap.phys x page).1
    rw [first]
    refine ⟨label, positive, only, ⟨rest, ?_, nodup, ?_⟩, ?_, heap.phys⟩
    · apply tail.congr
      intro y member
      have label' := (members y).mp (mem_cons_of_mem _ member)
      apply only y (heap.used (by simp [label'])).1
      intro same
      exact fresh (same ▸ member)
    · intro y
      by_cases same : y = x
      · subst same
        simp [fresh, busy]
      · rw [update_of_ne same, ← members, mem_cons, or_iff_right same]
    · intro y used
      by_cases same : y = x
      · exact same ▸ page
      · rw [update_of_ne same] at used
        exact heap.page y used

end

theorem kfree_touch (page : IsPage cfg x) :
    wp (kfree cfg x) (fun _ => False) (fun _ s' =>
      s' = { s with mem := store (fill s.mem x PGSIZE 1) x 8 s.freelist, freelist := x } ∧
        OnlyPage s.mem s'.mem x) s := by
  have check : ¬(x % PGSIZE ≠ 0 ∨ x < cfg.kernelEnd ∨ cfg.physTop ≤ x) := by
    obtain ⟨aligned, low, high⟩ := page
    omega
  unfold kfree memset
  rw [if_neg check]
  simp only [wp_bind, wp_modify]
  exact ⟨trivial, (onlyPage_fill page.1).trans (onlyPage_store page.1 (by omega) (by simp [PGSIZE]))⟩

theorem kfree_add (heap : Heap Pg own s) (page : IsPage cfg x) (busy : own x ≠ .free)
    (inside : Pg x) : wp (kfree cfg x) (fun _ => False) (fun _ s' =>
      OnlyPage s.mem s'.mem x ∧ Heap Pg (update own x .free) s') s := by
  obtain ⟨F, chain, nodup, members⟩ := heap.list
  apply wp_post (kfree_touch page)
  rintro _ s' ⟨after, only⟩
  refine ⟨only, ?_⟩
  subst after
  have small : s.freelist < 256 ^ 8 := by
    cases F with
    | nil =>
      rw [show s.freelist = 0 from chain]
      decide
    | cons y tail =>
      have label := (members y).mp mem_cons_self
      rw [chain.1]
      exact lt_trans (heap.used (by simp [label])).2 (by norm_num)
  have fresh : x ∉ F := fun member => busy ((members x).mp member)
  refine ⟨⟨x :: F, ⟨rfl, page.pos, ?_⟩, nodup_cons.mpr ⟨fresh, nodup⟩, ?_⟩, ?_, heap.phys⟩
  · simp only [Bytes.load_store small]
    apply chain.congr
    intro y member
    have label := (members y).mp member
    apply only y (heap.used (by simp [label])).1
    intro same
    exact fresh (same ▸ member)
  · intro y
    by_cases same : y = x
    · subst same
      simp
    · rw [update_of_ne same, ← members, mem_cons, or_iff_right same]
  · intro y used'
    by_cases same : y = x
    · exact same ▸ inside
    · rw [update_of_ne same] at used'
      exact heap.page y used'

theorem kfree_spec (heap : Heap Pg own s) (page : IsPage cfg x) (busy : own x ≠ .free)
    (used : own x ≠ .outside) : wp (kfree cfg x) (fun _ => False) (fun _ s' =>
      OnlyPage s.mem s'.mem x ∧ Heap Pg (update own x .free) s') s :=
  kfree_add heap page busy (heap.page x used)

end Specs
end Xv6Lab.Mm
