import Xv6Lab.Kernel.Exec

/-!
Boot: every page of the pool becomes free, then the kernel takes what it keeps.
-/

namespace Xv6Lab.Kernel
open List
open Function (update update_of_ne update_self)

open Bytes (Mem load store write read)
open Mm
open Fs
open Proc (ProcState)
variable {x : Nat} {S : Shape}

section Pool
variable {cfg : Config}

theorem mem_rangePages {top n p : Nat} (member : x ∈ rangePages top n p) (aligned : p % PGSIZE = 0) :
    x % PGSIZE = 0 ∧ p ≤ x ∧ x + PGSIZE ≤ top := by
  induction n generalizing p with
  | zero => simp [rangePages] at member
  | succ n ih =>
    rw [rangePages] at member
    split at member
    · next fits =>
        rcases mem_cons.mp member with here | later
        · subst here
          exact ⟨aligned, le_rfl, fits⟩
        · obtain ⟨aligned', low, high⟩ := ih later (by simp only [PGSIZE] at *; omega)
          exact ⟨aligned', by omega, high⟩
    · simp at member

theorem nodup_rangePages (top n p : Nat) (aligned : p % PGSIZE = 0) : (rangePages top n p).Nodup := by
  induction n generalizing p with
  | zero => simp [rangePages]
  | succ n ih =>
    have next : (p + PGSIZE) % PGSIZE = 0 := by
      simp only [PGSIZE] at *
      omega
    rw [rangePages]
    split
    · refine nodup_cons.mpr ⟨fun member => ?_, ih _ next⟩
      have := (mem_rangePages member next).2.1
      simp only [PGSIZE] at *
      omega
    · exact nodup_nil

theorem aligned_roundUp (sz : Nat) : pgRoundUp sz % PGSIZE = 0 := by
  simp [pgRoundUp]

theorem pool_page (member : x ∈ pool cfg) : IsPage cfg x := by
  obtain ⟨aligned, low, high⟩ := mem_rangePages member (aligned_roundUp _)
  have := pgRoundUp_le cfg.kernelEnd
  simp only [PGSIZE] at high
  exact ⟨aligned, by omega, by omega⟩

theorem pool_nodup : (pool cfg).Nodup := nodup_rangePages _ _ _ (aligned_roundUp _)

theorem freeAll_boot {own : Nat → Label} {s : Mach} {pages : List Nat} (heap : Heap (IsPage cfg) own s)
    (inside : ∀ x ∈ pages, IsPage cfg x) (nodup : pages.Nodup) (unused : ∀ x ∈ pages, own x = .outside) :
    wp (freeAll cfg pages) (fun _ => False)
      (fun _ s' => Heap (IsPage cfg) (mark own pages .free) s') s := by
  induction pages generalizing own s with
  | nil =>
    rw [mark_nil]
    exact heap
  | cons y pages ih =>
    obtain ⟨new, nodup⟩ := nodup_cons.mp nodup
    have page := inside y mem_cons_self
    have label := unused y mem_cons_self
    rw [freeAll]
    apply wp_seq (kfree_add heap page (by simp [label]) page)
    rintro _ s1 ⟨_, heap1⟩
    rw [← mark_cons new]
    apply ih heap1 (fun x member => inside x (mem_cons_of_mem _ member)) nodup
    intro x member
    have other : x ≠ y := fun same => new (same ▸ member)
    rw [update_of_ne other]
    exact unused x (mem_cons_of_mem _ member)

end Pool

structure Kept (cfg : Config) (own : Nat → Label) (s : Mach) (r : Nat) (kstacks rings : List Nat) :
    Prop where
  heap : Heap (IsPage cfg) own s
  pool : ∀ x, own x ≠ .outside ↔ x ∈ pool cfg
  tree : ∃ S, Tree Plain own s.mem r S
  kstack : ∀ n x, own x = .kstack n ↔ kstacks[n]? = some x
  ring : ∀ n x, own x = .ring n ↔ rings[n]? = some x
  others : ∀ x, (∃ l n, own x = .table r l n) ∨ (∃ n, own x = .kstack n) ∨ (∃ n, own x = .ring n) ∨
    own x = .free ∨ own x = .outside

section Setup
variable {cfg : Config} {own : Nat → Label} {s : Mach} {r : Nat} {kstacks rings : List Nat}

section
variable (kept : Kept cfg own s r kstacks rings)
include kept

theorem Kept.tables {own' : Nat → Label} {s' : Mach} (pt : PageTable (IsPage cfg) Plain own' s' r S)
    (within : Within (Mm.Tables r) own own' s.mem s'.mem) : Kept cfg own' s' r kstacks rings := by
  refine ⟨pt.toHeap, fun x => ?_, ⟨S, pt.tree⟩, fun n x => ?_, fun n x => ?_, fun x => ?_⟩
  · rw [← kept.pool, not_iff_not]
    exact within.iff id
  · rw [← kept.kstack]
    exact within.iff id
  · rw [← kept.ring]
    exact within.iff id
  · by_cases inside : Mm.Tables r (own x)
    · have stays := within.stay x inside
      cases label : own' x with
      | free | outside | kstack n | ring n => simp
      | table r' l n =>
        rw [label] at stays
        obtain rfl : r' = r := stays
        exact .inl ⟨l, n, rfl⟩
      | user | trapframe | argument => rw [label] at stays; exact stays.elim
    · rw [within.label x inside]
      exact kept.others x

theorem Kept.pageTable : ∃ S, PageTable (IsPage cfg) Plain own s r S :=
  kept.tree.imp fun _ tree => ⟨kept.heap, tree, plain_interior⟩

theorem kvmmap_kept {va pa sz perm : Nat} (small : perm < 2 ^ 10) (fits : pa < 2 ^ 64) :
    wp (kvmmap r va pa sz perm) (fun _ => True)
      (fun _ s' => ∃ own', Kept cfg own' s' r kstacks rings) s := by
  obtain ⟨S, pt⟩ := kept.pageTable
  have mapped : wp (mappages r va sz pa perm) (fun _ => True)
      (fun _ s' => ∃ own', Kept cfg own' s' r kstacks rings) s := by
    unfold mappages
    simp only [wp_ite, wp_throw, implies_true, true_and]
    intro _ _ _
    apply wp_mono (mapLoop_any pt small fits) _ fun _ _ => trivial
    rintro _ s' ⟨own', S', pt', within⟩
    exact ⟨own', kept.tables pt' within⟩
  unfold kvmmap
  apply wp_seq mapped
  intro ok s' kept'
  simp only [wp_ite, wp_pure, wp_throw, implies_true, and_true]
  exact fun _ => kept'

end

-- a range has thousands of pages; from here on nothing needs to look into it
attribute [local irreducible] kvmmap

theorem place_append {place : Nat → Label} {xs : List Nat} {y : Nat}
    (injective : ∀ m n, place m = place n ↔ m = n) (places : ∀ n x, own x = place n ↔ xs[n]? = some x)
    (new : ∀ n, own y ≠ place n) (n x : Nat) :
    update own y (place xs.length) x = place n ↔ (xs ++ [y])[n]? = some x := by
  by_cases here : x = y
  · subst here
    have absent : xs[n]? ≠ some x := fun found => new n ((places n x).mpr found)
    rw [update_self, injective, getElem?_append]
    by_cases low : n < xs.length
    · simp only [low, if_true]
      exact ⟨fun same => by omega, fun found => absurd found absent⟩
    · simp only [low, if_false]
      by_cases last : n = xs.length
      · simp [last]
      · rw [getElem?_eq_none (by simp; omega)]
        simp [Ne.symm last]
  · rw [update_of_ne here, places, getElem?_append]
    by_cases low : n < xs.length
    · simp [low]
    · simp only [low, if_false]
      rw [getElem?_eq_none (by omega)]
      by_cases last : n = xs.length
      · simp [last, Ne.symm here]
      · rw [getElem?_eq_none (by simp; omega)]

section Take
variable {y : Nat} {s' : Mach}

section
variable (kept : Kept cfg own s r kstacks rings)
include kept

theorem Kept.take {l : Label} (free : own y = .free)
    (only : OnlyPage s.mem s'.mem y) (used : l ≠ .outside) (kind : (∃ n, l = .kstack n) ∨ ∃ n, l = .ring n) :
    (∀ x, update own y l x ≠ .outside ↔ x ∈ Mm.pool cfg) ∧
    (∃ S, Tree Plain (update own y l) s'.mem r S) ∧
    ∀ x, (∃ l' n, update own y l x = .table r l' n) ∨
      (∃ n, update own y l x = .kstack n) ∨ (∃ n, update own y l x = .ring n) ∨
      update own y l x = .free ∨ update own y l x = .outside := by
  refine ⟨fun x => ?_, ?_, fun x => ?_⟩
  · by_cases here : x = y
    · subst here
      rw [update_self, ← kept.pool, free]
      simp [used]
    · rw [update_of_ne here, kept.pool]
  · obtain ⟨S, tree⟩ := kept.tree
    have within : Within (fun l' => l' = .free ∨ l' = l) own (update own y l) s.mem s'.mem :=
      Within.relabel (.inl free) (.inr rfl) only
    refine ⟨S, tree.frame (fun _ => kept.heap.used) within fun l' n => ?_⟩
    rcases kind with ⟨m, rfl⟩ | ⟨m, rfl⟩
    · simp
    · simp
  · by_cases here : x = y
    · subst here
      simp only [update_self]
      rcases kind with kind | kind
      · exact .inr (.inl kind)
      · exact .inr (.inr (.inl kind))
    · simp only [update_of_ne here]
      exact kept.others x

theorem Kept.addStack (free : own y = .free) (only : OnlyPage s.mem s'.mem y)
    (heap : Heap (IsPage cfg) (update own y (.kstack kstacks.length)) s') :
    Kept cfg (update own y (.kstack kstacks.length)) s' r (kstacks ++ [y]) rings := by
  obtain ⟨pool, tree, others⟩ := kept.take free only (by simp) (.inl ⟨kstacks.length, rfl⟩)
  refine ⟨heap, pool, tree, ?_, fun n x => ?_, others⟩
  · exact place_append (fun _ _ => Label.kstack.injEq .. ▸ Iff.rfl) kept.kstack (by simp [free])
  · rw [← kept.ring]
    by_cases here : x = y
    · subst here
      simp [free]
    · rw [update_of_ne here]

theorem Kept.addRing (free : own y = .free) (only : OnlyPage s.mem s'.mem y)
    (heap : Heap (IsPage cfg) (update own y (.ring rings.length)) s') :
    Kept cfg (update own y (.ring rings.length)) s' r kstacks (rings ++ [y]) := by
  obtain ⟨pool, tree, others⟩ := kept.take free only (by simp) (.inr ⟨rings.length, rfl⟩)
  refine ⟨heap, pool, tree, fun n x => ?_, ?_, others⟩
  · rw [← kept.kstack]
    by_cases here : x = y
    · subst here
      simp [free]
    · rw [update_of_ne here]
  · exact place_append (fun _ _ => Label.ring.injEq .. ▸ Iff.rfl) kept.ring (by simp [free])

end
end Take

theorem mapstacks_kept (n : Nat) (kept : Kept cfg own s r kstacks rings) :
    wp (mapstacks r n) (fun _ => True) (fun pages s' => ∃ own',
      Kept cfg own' s' r (kstacks ++ pages) rings) s := by
  induction n generalizing own s kstacks with
  | zero => exact ⟨own, by simpa using kept⟩
  | succ n ih =>
    rw [mapstacks]
    apply wp_seq (wp_mono (kalloc_spec kept.heap (.kstack kstacks.length) (by simp))
      (fun _ _ h => h) fun _ _ => trivial)
    intro y s1 taken
    rcases taken with ⟨zero, _⟩ | ⟨free, nonzero, only, heap1⟩
    · rw [if_pos zero]
      exact trivial
    · rw [if_neg nonzero]
      have page := kept.heap.used (x := y) (by simp [free])
      apply wp_seq (kvmmap_kept (kept.addStack free only heap1) (by decide)
        (lt_trans page.2 (by norm_num)))
      rintro _ s2 ⟨own2, kept2⟩
      apply wp_seq (ih kept2)
      rintro pages s3 ⟨own3, kept3⟩
      exact ⟨own3, by simpa using kept3⟩

theorem ring_kept (kept : Kept cfg own s r kstacks rings) :
    wp ring (fun _ => True) (fun page s' => ∃ own', Kept cfg own' s' r kstacks (rings ++ [page])) s := by
  unfold ring
  apply wp_seq (wp_mono (kalloc_spec kept.heap (.ring rings.length) (by simp)) (fun _ _ h => h)
    fun _ _ => trivial)
  intro y s1 taken
  rcases taken with ⟨zero, _⟩ | ⟨free, nonzero, only, heap1⟩
  · rw [if_pos zero]
    exact trivial
  · rw [if_neg nonzero, wp_bind, wp_memset]
    have page := kept.heap.used (x := y) (by simp [free])
    have zeroed : OnlyPage s1.mem (Bytes.fill s1.mem y PGSIZE 0) y := onlyPage_fill page.1
    have heap2 : Heap (IsPage cfg) (update own y (.ring rings.length))
        { s1 with mem := Bytes.fill s1.mem y PGSIZE 0 } :=
      heap1.frame (P := fun l => l = .ring rings.length) (Within.touch (by simp) zeroed) (by simp)
        (by simp)
    exact ⟨_, kept.addRing free (only.trans zeroed) heap2⟩

def unowned (cfg : Config) : Nat → Label := mark (fun _ => .outside) (pool cfg) .free

theorem unowned_cases (cfg : Config) (x : Nat) :
    x ∈ pool cfg ∧ unowned cfg x = .free ∨ x ∉ pool cfg ∧ unowned cfg x = .outside := by
  by_cases member : x ∈ pool cfg
  · exact .inl ⟨member, by simp [unowned, mark, member]⟩
  · exact .inr ⟨member, by simp [unowned, mark, member]⟩

theorem Kept.root (heap : Heap (IsPage cfg) (update (unowned cfg) r (.table r 2 0)) s)
    (tree : Tree Plain (update (unowned cfg) r (.table r 2 0)) s.mem r S)
    (free : unowned cfg r = .free) : Kept cfg (update (unowned cfg) r (.table r 2 0)) s r [] [] := by
  have labels : ∀ x, (x = r ∧ update (unowned cfg) r (.table r 2 0) x = .table r 2 0) ∨
      (x ≠ r ∧ update (unowned cfg) r (.table r 2 0) x = unowned cfg x) := by
    intro x
    by_cases here : x = r
    · exact .inl ⟨here, by rw [here, update_self]⟩
    · exact .inr ⟨here, update_of_ne here ..⟩
  refine ⟨heap, fun x => ?_, ⟨S, tree⟩, fun n x => ?_, fun n x => ?_, fun x => ?_⟩
  · rcases labels x with ⟨here, label⟩ | ⟨_, label⟩
    · rw [label, here]
      have member := (unowned_cases cfg r).resolve_right (by simp [free])
      simp [member.1]
    · rw [label]
      rcases unowned_cases cfg x with ⟨member, own⟩ | ⟨absent, own⟩
      · simp [own, member]
      · simp [own, absent]
  all_goals
    rcases labels x with ⟨_, label⟩ | ⟨_, label⟩
    · simp [label]
    · rcases unowned_cases cfg x with ⟨_, own⟩ | ⟨_, own⟩
      · simp [label, own]
      · simp [label, own]

theorem kvmmake_kept (heap : Heap (IsPage cfg) (unowned cfg) s) :
    wp (kvmmake cfg) (fun _ => True) (fun result s' => ∃ own', Kept cfg own' s' result.1 result.2 []) s := by
  have rooted : Rooted (unowned cfg) := by
    intro x r root
    rcases unowned_cases cfg x with ⟨_, label⟩ | ⟨_, label⟩
    · simp [label, Label.root] at root
    · simp [label, Label.root] at root
  unfold kvmmake
  apply wp_seq (wp_mono (kalloc_spec heap .argument (by simp)) (fun _ _ h => h) fun _ _ => trivial)
  intro r s1 taken
  rcases taken with ⟨zero, _⟩ | ⟨free, nonzero, only, heap1⟩
  · rw [if_pos zero]
    exact trivial
  · have page := heap.page r (by simp [free])
    have etext : cfg.etext < 2 ^ 64 ∧ cfg.trampoline < 2 ^ 64 := by
      have text := cfg.text
      have data := cfg.data
      have top := cfg.top
      have bound := page.2
      omega
    obtain ⟨_, pt⟩ := create_root heap rooted free only heap1
    have kept := Kept.root pt.toHeap pt.tree free
    rw [if_neg nonzero, wp_bind, wp_memset]
    apply wp_seq (kvmmap_kept kept (by decide) (by decide))
    rintro _ s2 ⟨own2, kept⟩
    apply wp_seq (kvmmap_kept kept (by decide) (by decide))
    rintro _ s3 ⟨own3, kept⟩
    apply wp_seq (kvmmap_kept kept (by decide) (by decide))
    rintro _ s4 ⟨own4, kept⟩
    apply wp_seq (kvmmap_kept kept (by decide) (by decide))
    rintro _ s5 ⟨own5, kept⟩
    apply wp_seq (kvmmap_kept kept (by decide) (by decide))
    rintro _ s6 ⟨own6, kept⟩
    apply wp_seq (kvmmap_kept kept (by decide) etext.1)
    rintro _ s7 ⟨own7, kept⟩
    apply wp_seq (kvmmap_kept kept (by decide) etext.2)
    rintro _ s8 ⟨own8, kept⟩
    apply wp_seq (mapstacks_kept NPROC kept)
    intro pages s9 kept
    exact kept

end Setup
end Xv6Lab.Kernel
