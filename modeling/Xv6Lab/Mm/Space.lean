import Xv6Lab.Mm.Growth
import Mathlib.Data.Finset.Card
import Mathlib.Order.Interval.Finset.Nat

/-!
User address spaces: a tree whose leaves are the pages from 0 to n, the trapframe
and the trampoline.
-/

namespace Xv6Lab.Mm
open Bytes (Mem load store fill write read)
variable {sz oldsz newsz xperm : Nat}

def Small (cfg : Config) : Prop := cfg.physTop - KERNBASE < TRAPFRAME

structure Space (cfg : Config) (own : Nat → Label) (mem : Mem) (r tf n : Nat) (S : Shape) :
    Prop where
  tree : Tree Plain own mem r S
  users : Users own r S
  bound : n ≤ USERTOP
  low : ∀ v, v < USERTOP → (S.leaf v = none ↔ n ≤ v)
  trapframe : S.leaf USERTOP = some (leafOf tf (PTE_R ||| PTE_W))
  trampoline : S.leaf (USERTOP + 1) = some (leafOf cfg.trampoline (PTE_R ||| PTE_X))
  high : ∀ v, USERTOP + 1 < v → S.leaf v = none
  readable : ∀ v e, S.leaf v = some e → e &&& PTE_R ≠ 0

section Space
variable {cfg : Config} {own own' : Nat → Label} {mem mem' : Mem} {s s' : Mach} {r tf n m : Nat}
  {S S' : Shape} {P : Label → Prop}

theorem Space.pageTable (space : Space cfg own s.mem r tf n S) (heap : Heap (IsPage cfg) own s) :
    PageTable (IsPage cfg) Plain own s r S :=
  ⟨heap, space.tree, plain_interior⟩

section
variable (space : Space cfg own mem r tf n S)
include space

theorem Space.frame (pages : ∀ x, own x ≠ .outside → Phys x)
    (within : Within P own own' mem mem') (tables : ∀ l n, ¬P (.table r l n))
    (user : ∀ v, ¬P (.user r v)) : Space cfg own' mem' r tf n S :=
  { space with
    tree := space.tree.frame pages within tables
    users := space.users.frame within user }

theorem Space.resize (tree : Tree Plain own' mem' r S') (users : Users own' r S')
    (bound : m ≤ USERTOP) (low : ∀ v, v < USERTOP → (S'.leaf v = none ↔ m ≤ v))
    (same : ∀ v, USERTOP ≤ v → S'.leaf v = S.leaf v)
    (readable : ∀ v e, v < USERTOP → S'.leaf v = some e → e &&& PTE_R ≠ 0) :
    Space cfg own' mem' r tf m S' where
  tree := tree
  users := users
  bound := bound
  low := low
  trapframe := by rw [same _ le_rfl, space.trapframe]
  trampoline := by rw [same _ (by omega), space.trampoline]
  high v above := by rw [same _ (by omega), space.high v above]
  readable v e leaf := by
    by_cases user : v < USERTOP
    · exact readable v e user leaf
    · rw [same _ (by omega)] at leaf
      exact space.readable v e leaf

theorem Space.not_full
    (pages : ∀ x, own x ≠ .outside → IsPage cfg x) (small : Small cfg) : n < USERTOP := by
  have leaf : ∀ v, v < n → ∃ e, S.leaf v = some e := by
    intro v below
    apply Option.ne_none_iff_exists'.mp
    rw [Ne, space.low v (lt_of_lt_of_le below space.bound)]
    omega
  choose e found using leaf
  let page : Nat → Nat := fun v => if below : v < n then PTE2PA (e v below) / PGSIZE else 0
  have value : ∀ v (below : v < n), page v * PGSIZE = PTE2PA (e v below) ∧
      own (PTE2PA (e v below)) = .user r v := by
    intro v below
    have label := space.users.label (lt_of_lt_of_le below space.bound) (found v below)
    have aligned := (pages (PTE2PA (e v below)) (by simp [label])).1
    refine ⟨?_, label⟩
    simp only [page, dif_pos below]
    simp only [PGSIZE] at *
    omega
  have maps : ∀ v ∈ Finset.range n,
      page v ∈ Finset.Ico (KERNBASE / PGSIZE + 1) ((cfg.physTop + (PGSIZE - 1)) / PGSIZE) := by
    intro v member
    have below := Finset.mem_range.mp member
    obtain ⟨scaled, label⟩ := value v below
    obtain ⟨-, low, high⟩ := pages (PTE2PA (e v below)) (by simp [label])
    rw [Finset.mem_Ico]
    have text := cfg.text
    have data := cfg.data
    simp only [KERNBASE, PGSIZE] at *
    omega
  have injective : Set.InjOn page (Finset.range n : Set Nat) := by
    intro v inV w inW same
    have belowV : v < n := by simpa using inV
    have belowW : w < n := by simpa using inW
    obtain ⟨scaledV, labelV⟩ := value v belowV
    obtain ⟨scaledW, labelW⟩ := value w belowW
    rw [← scaledV, same, scaledW, labelW] at labelV
    exact (Label.user.inj labelV).2.symm
  have count := Finset.card_le_card_of_injOn page maps injective
  rw [Finset.card_range, Nat.card_Ico] at count
  simp only [Small, USERTOP, TRAPFRAME, TRAMPOLINE, MAXVA, KERNBASE, PGSIZE] at *
  omega

end
end Space

/-- The panic of an address space that is full, which takes more memory than there is. -/
def Big (cfg : Config) (e : Panic) : Prop := e = .mappagesRemap ∧ ¬Small cfg

section Resize
variable {cfg : Config} {own : Nat → Label} {s : Mach} {r tf n : Nat} {S : Shape}

theorem uvmunmap_shrink {m : Nat} (heap : Heap (IsPage cfg) own s)
    (space : Space cfg own s.mem r tf n S) (order : m ≤ n) :
    wp (uvmunmap cfg r (m * PGSIZE) (n - m) true) (fun _ => False) (fun _ s' => ∃ own' S',
      Heap (IsPage cfg) own' s' ∧ Space cfg own' s'.mem r tf m S' ∧
        Within (Among r (m ≤ ·)) own own' s.mem s'.mem ∧
        (∀ v, v < m ∨ USERTOP ≤ v → S'.leaf v = S.leaf v) ∧
        Released own own' r fun v => m ≤ v ∧ v < n) s := by
  have bound := space.bound
  have stop : m + (n - m) = n := by omega
  have top : m + (n - m) ≤ MAXVA / PGSIZE := by
    simp only [USERTOP, TRAPFRAME, TRAMPOLINE, MAXVA, PGSIZE] at *
    omega
  apply wp_post (uvmunmap_in (space.pageTable heap) top space.users (fun v _ high => by omega)
    fun x v _ _ label => heap.page x (by simp [label]))
  rintro _ s' ⟨own', S', pt, within, leaf, users, released⟩
  rw [stop] at released
  have other : ∀ v, v < m ∨ n ≤ v → S'.leaf v = S.leaf v := by
    intro v outside
    rw [leaf, Shape.cut, if_neg (by omega)]
  refine ⟨own', S', pt.toHeap, ?_, within, fun v outside => other v (by omega), released⟩
  apply space.resize pt.tree users (by omega)
  · intro v below
    by_cases inside : m ≤ v ∧ v < n
    · rw [leaf, Shape.cut, if_pos (by omega)]
      simp [inside.1]
    · rw [other v (by omega), space.low v below]
      omega
  · intro v above
    exact other v (by omega)
  · intro v e _ found
    rw [leaf, Shape.cut] at found
    split at found
    · cases found
    · exact space.readable v e found

theorem roundUp_eq (small : sz ≤ TRAPFRAME) :
    roundUp sz = pagesOf sz * PGSIZE ∧ pagesOf sz ≤ USERTOP := by
  simp only [pagesOf, roundUp, pgRoundUp, USERTOP, TRAPFRAME, TRAMPOLINE, MAXVA, PGSIZE] at *
  omega

theorem pagesOf_mono {sz' : Nat} (small : sz ≤ TRAPFRAME) (order : sz' ≤ sz) :
    pagesOf sz' ≤ pagesOf sz := by
  simp only [pagesOf, roundUp, pgRoundUp, TRAPFRAME, TRAMPOLINE, MAXVA, PGSIZE] at *
  omega

theorem pagesOf_pages {n : Nat} (bound : n ≤ USERTOP) :
    n * PGSIZE ≤ TRAPFRAME ∧ pagesOf (n * PGSIZE) = n := by
  simp only [pagesOf, roundUp, pgRoundUp, USERTOP, TRAPFRAME, TRAMPOLINE, MAXVA, PGSIZE] at *
  omega

theorem uvmdealloc_spec (heap : Heap (IsPage cfg) own s) (small : oldsz ≤ TRAPFRAME)
    (space : Space cfg own s.mem r tf (pagesOf oldsz) S) :
    wp (uvmdealloc cfg r oldsz newsz) (fun _ => False) (fun sz s' => sz = min oldsz newsz ∧
      ∃ own' S', Heap (IsPage cfg) own' s' ∧ Space cfg own' s'.mem r tf (pagesOf sz) S' ∧
        Within (Mine r) own own' s.mem s'.mem ∧
        ∀ v, v < pagesOf sz ∨ USERTOP ≤ v → S'.leaf v = S.leaf v) s := by
  by_cases grows : oldsz ≤ newsz
  · rw [uvmdealloc, if_pos grows, wp_pure, min_eq_left grows]
    exact ⟨rfl, own, S, heap, space, Within.refl _ _ _, fun _ _ => rfl⟩
  · have order : newsz ≤ oldsz := by omega
    have fits : oldsz ≤ MAXVA := by
      simp only [TRAPFRAME, TRAMPOLINE] at small
      omega
    rw [uvmdealloc_eq cfg r order fun _ => pagesOf_le fits, min_eq_right order]
    apply wp_seq (uvmunmap_shrink heap space (pagesOf_mono small order))
    rintro _ s' ⟨own', S', heap', space', within, leaf, -⟩
    exact ⟨rfl, own', S', heap', space', within.mono fun _ => Among.mine, leaf⟩

end Resize

section Grow
variable {cfg : Config} {own : Nat → Label} {s : Mach} {r tf n : Nat} {S : Shape}

def Fresh (S S' : Shape) (n m perm : Nat) : Prop :=
  (∀ v, v < n ∨ USERTOP ≤ v → S'.leaf v = S.leaf v) ∧
    ∀ v, n ≤ v → v < m → ∃ y, Phys y ∧ S'.leaf v = some (leafOf y perm)

def Grown (cfg : Config) (own : Nat → Label) (mem : Mem) (r tf : Nat) (S : Shape)
    (n newsz perm sz : Nat) (s' : Mach) : Prop :=
  ∃ own' S' m, Heap (IsPage cfg) own' s' ∧ Space cfg own' s'.mem r tf m S' ∧
    Within (Mine r) own own' mem s'.mem ∧ Fresh S S' n m perm ∧
    (sz = 0 ∧ m = n ∨ sz = newsz ∧ newsz ≤ m * PGSIZE ∧ (m = n ∨ n < m ∧ (m - 1) * PGSIZE < newsz))

theorem Growth.space {plan : Plan} {own1 : Nat → Label} {S1 : Shape} {s1 : Mach} {mem : Mem} {m : Nat}
    (space : Space cfg own mem r tf n S)
    (growth : Growth (IsPage cfg) Plain (· < USERTOP) plan own mem S r n m own1 s1 S1) (order : n ≤ m)
    (readable : ∀ v, n ≤ v → v < m → ∃ perm bytes, plan v = some (perm, bytes) ∧ perm < 2 ^ 10 ∧
      perm &&& PTE_R ≠ 0) : Space cfg own1 s1.mem r tf m S1 := by
  have bound := space.bound
  have page : ∀ v, n ≤ v → v < m → v < USERTOP ∧ ∃ y perm, S1.leaf v = some (leafOf y perm) ∧
      perm < 2 ^ 10 ∧ perm &&& PTE_R ≠ 0 := by
    intro v low high
    obtain ⟨perm, bytes, planned, small, read⟩ := readable v low high
    obtain ⟨y, label, leaf, -⟩ := growth.pages v perm bytes low high planned
    exact ⟨((growth.users v y).mp label).1, y, perm, leaf, small, read⟩
  have top : m ≤ USERTOP := by
    by_contra above
    exact absurd (page USERTOP bound (by omega)).1 (lt_irrefl _)
  refine space.resize growth.tree growth.users top ?_ ?_ ?_
  · intro v below
    by_cases new : n ≤ v ∧ v < m
    · obtain ⟨-, y, perm, leaf, -⟩ := page v new.1 new.2
      simp only [leaf, reduceCtorEq, false_iff, not_le]
      exact new.2
    · rw [growth.others v new, space.low v below]
      omega
  · intro v above
    exact growth.others v (by omega)
  · intro v e below found
    by_cases new : n ≤ v ∧ v < m
    · obtain ⟨-, y, perm, leaf, small, read⟩ := page v new.1 new.2
      rw [← Option.some.inj (leaf.symm.trans found), leafOf_and small (by decide),
        Nat.and_or_distrib_right]
      intro zero
      rw [Nat.or_eq_zero_iff] at zero
      exact read zero.1
    · rw [growth.others v new] at found
      exact space.readable v e found

theorem zeroed_readable (small : xperm < 2 ^ 10) (v : Nat) :
    ∃ perm bytes, zeroed xperm v = some (perm, bytes) ∧ perm < 2 ^ 10 ∧ perm &&& PTE_R ≠ 0 := by
  refine ⟨_, _, rfl, Nat.or_lt_two_pow (by decide) small, ?_⟩
  rw [Nat.and_or_distrib_right]
  intro zero
  rw [Nat.or_eq_zero_iff] at zero
  exact absurd zero.1 (by decide)

theorem Allocated.grown {mem : Mem} {s' : Mach} (space : Space cfg own mem r tf n S)
    (small : xperm < 2 ^ 10)
    (allocated : Allocated (IsPage cfg) Plain (· < USERTOP) own mem S r n newsz xperm sz s') :
    Grown cfg own mem r tf S n newsz (PTE_R ||| PTE_U ||| xperm) sz s' := by
  obtain ⟨own', S', m, growth, outcome⟩ := allocated
  have order : n ≤ m := by omega
  refine ⟨own', S', m, growth.toHeap, growth.space space order fun v _ _ => zeroed_readable small v,
    growth.mine, ⟨fun v outside => growth.others v ?_, fun v low high => ?_⟩, outcome⟩
  · have bound := (growth.space space order fun v _ _ => zeroed_readable small v).bound
    omega
  · obtain ⟨y, label, leaf, -⟩ := growth.pages v _ _ low high rfl
    exact ⟨y, growth.toHeap.used (by simp [label]), leaf⟩

theorem uvmalloc_exact (heap : Heap (IsPage cfg) own s)
    (small : oldsz ≤ TRAPFRAME) (space : Space cfg own s.mem r tf (pagesOf oldsz) S)
    (perm : xperm < 2 ^ 10) (order : oldsz ≤ newsz) :
    wp (uvmalloc cfg r oldsz newsz xperm) (fun e => Big cfg e ∧ TRAPFRAME < newsz)
      (Allocated (IsPage cfg) Plain (· < USERTOP) own s.mem S r (pagesOf oldsz) newsz xperm) s := by
  obtain ⟨-, bound⟩ := roundUp_eq small
  have grown : ∀ {m own1 s1 S1}, pagesOf oldsz ≤ m →
      Growth (IsPage cfg) Plain (· < USERTOP) (zeroed xperm) own s.mem S r (pagesOf oldsz) m own1 s1 S1 →
      Space cfg own1 s1.mem r tf m S1 :=
    fun low growth => growth.space space low fun v _ _ => zeroed_readable perm v
  apply uvmalloc_rule perm (fun x free => heap.page x (by simp [free]))
  · intro v own1 s1 S1 _ low _ unmapped growth
    have := (grown low growth).bound
    by_contra above
    rw [show v = USERTOP by omega, space.trapframe] at unmapped
    cases unmapped
  · intro v own1 s1 S1 above low _ growth
    have := (grown low growth).bound
    simp only [USERTOP, TRAPFRAME, TRAMPOLINE, MAXVA, PGSIZE] at *
    omega
  · intro v own1 s1 S1 _ low more mapped growth
    have space1 := grown low growth
    have top : v = USERTOP := by
      have := space1.bound
      by_contra below
      exact mapped ((space.low v (by omega)).mpr low)
    refine ⟨⟨rfl, fun few => absurd (space1.not_full growth.toHeap.page few) (by omega)⟩, ?_⟩
    simp only [top, USERTOP, TRAPFRAME, TRAMPOLINE, MAXVA, PGSIZE] at *
    omega
  · exact space.pageTable heap
  · exact space.users
  · exact order

theorem uvmalloc_spec (heap : Heap (IsPage cfg) own s) (small : oldsz ≤ TRAPFRAME)
    (space : Space cfg own s.mem r tf (pagesOf oldsz) S) (perm : xperm < 2 ^ 10) :
    wp (uvmalloc cfg r oldsz newsz xperm) (Big cfg) (fun sz s' => ∃ own' S' sz',
      (sz = 0 ∧ sz' = oldsz ∨ sz = sz' ∧ sz' = max oldsz newsz) ∧ sz' ≤ TRAPFRAME ∧
      Heap (IsPage cfg) own' s' ∧ Space cfg own' s'.mem r tf (pagesOf sz') S' ∧
      Within (Mine r) own own' s.mem s'.mem ∧
      Fresh S S' (pagesOf oldsz) (pagesOf sz') (PTE_R ||| PTE_U ||| xperm)) s := by
  have still : Fresh S S (pagesOf oldsz) (pagesOf oldsz) (PTE_R ||| PTE_U ||| xperm) :=
    ⟨fun _ _ => rfl, fun v low high => by omega⟩
  by_cases shrinks : newsz < oldsz
  · rw [uvmalloc, if_pos shrinks]
    exact ⟨own, S, oldsz, .inr ⟨rfl, by omega⟩, small, heap, space, Within.refl _ _ _, still⟩
  · refine wp_mono (uvmalloc_exact heap small space perm (by omega)) ?_ fun _ panic => panic.1
    intro sz s' allocated
    obtain ⟨own', S', m, heap', space', within, fresh, outcome⟩ := allocated.grown space perm
    rcases outcome with ⟨failed, same⟩ | ⟨done, covers, tight⟩
    · subst same
      exact ⟨own', S', oldsz, .inl ⟨failed, rfl⟩, small, heap', space', within, fresh⟩
    · have bound' := space'.bound
      have pages : newsz ≤ TRAPFRAME ∧ pagesOf newsz = m := by
        simp only [pagesOf, roundUp, pgRoundUp, USERTOP, TRAPFRAME, TRAMPOLINE, MAXVA, PGSIZE] at *
        omega
      rw [← pages.2] at space' fresh
      exact ⟨own', S', newsz, .inr ⟨done, by omega⟩, pages.1, heap', space', within, fresh⟩

end Grow
end Xv6Lab.Mm
