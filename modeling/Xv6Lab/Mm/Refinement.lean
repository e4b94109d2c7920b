import Xv6Lab.Mm.Unmap

/-!
A page table refines a partial map from page numbers to physical pages with flags.
-/

namespace Xv6Lab.Mm
open Bytes (Mem load store fill write read)

def abs (s : Mach) (r v : Nat) : Option (Nat × Nat) :=
  match (walk r (v * PGSIZE) false).run s with
  | .ok (some pte, _) => (valid (load s.mem pte 8)).map fun e => (PTE2PA e, PTE_FLAGS e)
  | .ok (none, _) => none
  | .error _ => none

structure WellFormed (mem : Mem) (r : Nat) : Prop where
  aligned : r % PGSIZE = 0
  short : ∀ l n y, tableAt mem r l n = some y → y < 2 ^ 56
  distinct : ∀ l n l' n' y, tableAt mem r l n = some y → tableAt mem r l' n' = some y →
    l = l' ∧ n = n'
  target : ∀ v e l n, leafAt mem r v = some e → tableAt mem r l n ≠ some (PTE2PA e)

structure OutsideTree (mem : Mem) (r x : Nat) : Prop where
  table : ∀ l n, tableAt mem r l n ≠ some x
  target : ∀ v e, leafAt mem r v = some e → PTE2PA e ≠ x

structure Supply (s : Mach) (r : Nat) (F : List Nat) : Prop where
  chain : Chain s.mem s.freelist F
  nodup : F.Nodup
  phys : ∀ x ∈ F, Phys x
  outside : ∀ x ∈ F, OutsideTree s.mem r x

section Labels
variable {s : Mach} {mem : Mem} {r l n x : Nat} {F : List Nat}

theorem tableAt_succ (low : l < 2) :
    tableAt mem r l n = (tableAt mem r (l + 1) (n / 512)).bind fun y => child mem y (n % 512) := by
  unfold tableAt
  rw [if_pos (by omega), if_pos (by omega), show 2 - l = 2 - (l + 1) + 1 by omega, tableBelow]

theorem tableAt_aligned (aligned : r % PGSIZE = 0) (here : tableAt mem r l n = some x) :
    x % PGSIZE = 0 := by
  by_cases low : l < 2
  · rw [tableAt_succ low] at here
    obtain ⟨y, -, found⟩ := Option.bind_eq_some_iff.mp here
    obtain ⟨e, -, same⟩ := Option.map_eq_some_iff.mp found
    rw [← same]
    exact PTE2PA_aligned e
  · unfold tableAt at here
    split at here
    · rw [show 2 - l = 0 by omega, tableBelow] at here
      split at here
      · rwa [← Option.some.inj here]
      · cases here
    · cases here

open Classical in
noncomputable def labelling (mem : Mem) (r : Nat) (F : List Nat) (x : Nat) : Label :=
  if here : ∃ place : Nat × Nat, tableAt mem r place.1 place.2 = some x then
    .table r here.choose.1 here.choose.2
  else if x ∈ F then .free
  else .outside

theorem labelling_table (wf : WellFormed mem r) :
    labelling mem r F x = .table r l n ↔ tableAt mem r l n = some x := by
  unfold labelling
  split
  · next here =>
      have place := here.choose_spec
      simp only [Label.table.injEq, true_and]
      constructor
      · rintro ⟨level, index⟩
        rwa [level, index] at place
      · exact fun table => wf.distinct _ _ _ _ _ place table
  · next nowhere =>
      refine ⟨fun label => ?_, fun table => absurd ⟨(l, n), table⟩ nowhere⟩
      split at label <;> cases label

theorem labelling_free (supply : Supply s r F) : labelling s.mem r F x = .free ↔ x ∈ F := by
  unfold labelling
  split
  · next here =>
      refine ⟨(nomatch ·), fun member => ?_⟩
      exact absurd here.choose_spec ((supply.outside x member).table _ _)
  · split
    · next member => simp [member]
    · next other => simp [other]

theorem labelling_outside (tables : ∀ l n, tableAt mem r l n ≠ some x) (busy : x ∉ F) :
    labelling mem r F x = .outside := by
  unfold labelling
  rw [dif_neg (fun here => tables _ _ here.choose_spec), if_neg busy]

theorem WellFormed.tree (wf : WellFormed mem r) (F : List Nat) :
    Tree (fun _ => True) (labelling mem r F) mem r ⟨tableAt mem r, leafAt mem r⟩ where
  top l n high := by
    simp only [tableAt]
    by_cases two : l = 2
    · subst two
      simp [tableBelow]
    · rw [if_neg (by omega), if_neg (by omega)]
  parent l n low missing := by
    simp only at missing ⊢
    rw [tableAt_succ low, missing]
    rfl
  labels l n y := labelling_table wf
  entry l n y j here inside := by
    simp only at here ⊢
    have low : l < 2 := by
      by_contra high
      simp only [tableAt] at here
      rw [if_neg (by omega)] at here
      cases here
    rw [tableAt_succ low, show (512 * n + j) / 512 = n by omega, here,
      show (512 * n + j) % 512 = j by omega]
    rfl
  form l n y j e _ _ _ := trivial
  leafEntry n y j here inside := by
    simp only at here ⊢
    rw [leafAt, show (512 * n + j) / 512 = n by omega, here,
      show (512 * n + j) % 512 = j by omega]
    rfl
  leafParent v missing := by
    simp only at missing ⊢
    rw [leafAt, missing]
    rfl

theorem WellFormed.phys (wf : WellFormed mem r) (here : tableAt mem r l n = some x) : Phys x :=
  ⟨tableAt_aligned wf.aligned here, wf.short l n x here⟩

theorem WellFormed.pageTable (wf : WellFormed s.mem r) (supply : Supply s r F) :
    PageTable Phys (fun _ => True) (labelling s.mem r F) s r ⟨tableAt s.mem r, leafAt s.mem r⟩ where
  list := ⟨F, supply.chain, supply.nodup, fun x => (labelling_free supply).symm⟩
  page x used := by
    unfold labelling at used
    split at used
    · next here => exact wf.phys here.choose_spec
    · split at used
      · next member => exact supply.phys x member
      · exact absurd rfl used
  phys x page := page
  tree := wf.tree F
  plain _ := trivial

end Labels

section Abs
variable {I : Nat → Prop} {own : Nat → Label} {s : Mach} {r : Nat} {S : Shape}

theorem Tree.abs (tree : Tree I own s.mem r S) (v : Nat) : abs s r v =
      if v < MAXVA / PGSIZE then (S.leaf v).map fun e => (PTE2PA e, PTE_FLAGS e) else none := by
  have scale : v * PGSIZE < MAXVA ↔ v < MAXVA / PGSIZE := by
    simp only [MAXVA, PGSIZE]
    omega
  unfold Mm.abs
  split_ifs with inside
  · have below := scale.mpr inside
    obtain ⟨a, s', result, same, found⟩ := wp_returns (walk_find tree below)
    rw [result, found, Nat.mul_div_cancel v (by decide : 0 < PGSIZE)]
    cases table : S.table 0 (v / 512) with
    | none =>
      rw [tree.leafParent v table]
      rfl
    | some y =>
      simp only [Option.map_some]
      rw [tree.read_leaf table]
  · have above : MAXVA ≤ v * PGSIZE := by
      rw [← scale] at inside
      omega
    rw [walk, if_pos above]
    rfl

theorem Tree.wellFormed (tree : Tree I own s.mem r S) (pages : ∀ x, own x ≠ .outside → Phys x)
    (target : ∀ v e, S.leaf v = some e → ∀ l n, own (PTE2PA e) ≠ .table r l n) :
    WellFormed s.mem r where
  aligned := (pages r (tree.used tree.root)).1
  short l n y here := by
    rw [tree.tableAt] at here
    exact (pages y (tree.used here)).2
  distinct l n l' n' y here there := by
    rw [tree.tableAt] at here there
    exact tree.table_inj here there
  target v e l n leaf table := by
    rw [tree.leafAt] at leaf
    rw [tree.tableAt] at table
    exact target v e leaf l n ((tree.labels l n _).mpr table)

end Abs

/-- The operations on the tree at r against the map. The pages from pa on are outside the tree
and not free; with doFree, kfree accepts the pages that are unmapped. -/
structure Refines (cfg : Config) (s : Mach) (r : Nat) (F : List Nat) : Prop where
  map : ∀ u n pa perm, 0 < n → u + n ≤ MAXVA / PGSIZE → pa % PGSIZE = 0 →
    pa + n * PGSIZE ≤ 2 ^ 56 → perm < 2 ^ 10 →
    (∀ v, u ≤ v → v < u + n → abs s r v = none) →
    (∀ i, i < n → (∀ l m, tableAt s.mem r l m ≠ some (pa + i * PGSIZE)) ∧ pa + i * PGSIZE ∉ F) →
    ∃ ok s' k, (mappages r (u * PGSIZE) (n * PGSIZE) pa perm).run s = .ok (ok, s') ∧
      WellFormed s'.mem r ∧ (if ok then k = n else k < n) ∧
      ∀ v, abs s' r v =
        if u ≤ v ∧ v < u + k then some (pa + (v - u) * PGSIZE, perm ||| PTE_V) else abs s r v
  unmap : ∀ u n doFree, u + n ≤ MAXVA / PGSIZE →
    (doFree = true → ∀ v pa flags, u ≤ v → v < u + n → abs s r v = some (pa, flags) →
      IsPage cfg pa) →
    ∃ s', (uvmunmap cfg r (u * PGSIZE) n doFree).run s = .ok ((), s') ∧ WellFormed s'.mem r ∧
      ∀ v, abs s' r v = if u ≤ v ∧ v < u + n then none else abs s r v
  addr : ∀ va, ∃ pa, (walkaddr r va).run s = .ok (pa, s) ∧
    ∀ x, x ≠ 0 → (pa = x ↔ va < MAXVA ∧
      ∃ flags, abs s r (va / PGSIZE) = some (x, flags) ∧ flags &&& PTE_U ≠ 0)

section Refines
variable {cfg : Config} {s : Mach} {r : Nat} {F : List Nat}

section
variable (wf : WellFormed s.mem r)
include wf

section
variable (supply : Supply s r F)
include supply

theorem WellFormed.target_outside {v e : Nat}
    (leaf : leafAt s.mem r v = some e) : labelling s.mem r F (PTE2PA e) = .outside := by
  apply labelling_outside
  · exact fun l n => wf.target v e l n leaf
  · exact fun member => (supply.outside _ member).target v e leaf rfl

theorem refines_map {u n pa perm : Nat}
    (positive : 0 < n) (top : u + n ≤ MAXVA / PGSIZE) (aligned : pa % PGSIZE = 0)
    (fits : pa + n * PGSIZE ≤ 2 ^ 56) (small : perm < 2 ^ 10)
    (absent : ∀ v, u ≤ v → v < u + n → abs s r v = none)
    (outside : ∀ i, i < n → (∀ l m, tableAt s.mem r l m ≠ some (pa + i * PGSIZE)) ∧
      pa + i * PGSIZE ∉ F) :
    ∃ ok s' k, (mappages r (u * PGSIZE) (n * PGSIZE) pa perm).run s = .ok (ok, s') ∧
      WellFormed s'.mem r ∧ (if ok then k = n else k < n) ∧
      ∀ v, abs s' r v =
        if u ≤ v ∧ v < u + k then some (pa + (v - u) * PGSIZE, perm ||| PTE_V) else abs s r v := by
  have pt := wf.pageTable supply
  have unmapped : ∀ v, u ≤ v → v < u + n → leafAt s.mem r v = none := by
    intro v low high
    have none := absent v low high
    rwa [pt.tree.abs, if_pos (by omega), Option.map_eq_none_iff] at none
  have spec := mapLoop_spec n pt small fits top unmapped
  have run : mappages r (u * PGSIZE) (n * PGSIZE) pa perm = mapLoop r perm n (u * PGSIZE) pa := by
    rw [mappages, if_neg (by simp), if_neg (by simp), if_neg (by simp [PGSIZE]; omega),
      Nat.mul_div_cancel n (by decide : 0 < PGSIZE)]
  obtain ⟨ok, s', result, own', S', k, pt', within, count, leaf⟩ := wp_returns spec
  have bound : k ≤ n := by
    cases ok with
    | true => exact le_of_eq count
    | false => exact le_of_lt count
  have page : ∀ v, u ≤ v → v < u + k → Phys (pa + (v - u) * PGSIZE) := by
    intro v low high
    have : (v - u + 1) * PGSIZE ≤ n * PGSIZE := Nat.mul_le_mul_right _ (by omega)
    rw [Nat.succ_mul] at this
    simp only [Phys, PGSIZE] at *
    omega
  refine ⟨ok, s', k, run ▸ result, pt'.tree.wellFormed pt'.used ?_, count, fun v => ?_⟩
  · -- what leaves point to was outside before, and so it is now
    intro v e here
    rw [leaf] at here
    suffices outside : own' (PTE2PA e) = .outside by simp [outside]
    rw [within.iff (by simp [Tables])]
    split at here
    · next inside =>
        rw [← Option.some.inj here, PTE2PA_leafOf small (page v inside.1 inside.2)]
        obtain ⟨tables, busy⟩ := outside (v - u) (by omega)
        exact labelling_outside tables busy
    · exact wf.target_outside supply here
  · rw [pt'.tree.abs, leaf, pt.tree.abs]
    by_cases inside : u ≤ v ∧ v < u + k
    · rw [if_pos inside, if_pos (by omega), if_pos inside, Option.map_some,
        PTE2PA_leafOf small (page v inside.1 inside.2), PTE_FLAGS_leafOf small]
    · rw [if_neg inside, if_neg inside]

theorem refines_unmap {u n : Nat} {doFree : Bool} (top : u + n ≤ MAXVA / PGSIZE)
    (pages : doFree = true → ∀ v pa flags, u ≤ v → v < u + n → abs s r v = some (pa, flags) →
      IsPage cfg pa) :
    ∃ s', (uvmunmap cfg r (u * PGSIZE) n doFree).run s = .ok ((), s') ∧ WellFormed s'.mem r ∧
      ∀ v, abs s' r v = if u ≤ v ∧ v < u + n then none else abs s r v := by
  have pt := wf.pageTable supply
  let S : Shape := ⟨tableAt s.mem r, leafAt s.mem r⟩
  let own := labelling s.mem r F
  have spec : wp (uvmunmap cfg r (u * PGSIZE) n doFree) (fun _ => False)
      (fun _ s' => ∃ S', Tree (fun _ => True) own s'.mem r S' ∧ S'.leaf = S.cut u (u + n)) s := by
    apply uvmunmap_rule (P := fun w s' => ∃ S', Tree (fun _ => True) own s'.mem r S' ∧
      S'.leaf = S.cut u w)
    · rintro v s1 low high ⟨S1, tree, leaf⟩
      have next : ∀ s2 : Mach, ∀ y, S1.table 0 (v / 512) = some y →
          Tree (fun _ => True) own s2.mem r S1 →
          ∃ S', Tree (fun _ => True) own (store s2.mem (slot y (v % 512)) 8 0) r S' ∧
            S'.leaf = S.cut u (v + 1) := by
        intro s2 y table tree2
        refine ⟨_, tree2.writeLeaf pt.used table (by decide), ?_⟩
        simp only [Shape.setLeaf, valid_zero]
        rw [leaf, S.cut_succ low]
      apply unmapPage_step tree (by omega)
      · intro none
        refine ⟨S1, tree, ?_⟩
        rw [← S.cut_succ low, ← leaf, ← none, Function.update_eq_self]
      · intro y e table _ _
        exact next s1 y table tree
      · intro y e table here free
        have old : leafAt s.mem r v = some e := by
          rw [leaf, Shape.cut, if_neg (by omega)] at here
          exact here
        have page : IsPage cfg (PTE2PA e) := by
          apply pages free v (PTE2PA e) (PTE_FLAGS e) low high
          rw [pt.tree.abs, if_pos (by omega)]
          exact congrArg (Option.map _) old
        apply wp_post (kfree_touch page)
        rintro _ s2 ⟨_, only⟩
        apply next s2 y table
        -- the page that is freed is not a table
        apply tree.frame (P := fun l => l = .outside) pt.used
        · exact Within.touch (wf.target_outside supply old) only
        · simp
    · exact top
    · exact ⟨S, pt.tree, (S.cut_nil u).symm⟩
  obtain ⟨_, s', result, S', tree, leaf⟩ := wp_returns spec
  refine ⟨s', result, tree.wellFormed pt.used ?_, fun v => ?_⟩
  · intro v e here
    rw [leaf, Shape.cut] at here
    split at here
    · cases here
    · have outside : own (PTE2PA e) = .outside := wf.target_outside supply here
      simp [outside]
  · rw [tree.abs, leaf, pt.tree.abs, Shape.cut]
    by_cases inside : u ≤ v ∧ v < u + n
    · rw [if_pos inside, if_pos inside, Option.map_none, ite_self]
    · rw [if_neg inside, if_neg inside]

theorem refines_addr (va : Nat) : ∃ pa, (walkaddr r va).run s = .ok (pa, s) ∧
      ∀ x, x ≠ 0 → (pa = x ↔ va < MAXVA ∧
        ∃ flags, abs s r (va / PGSIZE) = some (x, flags) ∧ flags &&& PTE_U ≠ 0) := by
  have pt := wf.pageTable supply
  obtain ⟨pa, s', result, same, found⟩ : ∃ pa s', (walkaddr r va).run s = .ok (pa, s') ∧ _ :=
    wp_returns (walkaddr_spec pt.tree)
  subst same
  refine ⟨pa, result, fun x positive => ?_⟩
  rw [found, pt.tree.abs]
  by_cases below : va < MAXVA
  · have page : va / PGSIZE < MAXVA / PGSIZE := by
      simp only [MAXVA, PGSIZE] at *
      omega
    rw [if_pos below, if_pos page, and_iff_right below]
    dsimp only
    cases leaf : leafAt s'.mem r (va / PGSIZE) with
    | none => simp [Ne.symm positive]
    | some e =>
      have flags : PTE_FLAGS e &&& PTE_U = e &&& PTE_U := flags_and e (by decide)
      by_cases user : e &&& PTE_U = 0
      · simp [Option.filter, user, flags, Ne.symm positive]
      · simp [Option.filter, user, flags]
  · simp [below, Ne.symm positive]

end
end
end Refines

/-- Every operation on a well-formed tree does to the map what it should. -/
theorem pagetable_refines (cfg : Config) (s : Mach) (r : Nat) (F : List Nat)
    (wf : WellFormed s.mem r) (supply : Supply s r F) :
    Refines cfg s r F ∧
      ∀ pa perm, pa % PGSIZE = 0 → pa < 2 ^ 56 → perm < 2 ^ 10 →
        PTE2PA (PA2PTE pa ||| perm) = pa ∧ PTE_FLAGS (PA2PTE pa ||| perm) = perm := by
  constructor
  · constructor
    · intro u n pa perm positive top aligned fits small absent outside
      exact refines_map wf supply positive top aligned fits small absent outside
    · intro u n doFree top pages
      exact refines_unmap wf supply top pages
    · exact refines_addr wf supply
  · intro pa perm aligned short small
    exact ⟨PTE2PA_PA2PTE aligned short small, PTE_FLAGS_or pa small⟩

section Blank
variable {mem : Mem} {r : Nat}

section
variable (blank : ∀ i, i < 512 → tab mem r i = 0)
include blank

theorem tableAt_blank (l n : Nat) : tableAt mem r l n = if l = 2 ∧ n = 0 then some r else none := by
  have second : ∀ n, tableAt mem r 1 n = none := by
    intro n
    rw [tableAt_succ (by omega)]
    by_cases first : n / 512 = 0
    · simp [tableAt, tableBelow, first, child, blank (n % 512) (Nat.mod_lt _ (by decide))]
    · simp [tableAt, tableBelow, first]
  obtain rfl | rfl | rfl | high : l = 0 ∨ l = 1 ∨ l = 2 ∨ 2 < l := by omega
  · rw [tableAt_succ (by omega), second, if_neg (by omega)]
    rfl
  · rw [second, if_neg (by omega)]
  · simp [tableAt, tableBelow]
  · rw [tableAt, if_neg (by omega), if_neg (by omega)]

theorem leafAt_blank (v : Nat) : leafAt mem r v = none := by
  rw [leafAt, tableAt_blank blank, if_neg (by omega)]
  rfl

theorem outsideTree_blank {x : Nat} (other : r ≠ x) : OutsideTree mem r x := by
  refine ⟨fun l n => ?_, fun v e leaf => ?_⟩
  · rw [tableAt_blank blank]
    split
    · exact fun same => other (Option.some.inj same)
    · simp
  · rw [leafAt_blank blank] at leaf
    cases leaf

theorem wellFormed_blank (page : Phys r) : WellFormed mem r where
  aligned := page.1
  short l n y here := by
    rw [tableAt_blank blank] at here
    split at here
    · exact Option.some.inj here ▸ page.2
    · cases here
  distinct l n l' n' y here there := by
    rw [tableAt_blank blank] at here there
    split at here
    · split at there
      · omega
      · cases there
    · cases here
  target v e l n leaf := by
    rw [leafAt_blank blank] at leaf
    cases leaf

end
end Blank

def small : Mach := ⟨store (fun _ => 0) 8192 8 12288, 8192, []⟩

def smallConfig : Config where
  trampoline := KERNBASE
  etext := KERNBASE + PGSIZE
  kernelEnd := KERNBASE + PGSIZE
  physTop := KERNBASE + 2 * PGSIZE
  image := fun _ => 0
  trampoline_aligned := by decide
  text := by decide
  data := by decide
  top := by decide

theorem small_blank (i : Nat) (inside : i < 512) : tab small.mem 4096 i = 0 := by
  unfold tab small slot
  rw [Bytes.load_store_disjoint (by omega), Bytes.load_zero fun _ _ _ => rfl]

theorem small_supply : Supply small 4096 [8192, 12288] where
  chain := by
    refine ⟨rfl, by decide, ?_, by decide, ?_⟩
    · decide +kernel
    · show load small.mem 12288 8 = 0
      decide +kernel
  nodup := by decide
  phys := by decide
  outside x member := by
    refine ⟨fun l n => ?_, fun v e leaf => ?_⟩
    · rw [tableAt_blank small_blank]
      split
      · intro same
        obtain rfl := Option.some.inj same
        simp at member
      · simp
    · rw [leafAt_blank small_blank] at leaf
      cases leaf

theorem pagetable_refines_small :
    ∃ ok s' k, (mappages 4096 (0 * PGSIZE) (1 * PGSIZE) 16384 (PTE_R ||| PTE_W)).run small =
        .ok (ok, s') ∧ WellFormed s'.mem 4096 ∧ (if ok then k = 1 else k < 1) ∧
      ∀ v, abs s' 4096 v = if 0 ≤ v ∧ v < 0 + k then
        some (16384 + (v - 0) * PGSIZE, PTE_R ||| PTE_W ||| PTE_V) else abs small 4096 v := by
  have wf := wellFormed_blank small_blank (by decide)
  have refines := (pagetable_refines smallConfig small 4096 _ wf small_supply).1
  apply refines.map 0 1 16384 (PTE_R ||| PTE_W) (by decide) (by decide) (by decide) (by decide)
    (by decide)
  · intro v _ _
    rw [(wf.tree []).abs]
    simp [leafAt_blank small_blank]
  · intro i low
    obtain rfl : i = 0 := by omega
    refine ⟨fun l m => ?_, by decide⟩
    rw [tableAt_blank small_blank]
    split <;> simp

/-- mappages takes any pa, also the page of the root, which is then a leaf's target. -/
theorem mappages_breaks_tree :
    WellFormed small.mem 4096 ∧ Supply small 4096 [8192, 12288] ∧
      ∃ s', (mappages 4096 0 PGSIZE 4096 (PTE_R ||| PTE_W)).run small = .ok (true, s') ∧
        ¬WellFormed s'.mem 4096 := by
  refine ⟨wellFormed_blank small_blank (by decide), small_supply, ?_⟩
  have outcome : ((mappages 4096 0 PGSIZE 4096 (PTE_R ||| PTE_W)).run small).toOption.map
      (fun (ok, s') => (ok, (leafAt s'.mem 4096 0).map PTE2PA)) = some (true, some 4096) := by
    decide +kernel
  obtain ⟨⟨ok, s'⟩, run, same⟩ := ok_of_toOption outcome
  obtain ⟨rfl, target⟩ := Prod.mk.inj same
  refine ⟨s', run, fun wf => ?_⟩
  obtain ⟨e, leaf, root⟩ := Option.map_eq_some_iff.mp target
  apply wf.target 0 e 2 0 leaf
  rw [root]
  rfl

end Xv6Lab.Mm
