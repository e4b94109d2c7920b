import Xv6Lab.Mm.Pages

/-!
The tree of page-table pages below a root. A shape says which tables exist and what
the leaves are; a tree is memory and labels that agree with a shape.
-/

namespace Xv6Lab.Mm
open Function (update update_of_ne update_self)

open Bytes (Mem load store fill write read)

section Pte
variable {y f m : Nat}

theorem PTE2PA_aligned (e : Nat) : PTE2PA e % PGSIZE = 0 := by
  unfold PTE2PA PGSIZE
  omega

theorem PA2PTE_or (y : Nat) (small : f < 2 ^ 10) : PA2PTE y ||| f = PA2PTE y + f := by
  unfold PA2PTE
  rw [Nat.mul_comm, ← Nat.two_pow_add_eq_or_of_lt small]

theorem PTE2PA_PA2PTE (aligned : y % PGSIZE = 0) (short : y < 2 ^ 56) (small : f < 2 ^ 10) :
    PTE2PA (PA2PTE y ||| f) = y := by
  rw [PA2PTE_or y small]
  unfold PTE2PA PA2PTE
  simp only [PGSIZE] at aligned
  omega

theorem pte_lt (short : y < 2 ^ 56) (small : f < 2 ^ 10) : PA2PTE y ||| f < 256 ^ 8 := by
  rw [PA2PTE_or y small]
  unfold PA2PTE
  omega

theorem PTE_FLAGS_or (y : Nat) (small : f < 2 ^ 10) : PTE_FLAGS (PA2PTE y ||| f) = f := by
  rw [PA2PTE_or y small]
  unfold PTE_FLAGS PA2PTE
  omega

theorem flags_and (e : Nat) (mask : m < 2 ^ 10) : PTE_FLAGS e &&& m = e &&& m := by
  have low : (e &&& m) % 2 ^ 10 = e &&& m :=
    Nat.mod_eq_of_lt (lt_of_le_of_lt Nat.and_le_right mask)
  rw [← low, Nat.and_mod_two_pow, Nat.mod_eq_of_lt mask]
  rfl

theorem pte_and (y : Nat) (small : f < 2 ^ 10) (mask : m < 2 ^ 10) :
    (PA2PTE y ||| f) &&& m = f &&& m := by
  rw [← flags_and _ mask, PTE_FLAGS_or y small]

end Pte

def tab (mem : Mem) (y i : Nat) : Nat := load mem (slot y i) 8

def valid (e : Nat) : Option Nat := if e &&& PTE_V = 0 then none else some e

def child (mem : Mem) (y i : Nat) : Option Nat := (valid (tab mem y i)).map PTE2PA

def tableBelow (mem : Mem) (r : Nat) : Nat → Nat → Option Nat
  | 0, n => if n = 0 then some r else none
  | d + 1, n => (tableBelow mem r d (n / 512)).bind fun y => child mem y (n % 512)

def tableAt (mem : Mem) (r l n : Nat) : Option Nat :=
  if l ≤ 2 then tableBelow mem r (2 - l) n else none

def leafAt (mem : Mem) (r v : Nat) : Option Nat :=
  (tableAt mem r 0 (v / 512)).bind fun y => valid (tab mem y (v % 512))

structure Shape where
  table : Nat → Nat → Option Nat
  leaf : Nat → Option Nat

def Shape.set (S : Shape) (l q : Nat) (o : Option Nat) : Shape :=
  { S with table := fun l' n => if l' = l ∧ n = q then o else S.table l' n }

def Shape.setLeaf (S : Shape) (v : Nat) (e : Option Nat) : Shape :=
  { S with leaf := update S.leaf v e }

/-- The tree with root r has shape S, its tables carry their labels, and the entries
that point to tables are in I. -/
structure Tree (I : Nat → Prop) (own : Nat → Label) (mem : Mem) (r : Nat) (S : Shape) : Prop where
  top : ∀ l n, 2 ≤ l → S.table l n = if l = 2 ∧ n = 0 then some r else none
  parent : ∀ l n, l < 2 → S.table (l + 1) (n / 512) = none → S.table l n = none
  labels : ∀ l n y, own y = .table r l n ↔ S.table l n = some y
  entry : ∀ l n y j, S.table (l + 1) n = some y → j < 512 →
    child mem y j = S.table l (512 * n + j)
  form : ∀ l n y j e, S.table (l + 1) n = some y → j < 512 → valid (tab mem y j) = some e → I e
  leafEntry : ∀ n y j, S.table 0 n = some y → j < 512 →
    valid (tab mem y j) = S.leaf (512 * n + j)
  leafParent : ∀ v, S.table 0 (v / 512) = none → S.leaf v = none

section Valid
variable {e e' : Nat}

@[simp] theorem valid_zero : valid 0 = none := by decide

theorem valid_eq_some : valid e = some e' ↔ e &&& PTE_V ≠ 0 ∧ e' = e := by
  unfold valid
  split
  · next invalid => simp [invalid]
  · next holds => simp [holds, eq_comm]

theorem valid_eq_none : valid e = none ↔ e &&& PTE_V = 0 := by
  unfold valid
  split
  · next invalid => simp [invalid]
  · next holds => simp [holds]

theorem valid_of (holds : e &&& PTE_V ≠ 0) : valid e = some e := if_neg holds

theorem valid_interior (y : Nat) : valid (PA2PTE y ||| PTE_V) = some (PA2PTE y ||| PTE_V) := by
  apply valid_of
  rw [pte_and y (by decide) (by decide)]
  decide

end Valid

section Tables
variable {mem mem' : Mem} {x y j v : Nat}

theorem SamePage.tab (same : SamePage mem mem' y) (inside : j < 512) : tab mem' y j = tab mem y j :=
  same.load (by simp [slot]) (by simp only [slot, PGSIZE]; omega)

theorem onlyPage_slot (aligned : y % PGSIZE = 0) (inside : j < 512) :
    OnlyPage mem (store mem (slot y j) 8 v) y :=
  onlyPage_store aligned (by simp [slot]) (by simp only [slot, PGSIZE]; omega)

theorem tab_store (mem : Mem) (y j i : Nat) (fits : v < 256 ^ 8) :
    tab (store mem (slot y j) 8 v) y i = if i = j then v else tab mem y i := by
  unfold tab
  split
  · next same =>
      subst same
      exact Bytes.load_store fits
  · next other => exact Bytes.load_store_disjoint (by simp only [slot]; omega)

theorem tab_fill_zero (mem : Mem) (y : Nat) (inside : j < 512) : tab (fill mem y PGSIZE 0) y j = 0 :=
  Bytes.load_fill_zero (by simp [slot]) (by simp only [slot, PGSIZE]; omega)

end Tables

section Tree
variable {I : Nat → Prop} {own own' : Nat → Label} {mem mem' mem1 : Mem} {r : Nat} {S : Shape}
  {l n j m v x y : Nat}

section
variable (tree : Tree I own mem r S)
include tree

theorem Tree.table_inj {l' n' : Nat} (first : S.table l n = some x)
    (second : S.table l' n' = some x) : l = l' ∧ n = n' := by
  have label := (tree.labels l n x).mpr first
  rw [(tree.labels l' n' x).mpr second] at label
  simp only [Label.table.injEq, true_and] at label
  exact ⟨label.1.symm, label.2.symm⟩

theorem Tree.level (here : S.table l n = some x) : l ≤ 2 := by
  by_contra high
  rw [tree.top l n (by omega), if_neg (by omega)] at here
  cases here

theorem Tree.root : S.table 2 0 = some r := by
  rw [tree.top 2 0 le_rfl, if_pos ⟨rfl, rfl⟩]

theorem Tree.tableBelow (d n : Nat) (low : d ≤ 2) : tableBelow mem r d n = S.table (2 - d) n := by
  induction d generalizing n with
  | zero =>
    rw [Mm.tableBelow, tree.top (2 - 0) n le_rfl]
    simp
  | succ d ih =>
    rw [Mm.tableBelow, ih (n / 512) (by omega)]
    cases above : S.table (2 - d) (n / 512) with
    | none =>
      have missing := tree.parent (2 - (d + 1)) n (by omega)
      rw [show 2 - (d + 1) + 1 = 2 - d by omega] at missing
      rw [missing above]
      rfl
    | some y =>
      have entry := tree.entry (2 - (d + 1)) (n / 512) y (n % 512)
      rw [show 2 - (d + 1) + 1 = 2 - d by omega, Nat.div_add_mod] at entry
      exact entry above (Nat.mod_lt _ (by decide))

theorem Tree.tableAt (l n : Nat) : tableAt mem r l n = S.table l n := by
  unfold Mm.tableAt
  split
  · next low => rw [tree.tableBelow (2 - l) n (by omega), show 2 - (2 - l) = l by omega]
  · next high => rw [tree.top l n (by omega), if_neg (by omega)]

theorem Tree.leafAt (v : Nat) : leafAt mem r v = S.leaf v := by
  unfold Mm.leafAt
  rw [tree.tableAt]
  cases table : S.table 0 (v / 512) with
  | none => exact (tree.leafParent v table).symm
  | some y =>
    have entry := tree.leafEntry (v / 512) y (v % 512) table (Nat.mod_lt _ (by decide))
    rwa [Nat.div_add_mod] at entry

theorem Tree.frame {P : Label → Prop}
    (pages : ∀ x, own x ≠ .outside → Phys x) (within : Within P own own' mem mem')
    (outside : ∀ l n, ¬P (.table r l n)) : Tree I own' mem' r S := by
  have same : ∀ l n y j, S.table l n = some y → j < 512 → tab mem' y j = tab mem y j := by
    intro l n y j here inside
    have label := (tree.labels l n y).mpr here
    refine (within.bytes y (pages y (by simp [label])).1 ?_).tab inside
    rw [label]
    exact outside l n
  exact
    { tree with
      labels := fun l n y => by rw [within.iff (outside l n), tree.labels]
      entry := fun l n y j here inside => by
        rw [child, same (l + 1) n y j here inside]
        exact tree.entry l n y j here inside
      form := fun l n y j e here inside holds => by
        rw [same (l + 1) n y j here inside] at holds
        exact tree.form l n y j e here inside holds
      leafEntry := fun n y j here inside => by
        rw [same 0 n y j here inside, tree.leafEntry n y j here inside] }

theorem Tree.setTable {o : Option Nat} {e : Nat}
    (parent : S.table (l + 1) n = some m) (inside : j < 512)
    (points : (valid e).map PTE2PA = o) (good : ∀ e', valid e = some e' → I e')
    (children : ∀ l' i, l' + 1 = l → i < 512 → S.table l' (512 * (512 * n + j) + i) = none)
    (leaves : l = 0 → ∀ i, i < 512 → S.leaf (512 * (512 * n + j) + i) = none)
    (labels : ∀ l' n' x, own' x = .table r l' n' ↔ (S.set l (512 * n + j) o).table l' n' = some x)
    (pointer : ∀ i, i < 512 → tab mem' m i = if i = j then e else tab mem m i)
    (blank : ∀ y, o = some y → ∀ i, i < 512 → tab mem' y i = 0)
    (others : ∀ l' n' x, S.table l' n' = some x → x ≠ m → ¬(l' = l ∧ n' = 512 * n + j) →
      ∀ i, i < 512 → tab mem' x i = tab mem x i) : Tree I own' mem' r (S.set l (512 * n + j) o) := by
  have level := tree.level parent
  constructor
  · intro l' n' high
    simp only [Shape.set]
    rw [if_neg (by omega), tree.top l' n' high]
  · intro l' n' low missing
    simp only [Shape.set] at missing ⊢
    split
    · next here =>
        rw [if_neg (by omega), here.1, here.2, show (512 * n + j) / 512 = n by omega,
          parent] at missing
        cases missing
    · split at missing
      · next here =>
          have child := children l' (n' % 512) here.1 (Nat.mod_lt _ (by decide))
          rwa [← here.2, Nat.div_add_mod] at child
      · exact tree.parent l' n' low missing
  · exact labels
  · intro l' n' x i here low
    simp only [Shape.set] at here ⊢
    split at here
    · next same =>
        rw [child, blank x here i low, if_neg (by omega), same.2, children l' i same.1 low]
        rfl
    · next other =>
        by_cases same : x = m
        · subst same
          obtain ⟨level', index⟩ := tree.table_inj here parent
          obtain rfl : l' = l := by omega
          subst index
          rw [child, pointer i low]
          by_cases entry : i = j
          · rw [if_pos entry, if_pos (by omega), points]
          · rw [if_neg entry, if_neg (by omega)]
            exact tree.entry l' n' x i here low
        · rw [child, others (l' + 1) n' x here same other i low, if_neg]
          · exact tree.entry l' n' x i here low
          · rintro ⟨sameLevel, index⟩
            subst sameLevel
            obtain rfl : n' = n := by omega
            rw [parent] at here
            exact same (Option.some.inj here).symm
  · intro l' n' x i e' here low holds
    simp only [Shape.set] at here
    split at here
    · rw [blank x here i low, valid_zero] at holds
      cases holds
    · next other =>
        by_cases same : x = m
        · subst same
          rw [pointer i low] at holds
          split at holds
          · exact good e' holds
          · exact tree.form l' n' x i e' here low holds
        · rw [others (l' + 1) n' x here same other i low] at holds
          exact tree.form l' n' x i e' here low holds
  · intro n' x i here low
    simp only [Shape.set] at here ⊢
    split at here
    · next same =>
        rw [blank x here i low, same.2, leaves same.1.symm i low]
        rfl
    · next other =>
        have apart : x ≠ m := by
          intro same
          have := (tree.table_inj (same ▸ here) parent).1
          omega
        rw [others 0 n' x here apart other i low, tree.leafEntry n' x i here low]
  · intro v missing
    simp only [Shape.set] at missing ⊢
    split at missing
    · next here =>
        have leaf := leaves here.1.symm (v % 512) (Nat.mod_lt _ (by decide))
        rwa [← here.2, Nat.div_add_mod] at leaf
    · exact tree.leafParent v missing

theorem Tree.not_free (here : S.table l n = some x) : own x ≠ .free := by
  rw [(tree.labels l n x).mpr here]
  simp

theorem Tree.used (here : S.table l n = some x) : own x ≠ .outside := by
  rw [(tree.labels l n x).mpr here]
  simp

theorem Tree.link (plain : ∀ y, I (PA2PTE y ||| PTE_V))
    (pages : ∀ x, own x ≠ .outside → Phys x) (parent : S.table (l + 1) n = some m)
    (inside : j < 512) (missing : S.table l (512 * n + j) = none) (fresh : own y = .free)
    (only : OnlyPage mem mem1 y) : Tree I (update own y (.table r l (512 * n + j)))
      (store (fill mem1 y PGSIZE 0) (slot m j) 8 (PA2PTE y ||| PTE_V)) r
      (S.set l (512 * n + j) (some y)) := by
  have pageM := pages m (tree.used parent)
  have pageY := pages y (by simp [fresh])
  have distinct : ∀ l' n' x, S.table l' n' = some x → x ≠ y := by
    intro l' n' x here same
    exact tree.not_free here (same ▸ fresh)
  have fits : PA2PTE y ||| PTE_V < 256 ^ 8 := pte_lt pageY.2 (by decide)
  have toY := only.trans (onlyPage_fill (b := 0) pageY.1)
  have same : ∀ l' n' x, S.table l' n' = some x → ∀ i, i < 512 →
      tab (fill mem1 y PGSIZE 0) x i = tab mem x i := by
    intro l' n' x here i low
    exact (toY x (pages x (tree.used here)).1 (distinct l' n' x here)).tab low
  have level := tree.level parent
  refine tree.setTable parent inside (e := PA2PTE y ||| PTE_V) ?_ ?_ ?_ ?_ ?_ ?_ ?_ ?_
  · rw [valid_interior, Option.map_some, PTE2PA_PA2PTE pageY.1 pageY.2 (by decide)]
  · intro e' holds
    rw [valid_interior] at holds
    exact Option.some.inj holds ▸ plain y
  · intro l' i below low
    apply tree.parent l' _ (by omega)
    rw [below, show (512 * (512 * n + j) + i) / 512 = 512 * n + j by omega]
    exact missing
  · intro zero i low
    subst zero
    apply tree.leafParent
    rw [show (512 * (512 * n + j) + i) / 512 = 512 * n + j by omega]
    exact missing
  · intro l' n' x
    simp only [Shape.set]
    by_cases same : x = y
    · subst same
      rw [update_self]
      by_cases here : l' = l ∧ n' = 512 * n + j
      · simp [here]
      · rw [if_neg here, ← tree.labels, fresh]
        simp only [Label.table.injEq, true_and, reduceCtorEq, iff_false]
        omega
    · rw [update_of_ne same, tree.labels]
      split
      · next here =>
          rw [here.1, here.2, missing]
          simpa using fun equal => same equal.symm
      · rfl
  · intro i low
    rw [tab_store _ _ _ _ fits, same (l + 1) n m parent i low]
  · intro y' here i low
    obtain rfl := Option.some.inj here
    rw [(onlyPage_slot pageM.1 inside y pageY.1 (distinct _ _ _ parent).symm).tab low,
      tab_fill_zero _ _ low]
  · intro l' n' x here other _ i low
    rw [(onlyPage_slot pageM.1 inside x (pages x (tree.used here)).1 other).tab low,
      same l' n' x here i low]

theorem Tree.unlink (pages : ∀ x, own x ≠ .outside → Phys x) (parent : S.table (l + 1) n = some m)
    (inside : j < 512) (child : S.table l (512 * n + j) = some y)
    (children : ∀ l' i, l' + 1 = l → i < 512 → S.table l' (512 * (512 * n + j) + i) = none)
    (leaves : l = 0 → ∀ i, i < 512 → S.leaf (512 * (512 * n + j) + i) = none)
    (only : OnlyPage mem mem1 y) : Tree I (update own y .free) (store mem1 (slot m j) 8 0) r
      (S.set l (512 * n + j) none) := by
  have pageM := pages m (tree.used parent)
  have same : ∀ l' n' x, S.table l' n' = some x → ¬(l' = l ∧ n' = 512 * n + j) → ∀ i, i < 512 →
      tab mem1 x i = tab mem x i := by
    intro l' n' x here other i low
    apply (only x (pages x (tree.used here)).1 _).tab low
    intro equal
    exact other (tree.table_inj (equal ▸ here) child)
  refine tree.setTable parent inside (e := 0) ?_ ?_ children leaves ?_ ?_ ?_ ?_
  · simp
  · simp
  · intro l' n' x
    simp only [Shape.set]
    by_cases same : x = y
    · subst same
      rw [update_self]
      split
      · simp
      · next other =>
          refine ⟨fun label => (nomatch label), fun here => ?_⟩
          exact absurd (tree.table_inj here child) other
    · rw [update_of_ne same, tree.labels]
      split
      · next here =>
          rw [here.1, here.2, child]
          simpa using fun equal => same equal.symm
      · rfl
  · intro i low
    rw [tab_store _ _ _ _ (by decide), same (l + 1) n m parent (by omega) i low]
  · intro y' here
    cases here
  · intro l' n' x here other apart i low
    rw [(onlyPage_slot pageM.1 inside x (pages x (tree.used here)).1 other).tab low,
      same l' n' x here apart i low]

theorem Tree.writeLeaf {e : Nat} (pages : ∀ x, own x ≠ .outside → Phys x)
    (table : S.table 0 (v / 512) = some y) (fits : e < 256 ^ 8) :
    Tree I own (store mem (slot y (v % 512)) 8 e) r (S.setLeaf v (valid e)) := by
  have page := pages y (tree.used table)
  have inside : v % 512 < 512 := Nat.mod_lt _ (by decide)
  have same : ∀ l n x, S.table l n = some x → x ≠ y → ∀ i, i < 512 →
      tab (store mem (slot y (v % 512)) 8 e) x i = tab mem x i := fun l n x here other i low =>
    (onlyPage_slot page.1 inside x (pages x (tree.used here)).1 other).tab low
  have upper : ∀ l n x, S.table (l + 1) n = some x → x ≠ y := by
    intro l n x here equal
    have := (tree.table_inj (equal ▸ here) table).1
    omega
  constructor
  · exact tree.top
  · exact tree.parent
  · exact tree.labels
  · intro l n x j here low
    rw [child, same (l + 1) n x here (upper l n x here) j low]
    exact tree.entry l n x j here low
  · intro l n x j e' here low holds
    rw [same (l + 1) n x here (upper l n x here) j low] at holds
    exact tree.form l n x j e' here low holds
  · intro n x j here low
    simp only [Shape.setLeaf]
    have old := tree.leafEntry n x j here low
    by_cases equal : x = y
    · subst equal
      obtain rfl := (tree.table_inj here table).2
      rw [tab_store _ _ _ _ fits]
      by_cases entry : j = v % 512
      · rw [if_pos entry, show 512 * (v / 512) + j = v by omega, update_self]
      · rw [if_neg entry, update_of_ne (by omega), old]
    · rw [same 0 n x here equal j low, old, update_of_ne]
      intro index
      have here : S.table 0 n = some x := here
      rw [← index, show (512 * n + j) / 512 = n by omega, here] at table
      exact equal (Option.some.inj table)
  · intro w missing
    simp only [Shape.setLeaf]
    rw [update_of_ne]
    · exact tree.leafParent w missing
    · intro equal
      have missing : S.table 0 (w / 512) = none := missing
      rw [equal, table] at missing
      cases missing

end

theorem Tree.create (unused : ∀ x l n, own x ≠ .table r l n) :
    Tree I (update own r (.table r 2 0)) (fill mem r PGSIZE 0) r
      ⟨fun l n => if l = 2 ∧ n = 0 then some r else none, fun _ => none⟩ := by
  have only : ∀ l n y, (if l = 2 ∧ n = 0 then some r else none) = some y → l = 2 ∧ n = 0 ∧ y = r := by
    intro l n y here
    split at here
    · next root => exact ⟨root.1, root.2, (Option.some.inj here).symm⟩
    · cases here
  constructor
  · intro l n _
    rfl
  · intro l n low _
    exact if_neg (by omega)
  · intro l n y
    by_cases same : y = r
    · subst same
      rw [update_self]
      simp only [Label.table.injEq, true_and]
      constructor
      · rintro ⟨level, index⟩
        rw [if_pos ⟨level.symm, index.symm⟩]
      · intro here
        obtain ⟨level, index, -⟩ := only l n y here
        exact ⟨level.symm, index.symm⟩
    · rw [update_of_ne same]
      refine ⟨fun label => absurd label (unused y l n), fun here => ?_⟩
      exact absurd (only l n y here).2.2 same
  · intro l n y j here inside
    obtain ⟨level, -, equal⟩ := only (l + 1) n y here
    simp only
    rw [if_neg (by omega), child, equal, tab_fill_zero mem r inside]
    rfl
  · intro l n y j e here inside holds
    rw [(only (l + 1) n y here).2.2, tab_fill_zero mem r inside, valid_zero] at holds
    cases holds
  · intro n y j here _
    simp at here
  · intro v _
    rfl

end Tree
end Xv6Lab.Mm
