import Xv6Lab.Mm.Tree

/-!
walk, walkaddr and mappages on a tree.
-/

namespace Xv6Lab.Mm
open Function (update update_of_ne update_self)

open Bytes (Mem load store fill write read)
variable {Q : Unit → Mach → Prop} {n : Nat}

/-- The labels that change hands when tables are added to or removed from tree r. -/
def Tables (r : Nat) : Label → Prop
  | .free => True
  | .table r' _ _ => r' = r
  | _ => False

def Takes (own own' : Nat → Label) : Prop := ∀ x, own' x = .free → own x = .free

theorem Takes.refl (own : Nat → Label) : Takes own own := fun _ free => free

theorem Takes.trans {own own' own'' : Nat → Label} (first : Takes own own') (second : Takes own' own'') :
    Takes own own'' := fun x free => first x (second x free)

theorem Takes.update {own : Nat → Label} {y : Nat} {l : Label} (busy : l ≠ .free) :
    Takes own (update own y l) := by
  intro x free
  by_cases same : x = y
  · rw [same, update_self] at free
    exact absurd free busy
  · rwa [update_of_ne same] at free

structure PageTable (Pg I : Nat → Prop) (own : Nat → Label) (s : Mach) (r : Nat) (S : Shape) : Prop
    extends Heap Pg own s where
  tree : Tree I own s.mem r S
  plain : ∀ y, I (PA2PTE y ||| PTE_V)

section Rules
variable {E : Panic → Prop} {s : Mach}

@[simp] theorem wp_readPte {Q : Nat → Mach → Prop} (pte : Nat) :
    wp (readPte pte) E Q s ↔ Q (load s.mem pte 8) s := Iff.rfl

@[simp] theorem wp_writePte (pte v : Nat) :
    wp (writePte pte v) E Q s ↔ Q () { s with mem := store s.mem pte 8 v } := Iff.rfl

@[simp] theorem wp_memset (pa : Nat) (c : UInt8) (n : Nat) :
    wp (memset pa c n) E Q s ↔ Q () { s with mem := fill s.mem pa n c } := Iff.rfl

@[simp] theorem wp_memmove (dst src n : Nat) : wp (memmove dst src n) E Q s ↔
      Q () { s with mem := write s.mem dst (read s.mem src n) } := Iff.rfl

end Rules

section Index

theorem PX_eq (l va : Nat) : PX l va = va / PGSIZE / 512 ^ l % 512 := by
  unfold PX
  rw [Nat.div_div_eq_div_mul, Nat.pow_add, Nat.pow_mul]
  rfl

theorem child_index (v l : Nat) :
    512 * (v / 512 ^ (l + 1 + 1)) + v / 512 ^ (l + 1) % 512 = v / 512 ^ (l + 1) := by
  rw [Nat.pow_succ 512 (l + 1), ← Nat.div_div_eq_div_mul, Nat.div_add_mod]

theorem root_index {va : Nat} (below : va < MAXVA) : va / PGSIZE / 512 ^ (2 + 1) = 0 := by
  apply Nat.div_eq_of_lt
  simp only [MAXVA, PGSIZE] at *
  omega

end Index

section Lookup
variable {I : Nat → Prop} {own : Nat → Label} {s : Mach} {mem : Mem} {r : Nat} {S : Shape}
  {l v y va : Nat}

theorem Tree.missing (tree : Tree I own mem r S) (low : l ≤ 1)
    (gone : S.table l (v / 512 ^ (l + 1)) = none) : S.table 0 (v / 512) = none := by
  induction l with
  | zero => simpa using gone
  | succ l ih =>
    apply ih (by omega)
    apply tree.parent l _ (by omega)
    rwa [Nat.div_div_eq_div_mul, ← Nat.pow_succ]

theorem Tree.read_leaf (tree : Tree I own mem r S) (here : S.table 0 (v / 512) = some y) :
    valid (load mem (slot y (v % 512)) 8) = S.leaf v := by
  have entry := tree.leafEntry (v / 512) y (v % 512) here (Nat.mod_lt _ (by decide))
  rwa [Nat.div_add_mod] at entry

section
variable (tree : Tree I own s.mem r S)
include tree

theorem walkFrom_find (l page : Nat) (low : l ≤ 2)
    (here : S.table l (va / PGSIZE / 512 ^ (l + 1)) = some page) :
    wp (walkFrom va false l page) (fun _ => False) (fun a s' =>
      s' = s ∧ a = (S.table 0 (va / PGSIZE / 512)).map fun y => slot y (va / PGSIZE % 512)) s := by
  induction l generalizing page with
  | zero =>
    rw [Nat.zero_add, Nat.pow_one] at here
    simp [walkFrom, here, PX_eq]
  | succ l ih =>
    have entry := tree.entry l _ page (PX (l + 1) va) here (Nat.mod_lt _ (by decide))
    rw [PX_eq, child_index, child] at entry
    rw [walkFrom]
    simp only [wp_bind, wp_readPte, wp_ite]
    rw [← tab, PX_eq]
    cases found : valid (tab s.mem page (va / PGSIZE / 512 ^ (l + 1) % 512)) with
    | none =>
      rw [found] at entry
      rw [valid_eq_none] at found
      simp [found, tree.missing (by omega) entry.symm]
    | some e =>
      rw [found] at entry
      obtain ⟨holds, same⟩ := valid_eq_some.mp found
      refine ⟨fun _ => ?_, fun invalid => absurd holds invalid⟩
      rw [← same]
      exact ih _ (by omega) entry.symm

theorem walk_find (below : va < MAXVA) : wp (walk r va false) (fun _ => False) (fun a s' =>
      s' = s ∧ a = (S.table 0 (va / PGSIZE / 512)).map fun y => slot y (va / PGSIZE % 512)) s := by
  rw [walk, if_neg (by omega)]
  apply walkFrom_find tree 2 r (by omega)
  rw [root_index below, tree.root]

theorem walkaddr_spec : wp (walkaddr r va) (fun _ => False) (fun pa s' => s' = s ∧
      pa = if va < MAXVA then
        ((S.leaf (va / PGSIZE)).filter fun e => e &&& PTE_U ≠ 0).elim 0 PTE2PA else 0) s := by
  unfold walkaddr
  split
  · next high => simp [show ¬va < MAXVA by omega]
  · next low =>
      have below : va < MAXVA := by omega
      apply wp_seq (walk_find tree below)
      rintro a s' ⟨same, found⟩
      subst same found
      rw [if_pos below]
      cases table : S.table 0 (va / PGSIZE / 512) with
      | none => simp [tree.leafParent _ table]
      | some y =>
        have entry := tree.read_leaf table
        simp only [Option.map_some, wp_bind, wp_readPte, wp_ite, wp_pure]
        rw [← entry]
        refine ⟨fun invalid => ?_, fun holds => ?_⟩
        · simp [valid_eq_none.mpr invalid]
        · rw [valid_of holds]
          constructor
          · intro supervisor
            simp [Option.filter, supervisor]
          · intro user
            simp [Option.filter, user]

end
end Lookup

section Walk
variable {Pg I : Nat → Prop} {own : Nat → Label} {s : Mach} {r : Nat} {S : Shape} {va : Nat}

section
variable (pt : PageTable Pg I own s r S)
include pt

theorem PageTable.used : ∀ x, own x ≠ .outside → Phys x :=
  fun _ => pt.toHeap.used

theorem PageTable.link {s' : Mach} {l j m y : Nat} (parent : S.table (l + 1) n = some m)
    (inside : j < 512) (missing : S.table l (512 * n + j) = none) (fresh : own y = .free)
    (only : OnlyPage s.mem s'.mem y) (heap : Heap Pg (update own y (.table r l (512 * n + j))) s') :
    PageTable Pg I (update own y (.table r l (512 * n + j))) { s' with
        mem := store (fill s'.mem y PGSIZE 0) (slot m j) 8 (PA2PTE y ||| PTE_V) }
      r (S.set l (512 * n + j) (some y)) ∧
    Within (Tables r) own (update own y (.table r l (512 * n + j))) s.mem
      (store (fill s'.mem y PGSIZE 0) (slot m j) 8 (PA2PTE y ||| PTE_V)) := by
  have pageM := pt.used m (pt.tree.used parent)
  have pageY := pt.used y (by simp [fresh])
  have label := (pt.tree.labels _ _ m).mpr parent
  have other : m ≠ y := by
    intro same
    exact pt.tree.not_free parent (same ▸ fresh)
  refine ⟨⟨?_, pt.tree.link pt.plain pt.used parent inside missing fresh only, pt.plain⟩, ?_⟩
  · refine heap.frame (P := fun label => ∃ l n, label = .table r l n)
      ((Within.touch (x := y) ?_ (onlyPage_fill pageY.1)).trans
        (Within.touch (x := m) ?_ (onlyPage_slot pageM.1 inside))) (by simp) (by simp)
    · exact ⟨_, _, update_self ..⟩
    · exact ⟨_, _, (update_of_ne other ..).trans label⟩
  · refine (Within.relabel (by simp [fresh, Tables]) (by simp [Tables])
      (only.trans (onlyPage_fill pageY.1))).trans
      (Within.touch (x := m) ?_ (onlyPage_slot pageM.1 inside))
    rw [update_of_ne other, label]
    rfl

theorem walkFrom_alloc (l page : Nat) (low : l ≤ 2)
    (here : S.table l (va / PGSIZE / 512 ^ (l + 1)) = some page) :
    wp (walkFrom va true l page) (fun _ => False) (fun a s' => ∃ own' S',
      PageTable Pg I own' s' r S' ∧ S'.leaf = S.leaf ∧ Within (Tables r) own own' s.mem s'.mem ∧
        Takes own own' ∧ ∀ pte, a = some pte → ∃ y, S'.table 0 (va / PGSIZE / 512) = some y ∧
          pte = slot y (va / PGSIZE % 512)) s := by
  induction l generalizing page own s S with
  | zero =>
    rw [Nat.zero_add, Nat.pow_one] at here
    refine ⟨own, S, pt, rfl, Within.refl _ _ _, Takes.refl own, fun pte found => ⟨page, here, ?_⟩⟩
    simpa [PX_eq] using (Option.some.inj found).symm
  | succ l ih =>
    have bound : va / PGSIZE / 512 ^ (l + 1) % 512 < 512 := Nat.mod_lt _ (by decide)
    have entry := pt.tree.entry l _ page (va / PGSIZE / 512 ^ (l + 1) % 512) here bound
    rw [child_index, child] at entry
    rw [walkFrom]
    simp only [wp_bind, wp_readPte, wp_ite]
    rw [← tab, PX_eq]
    cases found : valid (tab s.mem page (va / PGSIZE / 512 ^ (l + 1) % 512)) with
    | some e =>
      rw [found] at entry
      obtain ⟨holds, same⟩ := valid_eq_some.mp found
      refine ⟨fun _ => ?_, fun invalid => absurd holds invalid⟩
      rw [← same]
      exact ih pt _ (by omega) entry.symm
    | none =>
      rw [found] at entry
      rw [valid_eq_none] at found
      refine ⟨fun holds => absurd found holds, fun _ => ⟨fun never => (by cases never), fun _ => ?_⟩⟩
      apply wp_post (kalloc_spec pt.toHeap (.table r l (va / PGSIZE / 512 ^ (l + 1))) (by simp))
      intro y s' outcome
      rcases outcome with ⟨zero, same, heap⟩ | ⟨fresh, positive, only, heap⟩
      · -- no page: the tables made so far stay
        refine ⟨fun _ => ⟨own, S, ⟨heap, same ▸ pt.tree, pt.plain⟩, rfl,
          same ▸ Within.refl _ _ _, Takes.refl own, fun pte found => by cases found⟩,
          fun positive => absurd zero positive⟩
      · refine ⟨fun zero => absurd zero positive, fun _ => ?_⟩
        have missing := entry.symm
        rw [Option.map_none, ← child_index] at missing
        rw [← child_index] at heap
        obtain ⟨pt', within⟩ := pt.link here bound missing fresh only heap
        rw [child_index] at pt' within
        simp only [wp_memset, wp_writePte]
        apply wp_post (ih pt' y (by omega) (by simp [Shape.set]))
        rintro a s'' ⟨own', S', pt'', leaf, within', takes, found⟩
        exact ⟨own', S', pt'', leaf, within.trans within', (Takes.update (by simp)).trans takes, found⟩

theorem walk_alloc (below : va < MAXVA) :
    wp (walk r va true) (fun _ => False) (fun a s' => ∃ own' S',
      PageTable Pg I own' s' r S' ∧ S'.leaf = S.leaf ∧ Within (Tables r) own own' s.mem s'.mem ∧
        Takes own own' ∧ ∀ pte, a = some pte → ∃ y, S'.table 0 (va / PGSIZE / 512) = some y ∧
          pte = slot y (va / PGSIZE % 512)) s := by
  rw [walk, if_neg (by omega)]
  apply walkFrom_alloc pt 2 r (by omega)
  rw [root_index below, pt.tree.root]

theorem PageTable.writeLeaf {v y e : Nat}
    (table : S.table 0 (v / 512) = some y) (fits : e < 256 ^ 8) :
    PageTable Pg I own { s with mem := store s.mem (slot y (v % 512)) 8 e } r
      (S.setLeaf v (valid e)) ∧
    Within (fun label => ∃ l n, label = .table r l n) own own s.mem
      (store s.mem (slot y (v % 512)) 8 e) := by
  have page := pt.used y (pt.tree.used table)
  have within : Within (fun label => ∃ l n, label = .table r l n) own own s.mem
      (store s.mem (slot y (v % 512)) 8 e) :=
    Within.touch ⟨_, _, (pt.tree.labels _ _ y).mpr table⟩
      (onlyPage_slot page.1 (Nat.mod_lt _ (by decide)))
  exact ⟨⟨pt.toHeap.frame within (by simp) (by simp), pt.tree.writeLeaf pt.used table fits,
    pt.plain⟩, within⟩

end
end Walk

section Mappages
variable {Pg I : Nat → Prop} {own : Nat → Label} {s : Mach} {r : Nat} {S : Shape}
  {va pa perm : Nat}

def leafOf (pa perm : Nat) : Nat := PA2PTE pa ||| perm ||| PTE_V

theorem leafOf_eq (pa perm : Nat) : leafOf pa perm = PA2PTE pa ||| (perm ||| PTE_V) :=
  Nat.or_assoc ..

section
variable (small : perm < 2 ^ 10)
include small

theorem perm_small : perm ||| PTE_V < 2 ^ 10 :=
  Nat.or_lt_two_pow small (by decide)

theorem leafOf_and {m : Nat} (mask : m < 2 ^ 10) :
    leafOf pa perm &&& m = (perm ||| PTE_V) &&& m := by
  rw [leafOf_eq, pte_and pa (perm_small small) mask]

theorem leafOf_fits (fits : pa < 2 ^ 64) : leafOf pa perm < 256 ^ 8 := by
  rw [leafOf_eq, PA2PTE_or pa (perm_small small)]
  have := perm_small small
  unfold PA2PTE
  omega

theorem valid_leafOf : valid (leafOf pa perm) = some (leafOf pa perm) := by
  apply valid_of
  rw [leafOf_and small (by decide), Nat.and_or_distrib_right]
  intro zero
  rw [Nat.or_eq_zero_iff] at zero
  exact absurd zero.2 (by decide)

theorem PTE2PA_leafOf (page : Phys pa) : PTE2PA (leafOf pa perm) = pa := by
  rw [leafOf_eq, PTE2PA_PA2PTE page.1 page.2 (perm_small small)]

theorem PTE_FLAGS_leafOf : PTE_FLAGS (leafOf pa perm) = perm ||| PTE_V := by
  rw [leafOf_eq, PTE_FLAGS_or pa (perm_small small)]

end

theorem mapLoop_step {E : Panic → Prop} {Q : Bool → Mach → Prop}
    (pt : PageTable Pg I own s r S) (small : perm < 2 ^ 10) (fits : pa < 2 ^ 64)
    (high : MAXVA ≤ va → E .walk)
    (remap : va < MAXVA → S.leaf (va / PGSIZE) ≠ none → E .mappagesRemap)
    (full : ∀ own' S' s', PageTable Pg I own' s' r S' → S'.leaf = S.leaf →
      Within (Tables r) own own' s.mem s'.mem → Takes own own' → Q false s')
    (next : ∀ own' S' s', PageTable Pg I own' s' r S' → S.leaf (va / PGSIZE) = none →
      S'.leaf = update S.leaf (va / PGSIZE) (some (leafOf pa perm)) →
      Within (Tables r) own own' s.mem s'.mem → Takes own own' →
      wp (mapLoop r perm n ((va + PGSIZE) % 2 ^ 64) ((pa + PGSIZE) % 2 ^ 64)) E Q s') :
    wp (mapLoop r perm (n + 1) va pa) E Q s := by
  rw [mapLoop, wp_bind]
  by_cases below : va < MAXVA
  · apply wp_never (walk_alloc pt below)
    rintro a s' ⟨own', S', pt', leaf, within, takes, found⟩
    cases a with
    | none => exact full own' S' s' pt' leaf within takes
    | some pte =>
      obtain ⟨y, table, place⟩ := found pte rfl
      subst place
      have entry := pt'.tree.read_leaf table
      simp only [wp_bind, wp_readPte, wp_ite, wp_throw, wp_writePte]
      constructor
      · intro used
        apply remap below
        rw [← leaf, ← entry, valid_of used]
        simp
      · intro unused
        have word : leafOf pa perm < 256 ^ 8 := leafOf_fits small fits
        obtain ⟨pt'', within'⟩ := pt'.writeLeaf table word
        apply next own' _ _ pt''
        · rw [← leaf, ← entry, valid_eq_none.mpr (not_not.mp unused)]
        · simp [Shape.setLeaf, leaf, valid_leafOf small]
        · apply within.trans (within'.mono _)
          rintro _ ⟨l, n, label⟩
          rw [label]
          rfl
        · exact takes
  · rw [walk, if_pos (by omega)]
    exact high (by omega)

theorem mapLoop_spec {u : Nat} (n : Nat) (pt : PageTable Pg I own s r S) (small : perm < 2 ^ 10)
    (fits : pa + n * PGSIZE ≤ 2 ^ 56) (top : u + n ≤ MAXVA / PGSIZE)
    (absent : ∀ v, u ≤ v → v < u + n → S.leaf v = none) :
    wp (mapLoop r perm n (u * PGSIZE) pa) (fun _ => False) (fun ok s' => ∃ own' S' k,
      PageTable Pg I own' s' r S' ∧ Within (Tables r) own own' s.mem s'.mem ∧
      (if ok then k = n else k < n) ∧
      ∀ v, S'.leaf v = if u ≤ v ∧ v < u + k then some (leafOf (pa + (v - u) * PGSIZE) perm)
        else S.leaf v) s := by
  induction n generalizing own s S u pa with
  | zero => exact ⟨own, S, 0, pt, Within.refl _ _ _, rfl, fun v => by rw [if_neg (by omega)]⟩
  | succ n ih =>
    have index : u * PGSIZE / PGSIZE = u := Nat.mul_div_cancel u (by decide)
    have bounds : u * PGSIZE < MAXVA ∧ (u * PGSIZE + PGSIZE) % 2 ^ 64 = (u + 1) * PGSIZE ∧
        (n = 0 ∨ (pa + PGSIZE) % 2 ^ 64 = pa + PGSIZE) := by
      simp only [MAXVA, PGSIZE] at *
      omega
    apply mapLoop_step pt small (by omega) (by omega)
    · intro _ used
      rw [index] at used
      exact used (absent u le_rfl (by omega))
    · intro own' S' s' pt' leaf within _
      refine ⟨own', S', 0, pt', within, by simp, fun v => ?_⟩
      rw [if_neg (by omega), leaf]
    · intro own' S' s' pt' _ leaf within _
      rw [index] at leaf
      have first : S'.leaf u = some (leafOf pa perm) := by rw [leaf, update_self]
      have others : ∀ v, v ≠ u → S'.leaf v = S.leaf v := fun v other => by
        rw [leaf, update_of_ne other]
      rw [bounds.2.1]
      rcases bounds.2.2 with last | next
      · -- nothing is left to map, so that pa does not matter any more
        subst last
        refine ⟨own', S', 1, pt', within, rfl, fun v => ?_⟩
        by_cases here : v = u
        · rw [here, first, if_pos (by omega), Nat.sub_self, Nat.zero_mul, Nat.add_zero]
        · rw [others v here, if_neg (by omega)]
      · rw [next]
        have absent' : ∀ v, u + 1 ≤ v → v < u + 1 + n → S'.leaf v = none := fun v low high => by
          rw [others v (by omega), absent v (by omega) (by omega)]
        have fits' : pa + PGSIZE + n * PGSIZE ≤ 2 ^ 56 := by
          rw [Nat.succ_mul] at fits
          omega
        apply wp_post (ih pt' fits' (by omega) absent')
        rintro ok s'' ⟨own'', S'', k, pt'', within', count, leaf'⟩
        refine ⟨own'', S'', k + 1, pt'', within.trans within', ?_, fun v => ?_⟩
        · cases ok with
          | true => exact congrArg (· + 1) count
          | false => exact Nat.succ_lt_succ count
        · rw [leaf' v]
          by_cases inside : u + 1 ≤ v ∧ v < u + 1 + k
          · rw [if_pos inside, if_pos (by omega), show v - u = v - (u + 1) + 1 by omega,
              Nat.add_mul, Nat.one_mul, Nat.add_comm (_ * _) PGSIZE, Nat.add_assoc]
          · rw [if_neg inside]
            by_cases here : v = u
            · rw [here, first, if_pos (by omega), Nat.sub_self, Nat.zero_mul, Nat.add_zero]
            · rw [others v here, if_neg (by omega)]

theorem mappages_one (pt : PageTable Pg I own s r S) (small : perm < 2 ^ 10) (fits : pa < 2 ^ 64)
    (aligned : va % PGSIZE = 0) (below : va < MAXVA) (absent : S.leaf (va / PGSIZE) = none) :
    wp (mappages r va PGSIZE pa perm) (fun _ => False) (fun ok s' => ∃ own' S',
      PageTable Pg I own' s' r S' ∧ Within (Tables r) own own' s.mem s'.mem ∧
      S'.leaf = if ok then update S.leaf (va / PGSIZE) (some (leafOf pa perm)) else S.leaf) s := by
  rw [mappages, if_neg (by omega), if_neg (by simp), if_neg (by simp [PGSIZE])]
  apply mapLoop_step pt small fits (by omega) (fun _ used => used absent)
  · intro own' S' s' pt' leaf within _
    exact ⟨own', S', pt', within, leaf⟩
  · intro own' S' s' pt' _ leaf within _
    exact ⟨own', S', pt', within, leaf⟩

theorem mapLoop_any (pt : PageTable Pg I own s r S) (small : perm < 2 ^ 10) (fits : pa < 2 ^ 64) :
    wp (mapLoop r perm n va pa) (fun e => e = .walk ∨ e = .mappagesRemap) (fun _ s' => ∃ own' S',
      PageTable Pg I own' s' r S' ∧ Within (Tables r) own own' s.mem s'.mem) s := by
  induction n generalizing own s S va pa with
  | zero => exact ⟨own, S, pt, Within.refl _ _ _⟩
  | succ n ih =>
    apply mapLoop_step pt small fits (fun _ => .inl rfl) (fun _ _ => .inr rfl)
    · intro own' S' s' pt' _ within _
      exact ⟨own', S', pt', within⟩
    · intro own' S' s' pt' _ _ within _
      apply wp_post (ih pt' (Nat.mod_lt _ (by decide)))
      rintro _ s'' ⟨own'', S'', pt'', within'⟩
      exact ⟨own'', S'', pt'', within.trans within'⟩

end Mappages
end Xv6Lab.Mm
