import Xv6Lab.Mm.Growth
import Xv6Lab.Mm.Refinement

/-!
uvmalloc and uvmcopy do all of their work or none of it, wherever kalloc fails.
-/

namespace Xv6Lab.Mm
open Bytes (Mem load store fill write read)
variable {v l n : Nat}

structure Stock (cfg : Config) (s : Mach) (r : Nat) (F : List Nat) : Prop extends Supply s r F where
  accepts : ∀ x ∈ F, IsPage cfg x

/-- The free pages F are free again, but for those that have become tables below r. -/
structure Returned (s' : Mach) (r : Nat) (F : List Nat) : Prop where
  wf : WellFormed s'.mem r
  supply : ∃ F', Supply s' r F' ∧ (∀ x ∈ F', x ∈ F) ∧
    ∀ x ∈ F, x ∈ F' ∨ ∃ l n, tableAt s'.mem r l n = some x

def Untouched (s s' : Mach) (r : Nat) (F : List Nat) : Prop :=
  ∀ x, x % PGSIZE = 0 → x ∉ F → (∀ l n, tableAt s.mem r l n ≠ some x) → SamePage s.mem s'.mem x

structure UvmallocSpec (cfg : Config) (s : Mach) (r : Nat) (F : List Nat) (old new xperm sz : Nat)
    (s' : Mach) : Prop where
  outcome : sz = new ∨ sz = 0
  success : sz = new → WellFormed s'.mem r ∧ (∃ F', Supply s' r F' ∧ ∀ x ∈ F', x ∈ F) ∧
    ∃ page : Nat → Nat,
    (∀ v, abs s' r v = if pagesOf old ≤ v ∧ v < pagesOf new then
      some (page v, PTE_R ||| PTE_U ||| xperm ||| PTE_V) else abs s r v) ∧
    (∀ v, pagesOf old ≤ v → v < pagesOf new →
      page v ∈ F ∧ ∀ o < PGSIZE, s'.mem (page v + o) = 0) ∧
    ∀ v w, pagesOf old ≤ v → v < pagesOf new → pagesOf old ≤ w → w < pagesOf new →
      page v = page w → v = w
  failure : sz = 0 → abs s' r = abs s r ∧ Returned s' r F
  rest : Untouched s s' r F
  tables : ∀ l n x, tableAt s'.mem r l n = some x → x ∈ F ∨ ∃ l' n', tableAt s.mem r l' n' = some x
  undo : sz = new → ∃ s'', (uvmdealloc cfg r new old).run s' = .ok (old, s'') ∧ abs s'' r = abs s r ∧
    Returned s'' r F ∧ Untouched s s'' r F

/-- Two trees with no table in common; the pages mapped at r are not tables of rn. -/
structure Beside (mem : Mem) (r rn : Nat) : Prop where
  tables : ∀ l n l' n' x, tableAt mem r l n = some x → tableAt mem rn l' n' ≠ some x
  targets : ∀ v e l n, v < MAXVA / PGSIZE → leafAt mem r v = some e → tableAt mem rn l n ≠ some (PTE2PA e)

structure UvmcopySpec (s : Mach) (r rn : Nat) (F : List Nat) (sz : Nat) (ok : Bool) (s' : Mach) :
    Prop where
  source : abs s' r = abs s r
  bytes : ∀ v pa flags, abs s r v = some (pa, flags) → SamePage s.mem s'.mem pa
  above : ∀ v, sz ≤ v * PGSIZE → abs s' rn v = abs s rn v
  success : ok = true → WellFormed s'.mem rn ∧ ∃ page : Nat → Nat,
    (∀ v, v * PGSIZE < sz → abs s' rn v = (abs s r v).map fun entry => (page v, entry.2)) ∧
    (∀ v pa flags, v * PGSIZE < sz → abs s r v = some (pa, flags) →
      page v ∈ F ∧ ∀ o < PGSIZE, s'.mem (page v + o) = s.mem (pa + o)) ∧
    ∀ v w, v * PGSIZE < sz → w * PGSIZE < sz → abs s r v ≠ none → abs s r w ≠ none →
      page v = page w → v = w
  failure : ok = false → (∀ v, v * PGSIZE < sz → abs s' rn v = none) ∧ Returned s' rn F

structure Vacant (D : Nat → Prop) (own : Nat → Label) (mem : Mem) (r : Nat) (S : Shape) (F : List Nat) :
    Prop where
  free : ∀ x, own x = .free ↔ x ∈ F
  tables : ∀ x l n, own x = .table r l n → tableAt mem r l n = some x
  nobody : ∀ x v, own x ≠ .user r v
  targets : ∀ v e, S.leaf v = some e → ¬Mine r (own (PTE2PA e))
  empty : ∀ v, D v → S.leaf v = none

section Facts
variable {cfg : Config} {D : Nat → Prop} {plan : Plan} {own own1 : Nat → Label} {s s1 : Mach}
  {r u m : Nat} {S S1 : Shape} {F : List Nat}

theorem Vacant.users {mem : Mem} (vacant : Vacant D own mem r S F) : UsersIn D own r S := by
  intro v y
  constructor
  · intro label
    exact absurd label (vacant.nobody y v)
  · rintro ⟨inside, e, leaf, -⟩
    rw [vacant.empty v inside] at leaf
    cases leaf

theorem Growth.returned (growth : Growth Phys (fun _ => True) D plan own s.mem S r u m own1 s1 S1)
    (vacant : Vacant D own s.mem r S F) (inside : ∀ v, u ≤ v → v < m → D v) :
    WellFormed s1.mem r ∧ ∃ F', Supply s1 r F' ∧ (∀ x ∈ F', x ∈ F) ∧
      ∀ x ∈ F, x ∈ F' ∨ (∃ l n, tableAt s1.mem r l n = some x) ∨ ∃ v, own1 x = .user r v := by
  have target : ∀ v e, S1.leaf v = some e →
      own1 (PTE2PA e) = .user r v ∨ ¬Mine r (own1 (PTE2PA e)) := by
    intro v e leaf
    by_cases new : u ≤ v ∧ v < m
    · exact .inl (growth.users.label (inside v new.1 new.2) leaf)
    · rw [growth.others v new] at leaf
      have outside := vacant.targets v e leaf
      exact .inr (by rwa [growth.mine.label _ outside])
  obtain ⟨F', chain, nodup, members⟩ := growth.list
  refine ⟨growth.tree.wellFormed growth.used ?_, F', ⟨chain, nodup, ?_, ?_⟩, ?_, ?_⟩
  · intro v e leaf l n label
    rcases target v e leaf with user | other
    · rw [label] at user
      cases user
    · exact other (.inr (by rw [label, Label.root]))
  · intro x member
    exact growth.toHeap.used (by simp [(members x).mp member])
  · intro x member
    have label := (members x).mp member
    constructor
    · intro l n table
      rw [growth.tree.tableAt] at table
      exact growth.tree.not_free table label
    · rintro v e leaf rfl
      rw [growth.tree.leafAt] at leaf
      rcases target v e leaf with user | other
      · rw [label] at user
        cases user
      · exact other (.inl label)
  · intro x member
    exact (vacant.free x).mp (growth.takes x ((members x).mp member))
  · intro x member
    rcases growth.mine.stay x (.inl ((vacant.free x).mpr member)) with label | mine
    · exact .inl ((members x).mpr label)
    · rcases Label.root_eq_some.mp mine with ⟨l, n, label⟩ | user
      · exact .inr (.inl ⟨l, n, by rw [growth.tree.tableAt, ← growth.tree.labels, label]⟩)
      · exact .inr (.inr user)

theorem Growth.nothing (growth : Growth Phys (fun _ => True) D plan own s.mem S r u u own1 s1 S1)
    (vacant : Vacant D own s.mem r S F) : S1.leaf = S.leaf ∧ Returned s1 r F := by
  have same : S1.leaf = S.leaf := funext fun v => growth.others v (by omega)
  obtain ⟨wf, F', supply, sub, back⟩ := growth.returned vacant fun v low high => by omega
  refine ⟨same, wf, F', supply, sub, fun x member => ?_⟩
  rcases back x member with member' | table | ⟨v, label⟩
  · exact .inl member'
  · exact .inr table
  · obtain ⟨inside, e, leaf, -⟩ := (growth.users v x).mp label
    rw [same, vacant.empty v inside] at leaf
    cases leaf

theorem Vacant.not_mine {mem : Mem} {x : Nat} (vacant : Vacant D own mem r S F) (busy : x ∉ F)
    (outside : ∀ l n, tableAt mem r l n ≠ some x) : ¬Mine r (own x) := by
  rintro (label | mine)
  · exact busy ((vacant.free x).mp label)
  · rcases Label.root_eq_some.mp mine with ⟨l, n, label⟩ | ⟨v, label⟩
    · exact outside l n (vacant.tables x l n label)
    · exact vacant.nobody x v label

theorem Growth.untouched (growth : Growth Phys (fun _ => True) D plan own s.mem S r u m own1 s1 S1)
    (vacant : Vacant D own s.mem r S F) : Untouched s s1 r F :=
  fun x aligned busy outside => growth.mine.bytes x aligned (vacant.not_mine busy outside)

theorem Growth.tables (growth : Growth Phys (fun _ => True) D plan own s.mem S r u m own1 s1 S1)
    (vacant : Vacant D own s.mem r S F) {x : Nat} (table : tableAt s1.mem r l n = some x) :
    x ∈ F ∨ ∃ l' n', tableAt s.mem r l' n' = some x := by
  by_contra other
  rw [not_or, not_exists] at other
  have outside := vacant.not_mine other.1 fun l' n' old => other.2 l' ⟨n', old⟩
  rw [growth.tree.tableAt, ← growth.tree.labels, growth.mine.label x outside] at table
  exact outside (.inr (by rw [table, Label.root]))

/-- The pages that have been added were free, and one more was if one is free still. -/
theorem Growth.card_le (growth : Growth Phys (fun _ => True) D plan own s.mem S r u m own1 s1 S1)
    (vacant : Vacant D own s.mem r S F) {T : Finset Nat}
    (added : ∀ v ∈ T, u ≤ v ∧ v < m ∧ plan v ≠ none) :
    T.card ≤ F.length ∧ ((∃ y, own1 y = .free) → T.card < F.length) := by
  classical
  have some : ∀ v, ∃ y, v ∈ T → y ∈ F ∧ own1 y = .user r v := by
    intro v
    by_cases here : v ∈ T
    · obtain ⟨low, high, planned⟩ := added v here
      obtain ⟨⟨perm, bytes⟩, page⟩ := Option.ne_none_iff_exists'.mp planned
      obtain ⟨y, label, -⟩ := growth.pages v perm bytes low high page
      exact ⟨y, fun _ => ⟨(vacant.free y).mp (growth.new y v low high label), label⟩⟩
    · exact ⟨0, fun never => absurd never here⟩
  choose page pages using some
  have inj : Set.InjOn page T := by
    intro v here w there same
    have label := (pages v here).2
    rw [same, (pages w there).2] at label
    exact (Label.user.inj label).2.symm
  have within : T.image page ⊆ F.toFinset := by
    intro y member
    obtain ⟨v, here, rfl⟩ := Finset.mem_image.mp member
    exact List.mem_toFinset.mpr (pages v here).1
  rw [← Finset.card_image_of_injOn inj]
  refine ⟨(Finset.card_le_card within).trans (List.toFinset_card_le F), ?_⟩
  rintro ⟨y, spare⟩
  refine (Finset.card_lt_card (Finset.ssubset_iff_of_subset within |>.mpr ⟨y, ?_, ?_⟩)).trans_le
    (List.toFinset_card_le F)
  · exact List.mem_toFinset.mpr ((vacant.free y).mp (growth.takes y spare))
  · intro member
    obtain ⟨v, here, rfl⟩ := Finset.mem_image.mp member
    rw [(pages v here).2] at spare
    cases spare

def Shape.page (S : Shape) (v : Nat) : Nat := (S.leaf v).elim 0 PTE2PA

theorem Growth.added {perm : Nat} {bytes : Nat → UInt8}
    (growth : Growth Phys (fun _ => True) D plan own s.mem S r u m own1 s1 S1)
    (vacant : Vacant D own s.mem r S F) (low : u ≤ v) (high : v < m)
    (planned : plan v = some (perm, bytes)) (small : perm < 2 ^ 10) :
    S1.leaf v = some (leafOf (S1.page v) perm) ∧ Phys (S1.page v) ∧ own1 (S1.page v) = .user r v ∧
      S1.page v ∈ F ∧ ∀ o < PGSIZE, s1.mem (S1.page v + o) = bytes o := by
  obtain ⟨y, label, leaf, filled⟩ := growth.pages v perm bytes low high planned
  have phys := growth.toHeap.used (x := y) (by simp [label])
  have page : S1.page v = y := by
    rw [Shape.page, leaf]
    exact PTE2PA_leafOf small phys
  rw [page]
  exact ⟨leaf, phys, label, (vacant.free y).mp (growth.new y v low high label), filled⟩

end Facts

section Uvmalloc
variable {cfg : Config} {s : Mach} {r old new xperm : Nat} {F : List Nat}

theorem WellFormed.vacant {D : Nat → Prop} (wf : WellFormed s.mem r) (supply : Supply s r F)
    (absent : ∀ v, D v → v < MAXVA / PGSIZE ∧ abs s r v = none) :
    Vacant D (labelling s.mem r F) s.mem r ⟨tableAt s.mem r, leafAt s.mem r⟩ F where
  free x := labelling_free supply
  tables x l n := (labelling_table wf).mp
  nobody x v := by
    unfold labelling
    split_ifs <;> simp
  targets v e leaf := by
    rw [wf.target_outside supply leaf]
    simp [Mine, Label.root]
  empty v inside := by
    obtain ⟨below, none⟩ := absent v inside
    rwa [(wf.tree F).abs, if_pos below, Option.map_eq_none_iff] at none

theorem pages_between {m : Nat} (positive : 0 < new) (order : old ≤ new) (enough : new ≤ m * PGSIZE)
    (tight : m = pagesOf old ∨ pagesOf old < m ∧ (m - 1) * PGSIZE < new)
    (top : pagesOf old < m → m ≤ MAXVA / PGSIZE) : m = pagesOf new := by
  simp only [pagesOf, roundUp, pgRoundUp, MAXVA, PGSIZE] at *
  omega

theorem uvmalloc_atomic (wf : WellFormed s.mem r) (stock : Stock cfg s r F) (positive : 0 < new)
    (order : old ≤ new) (small : xperm < 2 ^ 10)
    (absent : ∀ v, pagesOf old ≤ v → v * PGSIZE < new → abs s r v = none) :
    wp (uvmalloc cfg r old new xperm)
      (fun e => e = .walk ∧ MAXVA < new ∧ MAXVA / PGSIZE - pagesOf old < F.length)
      (UvmallocSpec cfg s r F old new xperm) s := by
  have pt := wf.pageTable stock.toSupply
  have vacant := wf.vacant (D := fun v => v < MAXVA / PGSIZE ∧ pagesOf old ≤ v ∧ v * PGSIZE < new)
    stock.toSupply fun v inside => ⟨inside.1, absent v inside.2.1 inside.2.2⟩
  have accepts : ∀ x, labelling s.mem r F x = .free → IsPage cfg x :=
    fun x label => stock.accepts x ((vacant.free x).mp label)
  have perm : PTE_R ||| PTE_U ||| xperm < 2 ^ 10 := Nat.or_lt_two_pow (by decide) small
  apply wp_post (uvmalloc_rule small accepts (fun v _ _ _ below low more _ _ => ⟨below, low, more⟩)
    (fun v own1 s1 S1 above low more growth spare => ?_)
    (fun v own1 s1 S1 below low more mapped growth => absurd (vacant.empty v ⟨below, low, more⟩) mapped)
    pt vacant.users order)
  · rintro sz s' ⟨own', S', m, growth, outcome⟩
    have tables := fun l n x => growth.tables vacant (l := l) (n := n) (x := x)
    rcases outcome with ⟨rfl, rfl⟩ | ⟨rfl, enough, tight⟩
    · obtain ⟨same, returned⟩ := growth.nothing vacant
      refine ⟨.inr rfl, fun never => by omega, fun _ => ⟨?_, returned⟩, growth.untouched vacant, tables,
        fun never => by omega⟩
      funext v
      rw [growth.tree.abs, pt.tree.abs, same]
    · have inside := fun v low high => growth.inside (v := v) low high rfl
      have top : pagesOf old < m → m ≤ MAXVA / PGSIZE := by
        intro more
        have := (inside (m - 1) (by omega) (by omega)).1
        omega
      obtain rfl := pages_between positive order enough tight top
      obtain ⟨wf', F', supply, sub, -⟩ := growth.returned vacant inside
      refine ⟨.inl rfl, fun _ => ⟨wf', ⟨F', supply, sub⟩, S'.page, fun v => ?_, ?_, ?_⟩,
        fun never => by omega, growth.untouched vacant, tables, fun _ => ?_⟩
      · rw [growth.tree.abs, pt.tree.abs]
        by_cases new : pagesOf old ≤ v ∧ v < pagesOf sz
        · obtain ⟨leaf, phys, -⟩ := growth.added vacant new.1 new.2 rfl perm
          rw [if_pos new, if_pos (inside v new.1 new.2).1, leaf, Option.map_some, PTE2PA_leafOf perm phys,
            PTE_FLAGS_leafOf perm]
        · rw [if_neg new, growth.others v new]
      · intro v low high
        obtain ⟨-, -, -, member, zero⟩ := growth.added vacant low high rfl perm
        exact ⟨member, zero⟩
      · intro v w low high low' high' same
        obtain ⟨-, -, label, -⟩ := growth.added vacant low high rfl perm
        obtain ⟨-, -, label', -⟩ := growth.added vacant low' high' rfl perm
        rw [same, label'] at label
        exact (Label.user.inj label).2.symm
      · have fewer : pagesOf old ≤ pagesOf sz := by omega
        have unmap := growth.rollback fewer top (fun v low high => vacant.empty v (inside v low high)) inside accepts
        obtain ⟨_, s2, back, own2, S2, growth2⟩ := wp_returns unmap
        obtain ⟨same, returned⟩ := growth2.nothing vacant
        refine ⟨s2, ?_, ?_, returned, growth2.untouched vacant⟩
        · rw [uvmdealloc_eq cfg r order top, StateT.run_bind, back]
          rfl
        · funext v
          rw [growth2.tree.abs, pt.tree.abs, same]
  · refine ⟨rfl, by simp only [MAXVA, PGSIZE] at *; omega, ?_⟩
    have count := (growth.card_le vacant (T := Finset.Ico (pagesOf old) (MAXVA / PGSIZE)) ?_).2 spare
    · rwa [Nat.card_Ico] at count
    · intro w member
      rw [Finset.mem_Ico] at member
      exact ⟨member.1, by omega, by simp [zeroed]⟩

end Uvmalloc

section Uvmcopy
variable {cfg : Config} {s : Mach} {mem : Mem} {r rn sz x : Nat} {F : List Nat}

open Classical in
noncomputable def labellingBeside (mem : Mem) (r rn : Nat) (F : List Nat) (x : Nat) : Label :=
  if ∃ l n, tableAt mem r l n = some x then labelling mem r F x else labelling mem rn F x

theorem Beside.other (beside : Beside mem r rn) : r ≠ rn := by
  rintro rfl
  exact beside.tables 2 0 2 0 r rfl rfl

theorem labelling_root {r' : Nat} (label : labelling mem r F x = .table r' l n) : r' = r := by
  unfold labelling at label
  split_ifs at label
  exact (Label.table.inj label).1.symm

theorem labellingBeside_first (wf : WellFormed mem r) (beside : Beside mem r rn) :
    labellingBeside mem r rn F x = .table r l n ↔ tableAt mem r l n = some x := by
  unfold labellingBeside
  split_ifs with here
  · exact labelling_table wf
  · refine ⟨fun label => absurd (labelling_root label) beside.other, fun table => ?_⟩
    exact absurd ⟨l, n, table⟩ here

theorem labellingBeside_second (wf : WellFormed mem rn) (beside : Beside mem r rn) :
    labellingBeside mem r rn F x = .table rn l n ↔ tableAt mem rn l n = some x := by
  unfold labellingBeside
  split_ifs with here
  · obtain ⟨l', n', table⟩ := here
    refine ⟨fun label => absurd (labelling_root label).symm beside.other, fun table' => ?_⟩
    exact absurd table' (beside.tables l' n' l n x table)
  · exact labelling_table wf

theorem labellingBeside_free (supply : Supply s r F) (supply' : Supply s rn F) :
    labellingBeside s.mem r rn F x = .free ↔ x ∈ F := by
  unfold labellingBeside
  split_ifs
  · exact labelling_free supply
  · exact labelling_free supply'

theorem Beside.pageTable (beside : Beside s.mem r rn) (wf : WellFormed s.mem r) (wf' : WellFormed s.mem rn)
    (supply : Supply s r F) (supply' : Supply s rn F) :
    PageTable Phys (fun _ => True) (labellingBeside s.mem r rn F) s rn ⟨tableAt s.mem rn, leafAt s.mem rn⟩ where
  list := ⟨F, supply.chain, supply.nodup, fun x => (labellingBeside_free supply supply').symm⟩
  page x used := by
    unfold labellingBeside at used
    split_ifs at used
    · exact (wf.pageTable supply).page x used
    · exact (wf'.pageTable supply').page x used
  phys x page := page
  tree := { wf'.tree F with labels := fun l n y => labellingBeside_second wf' beside }
  plain _ := trivial

theorem labellingBeside_other (wf : WellFormed mem r) (beside : Beside mem r rn)
    (outside : ¬Mine rn (labelling mem rn F x)) : ¬Mine rn (labellingBeside mem r rn F x) := by
  unfold labellingBeside
  split_ifs with here
  · obtain ⟨l, n, table⟩ := here
    rw [(labelling_table wf).mpr table]
    simpa [Mine, Label.root] using beside.other
  · exact outside

theorem Beside.vacant {D : Nat → Prop} (beside : Beside s.mem r rn) (wf : WellFormed s.mem r)
    (wf' : WellFormed s.mem rn) (supply : Supply s r F) (supply' : Supply s rn F)
    (absent : ∀ v, D v → v < MAXVA / PGSIZE ∧ abs s rn v = none) :
    Vacant D (labellingBeside s.mem r rn F) s.mem rn ⟨tableAt s.mem rn, leafAt s.mem rn⟩ F := by
  have alone := wf'.vacant supply' absent
  refine ⟨fun x => labellingBeside_free supply supply', fun x l n =>
    (labellingBeside_second wf' beside).mp, ?_, ?_, alone.empty⟩
  · intro x v
    unfold labellingBeside labelling
    split_ifs <;> simp
  · intro v e leaf
    exact labellingBeside_other wf beside (alone.targets v e leaf)

theorem leafAt_valid {e : Nat} (leaf : leafAt mem r v = some e) : e &&& PTE_V ≠ 0 := by
  obtain ⟨y, -, entry⟩ := Option.bind_eq_some_iff.mp leaf
  obtain ⟨holds, same⟩ := valid_eq_some.mp entry
  rwa [same]

theorem flags_valid {e : Nat} (holds : e &&& PTE_V ≠ 0) : PTE_FLAGS e ||| PTE_V = PTE_FLAGS e := by
  rw [← flags_and e (by decide)] at holds
  simp only [PTE_V, Nat.and_one_is_mod] at *
  refine Nat.eq_of_testBit_eq fun i => ?_
  rw [Nat.testBit_or]
  cases i with
  | zero => simp [Nat.testBit_zero]; omega
  | succ i => simp [Nat.testBit_succ]

theorem WellFormed.abs_eq_some (wf : WellFormed s.mem r) {pa flags : Nat}
    (mapped : abs s r v = some (pa, flags)) :
    v < MAXVA / PGSIZE ∧ ∃ e, leafAt s.mem r v = some e ∧ PTE2PA e = pa ∧ PTE_FLAGS e = flags := by
  rw [(wf.tree []).abs] at mapped
  split_ifs at mapped with below
  obtain ⟨e, leaf, same⟩ := Option.map_eq_some_iff.mp mapped
  exact ⟨below, e, leaf, (Prod.mk.inj same).1, (Prod.mk.inj same).2⟩

theorem uvmcopy_atomic (wf : WellFormed s.mem r) (wf' : WellFormed s.mem rn) (beside : Beside s.mem r rn)
    (stock : Stock cfg s r F) (supply : Supply s rn F) (absent : ∀ v, v * PGSIZE < sz → abs s rn v = none) :
    wp (uvmcopy cfg r rn sz) (fun e => e = .walk ∧ MAXVA < sz ∧
        ((Finset.range (MAXVA / PGSIZE)).filter fun v => abs s r v ≠ none).card ≤ F.length)
      (UvmcopySpec s r rn F sz) s := by
  have pt := beside.pageTable wf wf' stock.toSupply supply
  have source : Tree (fun _ => True) (labellingBeside s.mem r rn F) s.mem r
      ⟨tableAt s.mem r, leafAt s.mem r⟩ :=
    { wf.tree F with labels := fun l n y => labellingBeside_first wf beside }
  have vacant := beside.vacant (D := fun v => v < MAXVA / PGSIZE ∧ v * PGSIZE < sz) wf wf' stock.toSupply
    supply fun v inside => ⟨inside.1, absent v inside.2⟩
  have apart : ∀ v e, v < MAXVA / PGSIZE → leafAt s.mem r v = some e →
      ¬Mine rn (labellingBeside s.mem r rn F (PTE2PA e)) := by
    intro v e inside leaf
    apply labellingBeside_other wf beside
    rw [labelling_outside (fun l n => beside.targets v e l n inside leaf)
      fun member => (stock.outside _ member).target v e leaf rfl]
    simp [Mine, Label.root]
  apply wp_post (uvmcopy_rule (fun x label => stock.accepts x ((vacant.free x).mp label))
    (fun own1 s1 S1 above growth => ?_)
    (fun v below more => ⟨vacant.empty v ⟨below, more⟩, below, more⟩) source
    beside.other (fun v e inside _ leaf => apart v e inside leaf) pt vacant.users)
  · rintro ok s' ⟨fits, own', S', growth⟩
    have source' := source.frame pt.used growth.mine
      (by simpa [Mine, Label.root] using beside.other)
    refine ⟨?_, ?_, ?_, ?_, ?_⟩
    · funext v
      rw [source'.abs, source.abs]
    · intro v pa flags mapped
      obtain ⟨inside, e, leaf, rfl, -⟩ := wf.abs_eq_some mapped
      exact growth.mine.bytes _ (PTE2PA_aligned e) (apart v e inside leaf)
    · intro v above
      rw [growth.tree.abs, pt.tree.abs, growth.others v]
      split
      · rw [← page_lt (fits ‹_›)]
        omega
      · omega
    · rintro rfl
      have fits := fits rfl
      simp only [page_lt fits]
      have copied : ∀ v pa flags, v < pagesOf sz → abs s r v = some (pa, flags) →
          abs s' rn v = some (S'.page v, flags) ∧ own' (S'.page v) = .user rn v ∧ S'.page v ∈ F ∧
            ∀ o < PGSIZE, s'.mem (S'.page v + o) = s.mem (pa + o) := by
        intro v pa flags below mapped
        obtain ⟨inside, e, leaf, rfl, rfl⟩ := wf.abs_eq_some mapped
        obtain ⟨leaf', phys, label, member, bytes⟩ := growth.added vacant (Nat.zero_le v) below
          (copies_some leaf) (flags_lt e)
        refine ⟨?_, label, member, bytes⟩
        rw [growth.tree.abs, if_pos inside, leaf', Option.map_some, PTE2PA_leafOf (flags_lt e) phys,
          PTE_FLAGS_leafOf (flags_lt e), flags_valid (leafAt_valid leaf)]
      have inside : ∀ v < pagesOf sz, v < MAXVA / PGSIZE :=
        fun v below => lt_of_lt_of_le below (pagesOf_le fits)
      refine ⟨(growth.returned vacant fun v _ high => ⟨inside v high, (page_lt fits).mpr high⟩).1, S'.page,
        fun v below => ?_, ?_, ?_⟩
      · cases mapped : abs s r v with
        | some entry => exact (copied v entry.1 entry.2 below mapped).1
        | none =>
          rw [source.abs, if_pos (inside v below), Option.map_eq_none_iff] at mapped
          rw [growth.tree.abs, growth.holes v (Nat.zero_le v) below (copies_none mapped)]
          simp
      · intro v pa flags below mapped
        exact (copied v pa flags below mapped).2.2
      · intro v w below below' mapped mapped' same
        obtain ⟨entry, here⟩ := Option.ne_none_iff_exists'.mp mapped
        obtain ⟨entry', here'⟩ := Option.ne_none_iff_exists'.mp mapped'
        have label := (copied v entry.1 entry.2 below here).2.1
        rw [same, (copied w entry'.1 entry'.2 below' here').2.1] at label
        exact (Label.user.inj label).2.symm
    · rintro rfl
      obtain ⟨same, returned⟩ := growth.nothing vacant
      refine ⟨fun v below => ?_, returned⟩
      rw [growth.tree.abs, same, ← pt.tree.abs, absent v below]
  · refine ⟨rfl, above, (growth.card_le vacant fun v member => ?_).1⟩
    rw [Finset.mem_filter, Finset.mem_range] at member
    obtain ⟨entry, mapped⟩ := Option.ne_none_iff_exists'.mp member.2
    obtain ⟨-, e, leaf, -⟩ := wf.abs_eq_some mapped
    exact ⟨Nat.zero_le v, member.1, (copies_some leaf).trans_ne (Option.some_ne_none _)⟩

end Uvmcopy

/-- Growth and fork copy are all or nothing, or they panic in walk at the end of the address space:
only for a size beyond MAXVA, and only when the pages below it did not use up the free list. -/
theorem growth_and_copy_atomic (cfg : Config) (s : Mach) (r : Nat) (F : List Nat)
    (wf : WellFormed s.mem r) (stock : Stock cfg s r F) :
    (∀ old new xperm, 0 < new → old ≤ new → xperm < 2 ^ 10 →
      (∀ v, pagesOf old ≤ v → v * PGSIZE < new → abs s r v = none) →
      wp (uvmalloc cfg r old new xperm)
        (fun e => e = .walk ∧ MAXVA < new ∧ MAXVA / PGSIZE - pagesOf old < F.length)
        (UvmallocSpec cfg s r F old new xperm) s) ∧
    ∀ rn sz, WellFormed s.mem rn → Beside s.mem r rn → Supply s rn F →
      (∀ v, v * PGSIZE < sz → abs s rn v = none) →
      wp (uvmcopy cfg r rn sz) (fun e => e = .walk ∧ MAXVA < sz ∧
          ((Finset.range (MAXVA / PGSIZE)).filter fun v => abs s r v ≠ none).card ≤ F.length)
        (UvmcopySpec s r rn F sz) s :=
  ⟨fun _ _ _ positive order small absent => uvmalloc_atomic wf stock positive order small absent,
    fun _ _ wf' beside supply absent => uvmcopy_atomic wf wf' beside stock supply absent⟩

section Stocked

def stockedConfig : Config :=
  { smallConfig with physTop := KERNBASE + 7 * PGSIZE, top := by decide }

def stockedPages : List Nat := (List.range' 1 6).map fun n => KERNBASE + n * PGSIZE

def stocked : Mach where
  mem a := if KERNBASE + PGSIZE ≤ a ∧ a < KERNBASE + 6 * PGSIZE then
      store (fun _ => 0) (a / PGSIZE * PGSIZE) 8 ((a / PGSIZE + 1) * PGSIZE) a
    else 0
  freelist := KERNBASE + PGSIZE
  fail := []

theorem stocked_blank {r : Nat} (low : r + PGSIZE ≤ KERNBASE) (i : Nat) (inside : i < 512) :
    tab stocked.mem r i = 0 := by
  unfold tab stocked slot
  refine Bytes.load_zero fun a _ _ => if_neg ?_
  simp only [KERNBASE, PGSIZE] at *
  omega

theorem stocked_stock {r : Nat} (low : r + PGSIZE ≤ KERNBASE) : Stock stockedConfig stocked r stockedPages where
  chain := by
    have next : ∀ x ∈ stockedPages, load stocked.mem x 8 = if x = KERNBASE + 6 * PGSIZE then 0
        else x + PGSIZE := by decide +kernel
    refine ⟨rfl, by decide, ?_, by decide, ?_, by decide, ?_, by decide, ?_, by decide, ?_, by decide, ?_⟩
    all_goals exact next _ (by decide)
  nodup := by decide
  phys := by decide
  outside x member := by
    have high : ∀ x ∈ stockedPages, KERNBASE ≤ x := by decide
    refine outsideTree_blank (stocked_blank low) (Nat.ne_of_lt ?_)
    have := high x member
    simp only [PGSIZE] at low
    omega
  accepts := by decide

theorem abs_blank {s : Mach} {r : Nat} (blank : ∀ i < 512, tab s.mem r i = 0) (wf : WellFormed s.mem r) (v : Nat) :
    abs s r v = none := by
  rw [(wf.tree []).abs]
  simp [leafAt_blank blank]

/-- One page added to an empty address space, and the page copied to another. -/
theorem growth_and_copy_stocked :
    ∃ s1, (uvmalloc stockedConfig 4096 0 1 PTE_W).run stocked = .ok (1, s1) ∧
      UvmallocSpec stockedConfig stocked 4096 stockedPages 0 1 PTE_W 1 s1 ∧ abs s1 4096 0 ≠ none ∧
      ∃ F s2, (uvmcopy stockedConfig 4096 8192 PGSIZE).run s1 = .ok (true, s2) ∧
        UvmcopySpec s1 4096 8192 F PGSIZE true s2 := by
  have blank : ∀ i < 512, tab stocked.mem 4096 i = 0 := stocked_blank (by decide)
  have wf := wellFormed_blank blank (by decide)
  have stock := stocked_stock (r := 4096) (by decide)
  have grown := (growth_and_copy_atomic stockedConfig stocked 4096 stockedPages wf stock).1 0 1 PTE_W
    (by decide) (by decide) (by decide) fun v _ _ => abs_blank blank wf v
  obtain ⟨sz, s1, run, spec⟩ := wp_returns (wp_mono grown (fun _ _ => id)
    fun e panics => absurd panics.2.1 (by decide))
  have alone : ((uvmalloc stockedConfig 4096 0 1 PTE_W).run stocked).toOption.map Prod.fst = some 1 := by
    decide +kernel
  have both : ((do
      let _ ← uvmalloc stockedConfig 4096 0 1 PTE_W
      uvmcopy stockedConfig 4096 8192 PGSIZE).run stocked).toOption.map Prod.fst = some true := by
    decide +kernel
  rw [run] at alone
  obtain rfl : sz = 1 := Option.some.inj alone
  obtain ⟨wf1, ⟨F, supply, sub⟩, page, mapped, new, -⟩ := spec.success rfl
  have here : abs s1 4096 0 ≠ none := by
    rw [mapped, if_pos (by decide)]
    exact Option.some_ne_none _
  have only : ∀ l n, tableAt stocked.mem 4096 l n ≠ some 8192 := by
    intro l n
    rw [tableAt_blank blank]
    split <;> simp
  have blank1 : ∀ i < 512, tab s1.mem 8192 i = 0 := by
    intro i inside
    rw [← stocked_blank (r := 8192) (by decide) i inside]
    exact (spec.rest 8192 (by decide) (by decide) only).tab inside
  have wf2 := wellFormed_blank blank1 (by decide)
  have apart : ∀ x ∈ stockedPages, 8192 ≠ x := by decide
  have root : ∀ {l n x}, tableAt s1.mem 8192 l n = some x → x = 8192 := by
    intro l n x table
    rw [tableAt_blank blank1, Option.ite_none_right_eq_some] at table
    exact (Option.some.inj table.2).symm
  have beside : Beside s1.mem 4096 8192 := by
    constructor
    · rintro l n l' n' x table table'
      obtain rfl := root table'
      rcases spec.tables l n _ table with member | ⟨l1, n1, old⟩
      · exact apart _ member rfl
      · exact only l1 n1 old
    · intro v e l n inside leaf table
      have entry := mapped v
      rw [(wf1.tree []).abs, if_pos inside, abs_blank blank wf] at entry
      simp only [leaf, Option.map_some, root table] at entry
      split at entry
      case isTrue between => exact apart _ (new v between.1 between.2).1 (Prod.mk.inj (Option.some.inj entry)).1
      case isFalse => cases entry
  have copied := (growth_and_copy_atomic stockedConfig s1 4096 F wf1
    ⟨supply, fun x member => stock.accepts x (sub x member)⟩).2 8192 PGSIZE wf2 beside
    ⟨supply.chain, supply.nodup, supply.phys, fun x member => outsideTree_blank blank1 (apart x (sub x member))⟩
    fun v _ => abs_blank blank1 wf2 v
  obtain ⟨ok, s2, run2, spec2⟩ := wp_returns (wp_mono copied (fun _ _ => id)
    fun e panics => absurd panics.2.1 (by decide))
  rw [StateT.run_bind, run] at both
  change ((uvmcopy stockedConfig 4096 8192 PGSIZE).run s1).toOption.map Prod.fst = some true at both
  rw [run2] at both
  obtain rfl : ok = true := Option.some.inj both
  exact ⟨s1, run, spec, here, F, s2, run2, spec2⟩

theorem uvmalloc_beyond_maxva :
    WellFormed stocked.mem 4096 ∧ Stock stockedConfig stocked 4096 stockedPages ∧
      (∀ v, pagesOf MAXVA ≤ v → v < pagesOf (MAXVA + 1) → abs stocked 4096 v = none) ∧
      (uvmalloc stockedConfig 4096 MAXVA (MAXVA + 1) 0).run stocked = .error .walk := by
  have blank : ∀ i < 512, tab stocked.mem 4096 i = 0 := stocked_blank (by decide)
  have wf := wellFormed_blank blank (by decide)
  exact ⟨wf, stocked_stock (by decide), fun v _ _ => abs_blank blank wf v, rfl⟩

end Stocked
end Xv6Lab.Mm
