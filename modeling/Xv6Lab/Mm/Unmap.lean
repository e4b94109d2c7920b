import Xv6Lab.Mm.Walk

/-!
uvmunmap, freewalk and uvmfree: what they free is what the tree owns.
-/

namespace Xv6Lab.Mm
open Function (update update_eq_self update_of_ne update_self)

open Bytes (Mem load store fill write read)
variable {l : Label} {D : Nat → Prop} {v e u w n : Nat} {E : Panic → Prop} {doFree : Bool}
  {Q : Unit → Mach → Prop} {Pg : Nat → Prop}

def USERTOP : Nat := TRAPFRAME / PGSIZE

def Label.root : Label → Option Nat
  | .table r _ _ => some r
  | .user r _ => some r
  | _ => none

theorem Label.root_eq_some {r : Nat} :
    l.root = some r ↔ (∃ level n, l = .table r level n) ∨ ∃ v, l = .user r v := by
  cases l <;> simp [Label.root]

def Mine (r : Nat) (l : Label) : Prop := l = .free ∨ l.root = some r

def UsersIn (D : Nat → Prop) (own : Nat → Label) (r : Nat) (S : Shape) : Prop :=
  ∀ v y, own y = .user r v ↔ D v ∧ ∃ e, S.leaf v = some e ∧ PTE2PA e = y

abbrev Users : (Nat → Label) → Nat → Shape → Prop := UsersIn (· < USERTOP)

def Released (own own' : Nat → Label) (r : Nat) (D : Nat → Prop) : Prop :=
  ∀ x, (∃ v, D v ∧ own x = .user r v) ∧ own' x = .free ∨
    (∀ v, D v → own x ≠ .user r v) ∧ own' x = own x

theorem Tables.mine {r : Nat} (inside : Tables r l) : Mine r l := by
  cases l with
  | free => exact .inl rfl
  | table r' level n => exact .inr (congrArg some inside)
  | outside | user | trapframe | argument | kstack | ring => exact inside.elim

/-- The labels that change hands when tables or the pages in D of address space r do. -/
def Among (r : Nat) (D : Nat → Prop) (l : Label) : Prop := Tables r l ∨ ∃ v, D v ∧ l = .user r v

theorem Among.mine {r : Nat} (inside : Among r D l) : Mine r l := by
  rcases inside with table | ⟨v, -, label⟩
  · exact table.mine
  · exact .inr (by rw [label, Label.root])

theorem Among.mono {r : Nat} {D' : Nat → Prop} (more : ∀ v, D v → D' v) (l : Label)
    (inside : Among r D l) : Among r D' l := by
  rcases inside with table | ⟨v, here, label⟩
  · exact .inl table
  · exact .inr ⟨v, more v here, label⟩

section Users
variable {P : Label → Prop} {own own' : Nat → Label} {mem mem' : Mem} {r : Nat} {S S' : Shape}

theorem UsersIn.frame (users : UsersIn D own r S) (within : Within P own own' mem mem')
    (outside : ∀ v, ¬P (.user r v)) : UsersIn D own' r S :=
  fun v y => (within.iff (outside v)).trans (users v y)

theorem UsersIn.congr (users : UsersIn D own r S) (same : ∀ v, D v → S'.leaf v = S.leaf v) :
    UsersIn D own r S' := by
  intro v y
  rw [users]
  refine and_congr_right fun inside => ?_
  rw [same v inside]

theorem UsersIn.label (users : UsersIn D own r S) (inside : D v)
    (leaf : S.leaf v = some e) : own (PTE2PA e) = .user r v :=
  (users v (PTE2PA e)).mpr ⟨inside, e, leaf, rfl⟩

theorem UsersIn.remove (users : UsersIn D own r S) (inside : D v) (leaf : S.leaf v = some e) :
    UsersIn D (update own (PTE2PA e) .free) r (S.setLeaf v none) := by
  have label := users.label inside leaf
  intro w y
  simp only [Shape.setLeaf]
  by_cases page : y = PTE2PA e
  · subst page
    rw [update_self]
    refine ⟨fun never => (by cases never), ?_⟩
    rintro ⟨inside', e', leaf', same⟩
    by_cases here : w = v
    · rw [here, update_self] at leaf'
      cases leaf'
    · rw [update_of_ne here] at leaf'
      have label' := users.label inside' leaf'
      rw [same, label] at label'
      exact absurd (Label.user.inj label').2.symm here
  · rw [update_of_ne page, users]
    by_cases here : w = v
    · subst here
      rw [update_self, leaf]
      simp only [Option.some.injEq, exists_eq_left', reduceCtorEq, false_and, exists_false,
        and_false, iff_false, not_and]
      exact fun _ same => page same.symm
    · rw [update_of_ne here]

theorem Released.none (nobody : ∀ x v, D v → own x ≠ .user r v) : Released own own r D :=
  fun x => .inr ⟨nobody x, rfl⟩

theorem Released.step {own1 : Nat → Label} (order : u ≤ w)
    (first : Released own own1 r fun v => u ≤ v ∧ v < w) (second : Released own1 own' r (· = w)) :
    Released own own' r fun v => u ≤ v ∧ v < w + 1 := by
  intro x
  rcases first x with ⟨⟨v, inside, label⟩, free⟩ | ⟨other, same⟩
  · refine .inl ⟨⟨v, by omega, label⟩, ?_⟩
    rcases second x with ⟨⟨_, _, label'⟩, _⟩ | ⟨_, same'⟩
    · rw [free] at label'
      cases label'
    · rw [same', free]
  · rcases second x with ⟨⟨_, rfl, label'⟩, free⟩ | ⟨other', same'⟩
    · exact .inl ⟨⟨_, ⟨order, Nat.lt_succ_self _⟩, by rw [← same, label']⟩, free⟩
    · refine .inr ⟨fun v inside label => ?_, by rw [same', same]⟩
      by_cases last : v = w
      · exact other' v last (by rw [same, label])
      · exact other v (by omega) label

end Users

def Plain (e : Nat) : Prop := e &&& (PTE_R ||| PTE_W ||| PTE_X) = 0

theorem plain_interior (y : Nat) : Plain (PA2PTE y ||| PTE_V) := by
  unfold Plain
  rw [pte_and y (by decide) (by decide)]
  decide

section Unmap
variable {cfg : Config} {I : Nat → Prop} {own : Nat → Label} {s : Mach} {r : Nat} {S : Shape}

theorem unmapPage_step
    (tree : Tree I own s.mem r S) (below : v < MAXVA / PGSIZE) (absent : S.leaf v = none → Q () s)
    (keep : ∀ y e, S.table 0 (v / 512) = some y → S.leaf v = some e → doFree = false →
      Q () { s with mem := store s.mem (slot y (v % 512)) 8 0 })
    (free : ∀ y e, S.table 0 (v / 512) = some y → S.leaf v = some e → doFree = true →
      wp (kfree cfg (PTE2PA e)) E
        (fun _ s' => Q () { s' with mem := store s'.mem (slot y (v % 512)) 8 0 }) s) :
    wp (unmapPage cfg r (v * PGSIZE) doFree) E Q s := by
  have bound : v * PGSIZE < MAXVA := by
    simp only [MAXVA, PGSIZE] at *
    omega
  unfold unmapPage
  refine (wp_bind _ _).mpr (wp_never (walk_find tree bound) ?_)
  rintro a s' ⟨same, found⟩
  subst same found
  rw [Nat.mul_div_cancel v (by decide : 0 < PGSIZE)]
  cases table : S.table 0 (v / 512) with
  | none => exact absent (tree.leafParent v table)
  | some y =>
    have entry := tree.read_leaf table
    simp only [Option.map_some, wp_bind, wp_readPte, wp_ite, wp_pure]
    constructor
    · intro invalid
      apply absent
      rw [← entry, valid_eq_none.mpr invalid]
    · intro holds
      rw [valid_of holds] at entry
      exact ⟨fun flag => free y _ table entry.symm flag,
        fun flag => keep y _ table entry.symm (by simpa using flag)⟩

theorem touch_mine (table : ∃ level n, l = .table r level n) : Mine r l := by
  obtain ⟨level, n, label⟩ := table
  rw [label]
  exact .inr rfl

theorem unmapPage_in (pt : PageTable Pg I own s r S) (below : v < MAXVA / PGSIZE)
    (users : UsersIn D own r S) (inside : D v) (accepts : ∀ x, own x = .user r v → IsPage cfg x) :
    wp (unmapPage cfg r (v * PGSIZE) true) (fun _ => False) (fun _ s' => ∃ own' S',
      PageTable Pg I own' s' r S' ∧ Within (Among r (· = v)) own own' s.mem s'.mem ∧
        S'.leaf = update S.leaf v none ∧ UsersIn D own' r S' ∧
        Released own own' r (· = v)) s := by
  apply unmapPage_step pt.tree below
  · intro none
    refine ⟨own, S, pt, Within.refl _ _ _, by rw [← none, update_eq_self], users, Released.none ?_⟩
    intro x w same label
    obtain ⟨_, e, leaf, _⟩ := (users w x).mp label
    rw [same, none] at leaf
    cases leaf
  · intro y e _ _ keep
    cases keep
  · intro y e table leaf _
    have label := users.label inside leaf
    have page := accepts (PTE2PA e) label
    apply wp_post (kfree_spec pt.toHeap page (by simp [label]) (by simp [label]))
    rintro _ s' ⟨only, heap⟩
    have within : Within (fun l => l = .free ∨ l = .user r v) own
        (update own (PTE2PA e) .free) s.mem s'.mem :=
      Within.relabel (by simp [label]) (by simp) only
    have tree := pt.tree.frame pt.used within (by simp)
    obtain ⟨pt', within'⟩ := PageTable.writeLeaf ⟨heap, tree, pt.plain⟩ (e := 0) table (by decide)
    refine ⟨_, _, pt', (within.mono ?_).trans (within'.mono ?_), by simp [Shape.setLeaf], ?_, fun x => ?_⟩
    · rintro l (rfl | rfl)
      · exact .inl trivial
      · exact .inr ⟨v, rfl, rfl⟩
    · rintro l ⟨level, n, rfl⟩
      exact .inl rfl
    · simpa using users.remove inside leaf
    · by_cases same : x = PTE2PA e
      · subst same
        exact .inl ⟨⟨v, rfl, label⟩, update_self ..⟩
      · refine .inr ⟨?_, update_of_ne same ..⟩
        intro w here label'
        obtain ⟨_, e', leaf', address⟩ := (users w x).mp label'
        rw [here, leaf] at leaf'
        rw [← Option.some.inj leaf'] at address
        exact same address.symm

theorem unmapPage_keep (pt : PageTable Pg I own s r S) (below : v < MAXVA / PGSIZE) :
    wp (unmapPage cfg r (v * PGSIZE) false) (fun _ => False) (fun _ s' => ∃ S',
      PageTable Pg I own s' r S' ∧ Within (Mine r) own own s.mem s'.mem ∧
        S'.leaf = update S.leaf v none) s := by
  apply unmapPage_step pt.tree below
  · exact fun none => ⟨S, pt, Within.refl _ _ _, by rw [← none, update_eq_self]⟩
  · intro y e table _ _
    obtain ⟨pt', within⟩ := pt.writeLeaf (e := 0) table (by decide)
    exact ⟨_, pt', within.mono fun _ => touch_mine, by simp [Shape.setLeaf]⟩
  · intro y e _ _ never
    cases never

theorem unmapLoop_rule {P : Nat → Mach → Prop} (round : ∀ v s, u ≤ v → v < w → P v s →
      wp (unmapPage cfg r (v * PGSIZE) doFree) E (fun _ s' => P (v + 1) s') s)
    (top : w ≤ MAXVA / PGSIZE) (n : Nat) (low : u ≤ v) (high : v ≤ w)
    (enough : w ≤ v + n) (start : P v s) :
    wp (unmapLoop cfg r (w * PGSIZE) doFree n (v * PGSIZE)) E (fun _ s' => P w s') s := by
  induction n generalizing v s with
  | zero =>
    obtain rfl : v = w := by omega
    exact start
  | succ n ih =>
    have scale : v * PGSIZE < w * PGSIZE ↔ v < w := Nat.mul_lt_mul_right (by decide)
    rw [unmapLoop]
    by_cases more : v < w
    · rw [if_pos (scale.mpr more)]
      have next : (v * PGSIZE + PGSIZE) % 2 ^ 64 = (v + 1) * PGSIZE := by
        simp only [MAXVA, PGSIZE] at *
        omega
      rw [next]
      apply wp_seq (round v s low more start)
      intro _ s' step
      exact ih (by omega) more (by omega) step
    · rw [if_neg (fun less => more (scale.mp less))]
      obtain rfl : v = w := by omega
      exact start

theorem uvmunmap_rule {P : Nat → Mach → Prop} (round : ∀ v s, u ≤ v → v < u + n → P v s →
      wp (unmapPage cfg r (v * PGSIZE) doFree) E (fun _ s' => P (v + 1) s') s)
    (top : u + n ≤ MAXVA / PGSIZE) (start : P u s) :
    wp (uvmunmap cfg r (u * PGSIZE) n doFree) E (fun _ s' => P (u + n) s') s := by
  have stop : (u * PGSIZE + n * PGSIZE) % 2 ^ 64 = (u + n) * PGSIZE := by
    simp only [MAXVA, PGSIZE] at *
    omega
  rw [uvmunmap, if_neg (by simp), stop]
  exact unmapLoop_rule round top n le_rfl (by omega) le_rfl start

def Shape.cut (S : Shape) (u w v : Nat) : Option Nat :=
  if u ≤ v ∧ v < w then none else S.leaf v

theorem Shape.cut_nil (S : Shape) (u : Nat) : S.cut u u = S.leaf := by
  funext v
  exact if_neg (by omega)

theorem Shape.cut_succ (S : Shape) (order : u ≤ w) :
    update (S.cut u w) w none = S.cut u (w + 1) := by
  funext v
  by_cases here : v = w
  · rw [here, update_self, cut, if_pos (by omega)]
  · rw [update_of_ne here, cut, cut]
    by_cases inside : u ≤ v ∧ v < w
    · rw [if_pos inside, if_pos (by omega)]
    · rw [if_neg inside, if_neg (by omega)]

theorem uvmunmap_in (pt : PageTable Pg I own s r S)
    (top : u + n ≤ MAXVA / PGSIZE) (users : UsersIn D own r S) (inside : ∀ v, u ≤ v → v < u + n → D v)
    (accepts : ∀ x v, u ≤ v → v < u + n → own x = .user r v → IsPage cfg x) :
    wp (uvmunmap cfg r (u * PGSIZE) n true) (fun _ => False) (fun _ s' => ∃ own' S',
      PageTable Pg I own' s' r S' ∧ Within (Among r (u ≤ ·)) own own' s.mem s'.mem ∧
        S'.leaf = S.cut u (u + n) ∧ UsersIn D own' r S' ∧
        Released own own' r fun v => u ≤ v ∧ v < u + n) s := by
  apply uvmunmap_rule (P := fun w s' => ∃ own' S', PageTable Pg I own' s' r S' ∧
    Within (Among r (u ≤ ·)) own own' s.mem s'.mem ∧ S'.leaf = S.cut u w ∧ UsersIn D own' r S' ∧
    Released own own' r fun v => u ≤ v ∧ v < w)
  · rintro v s1 low high ⟨own1, S1, pt1, within1, leaf1, users1, released1⟩
    have before : ∀ x, own1 x = .user r v → own x = .user r v := by
      intro x label
      rcases released1 x with ⟨_, free⟩ | ⟨_, same⟩
      · rw [free] at label
        cases label
      · rw [← same, label]
    apply wp_post (unmapPage_in pt1 (by omega) users1 (inside v low high)
      fun x label => accepts x v low high (before x label))
    rintro _ s2 ⟨own2, S2, pt2, within2, leaf2, users2, released2⟩
    have more := within2.mono (Among.mono (r := r) fun w (here : w = v) => here ▸ low)
    refine ⟨own2, S2, pt2, within1.trans more, ?_, users2, released1.step low released2⟩
    rw [leaf2, leaf1, S.cut_succ low]
  · exact top
  · refine ⟨own, S, pt, Within.refl _ _ _, (S.cut_nil u).symm, users, Released.none ?_⟩
    intro x v inside
    omega

theorem uvmunmap_keep (pt : PageTable Pg I own s r S) (top : u + n ≤ MAXVA / PGSIZE) :
    wp (uvmunmap cfg r (u * PGSIZE) n false) (fun _ => False) (fun _ s' => ∃ S',
      PageTable Pg I own s' r S' ∧ Within (Mine r) own own s.mem s'.mem ∧
        S'.leaf = S.cut u (u + n)) s := by
  apply uvmunmap_rule (P := fun w s' => ∃ S', PageTable Pg I own s' r S' ∧
    Within (Mine r) own own s.mem s'.mem ∧ S'.leaf = S.cut u w)
  · rintro v s1 low high ⟨S1, pt1, within1, leaf1⟩
    apply wp_post (unmapPage_keep pt1 (by omega))
    rintro _ s2 ⟨S2, pt2, within2, leaf2⟩
    exact ⟨S2, pt2, within1.trans within2, by rw [leaf2, leaf1, S.cut_succ low]⟩
  · exact top
  · exact ⟨S, pt, Within.refl _ _ _, (S.cut_nil u).symm⟩

end Unmap

section Freewalk
variable {cfg : Config} {own : Nat → Label} {s : Mach} {r : Nat} {S : Shape}

theorem PageTable.unlink {s' : Mach} {l j m y : Nat} (pt : PageTable (IsPage cfg) Plain own s r S)
    (parent : S.table (l + 1) n = some m) (inside : j < 512)
    (child : S.table l (512 * n + j) = some y)
    (children : ∀ l' i, l' + 1 = l → i < 512 → S.table l' (512 * (512 * n + j) + i) = none)
    (empty : ∀ v, S.leaf v = none) (only : OnlyPage s.mem s'.mem y)
    (heap : Heap (IsPage cfg) (update own y .free) s') :
    PageTable (IsPage cfg) Plain (update own y .free)
      { s' with mem := store s'.mem (slot m j) 8 0 } r (S.set l (512 * n + j) none) ∧
    Within (Tables r) own (update own y .free) s.mem (store s'.mem (slot m j) 8 0) := by
  have pageM := pt.used m (pt.tree.used parent)
  have labelM := (pt.tree.labels _ _ m).mpr parent
  have labelY := (pt.tree.labels _ _ y).mpr child
  have other : m ≠ y := by
    intro same
    have := (pt.tree.table_inj (same ▸ parent) child).1
    omega
  have labelM' : update own y .free m = .table r (l + 1) n :=
    (update_of_ne other ..).trans labelM
  have touch : OnlyPage s'.mem (store s'.mem (slot m _) 8 0) m := onlyPage_slot pageM.1 inside
  refine ⟨⟨?_, ?_, pt.plain⟩, ?_⟩
  · exact heap.frame (P := fun label => ∃ l n, label = .table r l n)
      (Within.touch ⟨_, _, labelM'⟩ touch) (by simp) (by simp)
  · exact pt.tree.unlink pt.used parent inside child children (fun _ _ _ => empty _) only
  · refine (Within.relabel (by simp [labelY, Tables]) (by simp [Tables]) only).trans
      (Within.touch (x := m) ?_ touch)
    rw [labelM']
    rfl

/-- What freewalk leaves of the shape S once the table l n is about to be freed: the
tables below it are gone. -/
structure Pruned (S S' : Shape) (l n : Nat) : Prop where
  leaf : S'.leaf = S.leaf
  above : ∀ l' n', l ≤ l' → S'.table l' n' = S.table l' n'
  fewer : ∀ l' n', S.table l' n' = none → S'.table l' n' = none
  children : ∀ l' i, l' + 1 = l → i < 512 → S'.table l' (512 * n + i) = none

theorem freeEntries_step {f : Nat → MM Unit} {page k : Nat}
    (absent : valid (tab s.mem page (512 - (k + 1))) = none → wp (freeEntries f page k) E Q s)
    (present : ∀ e, valid (tab s.mem page (512 - (k + 1))) = some e → Plain e ∧
      wp (f (PTE2PA e)) E (fun _ s' => wp (freeEntries f page k) E Q
        { s' with mem := store s'.mem (slot page (512 - (k + 1))) 8 0 }) s) :
    wp (freeEntries f page (k + 1)) E Q s := by
  rw [freeEntries]
  simp only [wp_bind, wp_readPte, wp_ite]
  rw [← tab]
  by_cases holds : tab s.mem page (512 - (k + 1)) &&& PTE_V = 0
  · refine ⟨fun both => absurd holds both.1, fun _ => ⟨fun odd => absurd holds odd, fun _ => ?_⟩⟩
    exact absent (valid_eq_none.mpr holds)
  · obtain ⟨plain, child⟩ := present _ (valid_of holds)
    exact ⟨fun _ => child, fun odd => absurd ⟨holds, plain⟩ odd⟩

theorem freeEntries_spec (l n page k : Nat) (pt : PageTable (IsPage cfg) Plain own s r S)
    (here : S.table l n = some page) (empty : ∀ v, S.leaf v = none) (bound : k ≤ 512)
    (done : ∀ l' i, l' + 1 = l → i < 512 - k → S.table l' (512 * n + i) = none) :
    wp (freeEntries (freewalk cfg l) page k) (fun _ => False) (fun _ s' => ∃ own' S',
      PageTable (IsPage cfg) Plain own' s' r S' ∧ Within (Tables r) own own' s.mem s'.mem ∧
        Pruned S S' l n) s := by
  induction l generalizing n page k own s S with
  | zero =>
    -- the entries of the lowest tables are leaves, and there are none
    induction k with
    | zero =>
      exact ⟨own, S, pt, Within.refl _ _ _, rfl, fun _ _ _ => rfl, fun _ _ none => none,
        fun l' i same => by omega⟩
    | succ k ih =>
      have entry := pt.tree.leafEntry n page (512 - (k + 1)) here (by omega)
      rw [empty] at entry
      apply freeEntries_step
      · intro _
        exact ih (by omega) fun l' i same => by omega
      · intro e found
        rw [entry] at found
        cases found
  | succ l ihl =>
    induction k generalizing own s S with
    | zero =>
      exact ⟨own, S, pt, Within.refl _ _ _, rfl, fun _ _ _ => rfl, fun _ _ none => none,
        fun l' i same low => done l' i same (by omega)⟩
    | succ k ihk =>
      have inside : 512 - (k + 1) < 512 := by omega
      have entry := pt.tree.entry l n page (512 - (k + 1)) here inside
      rw [child] at entry
      apply freeEntries_step
      · intro missing
        rw [missing, Option.map_none] at entry
        apply ihk pt here empty (by omega)
        intro l' i same low
        obtain rfl : l' = l := by omega
        by_cases last : i = 512 - (k + 1)
        · rw [last, ← entry]
        · exact done l' i same (by omega)
      · intro e found
        refine ⟨pt.tree.form l n page _ e here inside found, ?_⟩
        rw [found, Option.map_some] at entry
        have child := entry.symm
        rw [freewalk, wp_bind]
        apply wp_post (ihl _ (PTE2PA e) 512 pt child empty le_rfl
          (fun l' i same low => by omega))
        rintro _ s1 ⟨own1, S1, pt1, within1, pruned⟩
        have child1 := (pruned.above l _ le_rfl).trans child
        have here1 := (pruned.above (l + 1) n (by omega)).trans here
        have label := (pt1.tree.labels _ _ _).mpr child1
        have empty1 : ∀ v, S1.leaf v = none := fun v => by rw [pruned.leaf, empty]
        apply wp_post (kfree_spec pt1.toHeap (pt1.page _ (by simp [label])) (by simp [label])
          (by simp [label]))
        rintro _ s2 ⟨only, heap⟩
        obtain ⟨pt2, within2⟩ := pt1.unlink here1 inside child1
          (fun l' i same low => pruned.children l' i same low) empty1 only heap
        have here2 : (S1.set l (512 * n + (512 - (k + 1))) none).table (l + 1) n = some page := by
          rw [Shape.set]
          simp only
          rw [if_neg (by omega)]
          exact here1
        apply wp_post (ihk pt2 here2 empty1 (by omega) _)
        · rintro _ s3 ⟨own3, S3, pt3, within3, pruned3⟩
          refine ⟨own3, S3, pt3, (within1.trans within2).trans within3, ?_, ?_, ?_,
            pruned3.children⟩
          · rw [pruned3.leaf]
            exact pruned.leaf
          · intro l' n' high
            rw [pruned3.above l' n' high, ← pruned.above l' n' (by omega)]
            exact if_neg (by omega)
          · intro l' n' missing
            apply pruned3.fewer l' n'
            simp only [Shape.set]
            split
            · rfl
            · exact pruned.fewer l' n' missing
        · intro l' i same low
          obtain rfl : l' = l := by omega
          simp only [Shape.set, true_and]
          by_cases last : i = 512 - (k + 1)
          · rw [if_pos (by rw [last])]
          · rw [if_neg (by omega)]
            exact pruned.fewer _ _ (done l' i same (by omega))

theorem Tree.only_root {mem : Mem} {I : Nat → Prop} {l x : Nat} (tree : Tree I own mem r S)
    (children : ∀ i, i < 512 → S.table 1 i = none) (here : S.table l n = some x) : x = r := by
  have middle : ∀ n, S.table 1 n = none := by
    intro n
    by_cases first : n / 512 = 0
    · exact children n (by omega)
    · apply tree.parent 1 n (by omega)
      rw [tree.top 2 _ le_rfl, if_neg (by omega)]
  match l with
  | 0 =>
    rw [tree.parent 0 n (by omega) (middle _)] at here
    cases here
  | 1 =>
    rw [middle] at here
    cases here
  | l + 2 =>
    rw [tree.top (l + 2) n (by omega)] at here
    split at here
    · exact (Option.some.inj here).symm
    · cases here

theorem freewalk_spec (pt : PageTable (IsPage cfg) Plain own s r S) (empty : ∀ v, S.leaf v = none) :
    wp (freewalk cfg 3 r) (fun _ => False) (fun _ s' => ∃ own',
      Heap (IsPage cfg) own' s' ∧ Within (Tables r) own own' s.mem s'.mem ∧
        ∀ x l n, own' x ≠ .table r l n) s := by
  have root := pt.tree.root
  rw [freewalk]
  apply wp_seq (freeEntries_spec 2 0 r 512 pt root empty le_rfl fun l' i _ low => by omega)
  rintro _ s1 ⟨own1, S1, pt1, within1, pruned⟩
  have root1 := (pruned.above 2 0 le_rfl).trans root
  have label := (pt1.tree.labels 2 0 r).mpr root1
  apply wp_post (kfree_spec pt1.toHeap (pt1.page r (by simp [label])) (by simp [label])
    (by simp [label]))
  rintro _ s2 ⟨only, heap⟩
  refine ⟨_, heap, within1.trans (Within.relabel (by simp [label, Tables]) (by simp [Tables]) only),
    fun x l n same => ?_⟩
  by_cases equal : x = r
  · rw [equal, update_self] at same
    cases same
  · rw [update_of_ne equal, pt1.tree.labels] at same
    refine equal (pt1.tree.only_root (fun i low => ?_) same)
    have child := pruned.children 1 i rfl low
    rwa [Nat.mul_zero, Nat.zero_add] at child

theorem uvmfree_spec {sz : Nat} (pt : PageTable (IsPage cfg) Plain own s r S)
    (users : Users own r S) (top : roundUp sz / PGSIZE ≤ USERTOP)
    (covered : ∀ v, roundUp sz / PGSIZE ≤ v → S.leaf v = none) :
    wp (uvmfree cfg r sz) (fun _ => False) (fun _ s' => ∃ own',
      Heap (IsPage cfg) own' s' ∧ Within (Mine r) own own' s.mem s'.mem ∧
        ∀ x, (own' x).root ≠ some r) s := by
  have finish : ∀ {own1 S1 s1}, PageTable (IsPage cfg) Plain own1 s1 r S1 →
      Within (Mine r) own own1 s.mem s1.mem → (∀ v, S1.leaf v = none) → Users own1 r S1 →
      wp (freewalk cfg 3 r) (fun _ => False) (fun _ s' => ∃ own',
        Heap (IsPage cfg) own' s' ∧ Within (Mine r) own own' s.mem s'.mem ∧
          ∀ x, (own' x).root ≠ some r) s1 := by
    intro own1 S1 s1 pt1 within1 empty users1
    apply wp_post (freewalk_spec pt1 empty)
    rintro _ s2 ⟨own2, heap, within2, gone⟩
    refine ⟨own2, heap, within1.trans (within2.mono fun _ => Tables.mine), fun x mine => ?_⟩
    rcases Label.root_eq_some.mp mine with ⟨l, n, label⟩ | ⟨v, label⟩
    · exact gone x l n label
    · rw [within2.iff (by simp [Tables]), users1, empty] at label
      simp at label
  unfold uvmfree
  simp only [wp_bind, wp_ite]
  refine ⟨fun _ => ?_, fun zero => ?_⟩
  · have high : 0 + roundUp sz / PGSIZE ≤ MAXVA / PGSIZE := by
      simp only [USERTOP, TRAPFRAME, TRAMPOLINE, MAXVA, PGSIZE] at *
      omega
    have unmap := uvmunmap_in pt high users (fun v _ _ => by omega) fun x v _ _ label =>
      pt.page x (by simp [label])
    rw [Nat.zero_mul] at unmap
    apply wp_post unmap
    rintro _ s1 ⟨own1, S1, pt1, within1, leaf, users1, _⟩
    refine finish pt1 (within1.mono fun _ => Among.mine) (fun v => ?_) users1
    rw [leaf, Shape.cut]
    split
    · rfl
    · exact covered v (by omega)
  · have none : roundUp sz / PGSIZE = 0 := by
      rw [show sz = 0 by omega]
      decide
    exact finish pt (Within.refl _ _ _) (fun v => covered v (by omega)) users

end Freewalk
end Xv6Lab.Mm
