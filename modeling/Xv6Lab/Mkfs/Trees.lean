import Xv6Lab.Fs.Nodes
import Xv6Lab.Mkfs.Sectors

/-!
The blocks that mkfs hands out form one tree for each inode; the others are still zero.
-/

namespace Xv6Lab.Mkfs
open Bytes
open Virtio (BSIZE)
open Fs
variable {i' b : Nat} {n' : Node}

abbrev Layout : Type := Nat → Node → Nat

def Layout.add (L : Layout) (i : Nat) (n : Node) (b : Nat) : Layout :=
  Function.update L i (Function.update (L i) n b)

theorem Layout.add_self (L : Layout) (i : Nat) (n : Node) (b : Nat) : L.add i n b i n = b := by
  simp [Layout.add]

theorem Layout.add_other (L : Layout) {i : Nat} {n : Node} (b : Nat)
    (other : ¬(i' = i ∧ n' = n)) : L.add i n b i' n' = L i' n' := by
  by_cases same : i' = i
  · subst same
    have apart : n' ≠ n := fun equal => other ⟨rfl, equal⟩
    simp [Layout.add, apart]
  · simp [Layout.add, same]

structure Trees (L : Layout) (s : Disk) : Prop where
  full : s.Full
  low : nmeta ≤ s.freeblock
  high : s.freeblock ≤ FSSIZE
  range : ∀ i n, L i n ≠ 0 → nmeta ≤ L i n ∧ L i n < s.freeblock
  inj : ∀ i n i' n', L i n ≠ 0 → L i n = L i' n' → i = i' ∧ n = n'
  onto : ∀ b, nmeta ≤ b → b < s.freeblock → ∃ i n, L i n = b
  parent : ∀ i n m, n.parent = some m → L i n ≠ 0 → L i m ≠ 0
  table : ∀ i n m, n.parent = some m → L i m ≠ 0 → entry s.image (L i m) n.slot = L i n
  fresh : ∀ b, s.freeblock ≤ b → b < FSSIZE → ∀ k < BSIZE, block s.image b k = 0

structure Grows (i : Nat) (L L' : Layout) (s s' : Disk) : Prop where
  keeps : ∀ j n, L j n ≠ 0 → L' j n = L j n
  others : ∀ j, j ≠ i → L' j = L j
  front : ∀ b < nmeta, SameBlock s.image s'.image b
  data : ∀ j n, n.isData = true → L j n ≠ 0 → SameBlock s.image s'.image (L j n)
  zero : ∀ n, n.isData = true → L i n = 0 → L' i n ≠ 0 → ∀ k < BSIZE, block s'.image (L' i n) k = 0
  freeinode : s'.freeinode = s.freeinode
  log : s'.log = s.log

section Growing
variable {i : Nat} {L L' L'' : Layout} {s s' s'' : Disk}

theorem SameBlock.rfl {image : Mem} : SameBlock image image b := fun _ _ => Eq.refl _

theorem SameBlock.trans {image image' image'' : Mem} (first : SameBlock image image' b)
    (second : SameBlock image' image'' b) : SameBlock image image'' b :=
  fun k small => (second k small).trans (first k small)

theorem Grows.refl : Grows i L L s s where
  keeps _ _ _ := rfl
  others _ _ := rfl
  front _ _ := SameBlock.rfl
  data _ _ _ _ := SameBlock.rfl
  zero _ _ none some := absurd none some
  freeinode := rfl
  log := rfl

theorem Grows.trans (first : Grows i L L' s s') (second : Grows i L' L'' s' s'') :
    Grows i L L'' s s'' where
  keeps j n used := by
    have kept := first.keeps j n used
    rw [second.keeps j n (kept ▸ used), kept]
  others j other := (second.others j other).trans (first.others j other)
  front b low := (first.front b low).trans (second.front b low)
  data j n isData used := by
    have kept := first.keeps j n used
    have later := second.data j n isData (kept ▸ used)
    rw [kept] at later
    exact (first.data j n isData used).trans later
  zero n isData none some k small := by
    by_cases between : L' i n = 0
    · exact second.zero n isData between some k small
    · rw [second.keeps i n between, second.data i n isData between k small]
      exact first.zero n isData none between k small
  freeinode := second.freeinode.trans first.freeinode
  log := second.log.trans first.log

end Growing

section Allocation
variable {i : Nat} {L : Layout} {s s' : Disk} {n m : Node}

theorem Trees.lt_fssize (trees : Trees L s) (used : L i n ≠ 0) : L i n < FSSIZE :=
  (trees.range i n used).2.trans_le trees.high

theorem Trees.lt_freeblock (trees : Trees L s) (i : Nat) (n : Node) : L i n < s.freeblock := by
  by_cases used : L i n = 0
  · rw [used]
    exact Nat.lt_of_lt_of_le (by decide) trees.low
  · exact (trees.range i n used).2

/-- Node n of inode i gets the next block, whose address goes to the table of n if it has
one. Nothing else changes. -/
structure Takes (i : Nat) (n : Node) (L : Layout) (s s' : Disk) : Prop where
  new : L i n = 0
  free : s.freeblock < FSSIZE
  above : ∀ m, n.parent = some m → L i m ≠ 0
  full : s'.Full
  freeblock : s'.freeblock = s.freeblock + 1
  written : ∀ m, n.parent = some m → entry s'.image (L i m) n.slot = s.freeblock
  kept : ∀ m n', n.parent = some m → n'.parent = some m → n' ≠ n →
    entry s'.image (L i m) n'.slot = entry s.image (L i m) n'.slot
  same : ∀ b < FSSIZE, (∀ m, n.parent = some m → b ≠ L i m) → SameBlock s.image s'.image b
  freeinode : s'.freeinode = s.freeinode
  log : s'.log = s.log

theorem Takes.old (takes : Takes i n L s s') (used : L i' n' ≠ 0) (b : Nat) :
    L.add i n b i' n' = L i' n' := by
  refine L.add_other b ?_
  rintro ⟨rfl, rfl⟩
  exact used takes.new

theorem Takes.same_fresh (takes : Takes i n L s s') (trees : Trees L s)
    (low : s.freeblock ≤ b) (high : b < FSSIZE) : SameBlock s.image s'.image b :=
  takes.same b high fun m _ equal => absurd (trees.lt_freeblock i m) (equal ▸ Nat.not_lt.mpr low)

theorem Layout.add_cases (L : Layout) (i : Nat) (n : Node) (b i' : Nat) (n' : Node) :
    (i' = i ∧ n' = n ∧ L.add i n b i' n' = b) ∨
      (¬(i' = i ∧ n' = n) ∧ L.add i n b i' n' = L i' n') := by
  by_cases here : i' = i ∧ n' = n
  · exact .inl ⟨here.1, here.2, by rw [here.1, here.2, L.add_self]⟩
  · exact .inr ⟨here, L.add_other b here⟩

section
variable (takes : Takes i n L s s')
include takes

theorem Takes.table (trees : Trees L s) {m : Node}
    (child : n'.parent = some m) (used : L.add i n s.freeblock i' m ≠ 0) :
    entry s'.image (L.add i n s.freeblock i' m) n'.slot = L.add i n s.freeblock i' n' := by
  have small := Node.slot_lt_of_parent child
  rcases L.add_cases i n s.freeblock i' m with ⟨rfl, rfl, value⟩ | ⟨elsewhere, value⟩
  · have apart : n' ≠ m := Node.parent_ne child
    have none : L i' n' = 0 := by
      by_contra some
      exact trees.parent i' n' m child some takes.new
    have zero : entry s.image s.freeblock n'.slot = 0 := by
      refine load_zero fun k _ high => trees.fresh s.freeblock le_rfl takes.free k ?_
      simp only [NINDIRECT, BSIZE] at *
      omega
    rw [value, (takes.same_fresh trees le_rfl takes.free).entry small, zero,
      L.add_other _ fun both => apart both.2, none]
  · rw [value] at used ⊢
    by_cases here : n.parent = some m ∧ i' = i
    · obtain ⟨child', rfl⟩ := here
      by_cases same : n' = n
      · rw [same, takes.written m child', L.add_self]
      · rw [takes.kept m n' child' child same, L.add_other _ fun both => same both.2]
        exact trees.table i' n' m child used
    · have apart : ∀ t, n.parent = some t → L i' m ≠ L i t := by
        intro t child' equal
        obtain ⟨rfl, rfl⟩ := trees.inj i' m i t used equal
        exact here ⟨child', rfl⟩
      rw [(takes.same _ (trees.lt_fssize used) apart).entry small,
        trees.table i' n' m child used, L.add_other]
      rintro ⟨rfl, rfl⟩
      exact here ⟨child, rfl⟩

theorem Takes.trees (trees : Trees L s) : Trees (L.add i n s.freeblock) s' := by
  have cases := L.add_cases i n s.freeblock
  refine ⟨takes.full, ?_, ?_, ?_, ?_, ?_, ?_, ?_, ?_⟩
  · rw [takes.freeblock]
    exact Nat.le_succ_of_le trees.low
  · rw [takes.freeblock]
    exact takes.free
  · intro i' n' used
    rw [takes.freeblock]
    rcases cases i' n' with ⟨-, -, value⟩ | ⟨-, value⟩
    · rw [value]
      exact ⟨trees.low, Nat.lt_succ_self _⟩
    · rw [value] at used ⊢
      exact ⟨(trees.range i' n' used).1, Nat.lt_succ_of_lt (trees.range i' n' used).2⟩
  · intro i1 n1 i2 n2 used equal
    rcases cases i1 n1 with ⟨rfl, rfl, value⟩ | ⟨-, value⟩ <;>
      rcases cases i2 n2 with ⟨rfl, rfl, value'⟩ | ⟨-, value'⟩
    · exact ⟨rfl, rfl⟩
    all_goals rw [value, value'] at equal
    · exact absurd equal.symm (Nat.ne_of_lt (trees.lt_freeblock i2 n2))
    · exact absurd equal (Nat.ne_of_lt (trees.lt_freeblock i1 n1))
    · rw [value] at used
      exact trees.inj i1 n1 i2 n2 used equal
  · intro b low high
    rw [takes.freeblock] at high
    by_cases last : b = s.freeblock
    · exact ⟨i, n, by rw [L.add_self, last]⟩
    · obtain ⟨i', n', here⟩ := trees.onto b low (by omega)
      have used : L i' n' ≠ 0 := by
        rw [here]
        exact Nat.ne_of_gt (Nat.lt_of_lt_of_le (by decide) low)
      exact ⟨i', n', by rw [takes.old used, here]⟩
  · intro i' n' m child used
    rcases cases i' n' with ⟨rfl, rfl, -⟩ | ⟨-, value⟩
    · rw [takes.old (takes.above m child)]
      exact takes.above m child
    · rw [value] at used
      rw [takes.old (trees.parent i' n' m child used)]
      exact trees.parent i' n' m child used
  · intro i' n' m child used
    exact takes.table trees child used
  · intro b low high k small
    rw [takes.freeblock] at low
    rw [takes.same_fresh trees (by omega) high k small]
    exact trees.fresh b (by omega) high k small

theorem Takes.grows (trees : Trees L s) : Grows i L (L.add i n s.freeblock) s s' where
  keeps _ _ used := takes.old used _
  others j other := funext fun n' => L.add_other _ fun both => other both.1
  front b low := by
    refine takes.same b (low.trans (by decide)) fun m child equal => ?_
    have := (trees.range i m (takes.above m child)).1
    omega
  data j n' isData used := by
    refine takes.same _ (trees.lt_fssize used) fun m child equal => ?_
    obtain ⟨-, rfl⟩ := trees.inj j n' i m used equal
    rw [Node.isData_of_parent child] at isData
    cases isData
  zero n' isData none some k small := by
    rcases L.add_cases i n s.freeblock i n' with ⟨-, -, value⟩ | ⟨-, value⟩
    · rw [value, takes.same_fresh trees le_rfl takes.free k small]
      exact trees.fresh s.freeblock le_rfl takes.free k small
    · exact absurd (value.trans none) some
  freeinode := takes.freeinode
  log := takes.log

end

structure Adds (i : Nat) (n : Node) (L L' : Layout) (s s' : Disk) : Prop
    extends Grows i L L' s s' where
  trees : Trees L' s'
  here : L' i n ≠ 0
  only : ∀ n', n' ≠ n → L' i n' = L i n'
  freeblock : s'.freeblock ≤ s.freeblock + 1

theorem Adds.refl (trees : Trees L s) (used : L i n ≠ 0) : Adds i n L L s s :=
  ⟨Grows.refl, trees, used, fun _ _ => rfl, Nat.le_succ _⟩

theorem Takes.adds (takes : Takes i n L s s') (trees : Trees L s) :
    Adds i n L (L.add i n s.freeblock) s s' where
  toGrows := takes.grows trees
  trees := takes.trees trees
  here := by
    rw [L.add_self]
    exact Nat.ne_of_gt (Nat.lt_of_lt_of_le (by decide) trees.low)
  only n' other := L.add_other _ fun both => other both.2
  freeblock := takes.freeblock.le

theorem takes_top (trees : Trees L s) (top : n.parent = none) (new : L i n = 0)
    (free : s.freeblock < FSSIZE) : Takes i n L s { s with freeblock := s.freeblock + 1 } := by
  refine ⟨new, free, ?_, trees.full, rfl, ?_, ?_, fun _ _ _ => SameBlock.rfl, rfl, rfl⟩
  all_goals
    intro m
    rw [top]
    intros
    contradiction

theorem takes_child (trees : Trees L s) (child : n.parent = some m) (above : L i m ≠ 0)
    (new : L i n = 0) (free : s.freeblock < FSSIZE) :
    Takes i n L s (Disk.put { s with freeblock := s.freeblock + 1 } (L i m)
      (store (block s.image (L i m)) (4 * n.slot) 4 s.freeblock)) := by
  have inside := trees.lt_fssize above
  have only : ∀ {t}, n.parent = some t → t = m := fun child' =>
    Option.some.inj (child'.symm.trans child)
  have read_back : ∀ {n' : Node}, n'.parent = some m →
      entry (Disk.put { s with freeblock := s.freeblock + 1 } (L i m)
        (store (block s.image (L i m)) (4 * n.slot) 4 s.freeblock)).image (L i m) n'.slot =
      load (store (block s.image (L i m)) (4 * n.slot) 4 s.freeblock) (4 * n'.slot) 4 := by
    intro n' child'
    refine load_congr fun k _ high => block_put_self inside _ ?_
    have small := Node.slot_lt_of_parent child'
    simp only [NINDIRECT, BSIZE] at *
    omega
  refine ⟨new, free, ?_, ?_, rfl, ?_, ?_, ?_, rfl, rfl⟩
  · intro t child'
    rw [only child']
    exact above
  · exact Disk.Full.put (s := { s with freeblock := s.freeblock + 1 }) trees.full inside _
  · intro t child'
    rw [only child', read_back child]
    exact load_store (free.trans (by decide))
  · intro t n' child' sibling other
    rw [only child'] at sibling ⊢
    have apart : n'.slot ≠ n.slot := fun equal =>
      other (Node.eq_of_slot (sibling.trans child.symm) equal)
    rw [read_back sibling]
    exact load_store_disjoint (by omega)
  · intro b high other k small
    exact block_put_other inside high (other m child) _ small

def OutOfBlocks (s : Disk) (k : Nat) (e : Exit) : Prop :=
  e = .outOfBlocks ∧ FSSIZE ≤ s.freeblock + k

theorem wp_allocblock {E : Exit → Prop} {Q : Nat → Disk → Prop}
    (none : FSSIZE ≤ s.freeblock → E .outOfBlocks)
    (some : s.freeblock < FSSIZE → Q s.freeblock { s with freeblock := s.freeblock + 1 }) :
    wp allocblock E Q s := by
  simp only [allocblock, wp_bind, wp_get, wp_ite, wp_throw, wp_set, wp_pure]
  exact ⟨none, fun free => some (Nat.lt_of_not_le free)⟩

theorem wp_tableEntry (trees : Trees L s) (child : n.parent = some m) (above : L i m ≠ 0) :
    wp (tableEntry (L i m) n.slot) (OutOfBlocks s 0)
      (fun b s' => ∃ L', Adds i n L L' s s' ∧ b = L' i n) s := by
  have value : load (block s.image (L i m)) (4 * n.slot) 4 = L i n :=
    trees.table i n m child above
  simp only [tableEntry, wp_bind]
  refine wp_rsect (trees.lt_fssize above) trees.full ?_
  simp only [wp_ite, value, wp_bind, wp_pure]
  refine ⟨fun new => ?_, fun used => ⟨L, Adds.refl trees used, rfl⟩⟩
  refine wp_allocblock (fun none => ⟨rfl, none⟩) fun free => ?_
  rw [wp_wsect]
  have takes := takes_child trees child above new free
  exact ⟨_, takes.adds trees, (L.add_self i n _).symm⟩

def Pointers (i : Nat) (L : Layout) (din : Dinode) : Prop :=
  ∀ n, n.parent = none → din.addrs n.slot = L i n

def Dinode.SameHead (din din' : Dinode) : Prop := din' = { din with addrs := din'.addrs }

theorem wp_inodeEntry {din : Dinode} (trees : Trees L s) (pointers : Pointers i L din)
    (top : n.parent = none) : wp (inodeEntry din n.slot) (OutOfBlocks s 0)
      (fun din' s' => ∃ L', Adds i n L L' s s' ∧ Pointers i L' din' ∧ din.SameHead din') s := by
  simp only [inodeEntry, wp_ite, wp_bind, wp_pure, pointers n top]
  refine ⟨fun new => ?_, fun used => ⟨L, Adds.refl trees used, pointers, rfl⟩⟩
  refine wp_allocblock (fun none => ⟨rfl, none⟩) fun free => ?_
  have takes := takes_top trees top new free
  refine ⟨_, takes.adds trees, fun n' top' => ?_, rfl⟩
  dsimp only
  by_cases same : n' = n
  · rw [same, L.add_self, Function.update_self]
  · have apart : n'.slot ≠ n.slot := fun equal =>
      same (Node.eq_of_slot (top'.trans top.symm) equal)
    rw [L.add_other _ fun both => same both.2, Function.update_of_ne apart]
    exact pointers n' top'

structure Reaches (i : Nat) (d : Node) (L L' : Layout) (s s' : Disk) : Prop
    extends Grows i L L' s s' where
  trees : Trees L' s'
  nodes : ∀ n, L' i n ≠ 0 ↔ L i n ≠ 0 ∨ n.above d
  freeblock : s'.freeblock ≤ s.freeblock + 3

theorem Adds.nodes {L' : Layout} (adds : Adds i n L L' s s') (n' : Node) :
    L' i n' ≠ 0 ↔ L i n' ≠ 0 ∨ n' = n := by
  by_cases same : n' = n
  · rw [same]
    exact ⟨fun _ => .inr rfl, fun _ => adds.here⟩
  · rw [adds.only n' same]
    exact ⟨.inl, fun either => either.resolve_right same⟩

theorem Adds.pointers {L' : Layout} {din : Dinode} (adds : Adds i n L L' s s')
    (child : n.parent = some m) (pointers : Pointers i L din) : Pointers i L' din := by
  intro n' top
  rw [pointers n' top, adds.only n']
  rintro rfl
  rw [top] at child
  cases child

theorem OutOfBlocks.mono {k k' : Nat} {e : Exit} (none : OutOfBlocks s' k e)
    (bound : s'.freeblock + k ≤ s.freeblock + k') : OutOfBlocks s k' e :=
  ⟨none.1, none.2.trans bound⟩

def Found (i : Nat) (d : Node) (L : Layout) (din : Dinode) (s : Disk) (r : Nat × Dinode)
    (s' : Disk) : Prop :=
  ∃ L', Reaches i d L L' s s' ∧ Pointers i L' r.2 ∧ r.1 = L' i d ∧ din.SameHead r.2

section Paths
variable {din : Dinode} {d t u : Node} (trees : Trees L s) (pointers : Pointers i L din)

include trees pointers

theorem wp_direct (top : d.parent = none) :
    wp (do let din ← inodeEntry din d.slot
           return (din.addrs d.slot, din)) (OutOfBlocks s 2) (Found i d L din s) s := by
  rw [wp_bind]
  refine wp_mono (wp_inodeEntry trees pointers top) ?_ fun e none => none.mono (by omega)
  rintro din' s' ⟨L', adds, pointers', head⟩
  refine ⟨L', ⟨adds.toGrows, adds.trees, fun n => ?_, ?_⟩, pointers', pointers' d top, head⟩
  · rw [adds.nodes]
    simp [Node.above, top]
  · exact adds.freeblock.trans (by omega)

theorem wp_single (child : d.parent = some t) (top : t.parent = none) :
    wp (do let din ← inodeEntry din t.slot
           return (← tableEntry (din.addrs t.slot) d.slot, din)) (OutOfBlocks s 2)
      (Found i d L din s) s := by
  simp only [wp_bind, wp_pure]
  refine wp_mono (wp_inodeEntry trees pointers top) ?_ fun e none => none.mono (by omega)
  rintro din' s1 ⟨L1, adds1, pointers1, head⟩
  have more1 := adds1.freeblock
  rw [pointers1 t top]
  refine wp_mono (wp_tableEntry adds1.trees child adds1.here) ?_ fun e none =>
    none.mono (by omega)
  rintro b s2 ⟨L2, adds2, rfl⟩
  have more2 := adds2.freeblock
  refine ⟨L2, ⟨adds1.toGrows.trans adds2.toGrows, adds2.trees, fun n => ?_, by omega⟩,
    adds2.pointers child pointers1, rfl, head⟩
  rw [adds2.nodes, adds1.nodes]
  simp only [Node.above, child, top, Option.some.injEq, exists_eq_left', reduceCtorEq, or_false]
  tauto

theorem wp_double (child : d.parent = some t) (table : t.parent = some u) (top : u.parent = none) :
    wp (do let din ← inodeEntry din u.slot
           let x ← tableEntry (din.addrs u.slot) t.slot
           return (← tableEntry x d.slot, din)) (OutOfBlocks s 2) (Found i d L din s) s := by
  simp only [wp_bind, wp_pure]
  refine wp_mono (wp_inodeEntry trees pointers top) ?_ fun e none => none.mono (by omega)
  rintro din' s1 ⟨L1, adds1, pointers1, head⟩
  have more1 := adds1.freeblock
  rw [pointers1 u top]
  refine wp_mono (wp_tableEntry adds1.trees table adds1.here) ?_ fun e none =>
    none.mono (by omega)
  rintro b s2 ⟨L2, adds2, rfl⟩
  have more2 := adds2.freeblock
  refine wp_mono (wp_tableEntry adds2.trees child adds2.here) ?_ fun e none =>
    none.mono (by omega)
  rintro b' s3 ⟨L3, adds3, rfl⟩
  have more3 := adds3.freeblock
  have grows := (adds1.toGrows.trans adds2.toGrows).trans adds3.toGrows
  refine ⟨L3, ⟨grows, adds3.trees, fun n => ?_, by omega⟩,
    adds3.pointers child (adds2.pointers table pointers1), rfl, head⟩
  rw [adds3.nodes, adds2.nodes, adds1.nodes]
  simp only [Node.above, child, table, Option.some.injEq, exists_eq_left']
  tauto

end Paths

theorem wp_fileBlock {din : Dinode} {fbn : Nat} (trees : Trees L s) (pointers : Pointers i L din)
    (inside : fbn < MAXFILE) :
    wp (fileBlock din fbn) (OutOfBlocks s 2) (Found i (Node.data fbn inside) L din s) s := by
  unfold fileBlock
  rw [wp_ite, wp_ite]
  refine ⟨fun direct => ?_, fun past => ⟨fun single => ?_, fun past' => ?_⟩⟩
  · have here : Node.data fbn inside = .direct ⟨fbn, direct⟩ := by rw [Node.data, dif_pos direct]
    rw [here]
    exact wp_direct (d := .direct ⟨fbn, direct⟩) trees pointers rfl
  · obtain ⟨j, here, value⟩ : ∃ j : Fin NINDIRECT, Node.data fbn inside = .entry j ∧
        fbn - NDIRECT = j :=
      ⟨_, by rw [Node.data, dif_neg past, dif_pos (by omega)], rfl⟩
    rw [here, value]
    exact wp_single (d := .entry j) (t := .single) trees pointers rfl rfl
  · obtain ⟨j, k, here, table, value⟩ := Node.exists_leaf inside (by omega)
    dsimp only
    rw [here, table, value]
    exact wp_double (d := .leaf j k) (t := .table j) (u := .double) trees pointers rfl rfl rfl

end Allocation
end Xv6Lab.Mkfs
