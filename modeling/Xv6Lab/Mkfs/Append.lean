import Mathlib.Data.List.GetD
import Xv6Lab.Mkfs.Trees

/-!
The loop of iappend: the trees hold the contents of each inode, with zeroes behind them.
-/

namespace Xv6Lab.Mkfs
open List
open Function (update update_eq_self update_idem update_of_ne update_self)

open Bytes
open Virtio (BSIZE)
open Fs
variable {k : Nat} {d d' : Dinode}

structure Filled (L : Layout) (C : Nat → List UInt8) (s : Disk) : Prop extends Trees L s where
  nodes : ∀ i n, L i n ≠ 0 ↔ n.first * BSIZE < (C i).length
  bytes : ∀ i n, n.isData = true → L i n ≠ 0 → ∀ k < BSIZE,
    block s.image (L i n) k = (C i).getD (n.first * BSIZE + k) 0
  small : ∀ i, (C i).length ≤ MAXFILE * BSIZE

section Blocks
variable {L : Layout} {C : Nat → List UInt8} {s : Disk}

theorem Trees.put {b : Nat} (trees : Trees L s) (below : b < s.freeblock)
    (noTable : ∀ i m, L i m ≠ 0 → L i m = b → m.isData = true) (buf : Mem) :
    Trees L (s.put b buf) := by
  have inside := below.trans_le trees.high
  refine ⟨trees.full.put inside buf, trees.low, trees.high, trees.range, trees.inj, trees.onto,
    trees.parent, ?_, ?_⟩
  · intro i n m child used
    have other : L i m ≠ b := by
      intro equal
      have isData := noTable i m used equal
      rw [Node.isData_of_parent child] at isData
      cases isData
    rw [← trees.table i n m child used]
    refine SameBlock.entry (fun k small => ?_) (Node.slot_lt_of_parent child)
    exact block_put_other inside (trees.lt_fssize used) other buf small
  · intro b' low high k small
    have later : s.freeblock ≤ b' := low
    rw [block_put_other inside high (by omega) buf small]
    exact trees.fresh b' low high k small

theorem Filled.put {b : Nat} (filled : Filled L C s) (front : b < nmeta) (buf : Mem) :
    Filled L C (s.put b buf) := by
  have below : ∀ i n, L i n ≠ 0 → L i n ≠ b := by
    intro i n used equal
    have := (filled.range i n used).1
    omega
  refine ⟨filled.toTrees.put (front.trans_le filled.low) ?_ buf, filled.nodes, ?_, filled.small⟩
  · intro i m used equal
    exact absurd equal (below i m used)
  · intro i n isData used k small
    have inside : b < FSSIZE := front.trans (by decide)
    rw [block_put_other inside (filled.toTrees.lt_fssize used) (below i n used) buf small]
    exact filled.bytes i n isData used k small

end Blocks

section Turn
variable {L L' : Layout} {C : Nat → List UInt8} {s s' : Disk} {i fbn : Nat} {p : List UInt8}
  {inside : fbn < MAXFILE}

theorem nodes_of_reaches (filled : Filled L C s) (block : fbn = (C i).length / BSIZE)
    (reaches : Reaches i (Node.data fbn inside) L L' s s') (nonempty : p ≠ [])
    (fits : (C i).length + p.length ≤ (fbn + 1) * BSIZE) (n : Node) :
    L' i n ≠ 0 ↔ n.first * BSIZE < (C i ++ p).length := by
  have positive : 0 < p.length := length_pos_iff.mpr nonempty
  have start : fbn * BSIZE ≤ (C i).length := by
    rw [block]
    exact Nat.div_mul_le_self _ _
  rw [reaches.nodes, filled.nodes, length_append]
  constructor
  · rintro (old | way)
    · omega
    · have le : n.first ≤ fbn := Node.first_data fbn inside ▸ Node.first_le_of_above way
      have := Nat.mul_le_mul_right BSIZE le
      omega
  · intro small
    have le : n.first ≤ fbn := by
      by_contra past
      have := Nat.mul_le_mul_right BSIZE (show fbn + 1 ≤ n.first by omega)
      omega
    by_cases last : n.first = fbn
    · exact .inr (Node.above_of_first inside last)
    · refine .inl ?_
      have : (n.first + 1) * BSIZE ≤ fbn * BSIZE := Nat.mul_le_mul_right BSIZE (by omega)
      simp only [BSIZE] at *
      omega

theorem block_of_reaches (filled : Filled L C s)
    (reaches : Reaches i (Node.data fbn inside) L L' s s') (small : k < BSIZE) :
    block s'.image (L' i (Node.data fbn inside)) k = (C i).getD (fbn * BSIZE + k) 0 := by
  have isData := Node.isData_data fbn inside
  have first := Node.first_data fbn inside
  have here : L' i (Node.data fbn inside) ≠ 0 := (reaches.nodes _).mpr (.inr (.inl rfl))
  by_cases old : L i (Node.data fbn inside) = 0
  · have past : ¬(fbn * BSIZE < (C i).length) := by
      rw [← first, ← filled.nodes, not_not]
      exact old
    rw [reaches.zero _ isData old here k small, getD_eq_default _ _ (by omega)]
  · rw [reaches.keeps i _ old, reaches.data i _ isData old k small, filled.bytes i _ isData old k small,
      first]

theorem old_of_reaches (reaches : Reaches i (Node.data fbn inside) L L' s s') {n : Node}
    (isData : n.isData = true) (other : n ≠ Node.data fbn inside) (used : L' i n ≠ 0) :
    L i n ≠ 0 := by
  refine ((reaches.nodes n).mp used).resolve_right ?_
  rintro (same | child | ⟨t, -, child⟩)
  · exact other same
  all_goals
    rw [Node.isData_of_parent child] at isData
    cases isData

theorem getD_write (start : fbn * BSIZE ≤ (C i).length) {mem : Mem}
    (old : mem k = (C i).getD (fbn * BSIZE + k) 0) :
    write mem ((C i).length - fbn * BSIZE) p k = (C i ++ p).getD (fbn * BSIZE + k) 0 := by
  by_cases before : fbn * BSIZE + k < (C i).length
  · rw [write_outside (by omega), old, getD_append _ _ _ _ before]
  · rw [getD_append_right _ _ _ _ (by omega)]
    by_cases within : k < (C i).length - fbn * BSIZE + p.length
    · rw [write, if_pos (by omega)]
      congr 1
      omega
    · rw [write_outside (by omega), old, getD_eq_default _ _ (by omega),
        getD_eq_default _ _ (by omega)]

theorem Filled.turn (filled : Filled L C s) (block_ : fbn = (C i).length / BSIZE)
    (reaches : Reaches i (Node.data fbn inside) L L' s s') (nonempty : p ≠ [])
    (fits : (C i).length + p.length ≤ (fbn + 1) * BSIZE) : Filled L' (update C i (C i ++ p))
      (s'.put (L' i (Node.data fbn inside))
        (write (block s'.image (L' i (Node.data fbn inside))) ((C i).length - fbn * BSIZE) p)) := by
  have start : fbn * BSIZE ≤ (C i).length := by
    rw [block_]
    exact Nat.div_mul_le_self _ _
  have here : L' i (Node.data fbn inside) ≠ 0 := (reaches.nodes _).mpr (.inr (.inl rfl))
  have high := reaches.trees.lt_fssize here
  constructor
  · refine reaches.trees.put (reaches.trees.lt_freeblock i _) ?_ _
    intro j m used equal
    obtain ⟨-, rfl⟩ := reaches.trees.inj j m i _ used equal
    exact Node.isData_data fbn inside
  · intro j n
    by_cases same : j = i
    · rw [same, update_self]
      exact nodes_of_reaches filled block_ reaches nonempty fits n
    · rw [reaches.others j same, update_of_ne same]
      exact filled.nodes j n
  · intro j n isData used k small
    by_cases last : j = i ∧ n = Node.data fbn inside
    · obtain ⟨rfl, rfl⟩ := last
      rw [block_put_self high _ small, update_self, Node.first_data]
      exact getD_write start (block_of_reaches filled reaches small)
    · have apart : L' j n ≠ L' i (Node.data fbn inside) := fun equal =>
        last (reaches.trees.inj j n i _ used equal)
      rw [block_put_other high (reaches.trees.lt_fssize used) apart _ small]
      by_cases same : j = i
      · subst same
        have old := old_of_reaches reaches isData (fun equal => last ⟨rfl, equal⟩) used
        have before : (n.first + 1) * BSIZE ≤ fbn * BSIZE := by
          have le : n.first * BSIZE < (C j).length := (filled.nodes j n).mp old
          have ne : n.first ≠ fbn := by
            intro equal
            refine last ⟨rfl, ?_⟩
            subst equal
            exact Node.eq_data isData
          refine Nat.mul_le_mul_right BSIZE ?_
          simp only [BSIZE] at *
          omega
        rw [reaches.keeps j n old, reaches.data j n isData old k small, update_self,
          filled.bytes j n isData old k small, getD_append]
        simp only [BSIZE] at *
        omega
      · rw [reaches.others j same] at used ⊢
        rw [reaches.data j n isData used k small, update_of_ne same]
        exact filled.bytes j n isData used k small
  · intro j
    by_cases same : j = i
    · rw [same, update_self, length_append]
      exact fits.trans (Nat.mul_le_mul_right BSIZE inside)
    · rw [update_of_ne same]
      exact filled.small j

end Turn

theorem Dinode.SameHead.type (head : d.SameHead d') : d'.type = d.type := by
  rw [Dinode.SameHead] at head
  rw [head]

theorem Dinode.SameHead.fits {off : Nat} (head : d.SameHead d') (fits : d.Fits)
    (size : off < 2 ^ 32) (addrs : ∀ n < NDIRECT + 2, d'.addrs n < 2 ^ 32) :
    Dinode.Fits { d' with size := off } := by
  rw [Dinode.SameHead] at head
  rw [head]
  exact ⟨fits.type, fits.major, fits.minor, fits.nlink, size, addrs⟩

theorem Dinode.SameHead.trans {d'' : Dinode} (first : d.SameHead d')
    (second : d'.SameHead d'') : d.SameHead d'' := by
  unfold Dinode.SameHead at *
  rw [second, first]

section Loop
variable {i : Nat} {L : Layout} {C : Nat → List UInt8} {s : Disk} {din : Dinode} {p : List UInt8}

structure Appended (i : Nat) (L : Layout) (C : Nat → List UInt8) (s : Disk) (din : Dinode)
    (p : List UInt8) (k : Nat) (L' : Layout) (r : Dinode × Nat) (s' : Disk) : Prop where
  filled : Filled L' (update C i (C i ++ p)) s'
  pointers : Pointers i L' r.1
  head : din.SameHead r.1
  size : r.2 = (C i).length + p.length
  front : ∀ b < nmeta, SameBlock s.image s'.image b
  others : ∀ j, j ≠ i → L' j = L j
  freeinode : s'.freeinode = s.freeinode
  log : s'.log = s.log
  freeblock : s'.freeblock ≤ s.freeblock + 3 * k

def AppendFails (size : Nat) (p : List UInt8) (k : Nat) (s : Disk) (e : Exit) : Prop :=
  OutOfBlocks s (3 * k) e ∨ e = .assert ∧ MAXFILE * BSIZE < size + p.length

theorem Appended.nil (filled : Filled L C s) (pointers : Pointers i L din) (k : Nat) :
    Appended i L C s din [] k L (din, (C i).length) s where
  filled := by
    rw [append_nil, update_eq_self]
    exact filled
  pointers := pointers
  head := rfl
  size := rfl
  front _ _ := SameBlock.rfl
  others _ _ := rfl
  freeinode := rfl
  log := rfl
  freeblock := Nat.le_add_right _ _

theorem Appended.step {L' L'' : Layout} {s' s'' : Disk} {din' : Dinode} {d : Node} {n1 : Nat}
    {r : Dinode × Nat} {buf : Mem} (reaches : Reaches i d L L' s s') (head : din.SameHead din')
    (small : n1 ≤ p.length)
    (rest : Appended i L' (update C i (C i ++ p.take n1)) (s'.put (L' i d) buf) din'
      (p.drop n1) k L'' r s'') : Appended i L C s din p (k + 1) L'' r s'' := by
  have here : L' i d ≠ 0 := (reaches.nodes d).mpr (.inr (.inl rfl))
  have inside := reaches.trees.lt_fssize here
  have whole := rest.filled
  have size := rest.size
  rw [update_self, append_assoc, take_append_drop, update_idem] at whole
  rw [update_self, length_append, length_take_of_le small, length_drop] at size
  refine ⟨whole, rest.pointers, head.trans rest.head, by omega, ?_, ?_, ?_, ?_, ?_⟩
  · intro b low
    have below := (reaches.trees.range i d here).1
    refine ((reaches.front b low).trans fun k small => ?_).trans (rest.front b low)
    exact block_put_other inside (low.trans (by decide)) (by omega) buf small
  · intro j other
    rw [rest.others j other, reaches.others j other]
  · exact rest.freeinode.trans reaches.freeinode
  · exact rest.log.trans reaches.log
  · have first := reaches.freeblock
    have later : s''.freeblock ≤ s'.freeblock + 3 * k := rest.freeblock
    omega

theorem wp_appendLoop (k : Nat) (filled : Filled L C s) (pointers : Pointers i L din)
    (room : p ≠ [] → (C i).length % BSIZE + p.length ≤ k * BSIZE) :
    wp (appendLoop k din (C i).length p) (AppendFails (C i).length p k s)
      (fun r s' => ∃ L', Appended i L C s din p k L' r s') s := by
  induction k generalizing L C s din p with
  | zero =>
    have done : p = [] := by
      by_contra more
      have positive := length_pos_iff.mpr more
      have := room more
      omega
    rw [done, appendLoop, wp_pure]
    exact ⟨L, Appended.nil filled pointers 0⟩
  | succ k ih =>
    rw [appendLoop]
    by_cases done : p = []
    · rw [if_pos done, done, wp_pure]
      exact ⟨L, Appended.nil filled pointers (k + 1)⟩
    rw [if_neg done, wp_ite]
    have positive := length_pos_iff.mpr done
    refine ⟨fun past => .inr ⟨rfl, ?_⟩, fun inside => ?_⟩
    · have := Nat.div_mul_le_self (C i).length BSIZE
      have := Nat.mul_le_mul_right BSIZE past
      omega
    replace inside := Nat.lt_of_not_le inside
    obtain ⟨n1, count⟩ : ∃ n1, n1 = min p.length (((C i).length / BSIZE + 1) * BSIZE - (C i).length) :=
      ⟨_, rfl⟩
    have small : 0 < n1 ∧ n1 ≤ p.length ∧
        (C i).length + n1 ≤ ((C i).length / BSIZE + 1) * BSIZE := by
      simp only [BSIZE] at *
      omega
    have length_take : (p.take n1).length = n1 := length_take_of_le small.2.1
    have nonempty : p.take n1 ≠ [] := by
      rw [← length_pos_iff, length_take]
      exact small.1
    simp only [wp_bind, ← count]
    refine wp_mono (wp_fileBlock filled.toTrees pointers inside) ?_ fun e none =>
      .inl (none.mono (by omega))
    rintro ⟨x, din'⟩ s' ⟨L', reaches, pointers', rfl, head⟩
    have here : L' i (Node.data ((C i).length / BSIZE) inside) ≠ 0 :=
      (reaches.nodes _).mpr (.inr (.inl rfl))
    refine wp_rsect (reaches.trees.lt_fssize here) reaches.trees.full ?_
    rw [wp_wsect]
    have turn := filled.turn rfl reaches nonempty (by rw [length_take]; exact small.2.2)
    have room' : p.drop n1 ≠ [] →
        (update C i (C i ++ p.take n1) i).length % BSIZE + (p.drop n1).length ≤
          k * BSIZE := by
      intro more
      have positive' := length_pos_iff.mpr more
      have room := room done
      rw [update_self, length_append, length_take]
      rw [length_drop] at *
      simp only [BSIZE] at *
      omega
    have rest := ih turn pointers' room'
    rw [update_self, length_append, length_take] at rest
    refine wp_mono rest ?_ ?_
    · rintro r s'' ⟨L'', appended⟩
      exact ⟨L'', appended.step reaches head small.2.1⟩
    · have more := reaches.freeblock
      rintro e (none | ⟨rfl, large⟩)
      · refine .inl (none.mono ?_)
        change s'.freeblock + _ ≤ _
        omega
      · rw [length_drop] at large
        exact .inr ⟨rfl, by omega⟩

end Loop
end Xv6Lab.Mkfs
