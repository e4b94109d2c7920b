import Xv6Lab.Umalloc.Model
import Xv6Lab.Lib.LinkedRing

namespace Xv6Lab.Umalloc
open List
open LinkedRing
variable {lo hi a start top : Nat} {h : Heap}

/-- A block of the heap: its header's address, its recorded units, and whether it is
on the free list. -/
structure Seg where
  addr : Nat
  size : Nat
  isFree : Bool
  deriving DecidableEq, Repr

def Seg.stop (s : Seg) : Nat := s.addr + headerSize * max 1 s.size

def Laid : Nat → Nat → List Seg → Prop
  | lo, hi, [] => lo ≤ hi
  | lo, hi, s :: rest => lo ≤ s.addr ∧ Laid s.stop hi rest

theorem Seg.addr_lt_stop (s : Seg) : s.addr < s.stop := by
  simp only [Seg.stop, headerSize]
  omega

theorem laid_le {segs : List Seg} (laid : Laid lo hi segs) : lo ≤ hi := by
  induction segs generalizing lo with
  | nil => exact laid
  | cons s rest ih => exact laid.1.trans (s.addr_lt_stop.le.trans (ih laid.2))

theorem laid_append {front back : List Seg} {s : Seg} :
    Laid lo hi (front ++ s :: back) ↔ Laid lo s.addr front ∧ Laid s.stop hi back := by
  induction front generalizing lo with
  | nil => exact Iff.rfl
  | cons f front ih => simp only [cons_append, Laid, ih, and_assoc]

theorem laid_mono {lo' hi' : Nat} {segs : List Seg} (laid : Laid lo hi segs)
    (below : lo' ≤ lo) (above : hi ≤ hi') : Laid lo' hi' segs := by
  induction segs generalizing lo lo' with
  | nil => exact below.trans (laid.trans above)
  | cons s rest ih => exact ⟨below.trans laid.1, ih laid.2 le_rfl⟩

theorem laid_bounds {segs : List Seg} (laid : Laid lo hi segs) {s : Seg}
    (member : s ∈ segs) : lo ≤ s.addr ∧ s.stop ≤ hi := by
  induction segs generalizing lo with
  | nil => cases member
  | cons f rest ih =>
    rcases mem_cons.mp member with rfl | member
    · exact ⟨laid.1, laid_le laid.2⟩
    · have inside := ih laid.2 member
      exact ⟨laid.1.trans (f.addr_lt_stop.le.trans inside.1), inside.2⟩

theorem laid_pairwise {segs : List Seg} (laid : Laid lo hi segs) :
    segs.Pairwise (fun a b => a.stop ≤ b.addr) := by
  induction segs generalizing lo with
  | nil => exact .nil
  | cons s rest ih =>
    exact pairwise_cons.mpr ⟨fun t member => (laid_bounds laid.2 member).1, ih laid.2⟩

def freeAddrs (segs : List Seg) : List Nat := (segs.filter Seg.isFree).map Seg.addr

theorem freeAddrs_append (front back : List Seg) :
    freeAddrs (front ++ back) = freeAddrs front ++ freeAddrs back := by
  simp [freeAddrs]

theorem freeAddrs_cons (s : Seg) (rest : List Seg) :
    freeAddrs (s :: rest) = if s.isFree then s.addr :: freeAddrs rest else freeAddrs rest := by
  cases h : s.isFree <;> simp [freeAddrs, h]

theorem mem_freeAddrs {segs : List Seg} :
    a ∈ freeAddrs segs ↔ ∃ s ∈ segs, s.isFree = true ∧ s.addr = a := by
  simp [freeAddrs, and_assoc]

theorem freeAddrs_bounds {segs : List Seg} (laid : Laid lo hi segs)
    (member : a ∈ freeAddrs segs) : lo ≤ a ∧ a < hi := by
  obtain ⟨s, inside, _, rfl⟩ := mem_freeAddrs.mp member
  have bounds := laid_bounds laid inside
  exact ⟨bounds.1, s.addr_lt_stop.trans_le bounds.2⟩

theorem freeAddrs_sorted {segs : List Seg} (laid : Laid lo hi segs) :
    (freeAddrs segs).Pairwise (· < ·) := by
  refine List.Pairwise.map Seg.addr ?_ ((laid_pairwise laid).filter Seg.isFree)
  intro a b apart
  exact a.addr_lt_stop.trans_le apart

def nodes (base : Nat) (segs : List Seg) : List Nat := base :: freeAddrs segs

/-- The headers in memory represent the blocks `segs`, laid out from `start` up to
`top`, and the free list threads `base` and the free ones. -/
structure Rep (start top : Nat) (h : Heap) (segs : List Seg) : Prop where
  laid : Laid start top segs
  low : 0 < h.base ∧ h.base + headerSize ≤ start
  ring : Path h.ptr (nodes h.base segs) h.base
  sizes : ∀ s ∈ segs, h.size s.addr = s.size
  baseSize : h.size h.base = 0
  freep : h.freep ∈ nodes h.base segs
  uint : ∀ s ∈ segs, s.size < 2^32

theorem nodes_sorted {segs : List Seg} (rep : Rep start top h segs) :
    (nodes h.base segs).Pairwise (· < ·) := by
  refine pairwise_cons.mpr ⟨?_, freeAddrs_sorted rep.laid⟩
  intro a member
  have bounds := freeAddrs_bounds rep.laid member
  have low := rep.low.2
  simp only [headerSize] at low
  omega

/-! Reads after the two kinds of header update. -/

@[simp] theorem setPtr_ptr (h : Heap) (a v b : Nat) :
    (h.setPtr a v).ptr b = if b = a then v else h.ptr b := by
  by_cases same : b = a
  · subst same; simp [Heap.setPtr, Heap.ptr]
  · simp [Heap.setPtr, Heap.ptr, same]

@[simp] theorem setPtr_size (h : Heap) (a v b : Nat) : (h.setPtr a v).size b = h.size b := by
  by_cases same : b = a
  · subst same; simp [Heap.setPtr, Heap.size]
  · simp [Heap.setPtr, Heap.size, same]

@[simp] theorem setSize_ptr (h : Heap) (a v b : Nat) : (h.setSize a v).ptr b = h.ptr b := by
  by_cases same : b = a
  · subst same; simp [Heap.setSize, Heap.ptr]
  · simp [Heap.setSize, Heap.ptr, same]

@[simp] theorem setSize_size (h : Heap) (a v b : Nat) :
    (h.setSize a v).size b = if b = a then v % 2^32 else h.size b := by
  by_cases same : b = a
  · subst same; simp [Heap.setSize, Heap.size]
  · simp [Heap.setSize, Heap.size, same]

@[simp] theorem setPtr_base (h : Heap) (a v : Nat) : (h.setPtr a v).base = h.base := rfl
@[simp] theorem setSize_base (h : Heap) (a v : Nat) : (h.setSize a v).base = h.base := rfl
@[simp] theorem setPtr_sz (h : Heap) (a v : Nat) : (h.setPtr a v).sz = h.sz := rfl
@[simp] theorem setSize_sz (h : Heap) (a v : Nat) : (h.setSize a v).sz = h.sz := rfl
@[simp] theorem setPtr_freep (h : Heap) (a v : Nat) : (h.setPtr a v).freep = h.freep := rfl
@[simp] theorem setSize_freep (h : Heap) (a v : Nat) : (h.setSize a v).freep = h.freep := rfl
@[simp] theorem setFreep_ptr (h : Heap) (p a : Nat) : (h.setFreep p).ptr a = h.ptr a := rfl
@[simp] theorem setFreep_size (h : Heap) (p a : Nat) : (h.setFreep p).size a = h.size a := rfl
@[simp] theorem setFreep_base (h : Heap) (p : Nat) : (h.setFreep p).base = h.base := rfl
@[simp] theorem setFreep_sz (h : Heap) (p : Nat) : (h.setFreep p).sz = h.sz := rfl
@[simp] theorem setFreep_freep (h : Heap) (p : Nat) : (h.setFreep p).freep = p := rfl

def Returns {α : Type} (f : Nat → Option α) (result : α) : Prop :=
  ∃ least, ∀ fuel, least ≤ fuel → f fuel = some result

theorem returns_of_succ {α : Type} {f : Nat → Option α} {result : α} (fuel : Nat)
    (succ : ∀ fuel, f fuel = some result → f (fuel + 1) = some result) (ran : f fuel = some result) :
    Returns f result :=
  ⟨fuel, fun later => Nat.le_induction ran (fun fuel _ => succ fuel) later⟩

theorem returns_unique {α : Type} {f : Nat → Option α} {first second : α}
    (left : Returns f first) (right : Returns f second) : first = second := by
  obtain ⟨n, left⟩ := left
  obtain ⟨m, right⟩ := right
  have same := (left (max n m) (le_max_left n m)).symm.trans (right (max n m) (le_max_right n m))
  exact Option.some.inj same

/-! The search of `free`. -/

theorem findSlot_succ {fuel bp p q : Nat} (found : findSlot fuel h bp p = some q) :
    findSlot (fuel + 1) h bp p = some q := by
  induction fuel generalizing p with
  | zero => cases found
  | succ fuel ih => grind [findSlot]

theorem findSlot_above (h : Heap) (bp first : Nat) (rest : List Nat) (fuel : Nat)
    (path : Path h.ptr (first :: rest) h.base) (above : ∀ a ∈ first :: rest, bp < a)
    (sorted : (first :: rest).Pairwise (· < ·)) (low : h.base < bp) :
    findSlot (rest.length + 1 + fuel) h bp first = findSlot fuel h bp h.base := by
  induction rest generalizing first with
  | nil =>
    have closes : h.ptr first = h.base := path.1
    have higher : bp < first := above first (by simp)
    rw [show ([] : List Nat).length + 1 + fuel = fuel + 1 by simp; omega, findSlot, closes,
      if_neg (by omega), if_neg (by omega)]
  | cons second rest ih =>
    have step : h.ptr first = second := path.1
    have higher : bp < first := above first (by simp)
    have order : first < second := (pairwise_cons.mp sorted).1 second (by simp)
    rw [show (second :: rest).length + 1 + fuel = (rest.length + 1 + fuel) + 1 by
      simp; omega, findSlot, step, if_neg (by omega), if_neg (by omega)]
    exact ih second path.2 (fun a member => above a (mem_cons_of_mem _ member))
      (pairwise_cons.mp sorted).2

theorem findSlot_below (h : Heap) (bp first : Nat) (rest upper : List Nat)
    (path : Path h.ptr (first :: rest) (upper.headD h.base)) (below : ∀ a ∈ first :: rest, a < bp) (above : ∀ a ∈ upper, bp < a)
    (sorted : (first :: rest).Pairwise (· < ·)) (low : h.base ≤ first) :
    findSlot (rest.length + 1) h bp first = some ((first :: rest).getLast (by simp)) := by
  induction rest generalizing first with
  | nil =>
    have under : first < bp := below first (by simp)
    cases upper with
    | nil =>
      have closes : h.ptr first = h.base := path.1
      rw [findSlot, closes, if_neg (by omega), if_pos ⟨low, Or.inl under⟩]
      rfl
    | cons u upper =>
      have step : h.ptr first = u := path.1
      have higher : bp < u := above u (by simp)
      rw [findSlot, step, if_pos ⟨under, higher⟩]
      rfl
  | cons second rest ih =>
    have step : h.ptr first = second := path.1
    have under : first < bp := below first (by simp)
    have next : second < bp := below second (by simp)
    have order : first < second := (pairwise_cons.mp sorted).1 second (by simp)
    rw [findSlot, step, if_neg (by omega), if_neg (by omega), getLast_cons (by simp)]
    exact ih second path.2 (fun a member => below a (mem_cons_of_mem _ member))
      (pairwise_cons.mp sorted).2 (by omega)

/-- Whatever node `freep` is, the search ends at the free-list node in front of `bp`. -/
theorem findSlot_spec {front back : List Seg} {b : Seg} (rep : Rep start top h (front ++ b :: back))
    (used : b.isFree = false) : Returns (fun fuel => findSlot fuel h b.addr h.freep)
      ((nodes h.base front).getLast (by simp [nodes])) := by
  have laid := laid_append.mp rep.laid
  have split : nodes h.base (front ++ b :: back) = nodes h.base front ++ freeAddrs back := by
    simp [nodes, freeAddrs_append, freeAddrs_cons, used]
  have ring := rep.ring
  have sorted := nodes_sorted rep
  have member := rep.freep
  rw [split] at ring sorted member
  rw [path_append] at ring
  obtain ⟨sortedLow, sortedHigh, -⟩ := pairwise_append.mp sorted
  have low := rep.low
  have below : ∀ a ∈ nodes h.base front, a < b.addr := by
    intro a inside
    rcases mem_cons.mp inside with rfl | inside
    · have := laid_le laid.1
      simp only [headerSize] at low
      omega
    · exact (freeAddrs_bounds laid.1 inside).2
  have above : ∀ a ∈ freeAddrs back, b.addr < a := fun a inside =>
    b.addr_lt_stop.trans_le (freeAddrs_bounds laid.2 inside).1
  rcases mem_append.mp member with inFront | inBack
  · obtain ⟨before, after, shape⟩ := append_of_mem inFront
    simp only [shape] at ring below sortedLow ⊢
    rw [path_append] at ring
    rw [getLast_append_of_ne_nil (by simp) (cons_ne_nil _ _)]
    refine returns_of_succ _ (fun _ => findSlot_succ) (findSlot_below h b.addr h.freep after (freeAddrs back)
      ring.1.2 ?_ above (pairwise_append.mp sortedLow).2.1 ?_)
    · intro a inside
      exact below a (mem_append_right before inside)
    · have first : ∀ a ∈ nodes h.base front, h.base ≤ a := by
        intro a inside
        rcases mem_cons.mp inside with rfl | inside
        · exact le_rfl
        · have := (freeAddrs_bounds laid.1 inside).1
          simp only [headerSize] at low
          omega
      exact first h.freep (by rw [shape]; simp)
  · obtain ⟨before, after, shape⟩ := append_of_mem inBack
    have last : findSlot _ h b.addr h.base = _ := findSlot_below h b.addr h.base (freeAddrs front)
      (freeAddrs back) ring.1 below above sortedLow le_rfl
    rw [shape] at above sortedHigh
    have tail := ring.2
    rw [shape, path_append] at tail
    have first := findSlot_above h b.addr h.freep after ((freeAddrs front).length + 1) tail.2
      (fun a inside => above a (mem_append_right before inside))
      (pairwise_append.mp sortedHigh).2.1 (below h.base (by simp [nodes]))
    exact returns_of_succ _ (fun _ => findSlot_succ) (first.trans last)

end Xv6Lab.Umalloc
