import Xv6Lab.Umalloc.FreeList

namespace Xv6Lab.Umalloc
open List
open LinkedRing
variable {back front : List Seg} {b : Seg} {start top : Nat} {h : Heap}

def joinUpper (b : Seg) : List Seg → Seg × List Seg
  | [] => ({ b with isFree := true }, [])
  | g :: rest =>
    if g.isFree ∧ b.addr + b.size * headerSize = g.addr then
      (⟨b.addr, (b.size + g.size) % 2^32, true⟩, rest)
    else ({ b with isFree := true }, g :: rest)

def released (front : List Seg) (b : Seg) (back : List Seg) : List Seg :=
  let joined := joinUpper b back
  match front.getLast? with
  | none => joined.1 :: joined.2
  | some f =>
    if f.isFree ∧ f.addr + f.size * headerSize = b.addr then
      front.dropLast ++ ⟨f.addr, (f.size + joined.1.size) % 2^32, true⟩ :: joined.2
    else front ++ joined.1 :: joined.2

theorem Rep.base_lt (rep : Rep start top h (front ++ b :: back)) : h.base < b.addr := by
  have := laid_le (laid_append.mp rep.laid).1
  have low := rep.low
  simp only [headerSize] at low
  omega

/-- The blocks in `front` stay, and the headers from `n` on are new. -/
theorem Rep.relink {gone tail : List Seg} {n : Seg} {h' : Heap} (rep : Rep start top h (front ++ gone))
    (base : h'.base = h.base) (laid : Laid start top (front ++ n :: tail))
    (ring : Path h'.ptr (nodes h.base (front ++ n :: tail)) h.base)
    (below : ∀ a < n.addr, h'.size a = h.size a) (here : n.size < 2^32 ∧ h'.size n.addr = n.size)
    (behind : ∀ s ∈ tail, s.size < 2^32 ∧ h'.size s.addr = s.size)
    (freep : h'.freep ∈ nodes h.base (front ++ n :: tail)) : Rep start top h' (front ++ n :: tail) := by
  have kept := (laid_append.mp laid).1
  have each : ∀ s ∈ front ++ n :: tail, s.size < 2^32 ∧ h'.size s.addr = s.size := by
    intro s member
    rcases mem_append.mp member with inFront | inTail
    · have stop := (laid_bounds kept inFront).2
      have := s.addr_lt_stop
      rw [below s.addr (by omega)]
      exact ⟨rep.uint s (by simp [inFront]), rep.sizes s (by simp [inFront])⟩
    · rcases mem_cons.mp inTail with rfl | inTail
      · exact here
      · exact behind s inTail
  rw [← base] at ring freep
  refine ⟨laid, base ▸ rep.low, ring, fun s member => (each s member).2, ?_, freep,
    fun s member => (each s member).1⟩
  have := laid_le kept
  have low := rep.low
  simp only [headerSize] at low
  rw [base, below h.base (by omega)]
  exact rep.baseSize

theorem upper_test {hi : Nat} {base : Nat} (laid : Laid b.stop hi back) (low : base < b.addr) :
    b.addr + b.size * headerSize = (freeAddrs back).headD base ↔
      ∃ g rest, back = g :: rest ∧ g.isFree = true ∧ b.addr + b.size * headerSize = g.addr := by
  constructor
  · intro test
    cases back with
    | nil => simp [freeAddrs, headerSize] at test; omega
    | cons g rest =>
      cases kind : g.isFree with
      | true =>
        refine ⟨g, rest, rfl, kind, ?_⟩
        simpa [freeAddrs_cons, kind] using test
      | false =>
        rw [freeAddrs_cons, kind] at test
        simp only [Bool.false_eq_true, if_false] at test
        cases shape : freeAddrs rest with
        | nil => rw [shape] at test; simp [headerSize] at test; omega
        | cons a others =>
          have bounds := freeAddrs_bounds laid.2 (a := a) (by rw [shape]; simp)
          rw [shape] at test
          have first := laid.1
          have grow := g.addr_lt_stop
          simp only [Seg.stop, headerSize, headD_cons] at test first bounds grow
          omega
  · rintro ⟨g, rest, rfl, kind, test⟩
    simpa [freeAddrs_cons, kind] using test

/-- The heap after the upper merge, read through the list that remains behind `b`. -/
structure Joined (top : Nat) (h h' : Heap) (b : Seg) (joined : Seg × List Seg) : Prop where
  addr : joined.1.addr = b.addr
  isFree : joined.1.isFree = true
  uint : joined.1.size < 2^32
  sizes : ∀ s ∈ joined.2, s.size < 2^32 ∧ h'.size s.addr = s.size
  laid : Laid joined.1.stop top joined.2
  ptr : h'.ptr b.addr = (freeAddrs joined.2).headD h.base
  size : h'.size b.addr = joined.1.size
  path : Path h'.ptr (freeAddrs joined.2) h.base
  same : ∀ a, a ≠ b.addr → h'.ptr a = h.ptr a ∧ h'.size a = h.size a
  fields : h'.base = h.base ∧ h'.sz = h.sz

theorem joined_stop_le (b g : Seg) (adjacent : b.addr + b.size * headerSize = g.addr) :
    (⟨b.addr, (b.size + g.size) % 2^32, true⟩ : Seg).stop ≤ g.stop := by
  have wrap := Nat.mod_le (b.size + g.size) (2^32)
  simp only [Seg.stop, headerSize] at adjacent ⊢
  omega

theorem mergeUpper_spec {p : Nat} (rep : Rep start top h (front ++ b :: back))
    (next : h.ptr p = (freeAddrs back).headD h.base) (path : Path h.ptr (freeAddrs back) h.base) :
    Joined top h (mergeUpper h b.addr p) b (joinUpper b back) := by
  have laid := laid_append.mp rep.laid
  have size : h.size b.addr = b.size := rep.sizes b (by simp)
  have uint : b.size < 2^32 := rep.uint b (by simp)
  have low := rep.base_lt
  have other : ∀ s ∈ back, s.addr ≠ b.addr := by
    intro s member same
    have := (laid_bounds laid.2 member).1
    have := b.addr_lt_stop
    omega
  have test := upper_test laid.2 low
  have away : ∀ a ∈ freeAddrs back, a ≠ b.addr := by
    intro a member
    obtain ⟨s, inside, -, rfl⟩ := mem_freeAddrs.mp member
    exact other s inside
  by_cases merge : b.addr + b.size * headerSize = (freeAddrs back).headD h.base
  · obtain ⟨g, rest, rfl, kind, adjacent⟩ := test.mp merge
    have gAway : g.addr ≠ b.addr := other g (by simp)
    have gSize : h.size g.addr = g.size := rep.sizes g (by simp)
    have nodesEq : freeAddrs (g :: rest) = g.addr :: freeAddrs rest := by
      simp [freeAddrs_cons, kind]
    rw [nodesEq] at path next away
    have shape : joinUpper b (g :: rest) = (⟨b.addr, (b.size + g.size) % 2^32, true⟩, rest) := by
      simp [joinUpper, kind, adjacent]
    have heap : mergeUpper h b.addr p =
        (h.setSize b.addr (b.size + g.size)).setPtr b.addr (h.ptr g.addr) := by
      rw [mergeUpper, next, size, headD_cons, if_pos adjacent, gSize]
    rw [shape, heap]
    refine ⟨rfl, rfl, Nat.mod_lt _ (by norm_num), ?_, ?_, ?_, ?_, ?_, ?_, rfl, rfl⟩
    · intro s member
      have away := other s (mem_cons_of_mem g member)
      refine ⟨rep.uint s (by simp [member]), ?_⟩
      rw [setPtr_size, setSize_size, if_neg away]
      exact rep.sizes s (by simp [member])
    · exact laid_mono laid.2.2 (joined_stop_le b g adjacent) le_rfl
    · rw [setPtr_ptr, if_pos rfl]
      exact path.1
    · rw [setPtr_size, setSize_size, if_pos rfl]
    · refine path_congr h.ptr _ _ _ ?_ path.2
      intro a member
      rw [setPtr_ptr, if_neg (away a (mem_cons_of_mem _ member)), setSize_ptr]
    · intro a differs
      simp [differs]
  · have shape : joinUpper b back = ({ b with isFree := true }, back) := by
      cases back with
      | nil => rfl
      | cons g rest =>
        rw [joinUpper, if_neg]
        rintro ⟨kind, adjacent⟩
        exact merge (test.mpr ⟨g, rest, rfl, kind, adjacent⟩)
    have heap : mergeUpper h b.addr p = h.setPtr b.addr (h.ptr p) := by
      rw [mergeUpper, if_neg]
      rw [size, next]
      exact merge
    rw [shape, heap]
    refine ⟨rfl, rfl, uint, ?_, laid.2, ?_, ?_, ?_, ?_, rfl, rfl⟩
    · intro s member
      rw [setPtr_size]
      exact ⟨rep.uint s (by simp [member]), rep.sizes s (by simp [member])⟩
    · rw [setPtr_ptr, if_pos rfl]
      exact next
    · rw [setPtr_size]
      exact size
    · refine path_congr h.ptr _ _ _ ?_ path
      intro a member
      rw [setPtr_ptr, if_neg (away a member)]
    · intro a differs
      simp [differs]

theorem lower_test (rep : Rep start top h (front ++ b :: back)) (p : Nat)
    (last : p = (nodes h.base front).getLast (by simp [nodes])) :
    p + h.size p * headerSize = b.addr ↔
      ∃ init f, front = init ++ [f] ∧ f.isFree = true ∧ p = f.addr ∧
        f.addr + f.size * headerSize = b.addr := by
  have laid := (laid_append.mp rep.laid).1
  have low := rep.low
  constructor
  · intro test
    rcases eq_nil_or_concat front with rfl | ⟨init, f, rfl⟩
    · have whole := laid_le laid
      simp only [nodes, freeAddrs, filter_nil, map_nil, getLast_singleton] at last
      rw [last, rep.baseSize] at test
      simp only [headerSize] at low test
      omega
    · rw [concat_eq_append] at *
      have inner := laid_append.mp laid
      cases kind : f.isFree with
      | true =>
        have address : p = f.addr := by
          simp [last, nodes, kind, freeAddrs]
        have size := rep.sizes f (by simp)
        rw [address, size] at test
        exact ⟨init, f, rfl, kind, address, test⟩
      | false =>
        have shape : nodes h.base (init ++ [f]) = nodes h.base init := by
          simp [nodes, kind, freeAddrs]
        have member : p ∈ nodes h.base init := by
          rw [last]
          simp only [shape]
          exact getLast_mem _
        have after := f.addr_lt_stop
        have bound := laid_le inner.2
        rcases mem_cons.mp member with rfl | inside
        · rw [rep.baseSize] at test
          have whole := laid_le inner.1
          simp only [headerSize] at low test
          omega
        · obtain ⟨s, inInit, -, rfl⟩ := mem_freeAddrs.mp inside
          rw [rep.sizes s (by simp [inInit])] at test
          have stop := (laid_bounds inner.1 inInit).2
          simp only [Seg.stop, headerSize] at stop after bound test
          omega
  · rintro ⟨init, f, rfl, -, address, adjacent⟩
    rw [address, rep.sizes f (by simp)]
    exact adjacent

theorem released_merge {init : List Seg} {f : Seg} (kind : f.isFree = true)
    (adjacent : f.addr + f.size * headerSize = b.addr) : released (init ++ [f]) b back =
      init ++ ⟨f.addr, (f.size + (joinUpper b back).1.size) % 2^32, true⟩ ::
        (joinUpper b back).2 := by
  simp [released, kind, adjacent]

theorem released_keep (apart : ∀ init f, front = init ++ [f] → f.isFree = true →
      f.addr + f.size * headerSize ≠ b.addr) :
    released front b back = front ++ (joinUpper b back).1 :: (joinUpper b back).2 := by
  rcases eq_nil_or_concat front with rfl | ⟨init, f, rfl⟩
  · rfl
  · rw [concat_eq_append] at *
    rw [released, getLast?_concat]
    dsimp only
    rw [if_neg]
    rintro ⟨kind, adjacent⟩
    exact apart init f rfl kind adjacent

theorem free_succ {fuel ap : Nat} {h' : Heap} (freed : free fuel h ap = some h') :
    free (fuel + 1) h ap = some h' := by
  obtain ⟨p, found, rfl⟩ := Option.map_eq_some_iff.mp freed
  rw [free, findSlot_succ found, Option.map_some]

/-- Only the pointer of `p` changes in the lower merge. -/
theorem lower_path {p : Nat} {before m : List Nat} {h1 h' : Heap} (below : ∀ a ∈ before, a < p)
    (under : p < b.addr) (path : Path h.ptr before p) (joined : Joined top h h1 b (joinUpper b back))
    (kept : ∀ a, a ≠ p → h'.ptr a = h1.ptr a)
    (middle : Path h'.ptr (p :: m) ((freeAddrs (joinUpper b back).2).headD h.base)) :
    Path h'.ptr (before ++ (p :: m ++ freeAddrs (joinUpper b back).2)) h.base := by
  rw [path_append, path_append]
  refine ⟨path_congr h.ptr _ _ _ (fun a member => ?_) path, middle,
    path_congr _ _ _ _ (fun a member => kept a ?_) joined.path⟩
  · have less := below a member
    rw [kept a less.ne, (joined.same a (less.trans under).ne).1]
  · have bounds := freeAddrs_bounds joined.laid member
    have := (joinUpper b back).1.addr_lt_stop
    rw [joined.addr] at this
    omega

theorem free_spec (rep : Rep start top h (front ++ b :: back)) (used : b.isFree = false) :
    ∃ h', Returns (fun fuel => free fuel h (b.addr + headerSize)) h' ∧
      Rep start top h' (released front b back) ∧
      h'.base = h.base ∧ h'.sz = h.sz ∧ (∀ a, a ∉ nodes h.base front → a ≠ b.addr →
        h'.size a = h.size a) := by
  have found := findSlot_spec rep used
  have laid := laid_append.mp rep.laid
  have sorted := nodes_sorted rep
  have ring := rep.ring
  have split : nodes h.base (front ++ b :: back) = nodes h.base front ++ freeAddrs back := by
    simp [nodes, freeAddrs_append, freeAddrs_cons, used]
  rw [split] at ring sorted
  obtain ⟨p, last⟩ : ∃ p, p = (nodes h.base front).getLast (by simp [nodes]) := ⟨_, rfl⟩
  obtain ⟨before, shape⟩ : ∃ before, nodes h.base front = before ++ [p] :=
    ⟨(nodes h.base front).dropLast, by rw [last]; exact (dropLast_append_getLast _).symm⟩
  have test := lower_test rep p last
  rw [← last] at found
  rw [path_append, shape, path_append] at ring
  have below : ∀ a ∈ before, a < p := by
    rw [shape] at sorted
    intro a member
    exact (pairwise_append.mp (pairwise_append.mp sorted).1).2.2 a member p (by simp)
  have pBelow : p < b.addr := by
    have member : p ∈ nodes h.base front := by rw [shape]; simp
    rcases mem_cons.mp member with rfl | inside
    · exact rep.base_lt
    · exact (freeAddrs_bounds laid.1 inside).2
  have joined := mergeUpper_spec (p := p) rep ring.1.2.1 ring.2
  have pSize : (mergeUpper h b.addr p).size p = h.size p := (joined.same p (by omega)).2
  refine ⟨(mergeLower (mergeUpper h b.addr p) b.addr p).setFreep p, ?_, ?_⟩
  · obtain ⟨fuel, found⟩ := found
    refine returns_of_succ fuel (fun _ => free_succ) ?_
    simp only [free, Nat.add_sub_cancel, found fuel le_rfl, Option.map_some]
  by_cases merge : p + h.size p * headerSize = b.addr
  · obtain ⟨init, f, rfl, kind, rfl, adjacent⟩ := test.mp merge
    have inner := laid_append.mp laid.1
    have initShape : nodes h.base init = before := by
      have : nodes h.base (init ++ [f]) = nodes h.base init ++ [f.addr] := by
        simp [nodes, kind, freeAddrs]
      rw [this] at shape
      exact append_cancel_right shape
    have fSize : h.size f.addr = f.size := rep.sizes f (by simp)
    have heap : mergeLower (mergeUpper h b.addr f.addr) b.addr f.addr =
        ((mergeUpper h b.addr f.addr).setSize f.addr (f.size + (joinUpper b back).1.size)).setPtr
          f.addr ((freeAddrs (joinUpper b back).2).headD h.base) := by
      rw [mergeLower, if_pos (by rw [pSize]; exact merge), pSize, fSize, joined.size, joined.ptr]
    rw [heap, released_merge kind adjacent]
    have wrap := Nat.mod_le (f.size + (joinUpper b back).1.size) (2^32)
    have newStop : (⟨f.addr, (f.size + (joinUpper b back).1.size) % 2^32, true⟩ : Seg).stop ≤
        (joinUpper b back).1.stop := by
      simp only [Seg.stop, joined.addr, headerSize] at adjacent ⊢
      omega
    have whole : Rep start top h (init ++ f :: b :: back) := by simpa using rep
    have nodesEq : nodes h.base (init ++ ⟨f.addr, (f.size + (joinUpper b back).1.size) % 2^32,
        true⟩ :: (joinUpper b back).2) = before ++ f.addr :: freeAddrs (joinUpper b back).2 := by
      rw [← initShape]
      simp [nodes, freeAddrs_append, freeAddrs_cons]
    refine ⟨whole.relink joined.fields.1 ?_ ?_ ?_ ?_ ?_ ?_, joined.fields.1, joined.fields.2, ?_⟩
    · rw [laid_append]
      exact ⟨inner.1, laid_mono joined.laid newStop le_rfl⟩
    · rw [nodesEq]
      refine lower_path (m := []) below pBelow ring.1.1 joined (fun a other => ?_) ⟨?_, trivial⟩
      · rw [setFreep_ptr, setPtr_ptr, if_neg other, setSize_ptr]
      · rw [setFreep_ptr, setPtr_ptr, if_pos rfl, headD_nil]
    · intro a less
      rw [setFreep_size, setPtr_size, setSize_size, if_neg less.ne]
      exact (joined.same a (less.trans pBelow).ne).2
    · refine ⟨Nat.mod_lt _ (by norm_num), ?_⟩
      rw [setFreep_size, setPtr_size, setSize_size, if_pos rfl]
    · intro s inTail
      have bounds := laid_bounds joined.laid inTail
      have := (joinUpper b back).1.addr_lt_stop
      rw [joined.addr] at this
      rw [setFreep_size, setPtr_size, setSize_size, if_neg (by omega)]
      exact joined.sizes s inTail
    · rw [nodesEq]
      simp
    · intro a outside differs
      rw [shape] at outside
      simp only [mem_append, mem_singleton, not_or] at outside
      rw [setFreep_size, setPtr_size, setSize_size, if_neg outside.2]
      exact (joined.same a differs).2
  · have apart : ∀ init f, front = init ++ [f] → f.isFree = true →
        f.addr + f.size * headerSize ≠ b.addr := by
      rintro init f rfl kind adjacent
      refine merge (test.mpr ⟨init, f, rfl, kind, ?_, adjacent⟩)
      simp [last, nodes, kind, freeAddrs]
    have heap : mergeLower (mergeUpper h b.addr p) b.addr p =
        (mergeUpper h b.addr p).setPtr p b.addr := by
      rw [mergeLower, if_neg (by rw [pSize]; exact merge)]
    rw [heap, released_keep apart]
    have nodesEq : nodes h.base (front ++ (joinUpper b back).1 :: (joinUpper b back).2) =
        before ++ p :: b.addr :: freeAddrs (joinUpper b back).2 := by
      rw [show before ++ p :: b.addr :: freeAddrs (joinUpper b back).2 =
        (before ++ [p]) ++ b.addr :: freeAddrs (joinUpper b back).2 by simp, ← shape]
      simp [nodes, freeAddrs_append, freeAddrs_cons, joined.isFree, joined.addr]
    refine ⟨rep.relink joined.fields.1 ?_ ?_ ?_ ⟨joined.uint, ?_⟩ ?_ ?_, joined.fields.1, joined.fields.2, ?_⟩
    · rw [laid_append, joined.addr]
      exact ⟨laid.1, joined.laid⟩
    · rw [nodesEq]
      refine lower_path (m := [b.addr]) below pBelow ring.1.1 joined (fun a other => ?_) ⟨?_, ?_, trivial⟩
      · rw [setFreep_ptr, setPtr_ptr, if_neg other]
      · rw [setFreep_ptr, setPtr_ptr, if_pos rfl, headD_cons]
      · rw [setFreep_ptr, setPtr_ptr, if_neg (by omega), joined.ptr, headD_nil]
    · intro a less
      rw [joined.addr] at less
      rw [setFreep_size, setPtr_size]
      exact (joined.same a less.ne).2
    · rw [setFreep_size, setPtr_size, joined.addr]
      exact joined.size
    · intro s inTail
      rw [setFreep_size, setPtr_size]
      exact joined.sizes s inTail
    · rw [nodesEq]
      simp
    · intro a _ differs
      rw [setFreep_size, setPtr_size]
      exact (joined.same a differs).2

end Xv6Lab.Umalloc
