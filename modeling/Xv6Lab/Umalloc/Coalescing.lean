import Xv6Lab.Umalloc.Contract

namespace Xv6Lab.Umalloc
open List
open LinkedRing
variable {lo hi nbytes : Nat} {front back : List Seg} {s b t : Seg} {w : World} {segs : List Seg}

def Tiled : Nat → Nat → List Seg → Prop
  | lo, hi, [] => lo = hi
  | lo, hi, s :: rest => s.addr = lo ∧ 0 < s.size ∧ Tiled (s.addr + s.size * headerSize) hi rest

def Coalesced (segs : List Seg) : Prop :=
  segs.IsChain (fun a b => ¬ (a.isFree = true ∧ b.isFree = true))

theorem tiled_append : Tiled lo hi (front ++ s :: back) ↔ Tiled lo s.addr front ∧ 0 < s.size ∧
      Tiled (s.addr + s.size * headerSize) hi back := by
  induction front generalizing lo with
  | nil => simp only [nil_append, Tiled, eq_comm]
  | cons f front ih => simp only [cons_append, Tiled, ih, and_assoc]

theorem coalesced_append :
    Coalesced (front ++ s :: back) ↔ Coalesced (front ++ [s]) ∧ Coalesced (s :: back) :=
  isChain_split

theorem coalesced_head (coalesced : Coalesced (s :: back))
    (kind : t.isFree = true → s.isFree = true) : Coalesced (t :: back) := by
  cases back with
  | nil => exact isChain_singleton t
  | cons g rest =>
    have parts := isChain_cons_cons.mp coalesced
    refine isChain_cons_cons.mpr ⟨?_, parts.2⟩
    intro both
    exact parts.1 ⟨kind both.1, both.2⟩

theorem coalesced_last (coalesced : Coalesced (front ++ [s]))
    (kind : t.isFree = true → s.isFree = true) : Coalesced (front ++ [t]) := by
  rcases eq_nil_or_concat front with rfl | ⟨init, f, rfl⟩
  · exact isChain_singleton t
  · rw [concat_eq_append, append_assoc] at *
    have parts := isChain_append_cons_cons.mp coalesced
    refine isChain_append_cons_cons.mpr ⟨parts.1, ?_, isChain_singleton t⟩
    intro both
    exact parts.2.1 ⟨both.1, kind both.2⟩

theorem joinUpper_tiled (positive : 0 < b.size)
    (tiled : Tiled (b.addr + b.size * headerSize) hi back) (coalesced : Coalesced (b :: back))
    (bound : ∀ g rest, back = g :: rest → g.isFree = true → b.size + g.size < 2^32) :
    (joinUpper b back).1.addr = b.addr ∧ (joinUpper b back).1.isFree = true ∧
      0 < (joinUpper b back).1.size ∧
      Tiled (b.addr + (joinUpper b back).1.size * headerSize) hi (joinUpper b back).2 ∧
      Coalesced ((joinUpper b back).1 :: (joinUpper b back).2) ∧
      ((joinUpper b back).1.size = b.size ∨ ∃ g rest, back = g :: rest ∧ g.isFree = true ∧
        (joinUpper b back).1.size = b.size + g.size) := by
  cases back with
  | nil => exact ⟨rfl, rfl, positive, tiled, isChain_singleton _, Or.inl rfl⟩
  | cons g rest =>
    have parts := isChain_cons_cons.mp coalesced
    cases kind : g.isFree with
    | true =>
      have sum := bound g rest rfl kind
      have shape : joinUpper b (g :: rest) = (⟨b.addr, b.size + g.size, true⟩, rest) := by
        simp only [joinUpper, kind, tiled.1, and_self, if_true, Nat.mod_eq_of_lt sum]
      rw [shape]
      refine ⟨rfl, rfl, by simp; omega, ?_, coalesced_head parts.2 (fun _ => kind),
        Or.inr ⟨g, rest, rfl, kind, rfl⟩⟩
      have tail := tiled.2.2
      rw [tiled.1] at tail
      rwa [Nat.add_mul, ← Nat.add_assoc]
    | false =>
      have shape : joinUpper b (g :: rest) = ({ b with isFree := true }, g :: rest) := by
        simp [joinUpper, kind]
      rw [shape]
      refine ⟨rfl, rfl, positive, tiled, ?_, Or.inl rfl⟩
      refine isChain_cons_cons.mpr ⟨?_, parts.2⟩
      rw [kind]
      simp

theorem released_tiled
    (tiled : Tiled lo hi (front ++ b :: back)) (coalesced : Coalesced (front ++ b :: back))
    (bound : ∀ lower upper,
      (lower = 0 ∨ ∃ init f, front = init ++ [f] ∧ f.isFree = true ∧ f.size = lower) →
      (upper = 0 ∨ ∃ g rest, back = g :: rest ∧ g.isFree = true ∧ g.size = upper) →
      lower + b.size + upper < 2^32) :
    Tiled lo hi (released front b back) ∧ Coalesced (released front b back) := by
  obtain ⟨tiledFront, positive, tiledBack⟩ := tiled_append.mp tiled
  obtain ⟨coalescedFront, coalescedBack⟩ := coalesced_append.mp coalesced
  obtain ⟨address, isFree, joinedPos, joinedTiled, joinedCoalesced, joinedSize⟩ :=
    joinUpper_tiled positive tiledBack coalescedBack (fun g rest shape kind => by
      have := bound 0 g.size (Or.inl rfl) (Or.inr ⟨g, rest, shape, kind, rfl⟩)
      omega)
  have upper : ∃ upper, (joinUpper b back).1.size = b.size + upper ∧
      (upper = 0 ∨ ∃ g rest, back = g :: rest ∧ g.isFree = true ∧ g.size = upper) := by
    rcases joinedSize with same | ⟨g, rest, shape, kind, sum⟩
    · exact ⟨0, same, Or.inl rfl⟩
    · exact ⟨g.size, sum, Or.inr ⟨g, rest, shape, kind, rfl⟩⟩
  obtain ⟨upper, sum, origin⟩ := upper
  rcases eq_nil_or_concat front with rfl | ⟨init, f, rfl⟩
  · have start : b.addr = lo := tiledFront.symm
    refine ⟨⟨address.trans start, joinedPos, ?_⟩, joinedCoalesced⟩
    rw [address]
    exact joinedTiled
  · rw [concat_eq_append] at *
    obtain ⟨tiledInit, fPos, adjacent⟩ := tiled_append.mp tiledFront
    have adjacent : f.addr + f.size * headerSize = b.addr := adjacent
    rw [append_assoc] at coalescedFront
    have frontParts := isChain_append_cons_cons.mp coalescedFront
    cases kind : f.isFree with
    | true =>
      have total := bound f.size upper (Or.inr ⟨init, f, rfl, kind, rfl⟩) origin
      rw [released_merge kind adjacent, sum, Nat.mod_eq_of_lt (by omega)]
      constructor
      · rw [tiled_append]
        refine ⟨tiledInit, by simp; omega, ?_⟩
        rw [sum, ← adjacent] at joinedTiled
        simp only [headerSize] at joinedTiled ⊢
        rwa [show f.addr + (f.size + (b.size + upper)) * 16 =
          f.addr + f.size * 16 + (b.size + upper) * 16 by ring]
      · exact coalesced_append.mpr ⟨coalesced_last frontParts.1 (fun _ => kind),
          coalesced_head joinedCoalesced (fun _ => isFree)⟩
    | false =>
      rw [released_keep]
      · constructor
        · rw [tiled_append, address]
          exact ⟨tiledFront, joinedPos, joinedTiled⟩
        · refine coalesced_append.mpr ⟨?_, joinedCoalesced⟩
          rw [append_assoc]
          refine isChain_append_cons_cons.mpr ⟨frontParts.1, ?_, isChain_singleton _⟩
          rw [kind]
          simp
      · intro front last shape lastFree
        have parts := append_inj' shape rfl
        have same : f = last := by simpa using parts.2
        subst same
        rw [kind] at lastFree
        cases lastFree

theorem allocated_tiled {units : Nat}
    (tiled : Tiled lo hi (front ++ s :: back)) (coalesced : Coalesced (front ++ s :: back))
    (kind : s.isFree = true) (positive : 0 < units) (fits : units ≤ s.size) :
    Tiled lo hi (allocated front s back units) ∧ Coalesced (allocated front s back units) := by
  obtain ⟨tiledFront, sPos, tiledBack⟩ := tiled_append.mp tiled
  obtain ⟨coalescedFront, coalescedBack⟩ := coalesced_append.mp coalesced
  have usedHead : ∀ a, Coalesced ((⟨a, units, false⟩ : Seg) :: back) := fun a =>
    coalesced_head coalescedBack (by simp)
  unfold allocated
  split
  · rename_i equal
    constructor
    · rw [tiled_append]
      exact ⟨tiledFront, positive, equal ▸ tiledBack⟩
    · exact coalesced_append.mpr ⟨coalesced_last coalescedFront (by simp), usedHead s.addr⟩
  · rename_i differs
    constructor
    · rw [tiled_append]
      refine ⟨tiledFront, by simp; omega, rfl, positive, ?_⟩
      rwa [show s.addr + (s.size - units) * headerSize + units * headerSize =
        s.addr + s.size * headerSize by simp only [headerSize]; omega]
    · refine coalesced_append.mpr ⟨coalesced_last coalescedFront (fun _ => kind), ?_⟩
      exact isChain_cons_cons.mpr ⟨by simp, usedHead _⟩

def PositiveInt (_ : World) (_ : Bool) (nbytes : Nat) : Prop := nunits nbytes * headerSize < 2^31

/-- The block and the free blocks that touch it have fewer than 2^32 units together, so
the `uint` sum of their sizes does not wrap. -/
def NoWrap (w : World) (a : Alloc) : Prop :=
  ∀ lower upper,
    (lower = 0 ∨ ∃ f, OnList w.heap f ∧ w.heap.size f = lower ∧
      f + w.heap.size f * headerSize = a.ptr - headerSize) →
    (upper = 0 ∨ ∃ g, OnList w.heap g ∧ w.heap.size g = upper ∧
      blockStop w.heap a.ptr = g) →
    lower + w.heap.size (a.ptr - headerSize) + upper < 2^32

/-- The heap in full: the free list threads `base` and the free blocks once each, in address
order with one wrap; the blocks tile the memory from `sbrk`; free ones never touch; the used
ones are those the program holds. -/
structure HeapOk (w : World) (segs : List Seg) : Prop where
  ring : Path (initialized w.heap).ptr (nodes w.heap.base segs) w.heap.base
  ordered : (nodes w.heap.base segs).Pairwise (· < ·)
  entry : (initialized w.heap).freep ∈ nodes w.heap.base segs
  headers : ∀ s ∈ segs, (initialized w.heap).size s.addr = s.size
  tiled : Tiled w.start w.heap.sz segs
  coalesced : Coalesced segs
  held : ∀ a ∈ w.live, ∃ s ∈ segs, s.isFree = false ∧ a.ptr = s.addr + headerSize ∧
    s.size = nunits a.nbytes ∧ a.ptr + a.nbytes ≤ s.addr + s.size * headerSize
  used : ∀ s ∈ segs, s.isFree = false → ∃ a ∈ w.live, a.ptr = s.addr + headerSize
  distinct : (w.live.map Alloc.ptr).Nodup

theorem heapOk_of_inv (inv : Inv w segs)
    (tiled : Tiled w.start w.heap.sz segs) (coalesced : Coalesced segs) : HeapOk w segs := by
  have rep := inv.rep
  have ordered := nodes_sorted rep
  have ring := rep.ring
  have entry := rep.freep
  rw [initialized_base] at ordered ring entry
  refine ⟨ring, ordered, entry, rep.sizes, tiled, coalesced, ?_, inv.used, inv.distinct⟩
  intro a member
  obtain ⟨s, inSegs, used, address, units⟩ := inv.held a member
  have room := nunits_room a.nbytes
  have positive := nunits_pos a.nbytes
  refine ⟨s, inSegs, used, address, units, ?_⟩
  rw [address, units]
  simp only [headerSize] at room ⊢
  omega

theorem representable_of_positiveInt {oom : Bool}
    (asked : PositiveInt w oom nbytes) : Representable w oom nbytes := by
  refine Or.inr (Or.inl ?_)
  simp only [PositiveInt, headerSize] at asked
  omega

theorem served_tiled {segs' : List Seg} {p : Nat} {h : Heap}
    (tiled : Tiled w.start w.heap.sz segs) (coalesced : Coalesced segs)
    (served : Served w segs nbytes h p segs') : Tiled w.start h.sz segs' ∧ Coalesced segs' := by
  have positive := nunits_pos nbytes
  cases served with
  | refused same zero =>
    subst same
    rw [initialized_sz]
    exact ⟨tiled, coalesced⟩
  | reused front back s shape kind fits pointer size =>
    subst shape
    rw [size]
    exact allocated_tiled tiled coalesced kind positive fits
  | grown nu nuPositive uint front s small shape kind fits pointer size =>
    have extended : Tiled w.start (w.heap.sz + nu * headerSize)
        (segs ++ [⟨w.heap.sz, nu, false⟩]) := by
      rw [tiled_append]
      exact ⟨tiled, nuPositive, rfl⟩
    have extendedCoalesced : Coalesced (segs ++ [⟨w.heap.sz, nu, false⟩]) := by
      refine isChain_append.mpr ⟨coalesced, isChain_singleton _, ?_⟩
      intro a _ b last
      simp only [head?_cons, Option.mem_def, Option.some.injEq] at last
      subst last
      simp
    have joined := released_tiled extended extendedCoalesced (by
      intro lower upper below above
      have upperZero : upper = 0 := by
        rcases above with zero | ⟨g, rest, shape, -⟩
        · exact zero
        · cases shape
      have lowerSmall : lower < nu ∨ lower = 0 := by
        rcases below with zero | ⟨init, f, shape, fFree, rfl⟩
        · exact Or.inr zero
        · exact Or.inl (small f (by rw [shape]; simp) fFree)
      simp only
      omega)
    rw [shape] at joined
    rw [size]
    exact allocated_tiled joined.1 joined.2 kind positive fits

theorem noWrap_bound {a : Alloc} (inv : Inv w (front ++ b :: back))
    (ready : initialized w.heap = w.heap) (address : a.ptr = b.addr + headerSize)
    (tiled : Tiled w.start w.heap.sz (front ++ b :: back)) (noWrap : NoWrap w a) (lower upper : Nat)
    (below : lower = 0 ∨ ∃ init f, front = init ++ [f] ∧ f.isFree = true ∧ f.size = lower)
    (above : upper = 0 ∨ ∃ g rest, back = g :: rest ∧ g.isFree = true ∧ g.size = upper) :
    lower + b.size + upper < 2^32 := by
  have rep := inv.rep
  rw [ready] at rep
  have bSize := rep.sizes b (by simp)
  obtain ⟨tiledFront, -, tiledBack⟩ := tiled_append.mp tiled
  have header : a.ptr - headerSize = b.addr := by rw [address, Nat.add_sub_cancel]
  have node : ∀ s ∈ front ++ b :: back, s.isFree = true → OnList w.heap s.addr := by
    intro s member kind
    exact (onList_iff rep s.addr).mpr
      (mem_cons_of_mem _ (mem_freeAddrs.mpr ⟨s, member, kind, rfl⟩))
  have total := noWrap lower upper ?_ ?_
  · rwa [header, bSize] at total
  · rcases below with zero | ⟨init, f, rfl, kind, rfl⟩
    · exact Or.inl zero
    · obtain ⟨-, -, adjacent⟩ := tiled_append.mp tiledFront
      have adjacent : f.addr + f.size * headerSize = b.addr := adjacent
      have fSize := rep.sizes f (by simp)
      exact Or.inr ⟨f.addr, node f (by simp) kind, fSize, by rw [fSize, header, adjacent]⟩
  · rcases above with zero | ⟨g, rest, rfl, kind, rfl⟩
    · exact Or.inl zero
    · refine Or.inr ⟨g.addr, node g (by simp) kind, rep.sizes g (by simp), ?_⟩
      rw [blockStop, header, bSize, tiledBack.1]

theorem run_tiled (run : Run PositiveInt NoWrap w) :
    ∃ segs, Inv w segs ∧ Tiled w.start w.heap.sz segs ∧ Coalesced segs := by
  induction run with
  | exec heap fresh low => exact ⟨[], inv_exec fresh low, rfl, isChain_nil⟩
  | malloc run oom nbytes uint asked h p returns ih =>
    obtain ⟨segs, inv, tiled, coalesced⟩ := ih
    obtain ⟨h', p', segs', returns', inv', served, -⟩ :=
      malloc_serves inv oom nbytes (representable_of_positiveInt asked)
    have same := returns_unique returns returns'
    simp only [Prod.mk.injEq, Outcome.ret.injEq] at same
    obtain ⟨rfl, rfl⟩ := same
    have joined := served_tiled tiled coalesced served
    exact ⟨segs', inv', joined⟩
  | free run a held given h returns ih =>
    obtain ⟨segs, inv, tiled, coalesced⟩ := ih
    have ready := initialized_of_held inv held
    obtain ⟨front, b, back, h', rfl, used, address, units, returns', inv', size⟩ :=
      free_serves inv a held
    obtain rfl := returns_unique returns returns'
    have joined := released_tiled tiled coalesced
      (noWrap_bound inv ready address tiled given)
    refine ⟨_, inv', ?_, joined.2⟩
    show Tiled _ h.sz _
    rw [size]
    exact joined.1

/-- Every run whose requests fit a positive `int` and whose frees do not wrap a `uint` keeps the
heap invariant; in each state reached `malloc` and `free` end. -/
theorem heap_invariant_of_noWrap (w : World) (run : Run PositiveInt NoWrap w) :
    (∃ segs, HeapOk w segs) ∧
    (∀ oom nbytes, nbytes < 2^32 → PositiveInt w oom nbytes →
      ∃ h p, Returns (fun fuel => malloc oom fuel w.heap nbytes) (h, .ret p) ∧
        (p = 0 → h = initialized w.heap)) ∧
    (∀ a ∈ w.live, ∃ h, Returns (fun fuel => free fuel w.heap a.ptr) h) := by
  obtain ⟨segs, inv, tiled, coalesced⟩ := run_tiled run
  refine ⟨⟨segs, heapOk_of_inv inv tiled coalesced⟩, ?_, ?_⟩
  · intro oom nbytes _ asked
    obtain ⟨h, p, segs', returns, -, served, -⟩ :=
      malloc_serves inv oom nbytes (representable_of_positiveInt asked)
    refine ⟨h, p, returns, ?_⟩
    intro zero
    cases served with
    | refused same _ => exact same
    | reused front back s shape kind fits pointer size
    | grown nu nuPositive uint front s small shape kind fits pointer size =>
      simp only [headerSize] at pointer
      omega
  · intro a held
    obtain ⟨front, b, back, h, -, -, -, -, returns, -⟩ := free_serves inv a held
    exact ⟨h, returns⟩

theorem noWrap_of_small (run : Run PositiveInt NoWrap w) (small : w.heap.sz < 2^34) (a : Alloc)
    (held : a ∈ w.live) : NoWrap w a := by
  obtain ⟨segs, inv, -⟩ := run_tiled run
  have rep := inv.rep
  rw [initialized_of_held inv held] at rep
  have below : ∀ s ∈ segs, w.heap.size s.addr < 2^30 := by
    intro s member
    have bounds := (laid_bounds rep.laid member).2
    rw [rep.sizes s member]
    simp only [Seg.stop, headerSize] at bounds
    omega
  have listed : ∀ p, OnList w.heap p → w.heap.size p < 2^30 := by
    intro p onList
    rcases mem_cons.mp ((onList_iff rep p).mp onList) with rfl | member
    · rw [rep.baseSize]
      decide
    · obtain ⟨s, inside, -, rfl⟩ := mem_freeAddrs.mp member
      exact below s inside
  obtain ⟨s, member, -, address, -⟩ := inv.held a held
  have own := below s member
  intro lower upper low high
  rw [address, Nat.add_sub_cancel] at *
  have lowSmall : lower < 2^30 := by
    rcases low with rfl | ⟨f, onList, rfl, -⟩
    · decide
    · exact listed f onList
  have highSmall : upper < 2^30 := by
    rcases high with rfl | ⟨g, onList, rfl, -⟩
    · decide
    · exact listed g onList
  omega

/-- The second `free` joins two blocks, while a third one is held. -/
theorem heap_invariant_of_noWrap_coalesced : ∃ w,
    freshWorld.calls (2^34) [.malloc 100, .malloc 200, .malloc 300, .free 85904, .free 85680] = some w ∧
      w.heap.size 85664 = nunits 100 + nunits 200 ∧ w.live = [⟨85360, 300⟩] ∧
      Run PositiveInt NoWrap w ∧ (∃ segs, HeapOk w segs) ∧
      ∃ h, Returns (fun fuel => free fuel w.heap 85360) h := by
  have result : (freshWorld.calls (2^34)
      [.malloc 100, .malloc 200, .malloc 300, .free 85904, .free 85680]).map
        (fun w => (w.heap.size 85664, w.live)) = some (22, [⟨85360, 300⟩]) := by decide +kernel
  obtain ⟨w, calls, same⟩ := Option.map_eq_some_iff.mp result
  obtain ⟨size, live⟩ := Prod.mk.inj same
  have run : Run PositiveInt NoWrap w :=
    run_calls (by simp [PositiveInt, nunits, headerSize])
      (fun w run small => noWrap_of_small run small) (freshWorld_run _ _) calls
  have safe := heap_invariant_of_noWrap w run
  exact ⟨w, calls, size, live, run, safe.1, safe.2.2 ⟨85360, 300⟩ (by rw [live]; simp)⟩

/-! The condition is needed: 33 blocks of the largest request, all freed, add up to more
than 2^32 units. -/

def hugeUnits : Nat := 2^27 - 1

def hugeCalls : List Call := replicate 33 (.malloc (2^31 - 32)) ++
  (List.range 33).map fun i => .free (20480 + i * (hugeUnits * headerSize) + headerSize)

/-- After `malloc(2^31 - 32)` 33 times and a `free` of each block, the one free block records
less than it spans. -/
theorem heap_invariant_fails_past_uint :
    ∃ w, Run PositiveInt (fun _ _ => True) w ∧ ¬ ∃ segs, HeapOk w segs := by
  have result : (freshWorld.calls (2^40) hugeCalls).map
      (fun w => (w.start, w.heap.sz, w.live, (initialized w.heap).size 20480)) =
      some (20480, 20480 + 33 * (hugeUnits * headerSize), [], 33 * hugeUnits % 2^32) := by decide +kernel
  obtain ⟨w, calls, same⟩ := Option.map_eq_some_iff.mp result
  simp only [Prod.mk.injEq] at same
  obtain ⟨start, size, noLive, recorded⟩ := same
  refine ⟨w, run_calls ?_ (fun _ _ _ _ _ => trivial) (freshWorld_run _ _) calls, ?_⟩
  · intro w nbytes member
    have only : nbytes = 2^31 - 32 := by simpa [hugeCalls] using member
    subst only
    exact ⟨by decide, by unfold PositiveInt; decide⟩
  rintro ⟨segs, ok⟩
  have allFree : ∀ s ∈ segs, s.isFree = true := by
    intro s member
    cases kind : s.isFree with
    | true => rfl
    | false =>
      obtain ⟨a, held, -⟩ := ok.used s member kind
      rw [noLive] at held
      cases held
  have tiled := ok.tiled
  rw [start, size] at tiled
  cases segs with
  | nil =>
    simp only [Tiled, hugeUnits, headerSize] at tiled
    omega
  | cons s rest =>
    cases rest with
    | nil =>
      have header := ok.headers s (by simp)
      obtain ⟨address, -, whole⟩ := tiled
      rw [address, recorded] at header
      simp only [Tiled, address] at whole
      simp only [hugeUnits, headerSize] at header whole
      omega
    | cons t rest =>
      have apart := (isChain_cons_cons.mp ok.coalesced).1
      exact apart ⟨allFree s (by simp), allFree t (by simp)⟩

end Xv6Lab.Umalloc
