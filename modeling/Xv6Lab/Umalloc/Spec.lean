import Xv6Lab.Umalloc.Malloc

namespace Xv6Lab.Umalloc
open List
open LinkedRing
variable {start top units nu sz : Nat} {h : Heap} {segs : List Seg}

theorem initialized_rep (fresh : h.freep = 0) (low : 0 < h.base ∧ h.base + headerSize ≤ start)
    (bound : start ≤ h.sz) : Rep start h.sz (initialized h) [] := by
  have shape : initialized h = ((h.setPtr h.base h.base).setSize h.base 0).setFreep h.base := by
    simp [initialized, fresh]
  rw [shape]
  refine ⟨bound, low, ?_, ?_, ?_, ?_, ?_⟩
  · simp [nodes, freeAddrs]
  · intro s member
    cases member
  · simp
  · simp [nodes]
  · intro s member
    cases member

theorem freep_ne_zero (rep : Rep start top h segs) : h.freep ≠ 0 := by
  have low := rep.low
  simp only [headerSize] at low
  rcases mem_cons.mp rep.freep with same | inside
  · omega
  · have := (freeAddrs_bounds rep.laid inside).1
    omega

theorem initialized_of_rep (rep : Rep start top h segs) : initialized h = h := by
  simp [initialized, freep_ne_zero rep]

@[simp] theorem initialized_sz (h : Heap) : (initialized h).sz = h.sz := by
  unfold initialized
  split <;> rfl

@[simp] theorem initialized_base (h : Heap) : (initialized h).base = h.base := by
  unfold initialized
  split <;> rfl

theorem morecore_spec (rep : Rep start h.sz h segs)
    (oom : Bool) (units nu sz : Nat) (amount : nu = if units < 4096 then 4096 else units)
    (uint : nu < 2^32) (grow : growproc oom h.sz (toInt (nu * headerSize)) = some sz)
    (mapped : h.sz + headerSize ≤ pgRoundUp sz) :
    ∃ h', Returns (fun fuel => morecore oom fuel h units) (.grown h') ∧
      Rep start (h.sz + nu * headerSize) h' (released segs ⟨h.sz, nu, false⟩ []) ∧
      h'.base = h.base ∧ h'.sz = sz := by
  have positive : 0 < nu := by
    rw [amount]
    split <;> omega
  have grown : Rep start (h.sz + nu * headerSize) ({ h with sz := sz }.setSize h.sz nu)
      (segs ++ [⟨h.sz, nu, false⟩]) := by
    refine ⟨?_, rep.low, ?_, ?_, ?_, ?_, ?_⟩
    · rw [laid_append]
      refine ⟨rep.laid, ?_⟩
      simp only [Laid, Seg.stop, headerSize]
      omega
    · have nodesEq : nodes h.base (segs ++ [⟨h.sz, nu, false⟩]) = nodes h.base segs := by
        simp [nodes, freeAddrs]
      show Path _ (nodes h.base _) h.base
      rw [nodesEq]
      refine path_congr h.ptr _ _ _ ?_ rep.ring
      intro a _
      rw [setSize_ptr]
      rfl
    · intro s member
      rw [setSize_size]
      rcases mem_append.mp member with inside | last
      · have stop := (laid_bounds rep.laid inside).2
        have := s.addr_lt_stop
        rw [if_neg (by omega)]
        exact rep.sizes s inside
      · rw [mem_singleton] at last
        subst last
        rw [if_pos rfl]
        exact Nat.mod_eq_of_lt uint
    · have := laid_le rep.laid
      have low := rep.low
      simp only [headerSize] at low
      show ({ h with sz := sz }.setSize h.sz nu).size h.base = 0
      rw [setSize_size, if_neg (by omega)]
      exact rep.baseSize
    · show h.freep ∈ nodes h.base _
      have nodesEq : nodes h.base (segs ++ [⟨h.sz, nu, false⟩]) = nodes h.base segs := by
        simp [nodes, freeAddrs]
      rw [nodesEq]
      exact rep.freep
    · intro s member
      rcases mem_append.mp member with inside | last
      · exact rep.uint s inside
      · rw [mem_singleton] at last
        subst last
        exact uint
  obtain ⟨h', ⟨fuel, run⟩, rep', base, size, -⟩ := free_spec grown rfl
  refine ⟨h', ⟨fuel, fun later enough => ?_⟩, rep', base, size⟩
  simp only [morecore, ← amount, grow, if_pos mapped]
  exact congrArg (Option.map Core.grown) (run later enough)

theorem released_last (hi nu : Nat) (small : ∀ s ∈ segs, s.isFree = true → s.size + nu < 2^32) :
    ∃ init s, released segs ⟨hi, nu, false⟩ [] = init ++ [s] ∧ s.isFree = true ∧
      nu ≤ s.size ∧ s.addr + s.size * headerSize = hi + nu * headerSize ∧
      ∀ t ∈ init, t ∈ segs := by
  rcases eq_nil_or_concat segs with rfl | ⟨init, f, rfl⟩
  · exact ⟨[], ⟨hi, nu, true⟩, rfl, rfl, le_rfl, rfl, by simp⟩
  · rw [concat_eq_append] at *
    by_cases merge : f.isFree = true ∧ f.addr + f.size * headerSize = hi
    · have bound := small f (by simp) merge.1
      refine ⟨init, ⟨f.addr, f.size + nu, true⟩, ?_, rfl, by simp, ?_,
        fun t member => by simp [member]⟩
      · rw [released_merge merge.1 merge.2]
        simp only [joinUpper]
        rw [Nat.mod_eq_of_lt bound]
      · have := merge.2
        simp only [headerSize] at this ⊢
        omega
    · refine ⟨init ++ [f], ⟨hi, nu, true⟩, ?_, rfl, le_rfl, rfl, fun t member => member⟩
      rw [released_keep]
      · rfl
      · intro front last shape kind adjacent
        have parts := append_inj' shape rfl
        have same : f = last := by simpa using parts.2
        subst same
        exact merge ⟨kind, adjacent⟩

theorem free_block_of_node {p : Nat} (rep : Rep start top h segs) (positive : 0 < units)
    (member : p ∈ nodes h.base segs) (fits : units ≤ h.size p) :
    ∃ front s back, segs = front ++ s :: back ∧ s.isFree = true ∧ s.addr = p ∧ units ≤ s.size := by
  rcases mem_cons.mp member with rfl | inside
  · rw [rep.baseSize] at fits
    omega
  · obtain ⟨s, inSegs, kind, rfl⟩ := mem_freeAddrs.mp inside
    obtain ⟨front, back, rfl⟩ := append_of_mem inSegs
    rw [rep.sizes s inSegs] at fits
    exact ⟨front, s, back, rfl, kind, rfl, fits⟩

theorem mallocLoop_carves (rep : Rep start top h segs) (oom : Bool) (positive : 0 < units)
    (fits : ∃ p ∈ nodes h.base segs, units ≤ h.size p) :
    ∃ front s back h', segs = front ++ s :: back ∧ s.isFree = true ∧ units ≤ s.size ∧
      Rep start top h' (allocated front s back units) ∧ h'.base = h.base ∧ h'.sz = h.sz ∧
      Returns (fun fuel => mallocLoop oom units fuel h h.freep (h.ptr h.freep))
        (h', .ret (taken s units + headerSize)) := by
  rcases mallocLoop_scan rep oom units with ⟨prevp, p, prevMember, member, points, enough, run⟩ | none
  · obtain ⟨front, s, back, rfl, kind, rfl, large⟩ := free_block_of_node rep positive member enough
    obtain ⟨h', result, rep', base, size⟩ := carve_spec rep kind positive large prevMember points
    exact ⟨front, s, back, h', rfl, kind, large, rep', base, size, result ▸ run⟩
  · obtain ⟨p, member, large⟩ := fits
    have := none.1 p member
    omega

section
variable (rep : Rep start h.sz h segs)
include rep

theorem mallocLoop_asks {oom : Bool} {least : Nat} {r : Heap × Outcome}
    (small : ∀ p ∈ nodes h.base segs, h.size p < units) (asked : ∀ fuel, least ≤ fuel →
      (match morecore oom fuel h units with
      | none => none
      | some .fault => some (h, .fault)
      | some .failed => some (h, .ret 0)
      | some (.grown h') => mallocLoop oom units fuel h' h'.freep (h'.ptr h'.freep)) = some r) :
    Returns (fun fuel => mallocLoop oom units fuel h h.freep (h.ptr h.freep)) r := by
  rcases mallocLoop_scan rep oom units with ⟨prevp, p, -, member, -, enough, -⟩ | ⟨-, skipped, prevp, run⟩
  · have := small p member
    omega
  · have self := small h.freep rep.freep
    refine returns_of_succ (skipped + (least + 1)) (fun _ => mallocLoop_succ) ?_
    rw [run, mallocLoop, if_neg (by omega), if_pos rfl]
    exact asked least le_rfl

theorem mallocLoop_fails (oom : Bool) (amount : nu = if units < 4096 then 4096 else units)
    (small : ∀ p ∈ nodes h.base segs, h.size p < units)
    (refused : growproc oom h.sz (toInt (nu * headerSize)) = none) :
    Returns (fun fuel => mallocLoop oom units fuel h h.freep (h.ptr h.freep)) (h, .ret 0) :=
  mallocLoop_asks rep small fun fuel (_ : 0 ≤ fuel) => by simp only [morecore, ← amount, refused]

theorem mallocLoop_faults (oom : Bool) (amount : nu = if units < 4096 then 4096 else units)
    (small : ∀ p ∈ nodes h.base segs, h.size p < units)
    (grow : growproc oom h.sz (toInt (nu * headerSize)) = some sz)
    (unmapped : ¬ h.sz + headerSize ≤ pgRoundUp sz) :
    Returns (fun fuel => mallocLoop oom units fuel h h.freep (h.ptr h.freep)) (h, .fault) :=
  mallocLoop_asks rep small fun fuel (_ : 0 ≤ fuel) => by
    simp only [morecore, ← amount, grow, if_neg unmapped]

theorem mallocLoop_grows (oom : Bool) (positive : 0 < units)
    (amount : nu = if units < 4096 then 4096 else units) (uint : units < 2^31)
    (small : ∀ p ∈ nodes h.base segs, h.size p < units)
    (grow : growproc oom h.sz (toInt (nu * headerSize)) = some sz)
    (mapped : h.sz + headerSize ≤ pgRoundUp sz) :
    ∃ front s h', released segs ⟨h.sz, nu, false⟩ [] = front ++ [s] ∧ s.isFree = true ∧
      units ≤ s.size ∧ s.addr + s.size * headerSize = h.sz + nu * headerSize ∧
      Rep start (h.sz + nu * headerSize) h' (allocated front s [] units) ∧
      h'.base = h.base ∧ h'.sz = sz ∧
      Returns (fun fuel => mallocLoop oom units fuel h h.freep (h.ptr h.freep))
        (h', .ret (taken s units + headerSize)) := by
  have atLeast : units ≤ nu := by
    rw [amount]
    split <;> omega
  have nuBound : nu < 2^31 := by
    rw [amount]
    split <;> omega
  have sizes : ∀ s ∈ segs, s.isFree = true → s.size < units := by
    intro s member kind
    have := small s.addr (mem_cons_of_mem _ (mem_freeAddrs.mpr ⟨s, member, kind, rfl⟩))
    rwa [rep.sizes s member] at this
  obtain ⟨init, s, shape, kind, large, last, subset⟩ := released_last h.sz nu
    (fun s member kind => by have := sizes s member kind; omega)
  obtain ⟨h₀, more, rep₀, base₀, size₀⟩ :=
    morecore_spec rep oom units nu sz amount (by omega) grow mapped
  rw [shape] at rep₀
  have member : s.addr ∈ nodes h₀.base (init ++ [s]) := by
    simp [nodes, freeAddrs_append, freeAddrs_cons, kind]
  have fits : units ≤ h₀.size s.addr := by
    rw [rep₀.sizes s (by simp)]
    omega
  obtain ⟨front, t, back, h', split, kind', large', rep', base', size', run⟩ :=
    mallocLoop_carves rep₀ oom positive ⟨s.addr, member, fits⟩
  -- Only the last block is large enough, so it is the one that was carved.
  have same : front = init ∧ t = s ∧ back = [] := by
    rcases eq_nil_or_concat back with rfl | ⟨back, last, rfl⟩
    · have parts := append_inj' split rfl
      exact ⟨parts.1.symm, by simpa using parts.2.symm, rfl⟩
    · rw [concat_eq_append, ← cons_append, ← append_assoc] at split
      have parts := append_inj' split rfl
      have inside : t ∈ init := by rw [parts.1]; simp
      have := sizes t (subset t inside) kind'
      omega
  obtain ⟨rfl, rfl, rfl⟩ := same
  refine ⟨front, t, h', shape, kind, large', last, rep', base'.trans base₀, size'.trans size₀, ?_⟩
  obtain ⟨n, more⟩ := more
  obtain ⟨m, run⟩ := run
  refine mallocLoop_asks rep small fun fuel (enough : max n m ≤ fuel) => ?_
  have grown : morecore oom fuel h units = some (.grown h₀) := more fuel (le_of_max_le_left enough)
  rw [grown]
  exact run fuel (le_of_max_le_right enough)

end
end Xv6Lab.Umalloc
