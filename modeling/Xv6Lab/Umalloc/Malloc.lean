import Xv6Lab.Umalloc.Free

namespace Xv6Lab.Umalloc
open List
open LinkedRing
variable {start top : Nat} {h : Heap} {segs front back : List Seg} {s : Seg}

theorem mallocLoop_skip (oom : Bool) (units : Nat) (h : Heap) (prev stop : Nat)
    (passed : List Nat) (fuel : Nat) (path : Path h.ptr (prev :: passed) stop)
    (small : ∀ a ∈ passed, h.size a < units) (away : ∀ a ∈ passed, a ≠ h.freep) :
    mallocLoop oom units (passed.length + fuel) h prev (h.ptr prev) =
      mallocLoop oom units fuel h ((prev :: passed).getLast (by simp)) stop := by
  induction passed generalizing prev with
  | nil =>
    have step : h.ptr prev = stop := path.1
    simp [step]
  | cons a passed ih =>
    have step : h.ptr prev = a := path.1
    have tooSmall := small a (by simp)
    rw [show (a :: passed).length + fuel = (passed.length + fuel) + 1 by simp; omega,
      mallocLoop, step, if_neg (by omega), if_neg (away a (by simp)),
      getLast_cons (by simp)]
    exact ih a path.2 (fun b member => small b (mem_cons_of_mem a member))
      (fun b member => away b (mem_cons_of_mem a member))

theorem morecore_succ {oom : Bool} {fuel : Nat} {c : Core} (ran : morecore oom fuel h units = some c) :
    morecore oom (fuel + 1) h units = some c := by
  revert ran
  simp only [morecore]
  split
  · exact id
  · split
    · intro ran
      obtain ⟨h', freed, rfl⟩ := Option.map_eq_some_iff.mp ran
      rw [free_succ freed, Option.map_some]
    · exact id

theorem mallocLoop_succ {oom : Bool} {fuel prevp p : Nat} {r : Heap × Outcome}
    (ran : mallocLoop oom units fuel h prevp p = some r) :
    mallocLoop oom units (fuel + 1) h prevp p = some r := by
  induction fuel generalizing h prevp p with
  | zero => cases ran
  | succ fuel ih =>
    rw [mallocLoop] at ran ⊢
    cases grown : morecore oom fuel h units with
    | none => grind
    | some c =>
      rw [morecore_succ grown]
      rw [grown] at ran
      cases c <;> grind

theorem ring_from_freep (rep : Rep start top h segs) :
    ∃ others, (h.freep :: others).Perm (nodes h.base segs) ∧
      Path h.ptr (h.freep :: others) h.freep := by
  have member := rep.freep
  rcases mem_cons.mp member with same | inside
  · refine ⟨freeAddrs segs, ?_, ?_⟩
    · rw [same]
      exact List.Perm.refl _
    · rw [same]
      exact rep.ring
  · obtain ⟨before, after, shape⟩ := append_of_mem inside
    refine ⟨after ++ h.base :: before, ?_, ?_⟩
    · rw [nodes, shape, ← cons_append, ← cons_append]
      exact perm_append_comm
    · have ring := rep.ring
      rw [nodes, shape] at ring
      exact path_rotate h.ptr before after h.base h.freep ring

theorem mallocLoop_scan (rep : Rep start top h segs) (oom : Bool) (units : Nat) :
    (∃ prevp p, prevp ∈ nodes h.base segs ∧ p ∈ nodes h.base segs ∧ h.ptr prevp = p ∧
      units ≤ h.size p ∧ Returns (fun fuel => mallocLoop oom units fuel h h.freep (h.ptr h.freep))
        (carve h units prevp p)) ∨
    ((∀ p ∈ nodes h.base segs, h.size p < units) ∧ ∃ skipped prevp, ∀ fuel,
      mallocLoop oom units (skipped + fuel) h h.freep (h.ptr h.freep) =
        mallocLoop oom units fuel h prevp h.freep) := by
  obtain ⟨others, perm, ring⟩ := ring_from_freep rep
  have members : ∀ a, a ∈ h.freep :: others ↔ a ∈ nodes h.base segs := fun a => perm.mem_iff
  have distinct : (h.freep :: others).Nodup :=
    perm.nodup_iff.mpr ((nodes_sorted rep).imp (fun less => less.ne))
  have awayAll : ∀ a ∈ others, a ≠ h.freep := by
    intro a member same
    exact (nodup_cons.mp distinct).1 (same ▸ member)
  by_cases fits : ∃ a ∈ others, units ≤ h.size a
  · -- The first block after `freep` that fits.
    have isSome : (others.find? (fun a => decide (units ≤ h.size a))).isSome := by
      rw [find?_isSome]
      simpa using fits
    obtain ⟨p, found⟩ := Option.isSome_iff_exists.mp isSome
    obtain ⟨enough, before, after, shape, small⟩ := find?_eq_some_iff_append.mp found
    simp only [decide_eq_true_eq] at enough
    left
    have path : Path h.ptr (h.freep :: before) p := by
      rw [shape, ← cons_append, path_append] at ring
      exact ring.1
    refine ⟨(h.freep :: before).getLast (by simp), p, ?_, ?_, ?_, enough, ?_⟩
    · refine (members _).mp ?_
      rw [shape, ← cons_append]
      exact mem_append_left _ (getLast_mem _)
    · refine (members _).mp ?_
      rw [shape]
      simp
    · have last := dropLast_append_getLast (l := h.freep :: before) (by simp)
      rw [← last, path_append] at path
      exact path.2.1
    · refine returns_of_succ (before.length + 1) (fun _ => mallocLoop_succ) ?_
      rw [mallocLoop_skip oom units h h.freep p before 1 path ?_ ?_, mallocLoop, if_pos enough]
      · intro a member
        have := small a member
        simpa using this
      · intro a member
        exact awayAll a (by rw [shape]; simp [member])
  · have small : ∀ a ∈ others, h.size a < units := by
      intro a member
      by_contra large
      exact fits ⟨a, member, by omega⟩
    have skip := fun fuel => mallocLoop_skip oom units h h.freep h.freep others fuel ring small awayAll
    by_cases selfFits : units ≤ h.size h.freep
    · left
      refine ⟨(h.freep :: others).getLast (by simp), h.freep, ?_, rep.freep, ?_, selfFits, ?_⟩
      · exact (members _).mp (getLast_mem _)
      · have last := dropLast_append_getLast (l := h.freep :: others) (by simp)
        rw [← last, path_append] at ring
        exact ring.2.1
      · refine returns_of_succ (others.length + 1) (fun _ => mallocLoop_succ) ?_
        rw [skip, mallocLoop, if_pos selfFits]
    · right
      refine ⟨?_, others.length, _, skip⟩
      intro p member
      rcases mem_cons.mp ((members p).mpr member) with rfl | inside
      · omega
      · exact small p inside

def allocated (front : List Seg) (s : Seg) (back : List Seg) (units : Nat) : List Seg :=
  if s.size = units then front ++ ⟨s.addr, units, false⟩ :: back
  else front ++ ⟨s.addr, s.size - units, true⟩ ::
    ⟨s.addr + (s.size - units) * headerSize, units, false⟩ :: back

def taken (s : Seg) (units : Nat) : Nat := s.addr + (s.size - units) * headerSize

theorem nodes_split (base : Nat) (kind : s.isFree = true) :
    nodes base (front ++ s :: back) = base :: freeAddrs front ++ s.addr :: freeAddrs back := by
  simp [nodes, freeAddrs_append, freeAddrs_cons, kind]

theorem Rep.unlink {prevp : Nat} (rep : Rep start top h (front ++ s :: back)) (kind : s.isFree = true)
    (last : prevp = (h.base :: freeAddrs front).getLast (by simp)) :
    Rep start top ((h.setPtr prevp (h.ptr s.addr)).setFreep prevp)
      (front ++ ⟨s.addr, s.size, false⟩ :: back) := by
  have laid := laid_append.mp rep.laid
  have ring := rep.ring
  have sorted := nodes_sorted rep
  have split : nodes h.base (front ++ s :: back) = _ := nodes_split h.base kind
  have nodesEq : nodes h.base (front ++ ⟨s.addr, s.size, false⟩ :: back) =
      h.base :: freeAddrs front ++ freeAddrs back := by
    simp [nodes, freeAddrs_append, freeAddrs_cons]
  obtain ⟨before, shape⟩ : ∃ before, h.base :: freeAddrs front = before ++ [prevp] :=
    ⟨_, by rw [last]; exact (dropLast_append_getLast _).symm⟩
  rw [split, shape] at sorted
  have before_lt : ∀ a ∈ before, a < prevp := by
    intro a inside
    exact (pairwise_append.mp (pairwise_append.mp sorted).1).2.2 a inside prevp (by simp)
  have prevp_lt : ∀ a ∈ freeAddrs back, prevp < a := by
    intro a inside
    exact (pairwise_append.mp sorted).2.2 prevp (by simp) a (mem_cons_of_mem _ inside)
  rw [split, path_append, shape, path_append] at ring
  refine rep.relink rfl (laid_append.mpr laid) ?_ ?_ ?_ ?_ ?_
  · rw [nodesEq, shape, path_append, path_append]
    refine ⟨⟨path_congr h.ptr _ _ _ ?_ ring.1.1, ?_, trivial⟩, path_congr h.ptr _ _ _ ?_ ring.2.2⟩
    · intro a inside
      rw [setFreep_ptr, setPtr_ptr, if_neg (before_lt a inside).ne]
    · rw [setFreep_ptr, setPtr_ptr, if_pos rfl]
      exact ring.2.1
    · intro a inside
      rw [setFreep_ptr, setPtr_ptr, if_neg (prevp_lt a inside).ne']
  · simp
  · simpa using And.intro (rep.uint s (by simp)) (rep.sizes s (by simp))
  · intro t inside
    simpa using And.intro (rep.uint t (by simp [inside])) (rep.sizes t (by simp [inside]))
  · rw [nodesEq, shape]
    simp

/-- The tail of a larger block is cut off; the list keeps its nodes. -/
theorem Rep.cut {units prevp : Nat} (rep : Rep start top h (front ++ s :: back))
    (kind : s.isFree = true) (positive : 0 < units) (less : units < s.size)
    (member : prevp ∈ nodes h.base (front ++ s :: back)) :
    Rep start top (((h.setSize s.addr (s.size - units)).setSize (taken s units) units).setFreep prevp)
      (front ++ ⟨s.addr, s.size - units, true⟩ :: ⟨taken s units, units, false⟩ :: back) := by
  have laid := laid_append.mp rep.laid
  have uint : s.size < 2^32 := rep.uint s (by simp)
  have apart : s.addr < taken s units := by
    simp only [taken, headerSize]
    omega
  have stopLow : (⟨s.addr, s.size - units, true⟩ : Seg).stop = taken s units := by
    simp only [Seg.stop, taken, headerSize]
    omega
  have stopHigh : (⟨taken s units, units, false⟩ : Seg).stop = s.stop := by
    simp only [Seg.stop, taken, headerSize]
    omega
  have inside_stop : taken s units < s.stop := by
    rw [← stopHigh]
    exact (⟨taken s units, units, false⟩ : Seg).addr_lt_stop
  have nodesEq : nodes h.base (front ++ ⟨s.addr, s.size - units, true⟩ ::
      ⟨taken s units, units, false⟩ :: back) = nodes h.base (front ++ s :: back) := by
    simp [nodes, freeAddrs_append, freeAddrs_cons, kind]
  refine rep.relink rfl (laid_append.mpr ⟨laid.1, ?_, ?_⟩) ?_ ?_ ?_ ?_ ?_
  · rw [stopLow]
  · rw [stopHigh]
    exact laid.2
  · rw [nodesEq]
    refine path_congr h.ptr _ _ _ ?_ rep.ring
    intro a _
    rw [setFreep_ptr, setSize_ptr, setSize_ptr]
  · intro a below
    simp only at below
    rw [setFreep_size, setSize_size, setSize_size, if_neg (by omega), if_neg (by omega)]
  · refine ⟨by simp only; omega, ?_⟩
    rw [setFreep_size, setSize_size, setSize_size, if_neg apart.ne, if_pos rfl]
    exact Nat.mod_eq_of_lt (by omega)
  · intro t inside
    rw [setFreep_size, setSize_size, setSize_size]
    rcases mem_cons.mp inside with rfl | inBack
    · rw [if_pos rfl]
      exact ⟨by simp only; omega, Nat.mod_eq_of_lt (by omega)⟩
    · have lower := (laid_bounds laid.2 inBack).1
      rw [if_neg (by omega), if_neg (by omega)]
      exact ⟨rep.uint t (by simp [inBack]), rep.sizes t (by simp [inBack])⟩
  · rw [nodesEq]
    exact member

theorem carve_spec {units prevp : Nat} (rep : Rep start top h (front ++ s :: back))
    (kind : s.isFree = true) (positive : 0 < units) (fits : units ≤ s.size)
    (member : prevp ∈ nodes h.base (front ++ s :: back)) (points : h.ptr prevp = s.addr) :
    ∃ h', carve h units prevp s.addr = (h', .ret (taken s units + headerSize)) ∧
      Rep start top h' (allocated front s back units) ∧ h'.base = h.base ∧ h'.sz = h.sz := by
  have size : h.size s.addr = s.size := rep.sizes s (by simp)
  by_cases equal : s.size = units
  · have last : prevp = (h.base :: freeAddrs front).getLast (by simp) := by
      have ring := rep.ring
      have sorted := nodes_sorted rep
      rw [nodes_split h.base kind] at ring sorted member
      exact path_pred_unique h.ptr (freeAddrs front) (freeAddrs back) h.base s.addr prevp
        (sorted.imp (fun less => less.ne)) ring member points
    refine ⟨(h.setPtr prevp (h.ptr s.addr)).setFreep prevp, ?_, ?_, rfl, rfl⟩
    · simp [carve, taken, size, equal]
    · rw [allocated, if_pos equal, ← equal]
      exact rep.unlink kind last
  · refine ⟨((h.setSize s.addr (s.size - units)).setSize (taken s units) units).setFreep prevp,
      ?_, ?_, rfl, rfl⟩
    · simp [carve, size, equal, taken]
    · rw [allocated, if_neg equal]
      exact rep.cut kind positive (by omega) member

end Xv6Lab.Umalloc
