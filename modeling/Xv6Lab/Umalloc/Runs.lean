import Xv6Lab.Umalloc.Spec

namespace Xv6Lab.Umalloc
open List
open LinkedRing
variable {nbytes top : Nat} {front back segs : List Seg} {s t b : Seg} {h : Heap}

/-- A block the program holds: the pointer `malloc` returned and the size it asked for. -/
structure Alloc where
  ptr : Nat
  nbytes : Nat
  deriving DecidableEq, Repr

structure World where
  heap : Heap
  start : Nat
  live : List Alloc

def blockStop (h : Heap) (p : Nat) : Nat := p - headerSize + h.size (p - headerSize) * headerSize

def World.afterMalloc (w : World) (h : Heap) (p nbytes : Nat) : World :=
  { w with heap := h, live := if p = 0 then w.live else ⟨p, nbytes⟩ :: w.live }

def World.afterFree (w : World) (h : Heap) (a : Alloc) : World :=
  { w with heap := h, live := w.live.erase a }

/-- The worlds a program reaches with `malloc` calls that meet `ask` and `free` calls, of
pointers in use, that meet `give`. -/
inductive Run (ask : World → Bool → Nat → Prop) (give : World → Alloc → Prop) : World → Prop
  | exec (heap : Heap) (fresh : heap.freep = 0)
      (low : 0 < heap.base ∧ heap.base + headerSize ≤ heap.sz) :
      Run ask give ⟨heap, heap.sz, []⟩
  | malloc {w : World} (run : Run ask give w) (oom : Bool) (nbytes : Nat) (uint : nbytes < 2^32)
      (asked : ask w oom nbytes) (h : Heap) (p : Nat)
      (returns : Returns (fun fuel => malloc oom fuel w.heap nbytes) (h, .ret p)) :
      Run ask give (w.afterMalloc h p nbytes)
  | free {w : World} (run : Run ask give w) (a : Alloc) (held : a ∈ w.live) (given : give w a)
      (h : Heap) (returns : Returns (fun fuel => free fuel w.heap a.ptr) h) :
      Run ask give (w.afterFree h a)

/-- The blocks of a world: the headers represent them and the used ones are those held. -/
structure Inv (w : World) (segs : List Seg) : Prop where
  rep : Rep w.start w.heap.sz (initialized w.heap) segs
  held : ∀ a ∈ w.live, ∃ s ∈ segs, s.isFree = false ∧ a.ptr = s.addr + headerSize ∧
    s.size = nunits a.nbytes
  used : ∀ s ∈ segs, s.isFree = false → ∃ a ∈ w.live, a.ptr = s.addr + headerSize
  distinct : (w.live.map Alloc.ptr).Nodup
  fresh : w.heap.freep = 0 → w.live = []

theorem nunits_pos (nbytes : Nat) : 0 < nunits nbytes := by
  simp [nunits]

theorem nunits_room (nbytes : Nat) : nbytes ≤ (nunits nbytes - 1) * headerSize := by
  simp only [nunits, headerSize]
  omega

theorem nunits_le (uint : nbytes < 2^32) : nunits nbytes ≤ 2^28 + 1 := by
  simp only [nunits, headerSize]
  omega

theorem mem_allocated_used {units : Nat} (kind : s.isFree = true) (used : t.isFree = false) :
    t ∈ allocated front s back units ↔
      t ∈ front ++ s :: back ∨ t = ⟨taken s units, units, false⟩ := by
  have differs : t ≠ s := by
    rintro rfl
    rw [kind] at used
    cases used
  unfold allocated
  split
  · rename_i equal
    have address : taken s units = s.addr := by simp [taken, equal]
    simp only [mem_append, mem_cons, address, differs]
    tauto
  · have cut : t ≠ ⟨s.addr, s.size - units, true⟩ := by
      rintro rfl
      cases used
    simp only [mem_append, mem_cons, differs, cut, taken]
    tauto

theorem mem_joinUpper_used (used : t.isFree = false) : t ∈ (joinUpper b back).2 ↔ t ∈ back := by
  cases back with
  | nil => rfl
  | cons g rest =>
    simp only [joinUpper]
    split
    · rename_i merge
      have differs : t ≠ g := by
        rintro rfl
        rw [merge.1] at used
        cases used
      simp [differs]
    · rfl

theorem mem_released_used (used : t.isFree = false) :
    t ∈ released front b back ↔ t ∈ front ∨ t ∈ back := by
  have joinedFree : t ≠ (joinUpper b back).1 := by
    rintro rfl
    cases back with
    | nil => cases used
    | cons g rest =>
      simp only [joinUpper] at used
      split at used <;> cases used
  by_cases merge : ∃ init f, front = init ++ [f] ∧ f.isFree = true ∧
      f.addr + f.size * headerSize = b.addr
  · obtain ⟨init, f, rfl, kind, adjacent⟩ := merge
    have differs : t ≠ f := by
      rintro rfl
      rw [kind] at used
      cases used
    rw [released_merge kind adjacent]
    simp only [mem_append, mem_cons, mem_joinUpper_used used, differs,
      not_mem_nil, or_false]
    constructor
    · rintro (inside | rfl | inside)
      · exact Or.inl inside
      · cases used
      · exact Or.inr inside
    · rintro (inside | inside)
      · exact Or.inl inside
      · exact Or.inr (Or.inr inside)
  · rw [released_keep (fun init f shape kind adjacent => merge ⟨init, f, shape, kind, adjacent⟩)]
    simp only [mem_append, mem_cons, mem_joinUpper_used used, joinedFree, false_or]

theorem taken_fresh {lo hi units : Nat}
    (laid : Laid lo hi (front ++ s :: back)) (kind : s.isFree = true) (positive : 0 < units)
    (fits : units ≤ s.size) (member : t ∈ front ++ s :: back) (used : t.isFree = false) :
    t.stop ≤ taken s units ∨ taken s units + units * headerSize ≤ t.addr := by
  have split := laid_append.mp laid
  have last : taken s units + units * headerSize ≤ s.stop := by
    simp only [taken, Seg.stop, headerSize]
    omega
  rcases mem_append.mp member with inFront | inBack
  · have := (laid_bounds split.1 inFront).2
    left
    simp only [taken]
    omega
  · rcases mem_cons.mp inBack with rfl | inBack
    · rw [kind] at used
      cases used
    · have := (laid_bounds split.2 inBack).1
      right
      omega

theorem inv_of_carve {w : World} (inv : Inv w segs) (kind : s.isFree = true)
    (fits : nunits nbytes ≤ s.size) (laid : Laid w.start top (front ++ s :: back))
    (usedSame : ∀ t : Seg, t.isFree = false → (t ∈ front ++ s :: back ↔ t ∈ segs))
    (rep : Rep w.start h.sz h (allocated front s back (nunits nbytes))) :
    Inv (w.afterMalloc h (taken s (nunits nbytes) + headerSize) nbytes)
      (allocated front s back (nunits nbytes)) := by
  have new : (⟨taken s (nunits nbytes), nunits nbytes, false⟩ : Seg) ∈
      allocated front s back (nunits nbytes) := (mem_allocated_used kind rfl).mpr (Or.inr rfl)
  have live : (w.afterMalloc h (taken s (nunits nbytes) + headerSize) nbytes).live =
      ⟨taken s (nunits nbytes) + headerSize, nbytes⟩ :: w.live := by
    simp [World.afterMalloc, headerSize]
  refine ⟨?_, ?_, ?_, ?_, fun zero => absurd zero (freep_ne_zero rep)⟩
  · show Rep w.start h.sz (initialized h) _
    rw [initialized_of_rep rep]
    exact rep
  · rw [live]
    intro a member
    rcases mem_cons.mp member with rfl | member
    · exact ⟨_, new, rfl, rfl, rfl⟩
    · obtain ⟨t, inSegs, used, address, units⟩ := inv.held a member
      exact ⟨t, (mem_allocated_used kind used).mpr (Or.inl ((usedSame t used).mpr inSegs)), used,
        address, units⟩
  · rw [live]
    intro t member used
    rcases (mem_allocated_used kind used).mp member with old | rfl
    · obtain ⟨a, inLive, address⟩ := inv.used t ((usedSame t used).mp old) used
      exact ⟨a, mem_cons_of_mem _ inLive, address⟩
    · exact ⟨⟨taken s (nunits nbytes) + headerSize, nbytes⟩, by simp, rfl⟩
  · rw [live, map_cons, nodup_cons]
    refine ⟨?_, inv.distinct⟩
    intro member
    obtain ⟨a, inLive, address⟩ := mem_map.mp member
    obtain ⟨t, inSegs, used, address', -⟩ := inv.held a inLive
    have apart := taken_fresh laid kind (nunits_pos nbytes) fits ((usedSame t used).mpr inSegs) used
    have grow := t.addr_lt_stop
    have positive := nunits_pos nbytes
    simp only [headerSize] at apart address address'
    omega

theorem inv_of_free {w : World} {a : Alloc} (inv : Inv w (front ++ b :: back)) (held : a ∈ w.live)
    (address : a.ptr = b.addr + headerSize) (rep : Rep w.start h.sz h (released front b back)) :
    Inv (w.afterFree h a) (released front b back) := by
  have distinct : w.live.Nodup := inv.distinct.of_map
  have oldLaid := inv.rep.laid
  have elsewhere : ∀ t ∈ front ++ b :: back, t ≠ b → t ∈ front ∨ t ∈ back := by
    intro t member differs
    simpa [differs] using member
  refine ⟨?_, ?_, ?_, ?_, fun zero => absurd zero (freep_ne_zero rep)⟩
  · show Rep w.start h.sz (initialized h) _
    rw [initialized_of_rep rep]
    exact rep
  · intro c member
    obtain ⟨differs, inLive⟩ := (distinct.mem_erase_iff).mp member
    obtain ⟨t, inSegs, used, address', units⟩ := inv.held c inLive
    have other : t ≠ b := by
      rintro rfl
      exact differs (inj_on_of_nodup_map inv.distinct inLive held (address'.trans address.symm))
    exact ⟨t, (mem_released_used used).mpr (elsewhere t inSegs other), used, address', units⟩
  · intro t member used
    have inSides := (mem_released_used used).mp member
    have inSegs : t ∈ front ++ b :: back := by
      rcases inSides with inside | inside <;> simp [inside]
    obtain ⟨c, inLive, address'⟩ := inv.used t inSegs used
    refine ⟨c, (distinct.mem_erase_iff).mpr ⟨?_, inLive⟩, address'⟩
    rintro rfl
    have same : t.addr = b.addr := by
      rw [address] at address'
      simpa using address'.symm
    have split := laid_append.mp oldLaid
    have grow := t.addr_lt_stop
    rcases inSides with inside | inside
    · have := (laid_bounds split.1 inside).2
      omega
    · have := (laid_bounds split.2 inside).1
      have := b.addr_lt_stop
      omega
  · exact inv.distinct.sublist ((erase_sublist).map _)

def OnList (h : Heap) (p : Nat) : Prop := ∃ k, h.ptr^[k] h.freep = p

theorem onList_iff {start : Nat} (rep : Rep start top h segs)
    (p : Nat) : OnList h p ↔ p ∈ nodes h.base segs := by
  obtain ⟨others, perm, ring⟩ := ring_from_freep rep
  rw [← perm.mem_iff]
  exact (path_mem_iff_iterate h.ptr h.freep p others ring).symm

/-! What `sbrk` is asked for once the size has gone through `int`. -/

theorem toInt_of_small (n : Nat) (small : n < 2^31) : toInt n = n := by
  unfold toInt
  split <;> omega

theorem toInt_nonpos (n : Nat) (large : 2^31 ≤ n) (bound : n ≤ 2^32) : toInt n ≤ 0 := by
  unfold toInt
  split <;> omega

theorem growproc_positive (oom : Bool) (sz nu : Nat) (positive : 0 < nu) (small : nu < 2^27) :
    growproc oom sz (toInt (nu * headerSize)) = none ∨
      growproc oom sz (toInt (nu * headerSize)) = some (sz + nu * headerSize) := by
  have value := toInt_of_small (nu * headerSize) (by simp only [headerSize]; omega)
  have sign : toInt (nu * headerSize) > 0 := by
    rw [value]
    simp only [headerSize]
    omega
  unfold growproc
  rw [if_pos sign, value, Int.toNat_natCast]
  split
  · exact Or.inl rfl
  · split
    · exact Or.inl rfl
    · exact Or.inr rfl

theorem growproc_wrapped (oom : Bool) (sz nu : Nat) (large : 2^27 ≤ nu) (bound : nu ≤ 2^28 + 1) :
    (∃ sz' ≤ sz + headerSize, growproc oom sz (toInt (nu * headerSize)) = some sz') ∨
      (nu = 2^28 + 1 ∧ growproc oom sz headerSize = none) := by
  by_cases last : nu = 2^28 + 1
  · subst last
    have value : toInt ((2^28 + 1) * headerSize) = headerSize := by decide
    rw [value]
    cases result : growproc oom sz headerSize with
    | none => exact Or.inr ⟨rfl, rfl⟩
    | some sz' =>
      refine Or.inl ⟨sz', ?_, rfl⟩
      unfold growproc at result
      rw [if_pos (by decide)] at result
      split at result
      · cases result
      · split at result
        · cases result
        · have := Option.some.inj result
          simp only [headerSize] at this ⊢
          omega
  · left
    have sign : ¬ toInt (nu * headerSize) > 0 := not_lt_of_ge
      (toInt_nonpos (nu * headerSize) (by simp only [headerSize]; omega)
        (by simp only [headerSize]; omega))
    unfold growproc
    rw [if_neg sign]
    split
    · dsimp only
      split
      · exact ⟨sz, by omega, rfl⟩
      · exact ⟨_, by omega, rfl⟩
    · exact ⟨sz, by omega, rfl⟩

/-- `malloc(nbytes)` meets its contract: it ends with 0, or with a block of `nbytes` bytes
inside the heap that meets no block in use. -/
def Sound (w : World) (oom : Bool) (nbytes : Nat) : Prop :=
  ∃ h p, Returns (fun fuel => malloc oom fuel w.heap nbytes) (h, .ret p) ∧
    ((p = 0 ∧ w.heap.sz ≤ h.sz) ∨
      (w.start + headerSize ≤ p ∧ p + nbytes ≤ blockStop h p ∧ blockStop h p ≤ h.sz ∧
        ∀ a ∈ w.live, blockStop h p ≤ a.ptr - headerSize ∨
          blockStop h a.ptr ≤ p - headerSize))

/-- A block on the list is large enough, or the request survives the conversions, or it
comes out as sixteen bytes that the kernel refuses. -/
def Representable (w : World) (oom : Bool) (nbytes : Nat) : Prop :=
  (∃ p, OnList (initialized w.heap) p ∧ nunits nbytes ≤ (initialized w.heap).size p) ∨
    nunits nbytes < 2^27 ∨
    (nunits nbytes = 2^28 + 1 ∧ growproc oom w.heap.sz headerSize = none)

theorem sound_of_carve {w : World} {oom : Bool} (inv : Inv w segs) (kind : s.isFree = true)
    (fits : nunits nbytes ≤ s.size) (laid : Laid w.start top (front ++ s :: back))
    (usedSame : ∀ t : Seg, t.isFree = false → (t ∈ front ++ s :: back ↔ t ∈ segs))
    (rep : Rep w.start h.sz h (allocated front s back (nunits nbytes)))
    (returns : Returns (fun fuel => malloc oom fuel w.heap nbytes)
      (h, .ret (taken s (nunits nbytes) + headerSize))) : Sound w oom nbytes := by
  have new : (⟨taken s (nunits nbytes), nunits nbytes, false⟩ : Seg) ∈
      allocated front s back (nunits nbytes) := (mem_allocated_used kind rfl).mpr (Or.inr rfl)
  have bounds := laid_bounds rep.laid new
  have size := rep.sizes _ new
  have positive := nunits_pos nbytes
  have room := nunits_room nbytes
  have stop : blockStop h (taken s (nunits nbytes) + headerSize) =
      taken s (nunits nbytes) + nunits nbytes * headerSize := by
    simp only [blockStop, Nat.add_sub_cancel]
    rw [size]
  refine ⟨h, _, returns, Or.inr ⟨?_, ?_, ?_, ?_⟩⟩
  · exact Nat.add_le_add_right bounds.1 _
  · rw [stop]
    simp only [headerSize] at room ⊢
    omega
  · rw [stop]
    have := bounds.2
    simp only [Seg.stop, headerSize] at this ⊢
    omega
  · intro a member
    obtain ⟨t, inSegs, used, address, -⟩ := inv.held a member
    have inside := (usedSame t used).mpr inSegs
    have tSize := rep.sizes t ((mem_allocated_used kind used).mpr (Or.inl inside))
    have stopT : blockStop h a.ptr ≤ t.stop := by
      simp only [blockStop, address, Nat.add_sub_cancel, tSize, Seg.stop, headerSize]
      omega
    rw [stop, address]
    simp only [Nat.add_sub_cancel]
    rcases taken_fresh laid kind positive fits inside used with before | after
    · exact Or.inr ((address ▸ stopT).trans before)
    · exact Or.inl after

end Xv6Lab.Umalloc
