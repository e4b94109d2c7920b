import Xv6Lab.Umalloc.Runs

namespace Xv6Lab.Umalloc
open List
open LinkedRing
variable {w : World} {segs : List Seg} {front : List Seg} {a : Alloc}

inductive Served (w : World) (segs : List Seg) (nbytes : Nat) (h : Heap) (p : Nat) :
    List Seg → Prop
  | refused (same : h = initialized w.heap) (zero : p = 0) : Served w segs nbytes h p segs
  | reused (front back : List Seg) (s : Seg) (shape : segs = front ++ s :: back)
      (kind : s.isFree = true) (fits : nunits nbytes ≤ s.size)
      (pointer : p = taken s (nunits nbytes) + headerSize) (size : h.sz = w.heap.sz) :
      Served w segs nbytes h p (allocated front s back (nunits nbytes))
  | grown (nu : Nat) (positive : 0 < nu) (uint : nu < 2^27) (front : List Seg) (s : Seg)
      (small : ∀ t ∈ segs, t.isFree = true → t.size < nu)
      (shape : released segs ⟨w.heap.sz, nu, false⟩ [] = front ++ [s])
      (kind : s.isFree = true) (fits : nunits nbytes ≤ s.size)
      (pointer : p = taken s (nunits nbytes) + headerSize)
      (size : h.sz = w.heap.sz + nu * headerSize) :
      Served w segs nbytes h p (allocated front s [] (nunits nbytes))

theorem inv_initialized (inv : Inv w segs) (nbytes : Nat) :
    Inv (w.afterMalloc (initialized w.heap) 0 nbytes) segs := by
  have rep := inv.rep
  refine ⟨?_, inv.held, inv.used, inv.distinct, fun zero => absurd zero (freep_ne_zero rep)⟩
  show Rep w.start (initialized w.heap).sz (initialized (initialized w.heap)) segs
  rw [initialized_of_rep rep, initialized_sz]
  exact rep

theorem laid_grown {lo hi nu : Nat} {s : Seg} (laid : Laid lo hi segs)
    (uint : nu < 2^31) (small : ∀ t ∈ segs, t.isFree = true → t.size < 2^31) (positive : 0 < nu)
    (shape : released segs ⟨hi, nu, false⟩ [] = front ++ [s]) :
    Laid lo (hi + nu * headerSize) (front ++ [s]) := by
  rcases eq_nil_or_concat segs with rfl | ⟨init, f, rfl⟩
  · have start := laid
    rw [← shape]
    refine ⟨start, ?_⟩
    simp only [joinUpper, Laid, Seg.stop, headerSize]
    omega
  · rw [concat_eq_append] at *
    have inner := laid_append.mp laid
    rw [← shape]
    by_cases merge : f.isFree = true ∧ f.addr + f.size * headerSize = hi
    · have := small f (by simp) merge.1
      rw [released_merge merge.1 merge.2, laid_append]
      refine ⟨inner.1, ?_⟩
      have adjacent := merge.2
      simp only [joinUpper, Laid, Seg.stop, headerSize] at adjacent ⊢
      rw [Nat.mod_eq_of_lt (by omega)]
      omega
    · rw [released_keep]
      · show Laid lo _ ((init ++ [f]) ++ [_])
        rw [laid_append]
        refine ⟨laid, ?_⟩
        simp only [joinUpper, Laid, Seg.stop, headerSize]
        omega
      · intro front last shape kind adjacent
        have parts := append_inj' shape rfl
        have same : f = last := by simpa using parts.2
        subst same
        exact merge ⟨kind, adjacent⟩

theorem malloc_serves (inv : Inv w segs) (oom : Bool) (nbytes : Nat)
    (representable : Representable w oom nbytes) :
    ∃ h p segs', Returns (fun fuel => malloc oom fuel w.heap nbytes) (h, .ret p) ∧
      Inv (w.afterMalloc h p nbytes) segs' ∧ Served w segs nbytes h p segs' ∧
      Sound w oom nbytes := by
  have positive := nunits_pos nbytes
  have rep := inv.rep
  have repSz : Rep w.start (initialized w.heap).sz (initialized w.heap) segs := by
    rw [initialized_sz]
    exact rep
  by_cases fits : ∃ p ∈ nodes (initialized w.heap).base segs,
      nunits nbytes ≤ (initialized w.heap).size p
  · obtain ⟨front, s, back, h, rfl, kind, large, rep', -, size, run⟩ :=
      mallocLoop_carves rep oom positive fits
    rw [initialized_sz] at size
    rw [← size] at rep'
    have returns : Returns (fun fuel => malloc oom fuel w.heap nbytes)
        (h, .ret (taken s (nunits nbytes) + headerSize)) := run
    have same : ∀ t : Seg, t.isFree = false → (t ∈ front ++ s :: back ↔ t ∈ front ++ s :: back) :=
      fun _ _ => Iff.rfl
    exact ⟨h, _, _, returns, inv_of_carve inv kind large rep.laid same rep',
      .reused front back s rfl kind large rfl size,
      sound_of_carve inv kind large rep.laid same rep' returns⟩
  · have small : ∀ p ∈ nodes (initialized w.heap).base segs,
        (initialized w.heap).size p < nunits nbytes := by
      intro p member
      by_contra large
      exact fits ⟨p, member, by omega⟩
    obtain ⟨nu, amount⟩ : ∃ nu, nu = if nunits nbytes < 4096 then 4096 else nunits nbytes := ⟨_, rfl⟩
    have refusedCase : growproc oom w.heap.sz (toInt (nu * headerSize)) = none →
        ∃ h p segs', Returns (fun fuel => malloc oom fuel w.heap nbytes) (h, .ret p) ∧
          Inv (w.afterMalloc h p nbytes) segs' ∧ Served w segs nbytes h p segs' ∧
          Sound w oom nbytes := by
      intro refused
      rw [← initialized_sz] at refused
      have returns := mallocLoop_fails repSz oom amount small refused
      exact ⟨_, 0, segs, returns, inv_initialized inv nbytes, .refused rfl rfl,
        _, 0, returns, Or.inl ⟨rfl, by simp⟩⟩
    rcases representable with ⟨p, onList, large⟩ | fitsInt | ⟨last, refused⟩
    · exact absurd ⟨p, (onList_iff rep p).mp onList, large⟩ fits
    · have nuSmall : nu < 2^27 ∧ 0 < nu ∧ nunits nbytes ≤ nu := by
        rw [amount]
        split <;> omega
      have sizes : ∀ t ∈ segs, t.isFree = true → t.size < nu := by
        intro t member kind
        have := small t.addr (mem_cons_of_mem _ (mem_freeAddrs.mpr ⟨t, member, kind, rfl⟩))
        rw [rep.sizes t member] at this
        omega
      rcases growproc_positive oom w.heap.sz nu nuSmall.2.1 nuSmall.1 with refused | granted
      · exact refusedCase refused
      · rw [← initialized_sz] at granted
        have mapped : (initialized w.heap).sz + headerSize ≤
            pgRoundUp ((initialized w.heap).sz + nu * headerSize) := by
          refine le_trans ?_ (pgRoundUp_le _)
          simp only [headerSize]
          omega
        obtain ⟨front, s, h, shape, kind, large, -, rep', -, size, returns⟩ :=
          mallocLoop_grows repSz oom positive amount (by omega) small granted mapped
        rw [← size] at rep'
        rw [initialized_sz] at shape size
        have laid := laid_grown rep.laid (by omega)
          (fun t member kind => by have := sizes t member kind; omega) nuSmall.2.1 shape
        have same : ∀ t : Seg, t.isFree = false → (t ∈ front ++ [s] ↔ t ∈ segs) := by
          intro t used
          rw [← shape, mem_released_used used]
          simp
        exact ⟨h, _, _, returns, inv_of_carve inv kind large laid same rep',
          .grown nu nuSmall.2.1 nuSmall.1 front s sizes shape kind large rfl size,
          sound_of_carve inv kind large laid same rep' returns⟩
    · refine refusedCase ?_
      have equal : nu = nunits nbytes := by
        rw [amount, if_neg (by omega)]
      have value : toInt (nu * headerSize) = headerSize := by
        rw [equal, last]
        decide
      rw [value]
      exact refused

theorem malloc_unsound (inv : Inv w segs) (oom : Bool) (nbytes : Nat)
    (uint : nbytes < 2^32) (not : ¬ Representable w oom nbytes) : ¬ Sound w oom nbytes := by
  have positive := nunits_pos nbytes
  have bound := nunits_le uint
  have rep := inv.rep
  have repSz : Rep w.start (initialized w.heap).sz (initialized w.heap) segs := by
    rw [initialized_sz]
    exact rep
  simp only [Representable, not_or, not_lt] at not
  obtain ⟨noFit, large, noRefusal⟩ := not
  have small : ∀ p ∈ nodes (initialized w.heap).base segs,
      (initialized w.heap).size p < nunits nbytes := by
    intro p member
    by_contra fits
    exact noFit ⟨p, (onList_iff rep p).mpr member, by omega⟩
  have amount : nunits nbytes = if nunits nbytes < 4096 then 4096 else nunits nbytes := by
    rw [if_neg (by omega)]
  have wrapped := growproc_wrapped oom w.heap.sz (nunits nbytes) large bound
  rcases wrapped with ⟨sz, short, granted⟩ | refused
  · rw [← initialized_sz] at granted
    rintro ⟨h, p, returns, contract⟩
    by_cases mapped : (initialized w.heap).sz + headerSize ≤ pgRoundUp sz
    · obtain ⟨front, s, h', -, -, fits, last, -, -, size, returns'⟩ :=
        mallocLoop_grows repSz oom positive amount (by omega) small granted mapped
      have same := returns_unique returns returns'
      have pointer : p = taken s (nunits nbytes) + headerSize := by
        have := congrArg Prod.snd same
        simpa using this
      have heap : h = h' := congrArg Prod.fst same
      have address : taken s (nunits nbytes) = w.heap.sz := by
        rw [initialized_sz] at last
        simp only [taken, headerSize] at last ⊢
        omega
      have positiveBytes : 0 < nbytes := by
        by_contra zero
        have : nbytes = 0 := by omega
        subst this
        revert large
        decide
      subst heap
      rw [size] at contract
      rcases contract with ⟨zero, -⟩ | ⟨-, room, inside, -⟩
      · simp only [headerSize] at pointer
        omega
      · simp only [headerSize] at pointer short
        omega
    · have same := returns_unique returns (mallocLoop_faults repSz oom amount small granted mapped)
      cases congrArg Prod.snd same
  · exact absurd refused noRefusal

theorem initialized_of_held (inv : Inv w segs)
    (held : a ∈ w.live) : initialized w.heap = w.heap := by
  unfold initialized
  split
  · rename_i zero
    rw [inv.fresh zero] at held
    cases held
  · rfl

theorem free_block {back : List Seg} {b : Seg}
    (inv : Inv w (front ++ b :: back)) (used : b.isFree = false) (held : a ∈ w.live)
    (address : a.ptr = b.addr + headerSize) : ∃ h, Returns (fun fuel => free fuel w.heap a.ptr) h ∧
      Inv (w.afterFree h a) (released front b back) ∧ h.sz = w.heap.sz := by
  have rep := inv.rep
  rw [initialized_of_held inv held] at rep
  obtain ⟨h, run, rep', -, size, -⟩ := free_spec rep used
  rw [← size] at rep'
  refine ⟨h, ?_, inv_of_free inv held address rep', size⟩
  rw [address]
  exact run

theorem free_serves (inv : Inv w segs) (a : Alloc) (held : a ∈ w.live) :
    ∃ front b back h, segs = front ++ b :: back ∧ b.isFree = false ∧
      a.ptr = b.addr + headerSize ∧ b.size = nunits a.nbytes ∧
      Returns (fun fuel => free fuel w.heap a.ptr) h ∧
      Inv (w.afterFree h a) (released front b back) ∧ h.sz = w.heap.sz := by
  obtain ⟨b, member, used, address, units⟩ := inv.held a held
  obtain ⟨front, back, rfl⟩ := append_of_mem member
  obtain ⟨h, returns, inv', size⟩ := free_block inv used held address
  exact ⟨front, b, back, h, rfl, used, address, units, returns, inv', size⟩

theorem inv_exec {heap : Heap} (fresh : heap.freep = 0)
    (low : 0 < heap.base ∧ heap.base + headerSize ≤ heap.sz) : Inv ⟨heap, heap.sz, []⟩ [] :=
  ⟨initialized_rep fresh low le_rfl, by simp, by simp, nodup_nil, fun _ => rfl⟩

theorem run_inv {ask : World → Bool → Nat → Prop} {give : World → Alloc → Prop}
    (asks : ∀ w oom nbytes, ask w oom nbytes → Representable w oom nbytes)
    (run : Run ask give w) : ∃ segs, Inv w segs := by
  induction run with
  | exec heap fresh low => exact ⟨[], inv_exec fresh low⟩
  | malloc run oom nbytes uint asked h p returns ih =>
    obtain ⟨segs, inv⟩ := ih
    obtain ⟨h', p', segs', returns', inv', -, -⟩ :=
      malloc_serves inv oom nbytes (asks _ _ _ asked)
    have same := returns_unique returns returns'
    simp only [Prod.mk.injEq, Outcome.ret.injEq] at same
    obtain ⟨rfl, rfl⟩ := same
    exact ⟨segs', inv'⟩
  | free run a held given h returns ih =>
    obtain ⟨segs, inv⟩ := ih
    obtain ⟨front, b, back, h', -, -, -, -, returns', inv', -⟩ := free_serves inv a held
    obtain rfl := returns_unique returns returns'
    exact ⟨_, inv'⟩

/-- `malloc` keeps its contract on exactly the representable requests: the sizes that `int`
mangles are handed out although the process never got the memory. -/
theorem malloc_sound_iff_representable (w : World) (run : Run Representable (fun _ _ => True) w)
    (oom : Bool) (nbytes : Nat) (uint : nbytes < 2^32) :
    Sound w oom nbytes ↔ Representable w oom nbytes := by
  obtain ⟨segs, inv⟩ := run_inv (fun _ _ _ asked => asked) run
  constructor
  · intro sound
    by_contra not
    exact malloc_unsound inv oom nbytes uint not sound
  · intro representable
    obtain ⟨-, -, -, -, -, -, sound⟩ := malloc_serves inv oom nbytes representable
    exact sound

inductive Call where
  | malloc (nbytes : Nat)
  | free (p : Nat)
  deriving DecidableEq, Repr

/-- A call while `uvmalloc` has pages. The free list of the runs below is short, so little
fuel is enough. -/
def World.call (w : World) : Call → Option World
  | .malloc nbytes =>
    match malloc false 8 w.heap nbytes with
    | some (h, .ret p) => some (w.afterMalloc h p nbytes)
    | _ => none
  | .free p => do
    let a ← w.live.find? (·.ptr = p)
    let h ← free 8 w.heap a.ptr
    some (w.afterFree h a)

def World.calls (top : Nat) : World → List Call → Option World
  | w, [] => some w
  | w, c :: rest => if w.heap.sz < top then (w.call c).bind (·.calls top rest) else none

section Calls
variable {ask : World → Bool → Nat → Prop} {give : World → Alloc → Prop} {w' : World}

theorem run_call {c : Call} (run : Run ask give w)
    (asked : ∀ nbytes, c = .malloc nbytes → nbytes < 2^32 ∧ ask w false nbytes)
    (given : ∀ a ∈ w.live, give w a) (result : w.call c = some w') : Run ask give w' := by
  cases c with
  | malloc nbytes =>
    obtain ⟨uint, asked⟩ := asked nbytes rfl
    simp only [World.call] at result
    split at result
    · rename_i h p ran
      cases result
      exact run.malloc false nbytes uint asked h p (returns_of_succ 8 (fun _ => mallocLoop_succ) ran)
    · cases result
  | free p =>
    simp only [World.call, bind, Option.bind_eq_some_iff] at result
    obtain ⟨a, found, h, freed, same⟩ := result
    cases same
    have held := mem_of_find?_eq_some found
    exact run.free a held (given a held) h (returns_of_succ 8 (fun _ => free_succ) freed)

theorem run_calls {top : Nat} {calls : List Call}
    (asked : ∀ w nbytes, .malloc nbytes ∈ calls → nbytes < 2^32 ∧ ask w false nbytes)
    (given : ∀ w, Run ask give w → w.heap.sz < top → ∀ a ∈ w.live, give w a) (run : Run ask give w)
    (result : w.calls top calls = some w') : Run ask give w' := by
  induction calls generalizing w with
  | nil =>
    cases result
    exact run
  | cons c rest ih =>
    rw [World.calls, Option.ite_none_right_eq_some, Option.bind_eq_some_iff] at result
    obtain ⟨small, next, first, later⟩ := result
    refine ih (fun w nbytes member => asked w nbytes (mem_cons_of_mem c member)) ?_ later
    exact run_call run (fun nbytes same => asked w nbytes (by simp [same])) (given w run small) first

end Calls

def freshWorld : World := ⟨⟨8192, fun _ => ⟨0, 0⟩, 0, 20480⟩, 20480, []⟩

theorem freshWorld_run (ask : World → Bool → Nat → Prop) (give : World → Alloc → Prop) :
    Run ask give freshWorld :=
  .exec ⟨8192, fun _ => ⟨0, 0⟩, 0, 20480⟩ rfl (by decide)

/-- One block is held between two free ones. -/
theorem malloc_sound_iff_representable_held :
    ∃ w, freshWorld.calls (2^34) [.malloc 100, .malloc 200, .free 85904] = some w ∧
      w.live = [⟨85680, 200⟩] ∧ Sound w false 100 := by
  have result : (freshWorld.calls (2^34) [.malloc 100, .malloc 200, .free 85904]).map World.live =
      some [⟨85680, 200⟩] := by decide +kernel
  obtain ⟨w, calls, live⟩ := Option.map_eq_some_iff.mp result
  have representable : ∀ w nbytes, nbytes < 2^30 → Representable w false nbytes := fun w nbytes small =>
    Or.inr (Or.inl (by simp only [nunits, headerSize]; omega))
  have run : Run Representable (fun _ _ => True) w := by
    refine run_calls ?_ (fun _ _ _ _ _ => trivial) (freshWorld_run _ _) calls
    intro w nbytes member
    have small : nbytes < 2^30 := by
      simp only [mem_cons, Call.malloc.injEq, reduceCtorEq, not_mem_nil, or_false] at member
      omega
    exact ⟨by omega, representable w nbytes small⟩
  exact ⟨w, calls, live, (malloc_sound_iff_representable w run false 100 (by decide)).mpr
    (representable w 100 (by decide))⟩

theorem malloc_unsound_at_uint_max :
    Run (fun _ _ _ => True) (fun _ _ => True) freshWorld ∧ ¬ Sound freshWorld false 0xffffffff := by
  refine ⟨freshWorld_run _ _, ?_⟩
  obtain ⟨segs, inv⟩ := run_inv (fun _ _ _ asked => asked) (freshWorld_run Representable (fun _ _ => True))
  have rep := initialized_rep (h := freshWorld.heap) rfl (by decide) le_rfl
  refine malloc_unsound inv false 0xffffffff (by decide) ?_
  rintro (⟨p, onList, large⟩ | small | refused)
  · have member := (onList_iff rep p).mp onList
    have base : p = 8192 := by simpa [nodes, freeAddrs, freshWorld] using member
    subst base
    revert large
    decide
  · revert small
    decide
  · revert refused
    decide

end Xv6Lab.Umalloc
