import Xv6Lab.Virtio.DeviceSteps

/-!
alloc3_desc and free_chain under the invariant of the rings.
-/

namespace Xv6Lab.Virtio
open List
open Function (update update_apply update_comm update_eq_self update_idem update_of_ne)
variable {w : World} {i : Nat}

@[simp] theorem wake_toRequest (chan : Chan) (call : Call) :
    (call.wake chan).toRequest = call.toRequest := by
  unfold Call.wake
  split_ifs <;> rfl

@[simp] theorem wake_wake (chan : Chan) (call : Call) :
    (call.wake chan).wake chan = call.wake chan := by
  unfold Call.wake
  split_ifs <;> simp_all

@[simp] theorem wakeup_req (chan : Chan) (w : World) : (wakeup chan w).req = w.req := by
  funext c
  cases here : w.callers c <;> simp [World.req, wakeup, here]

theorem wakeup_again (chan : Chan) (w : World) (d : Disk) :
    wakeup chan { wakeup chan w with disk := d } = wakeup chan { w with disk := d } := by
  have callers : (fun c => ((w.callers c).map (Call.wake chan)).map (Call.wake chan)) =
      fun c => (w.callers c).map (Call.wake chan) := by
    funext c
    cases here : w.callers c <;> simp
  simp only [wakeup, callers]

def World.setFree (w : World) (free : Nat → Bool) : World :=
  { w with disk := { w.disk with free := free } }

def World.setDesc (w : World) (desc : Nat → Desc) : World :=
  { w with disk := { w.disk with desc := desc } }

open World (setFree setDesc)

theorem freeDesc_ok (inside : i < NUM) (busy : w.disk.free i = false) :
    freeDesc i w = .ok (wakeup .free ((w.setFree (update w.disk.free i true)).setDesc
      (update w.disk.desc i ⟨.null, 0, 0, 0⟩))) := by
  unfold freeDesc
  rw [if_neg (by omega), if_neg (by simp [busy])]
  rfl

theorem allocDesc_none (failed : allocDesc w = none) : freeCount w.disk.free = 0 := by
  unfold allocDesc at failed
  split at failed
  · cases failed
  · rename_i search
    refine Count.eq_zero_iff.mpr fun i inside => ?_
    simpa using find?_eq_none.mp search i (mem_range.mpr inside)

theorem allocDesc_some {w' : World} (found : allocDesc w = some (i, w')) :
    i < NUM ∧ w.disk.free i = true ∧ w' = w.setFree (update w.disk.free i false) ∧
      freeCount w'.disk.free + 1 = freeCount w.disk.free := by
  unfold allocDesc at found
  split at found
  · rename_i j search
    obtain ⟨rfl, rfl⟩ := Prod.mk.inj (Option.some.inj found)
    have inside : j < NUM := by simpa using mem_of_find?_eq_some search
    have unused := find?_some search
    exact ⟨inside, unused, rfl, Count.set_false inside unused⟩
  · cases found

/-- The undo of a failed alloc3_desc restores free[] and clears only
descriptors that were free. -/
inductive Undone (w : World) : World → Prop
  | untouched : Undone w w
  | woken (desc : Nat → Desc) (same : ∀ i, w.disk.free i = false → desc i = w.disk.desc i) :
      Undone w (wakeup .free (w.setDesc desc))

theorem update_restore {free : Nat → Bool} (unused : free i = true) :
    update (update free i false) i true = free := by
  rw [update_idem, ← unused, update_eq_self]

theorem undo_two {j : Nat} (inside1 : i < NUM) (inside2 : j < NUM)
    (unused1 : w.disk.free i = true) (unused2 : w.disk.free j = true) (apart : j ≠ i) :
    (do
      let w' ← freeDesc i ((w.setFree (update w.disk.free i false)).setFree
        (update (update w.disk.free i false) j false))
      let w' ← freeDesc j w'
      pure ((none : Option Chain), w')) =
    .ok (none, wakeup .free (w.setDesc (update (update w.disk.desc i
      ⟨.null, 0, 0, 0⟩) j ⟨.null, 0, 0, 0⟩))) := by
  have free : update (update (update (update w.disk.free
      i false) j false) i true) j true = w.disk.free := by
    rw [update_comm apart, update_restore (by simp [apart, unused2]),
      update_restore unused1]
  rw [freeDesc_ok inside1 (by simp [setFree, apart.symm])]
  simp only [bind, Except.bind]
  rw [freeDesc_ok inside2 (by simp [setFree, setDesc, wakeup, apart])]
  simp only [setFree, setDesc]
  rw [wakeup_again]
  simp only [wakeup, free]
  rfl

theorem alloc3Desc_spec (w : World) :
    (∃ idx free, alloc3Desc w = .ok (some idx, w.setFree free) ∧ idx.toList.Nodup ∧
      (∀ i ∈ idx.toList, i < NUM) ∧ (∀ i ∈ idx.toList, w.disk.free i = true) ∧
      (∀ i, free i = if i ∈ idx.toList then false else w.disk.free i) ∧
      freeCount free ≤ freeCount w.disk.free) ∨
    (∃ w', alloc3Desc w = .ok (none, w') ∧ Undone w w' ∧ freeCount w.disk.free < 3) := by
  unfold alloc3Desc
  cases first : allocDesc w with
  | none =>
    have count := allocDesc_none first
    exact .inr ⟨w, rfl, .untouched, by omega⟩
  | some entry =>
    obtain ⟨i, w1⟩ := entry
    obtain ⟨inside1, unused1, rfl, count1⟩ := allocDesc_some first
    dsimp only
    cases second : allocDesc (w.setFree (update w.disk.free i false)) with
    | none =>
      have count := allocDesc_none second
      refine .inr ⟨_, ?_, .woken (update w.disk.desc i ⟨.null, 0, 0, 0⟩) ?_, by omega⟩
      · simp only [freeDesc_ok inside1 (show
          (w.setFree (update w.disk.free i false)).disk.free i = false by
            simp [setFree])]
        simp only [setFree, setDesc, update_restore unused1, wakeup]
        rfl
      · intro j busy
        rw [update_of_ne (by rintro rfl; rw [unused1] at busy; cases busy)]
    | some entry =>
      obtain ⟨j, w2⟩ := entry
      obtain ⟨inside2, unused2, rfl, count2⟩ := allocDesc_some second
      simp only [setFree] at unused2
      have apart12 : j ≠ i := by
        rintro rfl
        simp at unused2
      rw [update_of_ne apart12] at unused2
      dsimp only
      cases third : allocDesc ((w.setFree (update w.disk.free i false)).setFree
          (update (w.setFree (update w.disk.free i false)).disk.free j false)) with
      | none =>
        have count := allocDesc_none third
        simp only [setFree] at count count1 count2
        refine .inr ⟨_, ?_, .woken (update (update w.disk.desc i
          ⟨.null, 0, 0, 0⟩) j ⟨.null, 0, 0, 0⟩) ?_, by omega⟩
        · exact undo_two inside1 inside2 unused1 unused2 apart12
        · intro k busy
          rw [update_of_ne (by rintro rfl; rw [unused2] at busy; cases busy),
            update_of_ne (by rintro rfl; rw [unused1] at busy; cases busy)]
      | some entry =>
        obtain ⟨k, w3⟩ := entry
        obtain ⟨inside3, unused3, rfl, count3⟩ := allocDesc_some third
        simp only [setFree] at unused3 count1 count2 count3
        have apart23 : k ≠ j := by
          rintro rfl
          simp at unused3
        have apart13 : k ≠ i := by
          rintro rfl
          simp [apart23] at unused3
        rw [update_of_ne apart23, update_of_ne apart13] at unused3
        refine .inl ⟨⟨i, j, k⟩, update (update (update w.disk.free
          i false) j false) k false, rfl, ?_, ?_, ?_, ?_, ?_⟩
        · simp [Chain.toList, apart12.symm, apart13.symm, apart23.symm]
        · simp [Chain.toList, inside1, inside2, inside3]
        · simp [Chain.toList, unused1, unused2, unused3]
        · intro m
          simp only [Chain.toList, mem_cons, not_mem_nil, or_false,
            update_apply]
          split_ifs <;> simp_all
        · omega

def freed (i : Nat) (w : World) : World :=
  wakeup .free ((w.setFree (update w.disk.free i true)).setDesc
    (update w.disk.desc i ⟨.null, 0, 0, 0⟩))

theorem freeChain_eq (inside : i < NUM) (busy : w.disk.free i = false) : freeChain i w =
      if (w.disk.desc i).flags &&& VRING_DESC_F_NEXT ≠ 0
      then freeChain (w.disk.desc i).next (freed i w) else .ok (freed i w) := by
  rw [freeChain]
  split
  · rename_i failed
    rw [freeDesc_ok inside busy] at failed
    cases failed
  · rename_i w' done
    rw [freeDesc_ok inside busy] at done
    rw [← Except.ok.inj done]
    rfl

theorem freeChain_spec {idx : Chain} {b : Nat} {write : Bool} (nodup : idx.toList.Nodup)
    (inside : ∀ i ∈ idx.toList, i < NUM) (busy : ∀ i ∈ idx.toList, w.disk.free i = false)
    (head : w.disk.desc idx.head = opDesc idx) (data : w.disk.desc idx.data = dataDesc idx b write)
    (status : w.disk.desc idx.status = statusDesc idx) :
    ∃ desc free, freeChain idx.head w = .ok (wakeup .free ((w.setFree free).setDesc desc)) ∧
      (∀ i, free i = if i ∈ idx.toList then true else w.disk.free i) ∧
      (∀ i, i ∉ idx.toList → desc i = w.disk.desc i) := by
  simp only [Chain.toList, nodup_cons, mem_cons, not_mem_nil, or_false,
    not_or] at nodup
  obtain ⟨⟨headData, headStatus⟩, dataStatus, -⟩ := nodup
  have second : (freed idx.head w).disk.desc idx.data = dataDesc idx b write := by
    simp [freed, setFree, setDesc, wakeup, Ne.symm headData, data]
  have third : (freed idx.data (freed idx.head w)).disk.desc idx.status = statusDesc idx := by
    simp [freed, setFree, setDesc, wakeup, Ne.symm headStatus, Ne.symm dataStatus,
      status]
  refine ⟨update (update (update w.disk.desc idx.head ⟨.null, 0, 0, 0⟩)
      idx.data ⟨.null, 0, 0, 0⟩) idx.status ⟨.null, 0, 0, 0⟩,
    update (update (update w.disk.free idx.head true)
      idx.data true) idx.status true, ?_, ?_, ?_⟩
  · have busyHead := busy idx.head (by simp [Chain.toList])
    have busyData : (freed idx.head w).disk.free idx.data = false := by
      simp [freed, setFree, setDesc, wakeup, Ne.symm headData,
        busy idx.data (by simp [Chain.toList])]
    have busyStatus : (freed idx.data (freed idx.head w)).disk.free idx.status = false := by
      simp [freed, setFree, setDesc, wakeup, Ne.symm headStatus, Ne.symm dataStatus,
        busy idx.status (by simp [Chain.toList])]
    have opLinks : (opDesc idx).flags &&& VRING_DESC_F_NEXT ≠ 0 := by
      simp only [opDesc]
      decide
    have dataLinks : (dataDesc idx b write).flags &&& VRING_DESC_F_NEXT ≠ 0 := by
      cases write <;> simp only [dataDesc] <;> decide
    have statusEnds : ¬ (statusDesc idx).flags &&& VRING_DESC_F_NEXT ≠ 0 := by
      simp only [statusDesc]
      decide
    rw [freeChain_eq (inside _ (by simp [Chain.toList])) busyHead, head, if_pos opLinks, opDesc,
      freeChain_eq (inside _ (by simp [Chain.toList])) busyData, second, if_pos dataLinks,
      dataDesc, freeChain_eq (inside _ (by simp [Chain.toList])) busyStatus, third,
      if_neg statusEnds]
    simp only [freed, setFree, setDesc]
    rw [wakeup_again, wakeup_again]
    simp only [wakeup]
  · intro i
    simp only [Chain.toList, mem_cons, not_mem_nil, or_false, update_apply]
    split_ifs <;> simp_all
  · intro i outside
    simp only [Chain.toList, mem_cons, not_mem_nil, or_false, not_or] at outside
    simp [outside.1, outside.2.1, outside.2.2]

end Xv6Lab.Virtio
