import Xv6Lab.Virtio.Transitions

/-!
The device and the interrupt handler keep the invariant of the rings.
-/

namespace Xv6Lab.Virtio
open List
open Function (update update_of_ne)

attribute [local grind cases] Wire Written AvailRing UsedRing Tickets Served Chains Formatted
attribute [local grind =] Function.update_apply

variable {d : Disk} {bufs : Nat → Buf} {req : Nat → Option Request} {dev : Device}
  {submitted : List Nat} {consumed t head : Nat} {transfer : Transfer} {idx : Chain}

theorem Wire.taken_lt (wire : Wire d bufs req dev submitted consumed)
    (more : dev.taken % 2 ^ 16 ≠ d.avail.idx) : dev.taken < submitted.length := by
  have bound := wire.avail.taken_le
  rw [wire.avail.idx] at more
  rcases Nat.lt_or_eq_of_le bound with less | same
  · exact less
  · rw [same] at more
    exact absurd rfl more

theorem Wire.take (wire : Wire d bufs req dev submitted consumed)
    (more : dev.taken % 2 ^ 16 ≠ d.avail.idx) :
    Wire d bufs req
      { dev with
        taken := dev.taken + 1
        outstanding := (dev.taken, d.avail.ring (dev.taken % NUM)) :: dev.outstanding }
      submitted consumed := by
  have less := wire.taken_lt more
  have entry : submitted[dev.taken]? = some (d.avail.ring (dev.taken % NUM)) := by grind
  have absent : dev.taken ∉ dev.tickets := fun member =>
    absurd (wire.tickets.below _ member) (lt_irrefl _)
  refine ⟨wire.chains, wire.written,
    ⟨wire.avail.idx, less, wire.avail.posted,
      fun t head later => wire.avail.window t head (Nat.le_of_succ_le later)⟩,
    wire.used,
    ⟨wire.tickets.head, wire.tickets.unique, ?_, wire.tickets.polled, wire.tickets.finished,
      nodup_cons.mpr ⟨absent, wire.tickets.once⟩, ?_, ?_, wire.tickets.transfer_head⟩,
    ⟨wire.served.status, wire.served.carried⟩⟩
  · intro t pending
    refine wire.tickets.owner t ?_
    rcases pending with ⟨later, inside⟩ | outstanding | rest
    · exact .inl ⟨by simp only at later; omega, inside⟩
    · rcases mem_cons.mp outstanding with rfl | older
      · exact .inl ⟨le_rfl, less⟩
      · exact .inr (.inl older)
    · exact .inr (.inr rest)
  · intro t member
    rcases mem_cons.mp member with rfl | older
    · exact Nat.lt_succ_self _
    · exact Nat.lt_succ_of_lt (wire.tickets.below t older)
  · grind

theorem readChain_formatted {blockno : Nat → Nat} {b : Nat} {write : Bool}
    (formatted : Formatted d.desc d.info d.ops blockno b write idx) (ticket : Nat) :
    readChain d ticket idx.head =
      some (⟨ticket, idx.head, requestType write, sectorOf (blockno b), b⟩, idx.head) := by
  unfold readChain
  simp only [formatted.head, opDesc, formatted.data, dataDesc, formatted.status, statusDesc,
    formatted.op]
  cases write <;> rfl

theorem Wire.outstanding_chain (wire : Wire d bufs req dev submitted consumed)
    (member : (t, head) ∈ dev.outstanding) :
    ∃ c r idx, req c = some r ∧ r.phase = .poll idx t ∧ idx.head = head ∧
      readChain d t head =
        some (⟨t, head, requestType r.write, sectorOf (bufs r.b).blockno, r.b⟩, head) := by
  have pending : Pending dev submitted consumed t := .inr (.inl (mem_map_of_mem member))
  obtain ⟨c, r, idx, here, polls, -, entry⟩ := wire.pending_head pending
  rw [wire.tickets.outstanding_head t head member] at entry
  obtain rfl : head = idx.head := Option.some.inj entry
  exact ⟨c, r, idx, here, polls, rfl, readChain_formatted
    (wire.written.formatted c r idx here (formatted_of_ticket (ticket_poll polls))) t⟩

theorem Tickets.shift {flag : Nat → Nat} {live : Nat → Option Request} {dev' : Device}
    (inv : Tickets flag live dev submitted consumed) (taken : dev'.taken = dev.taken)
    (perm : dev'.tickets.Perm dev.tickets)
    (pending : ∀ t, Pending dev' submitted consumed t → Pending dev submitted consumed t)
    (completed : dev.completed ⊆ dev'.completed) (outstanding : dev'.outstanding ⊆ dev.outstanding)
    (transfers : ∀ transfer, transfer ∈ dev'.served ∨ transfer ∈ dev'.completed →
      submitted[transfer.ticket]? = some transfer.head) :
    Tickets flag live dev' submitted consumed := by
  refine ⟨inv.head, inv.unique, fun t member => inv.owner t (pending t member), ?_, ?_,
    perm.nodup_iff.mpr inv.once, ?_, ?_, transfers⟩
  · intro c r idx t here polls clear
    exact map_subset _ completed (inv.polled c r idx t here polls clear)
  · intro c r idx t here done
    exact map_subset _ completed (inv.finished c r idx t here done)
  · grind
  · exact fun t head member => inv.outstanding_head t head (outstanding member)

section
variable (wire : Wire d bufs req dev submitted consumed)
include wire

theorem Wire.serve {j : Nat} (member : (t, head) ∈ dev.outstanding)
    (read : readChain d t head = some (transfer, j)) :
    Wire { d with info := update d.info j { d.info j with status := 0 } } bufs req { dev with
        outstanding := dev.outstanding.erase (t, head)
        served := transfer :: dev.served } submitted consumed := by
  obtain ⟨c, r, idx, here, polls, sameHead, found⟩ := wire.outstanding_chain member
  rw [found] at read
  obtain ⟨rfl, rfl⟩ := Prod.mk.inj (Option.some.inj read)
  have erased := perm_cons_erase member
  have infoB : ∀ i, (update d.info head { d.info head with status := 0 } i).b =
      (d.info i).b := by grind
  have transferHead : submitted[t]? = some head := wire.tickets.outstanding_head t head member
  refine ⟨wire.chains, ⟨wire.written.buf_unique, ?_, wire.written.flag_set⟩,
    ⟨wire.avail.idx, wire.avail.taken_le, wire.avail.posted, wire.avail.window⟩,
    wire.used, ?_, ⟨?_, ?_⟩⟩
  · intro c' r' idx' here' formatted
    exact (wire.written.formatted c' r' idx' here' formatted).frame (fun _ _ => rfl)
      (infoB idx'.head) rfl rfl
  · refine wire.tickets.shift rfl ?_ ?_ (List.Subset.refl _) erase_subset ?_
    · refine List.Perm.append_right _ (perm_middle.trans ?_)
      exact List.Perm.append_right _ (erased.map Prod.fst).symm
    · rintro t' (queued | outstanding | served | completed)
      · exact .inl queued
      · exact .inr (.inl ((erase_sublist.map Prod.fst).subset outstanding))
      · rcases mem_cons.mp served with rfl | older
        · exact .inr (.inl (mem_map_of_mem member))
        · exact .inr (.inr (.inl older))
      · exact .inr (.inr (.inr completed))
    · grind
  · grind
  · intro transfer where_ c' r' idx' seen ticket
    rcases where_ with served | completed
    · rcases mem_cons.mp served with rfl | older
      · have same := wire.tickets.unique c' c r' r idx' idx t seen ticket
          (live_of_poll here polls) (ticket_poll polls)
        subst same
        have one := req_of_live seen
        rw [here] at one
        rw [← Option.some.inj one]
        exact ⟨rfl, rfl, rfl⟩
      · exact wire.served.carried transfer (.inl older) c' r' idx' seen ticket
    · exact wire.served.carried transfer (.inr completed) c' r' idx' seen ticket

theorem Wire.complete (member : transfer ∈ dev.served) :
    Wire { d with used := (d.used.push transfer.head).bump } bufs req { dev with
        served := dev.served.erase transfer
        completed := dev.completed ++ [transfer] } submitted consumed := by
  have erased := perm_cons_erase member
  have slot : d.used.idx % NUM = dev.completed.length % NUM := by
    rw [wire.used.idx]
    simp only [NUM]
    omega
  have bound := wire.used.consumed_le
  have dropped : (dev.completed ++ [transfer]).drop consumed =
      dev.completed.drop consumed ++ [transfer] := drop_append_of_le_length bound
  refine ⟨wire.chains, wire.written,
    ⟨wire.avail.idx, wire.avail.taken_le, wire.avail.posted, wire.avail.window⟩,
    ⟨?_, wire.used.usedIdx, ?_, ?_⟩, ?_, ⟨?_, ?_⟩⟩
  · simp only [Ring.bump, Ring.push, wire.used.idx, length_append, length_singleton]
    omega
  · simp only [length_append, length_singleton]
    omega
  · intro k entry later found
    by_cases last : k < dev.completed.length
    · rw [getElem?_append_left last] at found
      have spare := wire.used_spare member
      have apart : k % NUM ≠ dev.completed.length % NUM := by
        simp only [NUM] at spare ⊢
        omega
      simp only [Ring.bump, Ring.push, slot, update_of_ne apart]
      exact wire.used.window k entry later found
    · have inside := (List.getElem?_eq_some_iff.mp found).1
      simp only [length_append, length_singleton] at inside
      obtain rfl : k = dev.completed.length := by omega
      simp only [getElem?_concat_length, Option.some.injEq] at found
      simp [Ring.bump, Ring.push, slot, found]
  · refine wire.tickets.shift rfl ?_ ?_ (subset_append_left _ _) (List.Subset.refl _) ?_
    · simp only [Device.tickets, map_append, map_cons, map_nil, append_assoc]
      refine List.Perm.append_left _ ?_
      rw [← append_assoc]
      refine perm_append_singleton _ _ |>.trans ?_
      exact ((erased.map Transfer.ticket).append_right _).symm
    · rintro t (queued | outstanding | served | completed)
      · exact .inl queued
      · exact .inr (.inl outstanding)
      · exact .inr (.inr (.inl ((erase_sublist.map Transfer.ticket).subset served)))
      · simp only [dropped, map_append, mem_append, map_cons, map_nil,
          mem_singleton] at completed
        rcases completed with older | rfl
        · exact .inr (.inr (.inr older))
        · exact .inr (.inr (.inl (mem_map_of_mem member)))
    · grind
  · grind
  · grind

theorem Wire.next_used (more : d.usedIdx ≠ d.used.idx) :
    ∃ transfer, dev.completed[consumed]? = some transfer ∧
      d.used.ring (d.usedIdx % NUM) = transfer.head ∧ (d.info transfer.head).status = 0 ∧
      ∃ c r idx, req c = some r ∧ r.phase = .poll idx transfer.ticket ∧ (bufs r.b).disk = 1 ∧
        idx.head = transfer.head ∧ (d.info transfer.head).b = some r.b := by
  have less : consumed < dev.completed.length := by grind
  have found := getElem?_eq_getElem less
  have waiting : dev.completed[consumed] ∈ dev.completed.drop consumed := by
    rw [drop_eq_getElem_cons less]
    exact mem_cons_self
  obtain ⟨c, r, idx, here, polls, flag, head⟩ := wire.transfer_owner (.inr waiting)
  refine ⟨_, found, ?_, wire.served.status _ (.inr waiting), c, r, idx, here, polls, flag, head, ?_⟩
  · rw [wire.used.usedIdx, ← wire.used.window consumed _ le_rfl found]
    simp only [NUM]
    congr 1
    omega
  · rw [← head]
    exact (wire.written.formatted c r idx here (formatted_of_ticket (ticket_poll polls))).info

theorem Wire.consume (found : dev.completed[consumed]? = some transfer) {c : Nat} {r : Request}
    (here : req c = some r) (polls : r.phase = .poll idx transfer.ticket) :
    Wire { d with usedIdx := (d.usedIdx + 1) % 2 ^ 16 }
      (update bufs r.b { bufs r.b with disk := 0 }) req dev submitted (consumed + 1) := by
  obtain ⟨less, entry⟩ := List.getElem?_eq_some_iff.mp found
  have dropped : dev.completed.drop consumed = transfer :: dev.completed.drop (consumed + 1) := by
    rw [drop_eq_getElem_cons less, entry]
  have blockno : (fun b => (update bufs r.b { bufs r.b with disk := 0 } b).blockno) =
      fun b => (bufs b).blockno := by grind
  have mine : liveOf req c = some r := live_of_poll here polls
  have otherBuf : ∀ c' r', c' ≠ c → req c' = some r' → r'.b ≠ r.b := fun c' r' other old same =>
    other (wire.written.buf_unique c' c r' r old here same)
  have member : transfer ∈ dev.completed := mem_of_getElem? found
  -- the ticket just consumed is nowhere else
  have gone : ¬ Pending dev submitted (consumed + 1) transfer.ticket := by
    have once := nodup_append.mp wire.tickets.once
    have last : transfer.ticket ∈ dev.completed.map Transfer.ticket := mem_map_of_mem member
    rintro (queued | outstanding | served | completed)
    · have below := wire.tickets.below _ (mem_append_right _ last)
      omega
    · exact once.2.2 _ (mem_append_left _ outstanding) _ last rfl
    · exact once.2.2 _ (mem_append_right _ served) _ last rfl
    · have window := once.2.1.sublist ((drop_sublist consumed dev.completed).map _)
      rw [dropped, map_cons] at window
      exact (nodup_cons.mp window).1 completed
  have before : ∀ t, Pending dev submitted (consumed + 1) t → Pending dev submitted consumed t := by
    rintro t (queued | outstanding | served | completed)
    · exact .inl queued
    · exact .inr (.inl outstanding)
    · exact .inr (.inr (.inl served))
    · refine .inr (.inr (.inr ?_))
      rw [dropped]
      exact mem_cons_of_mem _ completed
  refine ⟨wire.chains, ⟨wire.written.buf_unique, ?_, ?_⟩, wire.avail,
    ⟨wire.used.idx, ?_, less, fun k entry' later => wire.used.window k entry' (by omega)⟩,
    ⟨wire.tickets.head, wire.tickets.unique, ?_, ?_, wire.tickets.finished, wire.tickets.once,
      wire.tickets.below, wire.tickets.outstanding_head, wire.tickets.transfer_head⟩, ?_⟩
  · rw [blockno]
    exact wire.written.formatted
  · grind
  · simp only [wire.used.usedIdx]
    omega
  · intro t pending
    obtain ⟨c', r', idx', seen, polls', flag⟩ := wire.tickets.owner t (before t pending)
    have other : c' ≠ c := by grind
    refine ⟨c', r', idx', seen, polls', ?_⟩
    simpa only [update_of_ne (otherBuf c' r' other (req_of_live seen))] using flag
  · intro c' r' idx' t seen polls' clear
    by_cases same : c' = c
    · grind
    · simp only [update_of_ne (otherBuf c' r' same (req_of_live seen))] at clear
      exact wire.tickets.polled c' r' idx' t seen polls' clear
  · rw [blockno]
    refine ⟨?_, wire.served.carried⟩
    rintro other (served | completed)
    · exact wire.served.status other (.inl served)
    · grind

end
end Xv6Lab.Virtio
