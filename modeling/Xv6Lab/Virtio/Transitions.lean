import Mathlib.Order.Interval.Finset.Nat
import Xv6Lab.Virtio.Invariant

/-!
Each transition of a caller or of the device, on the rings and descriptors.
-/

namespace Xv6Lab.Virtio
open List
open Function (update update_eq_self update_of_ne update_self)

attribute [local grind cases] Wire Written AvailRing UsedRing Tickets Served Chains Formatted
attribute [local grind =] Function.update_apply

variable {d : Disk} {bufs : Nat → Buf} {req : Nat → Option Request} {dev : Device}
  {submitted : List Nat} {consumed c t c' b : Nat} {r : Request} {idx : Chain} {r' : Option Request}
  {phase : Phase} {transfer : Transfer} {free' : Nat → Bool}

theorem chainOf_update (req : Nat → Option Request) (c : Nat) (r : Option Request) :
    chainOf (update req c r) =
      update (chainOf req) c (r.bind (fun r => r.phase.chain)) := by
  funext c'
  by_cases same : c' = c
  · subst same
    simp [chainOf]
  · simp [chainOf, same]

theorem liveOf_update (req : Nat → Option Request) (c : Nat) (r : Option Request) :
    liveOf (update req c r) =
      update (liveOf req) c (r.filter (fun r => r.phase.ticket.isSome)) := by
  funext c'
  by_cases same : c' = c
  · subst same
    simp [liveOf]
  · simp [liveOf, same]

theorem update_cases {α : Type} {f : Nat → Option α} {r' r0 : α}
    (here : update f c (some r') c' = some r0) : (c' = c ∧ r0 = r') ∨ (c' ≠ c ∧ f c' = some r0) := by
  by_cases same : c' = c
  · subst same
    exact .inl ⟨rfl, by simpa using here.symm⟩
  · exact .inr ⟨same, by simpa [same] using here⟩

theorem chainOf_eq (here : req c = some r) : chainOf req c = r.phase.chain := by
  simp [chainOf, here]

theorem chainOf_keep (same : chainOf req c = r'.bind (fun r => r.phase.chain)) :
    chainOf (update req c r') = chainOf req := by
  rw [chainOf_update, ← same, update_eq_self]

theorem liveOf_keep (same : liveOf req c = r'.filter (fun r => r.phase.ticket.isSome)) :
    liveOf (update req c r') = liveOf req := by
  rw [liveOf_update, ← same, update_eq_self]

theorem liveOf_none (here : req c = some r) (unseen : r.phase.ticket = none) :
    liveOf req c = none := by
  simp [liveOf, here, unseen]

theorem liveOf_some (here : req c = some r) (seen : r.phase.ticket = some (idx, t)) :
    liveOf req c = some r := by
  simp [liveOf, here, seen]

theorem req_of_live (live : liveOf req c = some r) : req c = some r := by
  simp only [liveOf, Option.filter_eq_some_iff] at live
  exact live.1

theorem ticket_poll (polls : phase = .poll idx t) :
    phase.ticket = some (idx, t) := by rw [polls]; rfl

theorem live_of_poll (here : req c = some r) (polls : r.phase = .poll idx t) :
    liveOf req c = some r := liveOf_some here (ticket_poll polls)

theorem owns_head (here : req c = some r) (chain : r.phase.chain = some idx) :
    Owns (chainOf req) c idx.head :=
  ⟨idx, by rw [chainOf_eq here, chain], by simp [Chain.toList]⟩

theorem chain_of_formatted (formatted : phase.formatted = some idx) : phase.chain = some idx := by
  cases phase <;> simp_all [Phase.formatted, Phase.chain]

theorem formatted_of_ticket (ticket : phase.ticket = some (idx, t)) :
    phase.formatted = some idx := by
  cases phase <;> simp_all [Phase.formatted, Phase.ticket]

theorem Chains.apart {free : Nat → Bool} {chains : Nat → Option Chain} (inv : Chains free chains)
    {c i j : Nat} (different : c ≠ c') (mine : Owns chains c i) (other : Owns chains c' j) :
    i ≠ j := by
  intro same
  subst same
  exact different (inv.unique c c' i mine other)

section
variable (wire : Wire d bufs req dev submitted consumed)
include wire

theorem Wire.pending_head (pending : Pending dev submitted consumed t) :
    ∃ c r idx, req c = some r ∧ r.phase = .poll idx t ∧ (bufs r.b).disk = 1 ∧
      submitted[t]? = some idx.head := by
  obtain ⟨c, r, idx, live, polls, flag⟩ := wire.tickets.owner t pending
  exact ⟨c, r, idx, req_of_live live, polls, flag,
    wire.tickets.head c r idx t live (ticket_poll polls)⟩

theorem Wire.pending_card (heads : Finset Nat)
    (outside : ∀ head ∈ heads, ∃ c r idx, req c = some r ∧ r.phase.chain = some idx ∧
      r.phase.ticket = none ∧ idx.head = head)
    (tickets : Finset Nat) (pending : ∀ t ∈ tickets, Pending dev submitted consumed t) :
    tickets.card + heads.card ≤ NUM := by
  have apart : Disjoint (tickets.image (fun t => submitted.getD t 0)) heads := by
    rw [Finset.disjoint_left]
    intro head member other
    obtain ⟨t, inside, rfl⟩ := Finset.mem_image.mp member
    obtain ⟨c, r, idx, here, polls, -, entry⟩ := wire.pending_head (pending t inside)
    obtain ⟨c', r', idx', here', chain', unseen, head'⟩ := outside _ other
    have mine := owns_head here (chain_of_formatted (formatted_of_ticket (ticket_poll polls)))
    have theirs := owns_head here' chain'
    rw [head', getD_eq_getElem?_getD, entry, Option.getD_some] at theirs
    have same := wire.chains.unique c c' idx.head mine theirs
    subst same
    rw [here] at here'
    rw [← Option.some.inj here', ticket_poll polls] at unseen
    cases unseen
  have injective : Set.InjOn (fun t => submitted.getD t 0) tickets := by
    intro t inside t' inside' same
    obtain ⟨c, r, idx, here, polls, -, entry⟩ := wire.pending_head (pending t inside)
    obtain ⟨c', r', idx', here', polls', -, entry'⟩ := wire.pending_head (pending t' inside')
    have mine := owns_head here (chain_of_formatted (formatted_of_ticket (ticket_poll polls)))
    have theirs := owns_head here' (chain_of_formatted (formatted_of_ticket (ticket_poll polls')))
    simp only [getD_eq_getElem?_getD, entry, entry', Option.getD_some] at same
    rw [← same] at theirs
    have one := wire.chains.unique c c' idx.head mine theirs
    subst one
    rw [here] at here'
    rw [← Option.some.inj here', polls] at polls'
    exact (Phase.poll.inj polls').2
  have inside : tickets.image (fun t => submitted.getD t 0) ∪ heads ⊆ Finset.range NUM := by
    intro head member
    rw [Finset.mem_range]
    rcases Finset.mem_union.mp member with image | other
    · obtain ⟨t, inside, rfl⟩ := Finset.mem_image.mp image
      obtain ⟨c, r, idx, here, polls, -, entry⟩ := wire.pending_head (pending t inside)
      have mine := owns_head here (chain_of_formatted (formatted_of_ticket (ticket_poll polls)))
      simpa [getD_eq_getElem?_getD, entry] using wire.chains.inside c _ mine
    · obtain ⟨c, r, idx, here, chain, -, rfl⟩ := outside head other
      exact wire.chains.inside c _ (owns_head here chain)
  calc tickets.card + heads.card
      = (tickets.image (fun t => submitted.getD t 0) ∪ heads).card := by
        rw [Finset.card_union_of_disjoint apart, Finset.card_image_of_injOn injective]
    _ ≤ (Finset.range NUM).card := Finset.card_le_card inside
    _ = NUM := Finset.card_range NUM

theorem Wire.avail_spare (here : req c = some r) (chain : r.phase.chain = some idx)
    (unseen : r.phase.ticket = none) : submitted.length < dev.taken + NUM := by
  have bound := wire.pending_card {idx.head}
    (by
      intro head member
      exact ⟨c, r, idx, here, chain, unseen, (Finset.mem_singleton.mp member).symm⟩)
    (Finset.Ico dev.taken submitted.length) (fun t member => .inl (Finset.mem_Ico.mp member))
  simp only [Nat.card_Ico, Finset.card_singleton] at bound
  omega

theorem Wire.used_spare
    (served : transfer ∈ dev.served) : dev.completed.length < consumed + NUM := by
  have once := nodup_append.mp wire.tickets.once
  have dropped := (drop_sublist consumed dev.completed).map Transfer.ticket
  have member : transfer.ticket ∈ dev.served.map Transfer.ticket := mem_map_of_mem served
  have absent : transfer.ticket ∉ (dev.completed.drop consumed).map Transfer.ticket := by grind
  have bound := wire.pending_card ∅ (by simp)
    (transfer.ticket :: (dev.completed.drop consumed).map Transfer.ticket).toFinset
    (by
      intro t inside
      rcases mem_cons.mp (mem_toFinset.mp inside) with rfl | inside
      · exact .inr (.inr (.inl member))
      · exact .inr (.inr (.inr inside)))
  rw [toFinset_card_of_nodup (nodup_cons.mpr ⟨absent, once.2.1.sublist dropped⟩)] at bound
  simp only [length_cons, length_map, length_drop, Finset.card_empty] at bound
  omega

theorem Wire.arrive (idle : req c = none) (fresh : ∀ c' r, req c' = some r → r.b ≠ b)
    (blockno : Nat) (write : Bool) : Wire d (update bufs b { bufs b with blockno := blockno })
      (update req c (some ⟨b, write, .alloc⟩)) dev submitted consumed := by
  have chains : chainOf (update req c (some ⟨b, write, .alloc⟩)) = chainOf req :=
    chainOf_keep (by simp [chainOf, idle, Phase.chain])
  have live : liveOf (update req c (some ⟨b, write, .alloc⟩)) = liveOf req :=
    liveOf_keep (by simp [liveOf, idle, Phase.ticket, Option.filter])
  have flag : (fun b' => (update bufs b { bufs b with blockno := blockno } b').disk) =
      fun b' => (bufs b').disk := by grind
  refine ⟨chains ▸ wire.chains, ⟨?_, ?_, ?_⟩, ?_, wire.used, by rw [live, flag]; exact wire.tickets, ?_⟩
  · grind
  · intro c' r' idx here formatted
    rcases update_cases here with ⟨rfl, rfl⟩ | ⟨-, old⟩
    · cases formatted
    have was := wire.written.formatted c' r' idx old formatted
    refine ⟨was.head, was.data, was.status, was.info, ?_⟩
    rw [was.op]
    simp only [update_of_ne (fresh c' r' old)]
  · grind
  · refine ⟨wire.avail.idx, wire.avail.taken_le, ?_, wire.avail.window⟩
    intro c' r' chain here phase
    rcases update_cases here with ⟨rfl, rfl⟩ | ⟨-, old⟩
    · cases phase
    exact wire.avail.posted c' r' chain old phase
  · rw [live]
    refine ⟨wire.served.status, ?_⟩
    intro transfer member c' r' idx here ticket
    have carried := wire.served.carried transfer member c' r' idx here ticket
    simpa only [update_of_ne (fresh c' r' (req_of_live here))] using carried

end

section Groups
variable {free : Nat → Bool} {chains : Nat → Option Chain} {desc : Nat → Desc}
  {info : Nat → Info} {ops : Nat → BlkReq} {avail : Ring} {taken : Nat}

theorem Chains.allocate (inv : Chains free chains) (nothing : chains c = none)
    (nodup : idx.toList.Nodup) (inside : ∀ i ∈ idx.toList, i < NUM)
    (unused : ∀ i ∈ idx.toList, free i = true)
    (result : ∀ i, free' i = if i ∈ idx.toList then false else free i) :
    Chains free' (update chains c (some idx)) := by
  have owns : ∀ c' i, Owns (update chains c (some idx)) c' i ↔
      (c' = c ∧ i ∈ idx.toList) ∨ Owns chains c' i := by
    intro c' i
    by_cases same : c' = c
    · subst same
      simp [Owns, nothing]
    · simp [Owns, same]
  -- a descriptor that was free had no owner
  have unowned : ∀ i ∈ idx.toList, ∀ c', ¬ Owns chains c' i := by grind
  refine ⟨?_, ?_, ?_, ?_⟩
  · grind
  · grind
  · grind
  · intro i bound
    rw [result]
    by_cases member : i ∈ idx.toList
    · simp only [member, if_true, true_iff]
      exact ⟨c, (owns c i).mpr (.inl ⟨rfl, member⟩)⟩
    · rw [if_neg member, inv.busy_iff i bound]
      exact exists_congr fun c' => by rw [owns]; simp [member]

theorem Chains.retire (inv : Chains free chains) (mine : chains c = some idx)
    (result : ∀ i, free' i = if i ∈ idx.toList then true else free i) :
    Chains free' (update chains c none) := by
  have owns : ∀ c' i, Owns (update chains c none) c' i ↔
      c' ≠ c ∧ Owns chains c' i := by
    intro c' i
    by_cases same : c' = c
    · subst same
      simp [Owns]
    · simp [Owns, same]
  refine ⟨?_, fun c' i owned => inv.inside c' i ((owns c' i).mp owned).2, ?_, ?_⟩
  · grind
  · intro c1 c2 i first second
    exact inv.unique c1 c2 i ((owns c1 i).mp first).2 ((owns c2 i).mp second).2
  · intro i bound
    rw [result]
    by_cases member : i ∈ idx.toList
    · simp only [member, if_true, Bool.true_eq_false, false_iff, not_exists]
      intro c' owned
      obtain ⟨other, old⟩ := (owns c' i).mp owned
      exact other (inv.unique c' c i old ⟨idx, mine, member⟩)
    · rw [if_neg member, inv.busy_iff i bound]
      refine exists_congr fun c' => ?_
      rw [owns]
      refine ⟨fun old => ⟨?_, old⟩, And.right⟩
      rintro rfl
      obtain ⟨idx', chain, member'⟩ := old
      rw [mine] at chain
      exact member (Option.some.inj chain ▸ member')

theorem Written.advance (inv : Written desc info ops bufs req) (here : req c = some r)
    (formatted : ∀ idx, phase.formatted = some idx →
      Formatted desc info ops (fun b => (bufs b).blockno) r.b r.write idx)
    (flag : ∀ idx, phase = .post idx ∨ phase = .bump idx → (bufs r.b).disk = 1) :
    Written desc info ops bufs (update req c (some { r with phase := phase })) := by
  refine ⟨?_, ?_, ?_⟩
  · grind
  · grind
  · grind

theorem AvailRing.advance (inv : AvailRing avail req submitted taken)
    (other : ∀ s chain, r' = some s → s.phase ≠ .bump chain) :
    AvailRing avail (update req c r') submitted taken := by
  refine ⟨inv.idx, inv.taken_le, ?_, inv.window⟩
  intro c' s chain here phase
  by_cases same : c' = c
  · grind
  · rw [update_of_ne same] at here
    exact inv.posted c' s chain here phase

theorem Tickets.flag_congr {flag flag' : Nat → Nat} {live : Nat → Option Request}
    (inv : Tickets flag live dev submitted consumed)
    (same : ∀ c r, live c = some r → flag' r.b = flag r.b) :
    Tickets flag' live dev submitted consumed := by
  refine ⟨inv.head, inv.unique, ?_, ?_, inv.finished, inv.once, inv.below, inv.outstanding_head,
    inv.transfer_head⟩
  · grind
  · grind

theorem formatDesc_formatted (nodup : idx.toList.Nodup) (blockno : Nat → Nat) (b : Nat)
    (write : Bool) : Formatted (update (update (update desc idx.head (opDesc idx))
        idx.data (dataDesc idx b write)) idx.status (statusDesc idx))
      (update info idx.head ⟨some b, 0xff⟩)
      (update ops idx.head ⟨requestType write, 0, sectorOf (blockno b)⟩) blockno b write idx := by
  simp only [Chain.toList, nodup_cons, mem_cons, not_mem_nil, or_false,
    not_or] at nodup
  obtain ⟨⟨headData, headStatus⟩, dataStatus, -⟩ := nodup
  exact ⟨by simp [headData, headStatus], by simp [dataStatus], by simp, by simp, by simp⟩

theorem Formatted.frame {blockno blockno' : Nat → Nat} {write : Bool}
    (inv : Formatted desc info ops blockno b write idx) {desc' : Nat → Desc}
    {info' : Nat → Info} {ops' : Nat → BlkReq} (sameDesc : ∀ i ∈ idx.toList, desc' i = desc i)
    (sameInfo : (info' idx.head).b = (info idx.head).b) (sameOp : ops' idx.head = ops idx.head)
    (sameBlock : blockno' b = blockno b) : Formatted desc' info' ops' blockno' b write idx := by
  refine ⟨?_, ?_, ?_, by rw [sameInfo, inv.info], by rw [sameOp, inv.op, sameBlock]⟩
  · rw [sameDesc _ (by simp [Chain.toList]), inv.head]
  · rw [sameDesc _ (by simp [Chain.toList]), inv.data]
  · rw [sameDesc _ (by simp [Chain.toList]), inv.status]

end Groups

theorem Wire.transfer_owner (wire : Wire d bufs req dev submitted consumed)
    (member : transfer ∈ dev.served ∨ transfer ∈ dev.completed.drop consumed) :
    ∃ c r idx, req c = some r ∧ r.phase = .poll idx transfer.ticket ∧ (bufs r.b).disk = 1 ∧
      idx.head = transfer.head := by
  have pending : Pending dev submitted consumed transfer.ticket := by
    rcases member with served | completed
    · exact .inr (.inr (.inl (mem_map_of_mem served)))
    · exact .inr (.inr (.inr (mem_map_of_mem completed)))
  obtain ⟨c, r, idx, here, polls, flag, entry⟩ := wire.pending_head pending
  have head := wire.tickets.transfer_head transfer
    (member.imp_right (mem_of_mem_drop (i := consumed)))
  rw [entry] at head
  exact ⟨c, r, idx, here, polls, flag, Option.some.inj head⟩

theorem chain_of_poll (polls : phase = .poll idx t) : phase.chain = some idx := by rw [polls]; rfl

section
variable (wire : Wire d bufs req dev submitted consumed)
include wire

section
variable (here : req c = some r)
include here

theorem Wire.allocate (alloc : r.phase = .alloc) (nodup : idx.toList.Nodup)
    (inside : ∀ i ∈ idx.toList, i < NUM) (unused : ∀ i ∈ idx.toList, d.free i = true)
    {free : Nat → Bool} (result : ∀ i, free i = if i ∈ idx.toList then false else d.free i) :
    Wire { d with free := free } bufs
      (update req c (some { r with phase := .format idx })) dev submitted consumed := by
  have live : liveOf (update req c (some { r with phase := .format idx })) =
      liveOf req :=
    liveOf_keep (by simp [liveOf, here, alloc, Phase.ticket, Option.filter])
  refine ⟨?_, ?_, ?_, wire.used, live ▸ wire.tickets, live ▸ wire.served⟩
  · rw [chainOf_update]
    exact wire.chains.allocate (by rw [chainOf_eq here, alloc]; rfl) nodup inside unused result
  · exact wire.written.advance here (fun _ formatted => by cases formatted)
      (fun _ phase => by rcases phase with phase | phase <;> cases phase)
  · exact wire.avail.advance (by rintro s chain ⟨⟩; simp)

theorem Wire.format (phase : r.phase = .format idx) : Wire { d with
        ops := update d.ops idx.head ⟨requestType r.write, 0, sectorOf (bufs r.b).blockno⟩
        desc := update (update (update d.desc
          idx.head (opDesc idx)) idx.data (dataDesc idx r.b r.write)) idx.status (statusDesc idx)
        info := update d.info idx.head ⟨some r.b, 0xff⟩ }
      (update bufs r.b { bufs r.b with disk := 1 })
      (update req c (some { r with phase := .post idx })) dev submitted consumed := by
  have chain : r.phase.chain = some idx := by rw [phase]; rfl
  have mine : ∀ i ∈ idx.toList, Owns (chainOf req) c i :=
    fun i member => ⟨idx, by rw [chainOf_eq here, chain], member⟩
  have nodup := wire.chains.nodup c idx (by rw [chainOf_eq here, chain])
  have chains : chainOf (update req c (some { r with phase := .post idx })) =
      chainOf req := chainOf_keep (by simp [chainOf_eq here, phase, Phase.chain])
  have live : liveOf (update req c (some { r with phase := .post idx })) = liveOf req :=
    liveOf_keep (by simp [liveOf, here, phase, Phase.ticket, Option.filter])
  have blockno : (fun b => (update bufs r.b { bufs r.b with disk := 1 } b).blockno) =
      fun b => (bufs b).blockno := by grind
  have otherBuf : ∀ c' r', c' ≠ c → req c' = some r' → r'.b ≠ r.b := fun c' r' other old same =>
    other (wire.written.buf_unique c' c r' r old here same)
  have otherDesc : ∀ c' i, c' ≠ c → Owns (chainOf req) c' i → i ∉ idx.toList :=
    fun c' i other owned member => wire.chains.apart other owned (mine i member) rfl
  refine ⟨chains ▸ wire.chains, ⟨?_, ?_, ?_⟩, ?_, wire.used, ?_, ?_⟩
  · grind
  · intro c' r' idx' here' formatted
    rw [blockno]
    rcases update_cases here' with ⟨rfl, rfl⟩ | ⟨other, old⟩
    · obtain rfl : idx = idx' := Option.some.inj formatted
      exact formatDesc_formatted nodup (fun b => (bufs b).blockno) r.b r.write
    have outside : ∀ i ∈ idx'.toList, i ∉ idx.toList := fun i member =>
      otherDesc c' i other ⟨idx', by rw [chainOf_eq old, chain_of_formatted formatted], member⟩
    have head : idx'.head ≠ idx.head := fun same =>
      outside idx'.head (by simp [Chain.toList]) (by simp [Chain.toList, same])
    refine (wire.written.formatted c' r' idx' old formatted).frame ?_ ?_ ?_ rfl
    · intro i member
      have apart := outside i member
      simp only [Chain.toList, mem_cons, not_mem_nil, or_false, not_or] at apart
      simp [apart.1, apart.2.1, apart.2.2]
    · simp [head]
    · simp [head]
  · grind
  · exact wire.avail.advance (by rintro s chain ⟨⟩; simp)
  · rw [live]
    refine wire.tickets.flag_congr ?_
    intro c' r' seen
    have old := req_of_live seen
    by_cases same : c' = c
    · subst same
      rw [liveOf_none old (by rw [here] at old; rw [← Option.some.inj old, phase]; rfl)] at seen
      cases seen
    · simp [otherBuf c' r' same old]
  · rw [live, blockno]
    refine ⟨?_, wire.served.carried⟩
    intro transfer member
    obtain ⟨c', r', idx', old, polls, -, head⟩ := wire.transfer_owner member
    have other : c' ≠ c := by grind
    have apart : transfer.head ≠ idx.head := by
      rw [← head]
      exact wire.chains.apart other (owns_head old (chain_of_poll polls))
        (owns_head here chain)
    simp only [update_of_ne apart]
    exact wire.served.status transfer member

theorem Wire.post (phase : r.phase = .post idx)
    (alone : ∀ c' r', req c' = some r' → r'.phase.critical → c' = c) :
    Wire { d with avail := d.avail.push idx.head } bufs
      (update req c (some { r with phase := .bump idx })) dev submitted consumed := by
  have chains : chainOf (update req c (some { r with phase := .bump idx })) =
      chainOf req := chainOf_keep (by simp [chainOf_eq here, phase, Phase.chain])
  have live : liveOf (update req c (some { r with phase := .bump idx })) = liveOf req :=
    liveOf_keep (by simp [liveOf, here, phase, Phase.ticket, Option.filter])
  have slot : d.avail.idx % NUM = submitted.length % NUM := by
    rw [wire.avail.idx]
    simp only [NUM]
    omega
  refine ⟨chains ▸ wire.chains, ?_, ⟨wire.avail.idx, wire.avail.taken_le, ?_, ?_⟩, wire.used,
    live ▸ wire.tickets, live ▸ wire.served⟩
  · refine wire.written.advance here (fun idx' formatted => ?_) (fun _ _ => ?_)
    · exact wire.written.formatted c r idx' here (by rw [phase]; exact formatted)
    · exact wire.written.flag_set c r idx here (.inl phase)
  · intro c' r' chain here' bumps
    rcases update_cases here' with ⟨rfl, rfl⟩ | ⟨other, old⟩
    · obtain rfl : idx = chain := Phase.bump.inj bumps
      simp [Ring.push, slot]
    · exact absurd (alone c' r' old (by rw [bumps]; rfl)) other
  · intro t head later entry
    have spare := wire.avail_spare here (by rw [phase]; rfl) (by rw [phase]; rfl)
    have inside : t < submitted.length := (List.getElem?_eq_some_iff.mp entry).1
    have apart : t % NUM ≠ submitted.length % NUM := by
      simp only [NUM] at spare ⊢
      omega
    simp only [Ring.push, slot, update_of_ne apart]
    exact wire.avail.window t head later entry

theorem Wire.bump (phase : r.phase = .bump idx)
    (alone : ∀ c' r', req c' = some r' → r'.phase.critical → c' = c) :
    Wire { d with avail := d.avail.bump } bufs
      (update req c (some { r with phase := .poll idx submitted.length })) dev
      (submitted ++ [idx.head]) consumed := by
  have chains : chainOf (update req c
      (some { r with phase := .poll idx submitted.length })) = chainOf req :=
    chainOf_keep (by simp [chainOf_eq here, phase, Phase.chain])
  have live : liveOf (update req c (some { r with phase := .poll idx submitted.length })) =
      update (liveOf req) c (some { r with phase := .poll idx submitted.length }) := by
    rw [liveOf_update]
    simp [Phase.ticket, Option.filter]
  have unseen : liveOf req c = none := liveOf_none here (by rw [phase]; rfl)
  have old : ∀ (t head : Nat), submitted[t]? = some head →
      (submitted ++ [idx.head])[t]? = some head := by grind
  have bounded : ∀ c' r' chain t, liveOf req c' = some r' → r'.phase.ticket = some (chain, t) →
      t < submitted.length := fun c' r' chain t seen ticket =>
    (List.getElem?_eq_some_iff.mp (wire.tickets.head c' r' chain t seen ticket)).1
  have taken := wire.avail.taken_le
  refine ⟨chains ▸ wire.chains, ?_, ⟨?_, ?_, ?_, ?_⟩, wire.used,
    live ▸ ⟨?_, ?_, ?_, ?_, ?_, wire.tickets.once, wire.tickets.below, ?_, ?_⟩,
    live ▸ ⟨wire.served.status, ?_⟩⟩
  · refine wire.written.advance here (fun idx' formatted => ?_) (fun _ moved => ?_)
    · exact wire.written.formatted c r idx' here (by rw [phase]; exact formatted)
    · rcases moved with moved | moved <;> cases moved
  · simp only [Ring.bump, wire.avail.idx, length_append, length_singleton]
    omega
  · simp only [length_append, length_singleton]
    omega
  · intro c' r' chain here' bumps
    rcases update_cases here' with ⟨rfl, rfl⟩ | ⟨other, old⟩
    · cases bumps
    · exact absurd (alone c' r' old (by rw [bumps]; rfl)) other
  · intro t head later entry
    by_cases last : t < submitted.length
    · rw [getElem?_append_left last] at entry
      exact wire.avail.window t head later entry
    · have bound := (List.getElem?_eq_some_iff.mp entry).1
      simp only [length_append, length_singleton] at bound
      obtain rfl : t = submitted.length := by omega
      simp only [getElem?_concat_length, Option.some.injEq] at entry
      rw [← entry]
      exact wire.avail.posted c r idx here phase
  · intro c' r' chain t seen ticket
    rcases update_cases seen with ⟨rfl, rfl⟩ | ⟨other, seen⟩
    · simp only [Phase.ticket, Option.some.injEq, Prod.mk.injEq] at ticket
      rw [← ticket.1, ← ticket.2, getElem?_concat_length]
    · exact old t _ (wire.tickets.head c' r' chain t seen ticket)
  · intro c1 c2 r1 r2 chain1 chain2 t seen1 ticket1 seen2 ticket2
    rcases update_cases seen1 with ⟨rfl, rfl⟩ | ⟨-, old1⟩ <;>
      rcases update_cases seen2 with ⟨rfl, rfl⟩ | ⟨-, old2⟩
    · rfl
    · have bound := bounded c2 r2 chain2 t old2 ticket2
      simp only [Phase.ticket, Option.some.injEq, Prod.mk.injEq] at ticket1
      omega
    · have bound := bounded c1 r1 chain1 t old1 ticket1
      simp only [Phase.ticket, Option.some.injEq, Prod.mk.injEq] at ticket2
      omega
    · exact wire.tickets.unique c1 c2 r1 r2 chain1 chain2 t old1 ticket1 old2 ticket2
  · intro t pending
    by_cases last : t = submitted.length
    · subst last
      exact ⟨c, { r with phase := .poll idx submitted.length }, idx, update_self _ _ _, rfl,
        wire.written.flag_set c r idx here (.inr phase)⟩
    · have before : Pending dev submitted consumed t := by
        refine pending.imp_left fun inside => ?_
        simp only [length_append, length_singleton] at inside
        omega
      obtain ⟨c', r', chain, seen, polls, flag⟩ := wire.tickets.owner t before
      have other : c' ≠ c := by
        rintro rfl
        rw [unseen] at seen
        cases seen
      exact ⟨c', r', chain, by rw [update_of_ne other, seen], polls, flag⟩
  · intro c' r' chain t seen polls clear
    rcases update_cases seen with ⟨rfl, rfl⟩ | ⟨-, seen⟩
    · exact absurd (wire.written.flag_set c' r idx here (.inr phase)) clear
    · exact wire.tickets.polled c' r' chain t seen polls clear
  · grind
  · exact fun t head member => old t head (wire.tickets.outstanding_head t head member)
  · exact fun transfer member => old _ _ (wire.tickets.transfer_head transfer member)
  · intro transfer member c' r' chain seen ticket
    rcases update_cases seen with ⟨rfl, rfl⟩ | ⟨-, seen⟩
    · have inside : transfer.ticket ∈ dev.tickets := by
        rcases member with served | completed
        · exact mem_append_left _ (mem_append_right _ (mem_map_of_mem served))
        · exact mem_append_right _ (mem_map_of_mem completed)
      have below := wire.tickets.below _ inside
      simp only [Phase.ticket, Option.some.injEq, Prod.mk.injEq] at ticket
      omega
    · exact wire.served.carried transfer member c' r' chain seen ticket

theorem Wire.leave (phase : r.phase = .poll idx t) (clear : (bufs r.b).disk ≠ 1) :
    Wire d bufs (update req c (some { r with phase := .finish idx t })) dev submitted consumed := by
  have chains : chainOf (update req c (some { r with phase := .finish idx t })) =
      chainOf req := chainOf_keep (by simp [chainOf_eq here, phase, Phase.chain])
  have live : liveOf (update req c (some { r with phase := .finish idx t })) =
      update (liveOf req) c (some { r with phase := .finish idx t }) := by
    rw [liveOf_update]
    simp [Phase.ticket, Option.filter]
  have mine : liveOf req c = some r := live_of_poll here phase
  have ticket : r.phase.ticket = some (idx, t) := ticket_poll phase
  refine ⟨chains ▸ wire.chains, ?_, wire.avail.advance (by rintro s chain ⟨⟩; simp), wire.used,
    live ▸ ⟨?_, ?_, ?_, ?_, ?_, wire.tickets.once, wire.tickets.below,
      wire.tickets.outstanding_head, wire.tickets.transfer_head⟩,
    live ▸ ⟨wire.served.status, ?_⟩⟩
  · refine wire.written.advance here (fun idx' formatted => ?_) (fun _ moved => ?_)
    · exact wire.written.formatted c r idx' here (by rw [phase]; exact formatted)
    · rcases moved with moved | moved <;> cases moved
  · intro c' r' chain t' seen held
    rcases update_cases seen with ⟨rfl, rfl⟩ | ⟨-, seen⟩
    · exact wire.tickets.head c' r chain t' mine (by rw [ticket]; exact held)
    · exact wire.tickets.head c' r' chain t' seen held
  · intro c1 c2 r1 r2 chain1 chain2 t' seen1 held1 seen2 held2
    rcases update_cases seen1 with ⟨rfl, rfl⟩ | ⟨-, old1⟩ <;>
      rcases update_cases seen2 with ⟨rfl, rfl⟩ | ⟨-, old2⟩
    · rfl
    · exact wire.tickets.unique c1 c2 r r2 chain1 chain2 t' mine (by rw [ticket]; exact held1)
        old2 held2
    · exact wire.tickets.unique c1 c2 r1 r chain1 chain2 t' old1 held1 mine
        (by rw [ticket]; exact held2)
    · exact wire.tickets.unique c1 c2 r1 r2 chain1 chain2 t' old1 held1 old2 held2
  · intro t' pending
    obtain ⟨c', r', chain, seen, polls, flag⟩ := wire.tickets.owner t' pending
    have other : c' ≠ c := by grind
    exact ⟨c', r', chain, by rw [update_of_ne other, seen], polls, flag⟩
  · grind
  · grind
  · intro transfer member c' r' chain seen held
    rcases update_cases seen with ⟨rfl, rfl⟩ | ⟨-, seen⟩
    · exact wire.served.carried transfer member c' r chain mine (by rw [ticket]; exact held)
    · exact wire.served.carried transfer member c' r' chain seen held

theorem Wire.retire (phase : r.phase = .finish idx t) {desc : Nat → Desc} {free : Nat → Bool}
    {info : Nat → Info} (freed : ∀ i, free i = if i ∈ idx.toList then true else d.free i)
    (sameDesc : ∀ i, i ∉ idx.toList → desc i = d.desc i)
    (sameInfo : ∀ i, i ≠ idx.head → (info i).b = (d.info i).b)
    (sameStatus : ∀ i, (info i).status = (d.info i).status) :
    Wire { d with desc := desc, free := free, info := info } bufs
      (update req c none) dev submitted consumed := by
  have chain : chainOf req c = some idx := by rw [chainOf_eq here, phase]; rfl
  have old : ∀ {f : Nat → Option Request} {c' r'}, update f c none c' = some r' →
      c' ≠ c ∧ f c' = some r' := by grind
  have live : liveOf (update req c none) = update (liveOf req) c none :=
    liveOf_update _ _ _
  have outside : ∀ c' i, c' ≠ c → Owns (chainOf req) c' i → i ∉ idx.toList :=
    fun c' i other owned member => wire.chains.apart other owned ⟨idx, chain, member⟩ rfl
  refine ⟨?_, ⟨?_, ?_, ?_⟩, wire.avail.advance (by rintro s chain ⟨⟩), wire.used,
    live ▸ ⟨?_, ?_, ?_, ?_, ?_, wire.tickets.once, wire.tickets.below,
      wire.tickets.outstanding_head, wire.tickets.transfer_head⟩,
    live ▸ ⟨?_, ?_⟩⟩
  · rw [chainOf_update]
    exact wire.chains.retire chain freed
  · exact fun c1 c2 r1 r2 here1 here2 =>
      wire.written.buf_unique c1 c2 r1 r2 (old here1).2 (old here2).2
  · intro c' r' idx' here' formatted
    obtain ⟨other, before⟩ := old here'
    have apart : ∀ i ∈ idx'.toList, i ∉ idx.toList := fun i member =>
      outside c' i other ⟨idx', by rw [chainOf_eq before, chain_of_formatted formatted], member⟩
    refine (wire.written.formatted c' r' idx' before formatted).frame ?_ ?_ rfl rfl
    · exact fun i member => sameDesc i (apart i member)
    · exact sameInfo _ fun same =>
        apart idx'.head (by simp [Chain.toList]) (by simp [Chain.toList, same])
  · exact fun c' r' idx' here' => wire.written.flag_set c' r' idx' (old here').2
  · exact fun c' r' idx' t' seen => wire.tickets.head c' r' idx' t' (old seen).2
  · exact fun c1 c2 r1 r2 idx1 idx2 t' seen1 held1 seen2 =>
      wire.tickets.unique c1 c2 r1 r2 idx1 idx2 t' (old seen1).2 held1 (old seen2).2
  · intro t' pending
    obtain ⟨c', r', idx', seen, polls, flag⟩ := wire.tickets.owner t' pending
    have other : c' ≠ c := by
      rintro rfl
      have before := req_of_live seen
      rw [here] at before
      rw [← Option.some.inj before, phase] at polls
      cases polls
    exact ⟨c', r', idx', by rw [update_of_ne other, seen], polls, flag⟩
  · exact fun c' r' idx' t' seen => wire.tickets.polled c' r' idx' t' (old seen).2
  · exact fun c' r' idx' t' seen => wire.tickets.finished c' r' idx' t' (old seen).2
  · grind
  · exact fun transfer member c' r' idx' seen =>
      wire.served.carried transfer member c' r' idx' (old seen).2

end

theorem Wire.undo {desc : Nat → Desc} (same : ∀ i, i < NUM → d.free i = false → desc i = d.desc i) :
    Wire { d with desc := desc } bufs req dev submitted consumed := by
  refine ⟨wire.chains, ⟨wire.written.buf_unique, ?_, wire.written.flag_set⟩, wire.avail,
    wire.used, wire.tickets, wire.served⟩
  intro c r idx here formatted
  refine (wire.written.formatted c r idx here formatted).frame ?_ rfl rfl rfl
  intro i member
  have owned : Owns (chainOf req) c i :=
    ⟨idx, by rw [chainOf_eq here, chain_of_formatted formatted], member⟩
  have inside := wire.chains.inside c i owned
  exact same i inside ((wire.chains.busy_iff i inside).mpr ⟨c, owned⟩)

end
end Xv6Lab.Virtio
