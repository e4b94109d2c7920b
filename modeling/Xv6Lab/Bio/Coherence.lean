import Xv6Lab.Bio.Steps
import Xv6Lab.Lib.Machine
import Xv6Lab.Mkfs.Model

/-!
The steps of the holder of a buf, and the coherence of the cache over whole runs.
-/

namespace Xv6Lab.Bio
open List
open Function (update update_apply update_of_ne update_self)

open DoublyLinked (IsRing)
variable {Data : Type} {tags : Tags} {image : Nat → Nat → Data} {w : World Data} {p b d n : Nat}

section
variable (inv : Inv tags image w)
include inv

theorem Inv.marked_setOp {o : Op} (other : ∀ b d n, o ≠ .mark b d n) (p' b d n : Nat)
    (marks : update w.op p o p' = .mark b d n) : w.data b = w.disk d n :=
  op_cases (P := fun _ o => ∀ b d n, o = .mark b d n → w.data b = w.disk d n)
    (fun b d n same => absurd same (other b d n)) (fun p' _ => inv.synced.marked p') p' b d n marks

theorem Inv.acquires (here : w.op p = .acquire b d n)
    (free : w.locked b = false) : Inv tags image ((lock p b w).setOp p (.check b d n)) := by
  have range := inv.users.op_pid p (by simp [here])
  refine ⟨inv.order, ?_, inv.tagged, ?_, inv.owned.acquire here free, inv.synced.clean, ?_,
    inv.synced.disk⟩
  · intro b' inside
    exact (inv.refcnt b' inside).trans (obtained_op_same (by rw [here]; rfl) b').symm
  · refine inv.users.setOp nofun ?_ nofun nofun (fun _ => range)
    rintro b' d' n' ⟨⟩
    exact inv.users.tag p b d n (by rw [here]; rfl)
  · exact inv.marked_setOp (by simp)

theorem Inv.marker_unique (taken : w.pid b = p) {p' d' n' : Nat}
    (marks : w.op p' = .mark b d' n') : p' = p :=
  (inv.owned.op_locked p' b (by rw [marks]; rfl)).2.symm.trans taken

theorem Inv.fills (here : w.op p = .fill b d n) :
    Inv tags image ((diskRead b w).setOp p (.mark b d n)) := by
  have range := inv.users.op_pid p (by simp [here])
  have tag := inv.users.tag p b d n (by rw [here]; rfl)
  have taken := inv.owned.op_locked p b (by rw [here]; rfl)
  refine ⟨inv.order, ?_, inv.tagged, ?_, inv.owned.setOp (by rw [here]; rfl) (by simp) (by simp),
    ?_, ?_, inv.synced.disk⟩
  · intro b' inside
    exact (inv.refcnt b' inside).trans (obtained_op_same (by rw [here]; rfl) b').symm
  · refine inv.users.setOp nofun ?_ nofun nofun (fun _ => range)
    rintro b' d' n' ⟨⟩
    exact tag
  · intro b' inside valid clean
    simp only [World.setOp, diskRead, update_apply]
    split_ifs with same
    · rw [same]
    · exact inv.synced.clean b' inside valid clean
  · refine op_cases (P := fun _ o => ∀ b' d' n', o = .mark b' d' n' →
      (diskRead b w).data b' = w.disk d' n') ?_ ?_
    · rintro b' d' n' ⟨⟩
      simp [diskRead, tag.2.1, tag.2.2.1]
    · intro p' other b' d' n' marks
      have apart : b' ≠ b := by
        rintro rfl
        exact other (inv.marker_unique taken.2 marks)
      simp only [diskRead, update_of_ne apart]
      exact inv.synced.marked p' b' d' n' marks

theorem Inv.marks (here : w.op p = .mark b d n) : Inv tags image
      ({ w with valid := update w.valid b true }.setOp p (.ret b d n)) := by
  have range := inv.users.op_pid p (by simp [here])
  have tag := inv.users.tag p b d n (by rw [here]; rfl)
  have raised : ∀ b', w.valid b' → update w.valid b true b' := by
    intro b' valid
    simp only [update_apply]
    split_ifs
    · rfl
    · exact valid
  refine ⟨inv.order, ?_, ⟨inv.tagged.unique, inv.tagged.used, ?_⟩, ?_,
    inv.owned.setOp (by rw [here]; rfl) (by simp) (by simp), ?_, ?_, inv.synced.disk⟩
  · intro b' inside
    exact (inv.refcnt b' inside).trans (obtained_op_same (by rw [here]; rfl) b').symm
  · intro b' inside valid
    by_cases same : b' = b
    · rw [same]
      have nonzero := tags.nonzero d n tag.2.2.2
      rwa [← tag.2.1] at nonzero
    · exact inv.tagged.valid_used b' inside (by simpa [World.setOp, same] using valid)
  · refine Users.setOp ⟨inv.users.asked, inv.users.tag, inv.users.drop,
      fun p' b' d' n' ret => raised b' (inv.users.ret p' b' d' n' ret), ?_, inv.users.op_pid,
      inv.users.held_pid⟩ (by simp) ?_ (by simp) ?_ (fun _ => range)
    · intro p' b' hold holds
      have old := inv.users.hold p' b' hold holds
      exact ⟨old.1, old.2.1, old.2.2.1, old.2.2.2.1, raised b' old.2.2.2.2⟩
    · rintro b' d' n' ⟨⟩
      exact tag
    · rintro b' d' n' ⟨⟩
      exact update_self _ _ _
  · intro b' inside valid clean
    by_cases same : b' = b
    · rw [same]
      have read := inv.synced.marked p b d n here
      rwa [← tag.2.1, ← tag.2.2.1] at read
    · exact inv.synced.clean b' inside (by simpa [World.setOp, same] using valid) clean
  · exact inv.marked_setOp (by simp)

theorem Inv.returns (here : w.op p = .ret b d n) :
    Inv tags image ((w.setHeld p b (some ⟨d, n, false⟩)).setOp p .idle) := by
  have range := inv.users.op_pid p (by simp [here])
  have tag := inv.users.tag p b d n (by rw [here]; rfl)
  have mine : (w.op p).owns = some b := by rw [here]; rfl
  have before := inv.owned.apart p b mine
  refine ⟨inv.order, ?_, inv.tagged, ?_, inv.owned.ret here _, ?_, ?_, inv.synced.disk⟩
  · intro b' inside
    have forgot : obtained (update w.op p .idle)
        (setHold w.held p b (some ⟨d, n, false⟩)) b' + (if b' = b then 1 else 0) =
        obtained w.op (setHold w.held p b (some ⟨d, n, false⟩)) b' :=
      obtained_op_forget range.2 (by rw [here]; rfl) rfl b'
    have took : obtained w.op (setHold w.held p b (some ⟨d, n, false⟩)) b' =
        obtained w.op w.held b' + if b' = b then 1 else 0 :=
      obtained_hold_take _ range.2 before b'
    exact (inv.refcnt b' inside).trans (Nat.add_right_cancel (took.symm.trans forgot.symm))
  · refine (inv.users.setHold ?_ range).setOp nofun nofun nofun nofun
      (fun active => absurd rfl active)
    rintro hold ⟨⟩
    exact ⟨tag.1, tag.2.1, tag.2.2.1, tag.2.2.2, inv.users.ret p b d n here⟩
  · intro b' inside valid clean
    refine inv.synced.clean b' inside valid fun p' hold holds => ?_
    by_cases both : p' = p ∧ b' = b
    · rw [both.1, both.2, before] at holds
      cases holds
    · exact clean p' hold ((setHold_other _ (by omega)).trans holds)
  · exact inv.marked_setOp (by simp)

theorem Inv.blocks_apart {b' : Nat} (inside : b < NBUF) (inside' : b' < NBUF) (named : w.dev b ≠ 0)
    (different : b' ≠ b) : ¬(w.dev b = w.dev b' ∧ w.blockno b = w.blockno b') := fun same =>
  different (inv.tagged.unique b b' inside inside' named same.1 same.2).symm

end

theorem contents_cons (write : BWrite Data) (writes : List (BWrite Data)) (d n : Nat) :
    contents image (write :: writes) d n =
      if write.dev = d ∧ write.blockno = n then write.data else contents image writes d n := by
  unfold contents
  by_cases same : write.dev = d ∧ write.blockno = n
  · simp [same]
  · simp [same]

theorem Inv.stores (inv : Inv tags image w) (here : w.op p = .store b) : Inv tags image
      (((diskWrite b w).setHeld p b ((w.held p b).map Hold.written)).setOp p .idle) := by
  have range := inv.users.op_pid p (by simp [here])
  obtain ⟨hold, holds⟩ := Option.isSome_iff_exists.mp (inv.owned.working p b (.inl here))
  obtain ⟨inside, sameDev, sameBlock, used, valid⟩ := inv.users.hold p b hold holds
  have taken := inv.owned.held_locked p b (by rw [holds]; rfl)
  have named : w.dev b ≠ 0 := sameDev ▸ tags.nonzero _ _ used
  have idle := inv.owned.setOp (p := p) (o := .idle) (by rw [here]; rfl) (by simp) (by simp)
  refine ⟨inv.order, ?_, inv.tagged, ?_,
    idle.rehold (by rw [Option.isSome_map]) (update_self _ _ _), ?_, ?_, ?_⟩
  · intro b' inside'
    refine (inv.refcnt b' inside').trans ((obtained_op_same (o := .idle) (p := p) ?_ b').symm.trans
      (obtained_hold_same (by rw [Option.isSome_map]) b').symm)
    rw [here]
    rfl
  · refine (inv.users.setHold ?_ range).setOp (by simp) (by simp [Op.tag]) (by simp) (by simp)
      (fun active => absurd rfl active)
    intro h entry
    rw [holds, Option.map_some, Option.some.injEq] at entry
    rw [← entry]
    exact ⟨inside, sameDev, sameBlock, used, valid⟩
  · intro b' inside' valid' clean
    simp only [World.setOp, World.setHeld, diskWrite]
    by_cases same : b' = b
    · rw [same, if_pos ⟨rfl, rfl⟩]
    · rw [if_neg (inv.blocks_apart inside inside' named same)]
      exact inv.synced.clean b' inside' valid' fun p' h old =>
        clean p' h ((setHold_other _ (.inr same)).trans old)
  · refine op_cases (P := fun _ o => ∀ b' d' n', o = .mark b' d' n' →
      w.data b' = (diskWrite b w).disk d' n') (by simp) ?_
    intro p' other b' d' n' (marks : w.op p' = .mark b' d' n')
    have apart : b' ≠ b := by
      rintro rfl
      exact other (inv.marker_unique taken.2 marks)
    obtain ⟨inside', rfl, rfl, -⟩ := inv.users.tag p' b' d' n' (by rw [marks]; rfl)
    simp only [diskWrite, if_neg (inv.blocks_apart inside inside' named apart)]
    exact inv.synced.marked p' b' _ _ marks
  · intro d' n'
    simp only [World.setOp, World.setHeld, diskWrite, contents_cons, inv.synced.disk d' n']

theorem Inv.modifies (inv : Inv tags image w) (idle : w.op p = .idle) {hold : Hold}
    (holds : w.held p b = some hold) (data : Data) :
    Inv tags image ({ w with data := update w.data b data }.setHeld p b
      (some { hold with dirty := true })) := by
  have range := inv.users.held_pid p b hold holds
  have taken := inv.owned.held_locked p b (by rw [holds]; rfl)
  refine ⟨inv.order, ?_, inv.tagged, ?_, inv.owned.rehold (by rw [holds]; rfl) idle, ?_, ?_,
    inv.synced.disk⟩
  · intro b' inside
    exact (inv.refcnt b' inside).trans (obtained_hold_same (by rw [holds]; rfl) b').symm
  · refine inv.users.setHold ?_ range
    rintro h ⟨⟩
    exact inv.users.hold p b hold holds
  · intro b' inside valid clean
    by_cases same : b' = b
    · have dirty := clean p { hold with dirty := true } (by rw [same]; exact setHold_self _)
      cases dirty
    · simp only [World.setHeld, update_of_ne same]
      exact inv.synced.clean b' inside valid fun p' h old =>
        clean p' h ((setHold_other _ (.inr same)).trans old)
  · intro p' b' d' n' (marks : w.op p' = .mark b' d' n')
    have apart : b' ≠ b := by
      rintro rfl
      have same := inv.marker_unique taken.2 marks
      rw [same, idle] at marks
      cases marks
    simp only [World.setHeld, update_of_ne apart]
    exact inv.synced.marked p' b' d' n' marks

theorem Inv.releases (inv : Inv tags image w) (here : w.op p = .release b) :
    Inv tags image (((unlock b w).setHeld p b none).setOp p (.drop b)) := by
  have range := inv.users.op_pid p (by simp [here])
  obtain ⟨hold, holds⟩ := Option.isSome_iff_exists.mp (inv.owned.working p b (.inr here))
  have inside := (inv.users.hold p b hold holds).1
  have taken := inv.owned.held_locked p b (by rw [holds]; rfl)
  refine ⟨inv.order, ?_, inv.tagged, ?_, inv.owned.release here, ?_, ?_, inv.synced.disk⟩
  · intro b' inside'
    have refers : obtained (update w.op p (.drop b)) (setHold w.held p b none) b' =
        obtained w.op (setHold w.held p b none) b' + if b' = b then 1 else 0 :=
      obtained_op_refer range.2 (by rw [here]; rfl) rfl b'
    have gave : obtained w.op (setHold w.held p b none) b' + (if b' = b then 1 else 0) =
        obtained w.op w.held b' := obtained_hold_give range.2 holds b'
    exact (inv.refcnt b' inside').trans (gave.symm.trans refers.symm)
  · refine (inv.users.setHold (by rintro h ⟨⟩) range).setOp nofun nofun ?_ nofun (fun _ => range)
    rintro b' ⟨⟩
    exact inside
  · intro b' inside' valid clean
    refine inv.synced.clean b' inside' valid fun p' h old => ?_
    by_cases both : p' = p ∧ b' = b
    · rw [both.1, both.2] at old
      exact inv.owned.written p b h (.inr here) old
    · exact clean p' h ((setHold_other _ (by omega)).trans old)
  · exact inv.marked_setOp (by simp)

theorem ring_front {order : List Nat} (ring : IsRing w.next w.prev head order)
    (perm : order.Perm (List.range NBUF)) (inside : b < NBUF) :
    IsRing ((w.unlink b).pushFront b).next ((w.unlink b).pushFront b).prev head (b :: order.erase b) ∧
      (b :: order.erase b).Perm (List.range NBUF) := by
  have member : b ∈ order := perm.mem_iff.mpr (mem_range.mpr inside)
  have fresh : b ∉ head :: order.erase b := by
    simp [inside.ne, head, (nodup_cons.mp ring.nodup).2.mem_erase_iff]
  exact ⟨(ring.erase member).insert fresh, (perm_cons_erase member).symm.trans perm⟩

theorem dropSection_spec (inv : Inv tags image w) (inside : b < NBUF) (positive : 0 < w.refcnt b)
    (small : w.refcnt b < 2 ^ 32) :
    ∃ next prev, dropSection b w = { w with
        refcnt := update w.refcnt b (w.refcnt b - 1), next := next, prev := prev } ∧
      ∃ order, IsRing next prev head order ∧ order.Perm (List.range NBUF) := by
  have less : decrement (w.refcnt b) = w.refcnt b - 1 := by
    unfold decrement
    omega
  obtain ⟨order, ring, perm⟩ := inv.order
  unfold dropSection unrefer
  rw [less]
  split_ifs with last
  · exact ⟨_, _, rfl, _, ring_front ring perm inside⟩
  · exact ⟨w.next, w.prev, rfl, order, ring, perm⟩

theorem Inv.drops (inv : Inv tags image w) (here : w.op p = .drop b) :
    Inv tags image ((dropSection b w).setOp p .idle) := by
  have range := inv.users.op_pid p (by simp [here])
  have inside := inv.users.drop p b here
  have forgot : ∀ b', obtained (update w.op p .idle) w.held b' +
      (if b' = b then 1 else 0) = obtained w.op w.held b' := fun b' =>
    obtained_op_forget range.2 (by rw [here]; rfl) rfl b'
  have exactly := inv.refcnt b inside
  have counted := forgot b
  have room : obtained (update w.op p .idle) w.held b + 1 < 2 ^ 32 :=
    obtained_room (inv.nobody b) range.2 (by rw [update_self]; rfl)
  rw [if_pos rfl] at counted
  obtain ⟨next, prev, result, order⟩ :=
    dropSection_spec inv inside (by omega) (by omega)
  rw [result]
  refine ⟨order, ?_, inv.tagged,
    inv.users.setOp (by simp) (by simp [Op.tag]) (by simp) (by simp) (fun active => absurd rfl active),
    inv.owned.setOp (by rw [here]; rfl) (by simp) (by simp), inv.synced.clean, ?_, inv.synced.disk⟩
  · intro b' inside'
    have before := inv.refcnt b' inside'
    have after := forgot b'
    simp only [World.setOp, update_apply]
    split_ifs at after ⊢ with same
    · rw [same] at before after ⊢
      omega
    · omega
  · exact inv.marked_setOp (by simp)

theorem holdingsleep_iff : holdingsleep w p b = true ↔ w.locked b = true ∧ w.pid b = p := by
  simp [holdingsleep]

theorem Inv.holding (inv : Inv tags image w) (holding : holdingsleep w p b = true)
    (outside : (w.op p).owns = none) : (w.held p b).isSome := by
  obtain ⟨taken, rfl⟩ := holdingsleep_iff.mp holding
  rcases inv.owned.locked_owned b taken with owns | holds
  · rw [outside] at owns
    cases owns
  · exact holds

theorem Inv.run (inv : Inv tags image w) {w' : World Data} (moved : run p w = .ok w') :
    Inv tags image w' := by
  unfold Bio.run at moved
  cases here : w.op p with
  | idle =>
    simp only [here, Except.ok.injEq] at moved
    exact moved ▸ inv
  | bget dev n =>
    simp only [here, bgetSection] at moved
    cases found : cached w dev n with
    | some b =>
      simp only [found, Except.ok.injEq] at moved
      exact moved ▸ inv.hit here found
    | none =>
      cases spare : unused w with
      | some b =>
        simp only [found, spare, Except.ok.injEq] at moved
        exact moved ▸ inv.miss here found spare
      | none => simp [found, spare] at moved
  | acquire b dev n =>
    simp only [here] at moved
    split_ifs at moved with taken
    · exact Except.ok.inj moved ▸ inv
    · exact Except.ok.inj moved ▸ inv.acquires here (by simpa using taken)
  | check b dev n =>
    have range := inv.users.op_pid p (by simp [here])
    simp only [here, Except.ok.injEq] at moved
    rw [← moved]
    split_ifs with valid
    · refine inv.setOp (by rw [here]; rfl) (by rw [here]; rfl) nofun ?_ nofun ?_ nofun range
        (by simp) (by simp)
      · rintro b' d' n' ⟨⟩
        rw [here]
        rfl
      · rintro b' d' n' ⟨⟩
        exact valid
    · refine inv.setOp (by rw [here]; rfl) (by rw [here]; rfl) nofun ?_ nofun nofun nofun range
        (by simp) (by simp)
      rintro b' d' n' ⟨⟩
      rw [here]
      rfl
  | fill b dev n =>
    simp only [here, Except.ok.injEq] at moved
    exact moved ▸ inv.fills here
  | mark b dev n =>
    simp only [here, Except.ok.injEq] at moved
    exact moved ▸ inv.marks here
  | ret b dev n =>
    simp only [here, Except.ok.injEq] at moved
    exact moved ▸ inv.returns here
  | bwrite b =>
    have range := inv.users.op_pid p (by simp [here])
    simp only [here] at moved
    split_ifs at moved with holding
    rw [← Except.ok.inj moved]
    refine inv.setOp (by rw [here]; rfl) (by rw [here]; rfl) nofun nofun nofun nofun nofun range
      ?_ (by simp)
    intro b' moves
    rcases moves with moves | moves <;> cases moves
    exact inv.holding holding (by rw [here]; rfl)
  | store b =>
    simp only [here, Except.ok.injEq] at moved
    exact moved ▸ inv.stores here
  | brelse b =>
    have range := inv.users.op_pid p (by simp [here])
    simp only [here] at moved
    split_ifs at moved with holding
    rw [← Except.ok.inj moved]
    refine inv.setOp (by rw [here]; rfl) (by rw [here]; rfl) nofun nofun nofun nofun nofun range
      ?_ ?_
    · intro b' moves
      rcases moves with moves | moves <;> cases moves
      exact inv.holding holding (by rw [here]; rfl)
    · intro b' hold moves holds
      rcases moves with moves | moves <;> cases moves
      exact inv.owned.written p b hold (.inl here) holds
  | release b =>
    simp only [here, Except.ok.injEq] at moved
    exact moved ▸ inv.releases here
  | drop b =>
    simp only [here, Except.ok.injEq] at moved
    exact moved ▸ inv.drops here

theorem Inv.apply (inv : Inv tags image w) {e : Event Data} (range : 0 < e.pid ∧ e.pid < PIDS)
    {w' : World Data} (moved : apply tags.uses w e = .ok w') : Inv tags image w' := by
  cases e with
  | bread p dev n =>
    simp only [Bio.apply] at moved
    split_ifs at moved with may
    · rw [← Except.ok.inj moved]
      refine inv.setOp (by rw [may.1]; rfl) (by rw [may.1]; rfl) ?_ nofun nofun nofun nofun range
        (by simp) (by simp)
      rintro d' n' ⟨⟩
      exact may.2
    · exact Except.ok.inj moved ▸ inv
  | modify p b data =>
    simp only [Bio.apply] at moved
    split at moved
    · rename_i hold idle holds
      exact Except.ok.inj moved ▸ inv.modifies idle holds data
    · exact Except.ok.inj moved ▸ inv
  | bwrite p b =>
    simp only [Bio.apply] at moved
    split_ifs at moved with idle
    · rw [← Except.ok.inj moved]
      exact inv.setOp (by rw [idle]; rfl) (by rw [idle]; rfl) nofun nofun nofun nofun nofun range
        (by simp) (by simp)
    · exact Except.ok.inj moved ▸ inv
  | brelse p b =>
    simp only [Bio.apply] at moved
    split_ifs at moved with may
    · rw [← Except.ok.inj moved]
      refine inv.setOp (by rw [may.1]; rfl) (by rw [may.1]; rfl) nofun nofun nofun nofun nofun
        range (by simp) ?_
      intro b' hold moves holds
      rcases moves with moves | moves <;> cases moves
      simpa [holds] using may.2
    · exact Except.ok.inj moved ▸ inv
  | run p => exact inv.run moved

theorem Inv.step (inv : Inv tags image w) (e : Event Data) : Inv tags image (step tags.uses w e) := by
  unfold Bio.step
  split_ifs with stopped
  · exact inv
  · cases result : Bio.apply tags.uses w e with
    | ok w' =>
      simp only [not_or] at stopped
      exact inv.apply ⟨by omega, by omega⟩ result
    | error panic =>
      exact ⟨inv.order, inv.refcnt, inv.tagged, inv.users, inv.owned,
        ⟨inv.synced.clean, inv.synced.marked, inv.synced.disk⟩⟩

theorem binit_ring (w : World Data) (k : Nat) (bound : k ≤ NBUF) :
    ∃ next prev, (List.range k).foldl World.pushFront { w with
        next := update w.next head head
        prev := update w.prev head head } = { w with next := next, prev := prev } ∧
      IsRing next prev head (List.range k).reverse := by
  induction k with
  | zero =>
    refine ⟨_, _, rfl, by simp, ?_⟩
    simp [DoublyLinked.Linked]
  | succ k ih =>
    obtain ⟨next, prev, state, ring⟩ := ih (by omega)
    have fresh : k ∉ head :: (List.range k).reverse := by
      simp [head]
      omega
    refine ⟨update (update next k (next head)) head k,
      update (update prev k head) (next head) k, ?_, ?_⟩
    · rw [range_succ, foldl_append, state]
      rfl
    · rw [range_succ, reverse_append]
      exact ring.insert fresh

theorem init_ring (blank : Data) (image : Nat → Nat → Data) : ∃ next prev,
    init blank image =
      { valid := fun _ => false
        dev := fun _ => 0
        blockno := fun _ => 0
        locked := fun _ => false
        pid := fun _ => 0
        refcnt := fun _ => 0
        prev := prev
        next := next
        data := fun _ => blank
        disk := image
        op := fun _ => .idle
        held := fun _ _ => none
        writes := []
        panicked := none } ∧ IsRing next prev head (List.range NBUF).reverse := by
  unfold init binit
  exact binit_ring ⟨_, _, _, _, _, _, fun _ => 0, fun _ => 0, _, _, _, _, _, _⟩ NBUF le_rfl

theorem inv_init (tags : Tags) (blank : Data) (image : Nat → Nat → Data) :
    Inv tags image (init blank image) := by
  obtain ⟨next, prev, state, ring⟩ := init_ring blank image
  rw [state]
  refine ⟨⟨_, ring, reverse_perm _⟩, ?_, ⟨?_, ?_, nofun⟩,
    ⟨nofun, nofun, nofun, nofun, nofun, ?_, nofun⟩, ⟨nofun, nofun, nofun, nofun, ?_, nofun⟩,
    nofun, nofun, fun _ _ => rfl⟩
  · intro b inside
    refine (Nat.add_eq_zero_iff.mpr ⟨Count.eq_zero_iff.mpr fun p _ => rfl,
      Count.eq_zero_iff.mpr fun p _ => rfl⟩).symm
  · exact fun b b' _ _ named => absurd rfl named
  · exact fun b _ named => absurd rfl named
  · exact fun p active => absurd rfl active
  · simp

structure Coherent (uses : Nat → Nat → Bool) (image : Nat → Nat → Data) (w : World Data) : Prop where
  unique : ∀ b b', b < NBUF → b' < NBUF → w.dev b ≠ 0 → w.dev b = w.dev b' →
    w.blockno b = w.blockno b' → b = b'
  stable : ∀ b, b < NBUF → 0 < w.refcnt b → ∀ e,
    (step uses w e).dev b = w.dev b ∧ (step uses w e).blockno b = w.blockno b
  /-- bread is about to return b for block n of dev. -/
  returned : ∀ p b dev n, w.op p = .ret b dev n →
    b < NBUF ∧ w.locked b ∧ w.pid b = p ∧
      (∀ p', p' ≠ p → w.held p' b = none ∧ (w.op p').owns ≠ some b) ∧
      w.dev b = dev ∧ w.blockno b = n ∧ w.valid b ∧
      w.data b = contents image w.writes dev n ∧ w.data b = w.disk dev n
  refcnt : ∀ b, b < NBUF → w.refcnt b = obtained w.op w.held b

theorem Inv.returned (inv : Inv tags image w) (here : w.op p = .ret b d n) :
    b < NBUF ∧ w.locked b ∧ w.pid b = p ∧
      (∀ p', p' ≠ p → w.held p' b = none ∧ (w.op p').owns ≠ some b) ∧
      w.dev b = d ∧ w.blockno b = n ∧ w.valid b ∧
      w.data b = contents image w.writes d n ∧ w.data b = w.disk d n := by
  have mine : (w.op p).owns = some b := by rw [here]; rfl
  have taken := inv.owned.op_locked p b mine
  obtain ⟨inside, sameDev, sameBlock, used⟩ := inv.users.tag p b d n (by rw [here]; rfl)
  have valid := inv.users.ret p b d n here
  have unheld : ∀ p', w.held p' b = none := by
    intro p'
    cases holds : w.held p' b with
    | none => rfl
    | some hold =>
      have same := (inv.owned.held_locked p' b (by rw [holds]; rfl)).2.symm.trans taken.2
      rw [same, inv.owned.apart p b mine] at holds
      cases holds
  have synced : w.data b = w.disk d n := by
    rw [← sameDev, ← sameBlock]
    refine inv.synced.clean b inside valid fun p' hold holds => ?_
    rw [unheld p'] at holds
    cases holds
  refine ⟨inside, taken.1, taken.2, fun p' other => ⟨unheld p', fun owns => ?_⟩, sameDev, sameBlock,
    valid, ?_, synced⟩
  · exact other ((inv.owned.op_locked p' b owns).2.symm.trans taken.2)
  · rw [synced]
    exact inv.synced.disk d n

theorem dropSection_tags : (dropSection b w).dev = w.dev ∧ (dropSection b w).blockno = w.blockno := by
  unfold dropSection
  split_ifs <;> exact ⟨rfl, rfl⟩

theorem run_tags {w' : World Data} (moved : run p w = .ok w') :
    (w'.dev b = w.dev b ∧ w'.blockno b = w.blockno b) ∨ unused w = some b := by
  unfold Bio.run at moved
  cases here : w.op p with
  | bget dev n =>
    simp only [here, bgetSection] at moved
    cases found : cached w dev n with
    | some b' =>
      simp only [found, Except.ok.injEq] at moved
      exact .inl (moved ▸ ⟨rfl, rfl⟩)
    | none =>
      cases spare : unused w with
      | none => simp [found, spare] at moved
      | some b' =>
        simp only [found, spare, Except.ok.injEq] at moved
        by_cases same : b' = b
        · exact .inr (by rw [same])
        · have apart : b ≠ b' := fun equal => same equal.symm
          rw [← moved]
          exact .inl ⟨update_of_ne apart _ _, update_of_ne apart _ _⟩
  | acquire b' dev n =>
    simp only [here] at moved
    split_ifs at moved <;> exact .inl (Except.ok.inj moved ▸ ⟨rfl, rfl⟩)
  | bwrite b' | brelse b' =>
    simp only [here] at moved
    split_ifs at moved
    exact .inl (Except.ok.inj moved ▸ ⟨rfl, rfl⟩)
  | drop b' =>
    simp only [here, Except.ok.injEq] at moved
    have tags := dropSection_tags (w := w) (b := b')
    rw [← moved]
    exact .inl ⟨congrFun tags.1 b, congrFun tags.2 b⟩
  | _ =>
    simp only [here, Except.ok.injEq] at moved
    exact .inl (moved ▸ ⟨rfl, rfl⟩)

theorem apply_tags {uses : Nat → Nat → Bool} {e : Event Data} {w' : World Data}
    (moved : apply uses w e = .ok w') :
    (w'.dev b = w.dev b ∧ w'.blockno b = w.blockno b) ∨ unused w = some b := by
  cases e with
  | run p => exact run_tags moved
  | modify p b' data =>
    simp only [Bio.apply] at moved
    split at moved <;> exact .inl (Except.ok.inj moved ▸ ⟨rfl, rfl⟩)
  | _ =>
    simp only [Bio.apply] at moved
    split_ifs at moved <;> exact .inl (Except.ok.inj moved ▸ ⟨rfl, rfl⟩)

theorem Inv.stable (inv : Inv tags image w) (positive : 0 < w.refcnt b) (e : Event Data) :
    (Bio.step tags.uses w e).dev b = w.dev b ∧
      (Bio.step tags.uses w e).blockno b = w.blockno b := by
  unfold Bio.step
  split_ifs
  · exact ⟨rfl, rfl⟩
  · cases result : Bio.apply tags.uses w e with
    | error panic => exact ⟨rfl, rfl⟩
    | ok w' =>
      rcases apply_tags result with same | spare
      · exact same
      · have zero := (unused_some inv spare).2
        omega

/-- However processes interleave, the cache stays coherent. -/
theorem bcache_coherent (tags : Tags) (blank : Data) (image : Nat → Nat → Data)
    (events : List (Event Data)) :
    Coherent tags.uses image (Machine.run (step tags.uses) (init blank image) events) := by
  have inv : Inv tags image (Machine.run (step tags.uses) (init blank image) events) :=
    Machine.run_invariant (step tags.uses) (fun _ e inv => inv.step e) (inv_init tags blank image)
      events
  exact ⟨inv.tagged.unique, fun b _ positive e => inv.stable positive e,
    fun p b d n here => inv.returned here, inv.refcnt⟩

/-- The blocks of the file system. -/
def rootBlocks : Tags where
  uses dev n := dev == Fs.ROOTDEV && decide (n < Mkfs.FSSIZE)
  nonzero dev n used := by
    obtain ⟨root, -⟩ := Bool.and_eq_true_iff.mp used
    rw [eq_of_beq root]
    decide

/-- Process 1 writes 7 to block 5, while process 2 asks for it and waits. -/
def writeAndWait : List (Event Nat) :=
  .bread 1 1 5 :: List.replicate 6 (.run 1) ++ [.bread 2 1 5, .run 2, .run 2, .modify 1 0 7, .bwrite 1 0, .run 1,
    .run 1, .brelse 1 0, .run 1, .run 1, .run 2, .run 1, .run 2]

theorem bcache_coherent_root :
    let w := Machine.run (step rootBlocks.uses) (init 0 fun _ _ => 0) writeAndWait
    w.op 2 = .ret 0 1 5 ∧ w.data 0 = 7 ∧ w.refcnt 0 = 1 ∧ Coherent rootBlocks.uses (fun _ _ => 0) w :=
  ⟨by decide +kernel, by decide +kernel, by decide +kernel,
    bcache_coherent rootBlocks 0 (fun _ _ => 0) writeAndWait⟩

/-- bget finds no buffer exactly if the block is in none of them and each is in use: some
process has obtained it from bget and has not completed brelse. -/
theorem no_buffers_iff (tags : Tags) (blank : Data) (image : Nat → Nat → Data) (events : List (Event Data))
    (p dev n : Nat) :
    let w := Machine.run (step tags.uses) (init blank image) events
    bgetSection p dev n w = .error .bget ↔ ∀ b < NBUF, ¬(w.dev b = dev ∧ w.blockno b = n) ∧
      ∃ q < PIDS, (w.held q b).isSome = true ∨ (w.op q).refers = some b := by
  intro w
  have inv : Inv tags image w := Machine.run_invariant (step tags.uses) (fun _ e inv => inv.step e)
    (inv_init tags blank image) events
  obtain ⟨order, ring, perm⟩ := inv.order
  have busy (b : Nat) (inside : b < NBUF) : w.refcnt b ≠ 0 ↔
      ∃ q < PIDS, (w.held q b).isSome = true ∨ (w.op q).refers = some b := by
    rw [inv.refcnt b inside, obtained, Ne, Nat.add_eq_zero_iff, Count.eq_zero_iff, Count.eq_zero_iff]
    grind
  have missing : cached w dev n = none ↔ ∀ b < NBUF, ¬(w.dev b = dev ∧ w.blockno b = n) := by
    simp [cached_eq ring perm, perm.mem_iff]
  have full : unused w = none ↔ ∀ b < NBUF, w.refcnt b ≠ 0 := by
    simp [unused_eq ring perm, perm.mem_iff]
  have fails : bgetSection p dev n w = .error .bget ↔ cached w dev n = none ∧ unused w = none := by
    unfold bgetSection
    cases cached w dev n <;> cases unused w <;> simp
  rw [fails, missing, full, ← forall₂_and]
  exact forall₂_congr fun b inside => and_congr_right fun _ => busy b inside

/-- Process b + 1 has obtained buffer b for block b, for each b < k. -/
def taken (k : Nat) : World Nat :=
  { init 0 fun _ _ => 0 with
    dev := fun b => if b < k then Fs.ROOTDEV else 0
    blockno := fun b => if b < k then b else 0
    refcnt := fun b => if b < k then 1 else 0
    op := fun p => if 0 < p ∧ p ≤ k then .acquire (p - 1) Fs.ROOTDEV (p - 1) else .idle }

theorem bread_recycles {w : World Nat} (alive : w.panicked = none) (pid : ¬(p = 0 ∨ PIDS ≤ p))
    (idle : w.op p = .idle) (used : tags.uses d n) (missing : cached w d n = none)
    (spare : unused w = some b) : Machine.run (step tags.uses) w [.bread p d n, .run p] =
      (recycle b d n w).setOp p (.acquire b d n) := by
  have asked : step tags.uses w (.bread p d n) = w.setOp p (.bget d n) := by
    simp [step, Event.pid, alive, pid, apply, idle, used]
  have missing' : cached (w.setOp p (.bget d n)) d n = none := missing
  have spare' : unused (w.setOp p (.bget d n)) = some b := spare
  have alive' : (w.setOp p (.bget d n)).panicked = none := alive
  have next : (w.setOp p (.bget d n)).op p = .bget d n := update_self ..
  have got : step tags.uses (w.setOp p (.bget d n)) (.run p) =
      (recycle b d n (w.setOp p (.bget d n))).setOp p (.acquire b d n) := by
    simp [step, Event.pid, alive', pid, apply, run, next, bgetSection, missing', spare']
  rw [Machine.run_cons, asked, Machine.run_cons, got, Machine.run_nil]
  simp [recycle, World.setOp]

theorem taken_next : ∀ k < NBUF, cached (taken k) Fs.ROOTDEV k = none ∧ unused (taken k) = some k := by
  decide +kernel

def breads (k : Nat) : List (Event Nat) :=
  (List.range k).flatMap fun b => [.bread (b + 1) Fs.ROOTDEV b, .run (b + 1)]

theorem run_breads (k : Nat) (room : k ≤ NBUF) :
    Machine.run (step rootBlocks.uses) (init 0 fun _ _ => 0) (breads k) = taken k := by
  obtain ⟨next, prev, state, -⟩ := init_ring 0 fun _ _ => 0
  induction k with
  | zero =>
    simp [breads, taken, state]
    funext q
    grind
  | succ k ih =>
    have small : k < 30 := room
    obtain ⟨missing, spare⟩ := taken_next k room
    have used : rootBlocks.uses Fs.ROOTDEV k := by
      simp only [rootBlocks, beq_self_eq_true, Bool.true_and, decide_eq_true_eq]
      exact lt_trans small (by decide)
    rw [breads, List.range_succ, List.flatMap_append, Machine.run_append, ← breads, ih (by omega)]
    rw [List.flatMap_singleton, bread_recycles rfl (by unfold PIDS; omega) (if_neg (by omega)) used missing spare]
    simp only [taken, recycle, World.setOp, state]
    congr 1 <;> funext x <;> simp only [update_apply] <;> grind

theorem no_buffers_iff_full :
    let w := Machine.run (step rootBlocks.uses) (init 0 fun _ _ => 0) (breads NBUF)
    (∀ b < NBUF, (w.op (b + 1)).refers = some b) ∧ bgetSection 31 Fs.ROOTDEV NBUF w = .error .bget := by
  have full := no_buffers_iff rootBlocks 0 (fun _ _ => 0) (breads NBUF) 31 Fs.ROOTDEV NBUF
  have refers (b : Nat) (inside : b < NBUF) : ((taken NBUF).op (b + 1)).refers = some b := by
    simp [taken, inside, Op.refers]
  simp only [run_breads NBUF le_rfl] at full ⊢
  refine ⟨refers, full.mpr fun b inside => ⟨?_, b + 1, ?_, .inr (refers b inside)⟩⟩
  · simp [taken, inside, inside.ne]
  · exact Nat.lt_trans (Nat.succ_lt_succ inside) (by simp [NBUF, MAXOPBLOCKS, PIDS])

end Xv6Lab.Bio
