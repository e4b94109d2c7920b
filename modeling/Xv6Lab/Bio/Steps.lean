import Xv6Lab.Bio.Invariant

/-!
Each step of a process keeps the invariant of the buffer cache.
-/

namespace Xv6Lab.Bio
open List
open Function (update update_apply update_eq_self update_idem update_of_ne update_self)

open DoublyLinked (IsRing walk)
variable {Data : Type} {tags : Tags} {image : Nat → Nat → Data} {w : World Data} {p d n p' b' : Nat}
  {hold : Option Hold} {order : List Nat}

theorem setHold_self {held : Nat → Nat → Option Hold} {b : Nat} (hold : Option Hold) : setHold held p b hold p b = hold := by simp [setHold]

theorem setHold_other {held : Nat → Nat → Option Hold} {b : Nat} (hold : Option Hold)
    (other : p' ≠ p ∨ b' ≠ b) : setHold held p b hold p' b' = held p' b' := by
  unfold setHold
  by_cases here : p' = p
  · subst here
    simp [other.resolve_left (by simp)]
  · simp [here]

theorem setHold_cases {held : Nat → Nat → Option Hold} {b : Nat}
    {found : Hold} (holds : setHold held p b hold p' b' = some found) :
    (p' = p ∧ b' = b ∧ hold = some found) ∨ ((p' ≠ p ∨ b' ≠ b) ∧ held p' b' = some found) := by
  by_cases both : p' = p ∧ b' = b
  · rw [both.1, both.2, setHold_self] at holds
    exact .inl ⟨both.1, both.2, holds⟩
  · have other : p' ≠ p ∨ b' ≠ b := by omega
    rw [setHold_other _ other] at holds
    exact .inr ⟨other, holds⟩

section Groups
variable {dev blockno pid : Nat → Nat} {valid locked : Nat → Bool} {op : Nat → Op}
  {held : Nat → Nat → Option Hold} {o : Op}

theorem op_cases {P : Nat → Op → Prop} (mine : P p o) (others : ∀ p', p' ≠ p → P p' (op p'))
    (p' : Nat) : P p' (update op p o p') := by
  by_cases same : p' = p
  · subst same
    simpa using mine
  · simpa [same] using others p' same

theorem Users.setOp (users : Users tags dev blockno valid op held)
    (asked : ∀ d n, o = .bget d n → tags.uses d n)
    (tag : ∀ b d n, o.tag = some (b, d, n) →
      b < NBUF ∧ dev b = d ∧ blockno b = n ∧ tags.uses d n)
    (drop : ∀ b, o = .drop b → b < NBUF) (ret : ∀ b d n, o = .ret b d n → valid b)
    (range : o ≠ .idle → 0 < p ∧ p < PIDS) :
    Users tags dev blockno valid (update op p o) held where
  asked := op_cases (P := fun _ o => ∀ d n, o = .bget d n → tags.uses d n) asked
    fun p' _ => users.asked p'
  tag := op_cases (P := fun _ o => ∀ b d n, o.tag = some (b, d, n) →
      b < NBUF ∧ dev b = d ∧ blockno b = n ∧ tags.uses d n) tag fun p' _ => users.tag p'
  drop := op_cases (P := fun _ o => ∀ b, o = .drop b → b < NBUF) drop fun p' _ => users.drop p'
  ret := op_cases (P := fun _ o => ∀ b d n, o = .ret b d n → valid b) ret fun p' _ => users.ret p'
  hold := users.hold
  op_pid := op_cases (P := fun p o => o ≠ .idle → 0 < p ∧ p < PIDS) range
    fun p' _ => users.op_pid p'
  held_pid := users.held_pid

theorem Users.setHold (users : Users tags dev blockno valid op held) {b : Nat}
    (entry : ∀ h, hold = some h → b < NBUF ∧ dev b = h.dev ∧
      blockno b = h.blockno ∧ tags.uses h.dev h.blockno ∧ valid b) (range : 0 < p ∧ p < PIDS) :
    Users tags dev blockno valid op (setHold held p b hold) := by
  refine ⟨users.asked, users.tag, users.drop, users.ret, ?_, users.op_pid, ?_⟩
  · intro p' b' h holds
    rcases setHold_cases holds with ⟨-, rfl, here⟩ | ⟨-, old⟩
    · exact entry h here
    · exact users.hold p' b' h old
  · intro p' b' h holds
    rcases setHold_cases holds with ⟨rfl, -, -⟩ | ⟨-, old⟩
    · exact range
    · exact users.held_pid p' b' h old

theorem Owned.setOp (owned : Owned locked pid op held) (same : o.owns = (op p).owns)
    (working : ∀ b, o = .store b ∨ o = .release b → (held p b).isSome)
    (written : ∀ b hold, o = .brelse b ∨ o = .release b → held p b = some hold →
      hold.dirty = false) : Owned locked pid (update op p o) held := by
  have owns : ∀ p', (update op p o p').owns = (op p').owns := by
    intro p'
    by_cases here : p' = p
    · subst here
      simp [same]
    · simp [here]
  refine ⟨?_, owned.held_locked, ?_, ?_, ?_, ?_⟩
  · intro p' b
    rw [owns]
    exact owned.op_locked p' b
  · intro b taken
    rw [owns]
    exact owned.locked_owned b taken
  · intro p' b
    rw [owns]
    exact owned.apart p' b
  · exact op_cases (P := fun p o => ∀ b, o = .store b ∨ o = .release b → (held p b).isSome)
      working fun p' _ => owned.working p'
  · exact op_cases (P := fun p o => ∀ b hold, o = .brelse b ∨ o = .release b →
      held p b = some hold → hold.dirty = false) written fun p' _ => owned.written p'

theorem refers_of_tag {b : Nat} (tag : o.tag = some (b, d, n)) : o.refers = some b := by
  cases o <;> simp_all [Op.tag, Op.refers]

theorem Users.recycle (users : Users tags dev blockno valid op held) {b : Nat}
    (nobody : ∀ p, (op p).refers ≠ some b ∧ held p b = none) (d n : Nat) (v : Bool) :
    Users tags (update dev b d) (update blockno b n) (update valid b v) op held := by
  have other : ∀ {p b'}, (op p).refers = some b' → b' ≠ b := by
    rintro p b' refers rfl
    exact (nobody p).1 refers
  refine ⟨users.asked, ?_, users.drop, ?_, ?_, users.op_pid, users.held_pid⟩
  · intro p b' d' n' tag
    have apart := other (refers_of_tag tag)
    rw [update_of_ne apart, update_of_ne apart]
    exact users.tag p b' d' n' tag
  · intro p b' d' n' ret
    rw [update_of_ne (other (p := p) (by rw [ret]; rfl))]
    exact users.ret p b' d' n' ret
  · intro p b' hold holds
    have apart : b' ≠ b := by
      rintro rfl
      rw [(nobody p).2] at holds
      cases holds
    rw [update_of_ne apart, update_of_ne apart, update_of_ne apart]
    exact users.hold p b' hold holds

theorem Tagged.recycle (tagged : Tagged tags dev blockno valid) {b : Nat}
    (absent : ∀ b', b' < NBUF → ¬ (dev b' = d ∧ blockno b' = n)) (used : tags.uses d n) :
    Tagged tags (update dev b d) (update blockno b n) (update valid b false) := by
  refine ⟨?_, ?_, ?_⟩
  · intro b1 b2 inside1 inside2 named sameDev sameBlock
    simp only [update_apply] at named sameDev sameBlock
    by_cases first : b1 = b <;> by_cases second : b2 = b
    · rw [first, second]
    · simp only [first, second, if_true, if_false] at sameDev sameBlock
      exact absurd ⟨sameDev.symm, sameBlock.symm⟩ (absent b2 inside2)
    · simp only [first, second, if_true, if_false] at sameDev sameBlock
      exact absurd ⟨sameDev, sameBlock⟩ (absent b1 inside1)
    · simp only [first, second, if_false] at named sameDev sameBlock
      exact tagged.unique b1 b2 inside1 inside2 named sameDev sameBlock
  · intro b' inside named
    simp only [update_apply] at named ⊢
    split_ifs at named ⊢ with same
    · exact used
    · exact tagged.used b' inside named
  · intro b' inside named
    simp only [update_apply] at named ⊢
    split_ifs at named ⊢ with same
    exact tagged.valid_used b' inside named

section
variable (owned : Owned locked pid op held)
include owned

theorem Owned.acquire {b : Nat} (here : op p = .acquire b d n) (free : locked b = false) :
    Owned (update locked b true) (update pid b p) (update op p (.check b d n)) held := by
  have nothing : (op p).owns = none := by rw [here]; rfl
  have holder : ∀ p b', (held p b').isSome → b' ≠ b := by
    rintro p b' holds rfl
    rw [(owned.held_locked p b' holds).1] at free
    cases free
  refine ⟨?_, ?_, ?_, ?_, ?_, ?_⟩
  · refine op_cases (P := fun p' o => ∀ b', o.owns = some b' →
      update locked b true b' ∧ update pid b p b' = p') ?_ ?_
    · rintro b' ⟨⟩
      simp
    · intro p' _ b' owns
      have taken := owned.op_locked p' b' owns
      have apart : b' ≠ b := by
        rintro rfl
        rw [taken.1] at free
        cases free
      rw [update_of_ne apart, update_of_ne apart]
      exact taken
  · intro p' b' holds
    have apart := holder p' b' holds
    rw [update_of_ne apart, update_of_ne apart]
    exact owned.held_locked p' b' holds
  · intro b' taken
    by_cases same : b' = b
    · subst same
      exact .inl (by simp [Op.owns])
    · rw [update_of_ne same] at taken ⊢
      refine (owned.locked_owned b' taken).imp_left fun owns => ?_
      have other : pid b' ≠ p := by
        intro equal
        rw [equal, nothing] at owns
        cases owns
      rw [update_of_ne other, owns]
  · refine op_cases (P := fun p' o => ∀ b', o.owns = some b' → held p' b' = none) ?_
      fun p' _ => owned.apart p'
    rintro b' ⟨⟩
    cases holds : held p b with
    | none => rfl
    | some hold => exact absurd rfl (holder p b (by rw [holds]; rfl))
  · exact op_cases (P := fun p o => ∀ b, o = .store b ∨ o = .release b → (held p b).isSome)
      (by simp) fun p' _ => owned.working p'
  · exact op_cases (P := fun p o => ∀ b hold, o = .brelse b ∨ o = .release b →
      held p b = some hold → hold.dirty = false) (by simp) fun p' _ => owned.written p'

theorem Owned.ret {b : Nat} (here : op p = .ret b d n)
    (hold : Hold) : Owned locked pid (update op p .idle) (setHold held p b (some hold)) := by
  have mine : (op p).owns = some b := by rw [here]; rfl
  have taken := owned.op_locked p b mine
  refine ⟨?_, ?_, ?_, ?_, ?_, ?_⟩
  · exact op_cases (P := fun p' o => ∀ b', o.owns = some b' → locked b' ∧ pid b' = p') nofun
      fun p' _ => owned.op_locked p'
  · intro p' b' holds
    by_cases same : p' = p ∧ b' = b
    · rw [same.1, same.2]
      exact taken
    · rw [setHold_other _ (by omega)] at holds
      exact owned.held_locked p' b' holds
  · intro b' locked'
    by_cases same : b' = b
    · subst same
      rw [taken.2, setHold_self]
      exact .inr rfl
    · rw [setHold_other _ (.inr same)]
      refine (owned.locked_owned b' locked').imp_left fun owns => ?_
      have other : pid b' ≠ p := by
        intro equal
        rw [equal, mine] at owns
        exact same (Option.some.inj owns).symm
      rw [update_of_ne other, owns]
  · refine op_cases (P := fun p' o => ∀ b', o.owns = some b' →
      setHold held p b (some hold) p' b' = none) nofun ?_
    intro p' other b' owns
    rw [setHold_other _ (.inl other)]
    exact owned.apart p' b' owns
  · refine op_cases (P := fun p' o => ∀ b', o = .store b' ∨ o = .release b' →
      (setHold held p b (some hold) p' b').isSome) (by simp) ?_
    intro p' other b' works
    rw [setHold_other _ (.inl other)]
    exact owned.working p' b' works
  · refine op_cases (P := fun p' o => ∀ b' hold', o = .brelse b' ∨ o = .release b' →
      setHold held p b (some hold) p' b' = some hold' → hold'.dirty = false) (by simp) ?_
    intro p' other b' hold' works
    rw [setHold_other _ (.inl other)]
    exact owned.written p' b' hold' works

theorem Owned.rehold {b : Nat} (same : hold.isSome = (held p b).isSome) (idle : op p = .idle) :
    Owned locked pid op (setHold held p b hold) := by
  have holds : ∀ p' b', (setHold held p b hold p' b').isSome = (held p' b').isSome := by
    intro p' b'
    by_cases both : p' = p ∧ b' = b
    · rw [both.1, both.2, setHold_self, same]
    · rw [setHold_other _ (by omega)]
  refine ⟨owned.op_locked, ?_, ?_, ?_, ?_, ?_⟩
  · intro p' b' taken
    rw [holds] at taken
    exact owned.held_locked p' b' taken
  · intro b' taken
    rw [holds]
    exact owned.locked_owned b' taken
  · intro p' b' owns
    have none := owned.apart p' b' owns
    rw [← Option.not_isSome_iff_eq_none, holds, none]
    simp
  · intro p' b' works
    rw [holds]
    exact owned.working p' b' works
  · intro p' b' hold' works
    have other : p' ≠ p := by
      rintro rfl
      rw [idle] at works
      simp at works
    rw [setHold_other _ (.inl other)]
    exact owned.written p' b' hold' works

theorem Owned.release {b : Nat} (here : op p = .release b) :
    Owned (update locked b false) (update pid b 0)
      (update op p (.drop b)) (setHold held p b none) := by
  have taken := owned.held_locked p b (owned.working p b (.inr here))
  have nothing : (op p).owns = none := by rw [here]; rfl
  have apartOp : ∀ p' b', (op p').owns = some b' → b' ≠ b := by
    rintro p' b' owns rfl
    have same := (owned.op_locked p' b' owns).2.symm.trans taken.2
    rw [same, nothing] at owns
    cases owns
  have apartHold : ∀ p' b', (setHold held p b none p' b').isSome →
      b' ≠ b ∧ (held p' b').isSome := by
    intro p' b' holds
    by_cases both : p' = p ∧ b' = b
    · rw [both.1, both.2, setHold_self] at holds
      cases holds
    · rw [setHold_other _ (by omega)] at holds
      refine ⟨?_, holds⟩
      rintro rfl
      exact both ⟨(owned.held_locked p' b' holds).2.symm.trans taken.2, rfl⟩
  refine ⟨?_, ?_, ?_, ?_, ?_, ?_⟩
  · refine op_cases (P := fun p' o => ∀ b', o.owns = some b' →
      update locked b false b' ∧ update pid b 0 b' = p') nofun ?_
    intro p' _ b' owns
    have apart := apartOp p' b' owns
    rw [update_of_ne apart, update_of_ne apart]
    exact owned.op_locked p' b' owns
  · intro p' b' holds
    obtain ⟨apart, before⟩ := apartHold p' b' holds
    rw [update_of_ne apart, update_of_ne apart]
    exact owned.held_locked p' b' before
  · intro b' locked'
    by_cases same : b' = b
    · subst same
      simp at locked'
    · rw [update_of_ne same] at locked' ⊢
      rw [setHold_other _ (.inr same)]
      refine (owned.locked_owned b' locked').imp_left fun owns => ?_
      have other : pid b' ≠ p := by
        intro equal
        rw [equal, nothing] at owns
        cases owns
      rw [update_of_ne other, owns]
  · refine op_cases (P := fun p' o => ∀ b', o.owns = some b' →
      setHold held p b none p' b' = none) nofun ?_
    intro p' other b' owns
    rw [setHold_other _ (.inl other)]
    exact owned.apart p' b' owns
  · refine op_cases (P := fun p' o => ∀ b', o = .store b' ∨ o = .release b' →
      (setHold held p b none p' b').isSome) (by simp) ?_
    intro p' other b' works
    rw [setHold_other _ (.inl other)]
    exact owned.working p' b' works
  · refine op_cases (P := fun p' o => ∀ b' hold', o = .brelse b' ∨ o = .release b' →
      setHold held p b none p' b' = some hold' → hold'.dirty = false) (by simp) ?_
    intro p' other b' hold' works
    rw [setHold_other _ (.inl other)]
    exact owned.written p' b' hold' works

end
end Groups

section Counts
variable {op : Nat → Op} {held : Nat → Nat → Option Hold} {o : Op} {b : Nat}

theorem obtained_op_same (same : o.refers = (op p).refers) (b : Nat) :
    obtained (update op p o) held b = obtained op held b := by
  unfold obtained
  congr 2
  funext p'
  by_cases here : p' = p
  · subst here
    simp [same]
  · simp [here]

theorem obtained_op_refer (inside : p < PIDS) (before : (op p).refers = none)
    (after : o.refers = some b) (b' : Nat) : obtained (update op p o) held b' =
      obtained op held b' + if b' = b then 1 else 0 := by
  unfold obtained
  by_cases same : b' = b
  · subst same
    have counted : (fun p' => decide ((update op p o p').refers = some b')) =
        update (fun p' => decide ((op p').refers = some b')) p true := by
      funext p'
      by_cases here : p' = p
      · subst here
        simp [after]
      · simp [here]
    rw [counted, if_pos rfl, Count.set_true inside (by simp [before]), Nat.add_assoc]
  · rw [if_neg same, Nat.add_zero]
    congr 2
    funext p'
    by_cases here : p' = p
    · subst here
      simp [before, after, Ne.symm same]
    · simp [here]

theorem obtained_op_forget (inside : p < PIDS) (before : (op p).refers = some b)
    (after : o.refers = none) (b' : Nat) :
    obtained (update op p o) held b' + (if b' = b then 1 else 0) =
      obtained op held b' := by
  have back : obtained (update (update op p o) p (op p)) held b' =
      obtained (update op p o) held b' + if b' = b then 1 else 0 :=
    obtained_op_refer inside (by simpa using after) before b'
  rw [update_idem, update_eq_self] at back
  exact back.symm

theorem obtained_hold_same (same : hold.isSome = (held p b).isSome)
    (b' : Nat) : obtained op (setHold held p b hold) b' = obtained op held b' := by
  unfold obtained
  congr 2
  funext p'
  by_cases here : p' = p ∧ b' = b
  · rw [here.1, here.2, setHold_self, same]
  · rw [setHold_other hold (by omega)]

theorem obtained_hold_take (hold : Hold) (inside : p < PIDS) (before : held p b = none)
    (b' : Nat) : obtained op (setHold held p b (some hold)) b' =
      obtained op held b' + if b' = b then 1 else 0 := by
  unfold obtained
  by_cases same : b' = b
  · subst same
    have counted : (fun p' => (setHold held p b' (some hold) p' b').isSome) =
        update (fun p' => (held p' b').isSome) p true := by
      funext p'
      by_cases here : p' = p
      · subst here
        simp [setHold]
      · simp [setHold, here]
    rw [counted, if_pos rfl, Count.set_true inside (by simp [before])]
    omega
  · rw [if_neg same, Nat.add_zero]
    congr 2
    funext p'
    rw [setHold_other _ (.inr same)]

theorem obtained_hold_give (inside : p < PIDS) {hold : Hold} (before : held p b = some hold)
    (b' : Nat) : obtained op (setHold held p b none) b' + (if b' = b then 1 else 0) =
      obtained op held b' := by
  have back : obtained op (setHold (setHold held p b none) p b (some hold)) b' =
      obtained op (setHold held p b none) b' + if b' = b then 1 else 0 :=
    obtained_hold_take hold inside (setHold_self none) b'
  have same : setHold (setHold held p b none) p b (some hold) = held := by
    simp [setHold, ← before]
  rw [same] at back
  exact back.symm

theorem obtained_room (none0 : held 0 b = none) (inside : p < PIDS)
    (before : (op p).refers = none) : obtained op held b + 1 < 2 ^ 32 := by
  have first := Count.set_true (P := fun p => (held p b).isSome) (i := 0) (n := PIDS)
    (by decide) (by rw [none0]; rfl)
  have second := Count.set_true (P := fun p => decide ((op p).refers = some b)) inside
    (by simp [before])
  have bound := Count.le_bound PIDS (update (fun p => (held p b).isSome) 0 true)
  have bound' := Count.le_bound PIDS
    (update (fun p => decide ((op p).refers = some b)) p true)
  unfold obtained
  simp only [PIDS] at *
  omega

end Counts

theorem Inv.nobody (inv : Inv tags image w) (b : Nat) : w.held 0 b = none := by
  cases here : w.held 0 b with
  | none => rfl
  | some hold => exact absurd (inv.users.held_pid 0 b hold here).1 (lt_irrefl 0)

theorem cached_eq (ring : IsRing w.next w.prev head order)
    (perm : order.Perm (List.range NBUF)) (dev n : Nat) : cached w dev n =
      order.find? (fun b => w.dev b = dev ∧ w.blockno b = n) :=
  ring.walk_next _ (by rw [perm.length_eq, length_range]; exact Nat.lt_succ_self _)

theorem unused_eq (ring : IsRing w.next w.prev head order) (perm : order.Perm (List.range NBUF)) :
    unused w = order.reverse.find? (fun b => w.refcnt b = 0) :=
  ring.walk_prev _ (by rw [perm.length_eq, length_range]; exact Nat.lt_succ_self _)

section
variable (inv : Inv tags image w)
include inv

theorem cached_some {dev b : Nat} (found : cached w dev n = some b) :
    b < NBUF ∧ w.dev b = dev ∧ w.blockno b = n := by
  obtain ⟨order, ring, perm⟩ := inv.order
  rw [cached_eq ring perm] at found
  have member := perm.mem_iff.mp (mem_of_find?_eq_some found)
  have tagged := find?_some found
  simp only [decide_eq_true_eq] at tagged
  exact ⟨mem_range.mp member, tagged.1, tagged.2⟩

theorem cached_none {dev : Nat} (missing : cached w dev n = none)
    {b : Nat} (inside : b < NBUF) : ¬ (w.dev b = dev ∧ w.blockno b = n) := by
  obtain ⟨order, ring, perm⟩ := inv.order
  rw [cached_eq ring perm] at missing
  have absent := find?_eq_none.mp missing b (perm.mem_iff.mpr (mem_range.mpr inside))
  simpa using absent

theorem unused_some {b : Nat} (found : unused w = some b) : b < NBUF ∧ w.refcnt b = 0 := by
  obtain ⟨order, ring, perm⟩ := inv.order
  rw [unused_eq ring perm] at found
  have member := mem_reverse.mp (mem_of_find?_eq_some found)
  have free := find?_some found
  exact ⟨mem_range.mp (perm.mem_iff.mp member), by simpa using free⟩

theorem Inv.setOp {o : Op} (refers : o.refers = (w.op p).refers)
    (owns : o.owns = (w.op p).owns) (asked : ∀ d n, o = .bget d n → tags.uses d n)
    (tag : ∀ b d n, o.tag = some (b, d, n) → (w.op p).tag = some (b, d, n))
    (drop : ∀ b, o ≠ .drop b) (ret : ∀ b d n, o = .ret b d n → w.valid b)
    (unmarked : ∀ b d n, o ≠ .mark b d n) (range : 0 < p ∧ p < PIDS)
    (working : ∀ b, o = .store b ∨ o = .release b → (w.held p b).isSome)
    (written : ∀ b hold, o = .brelse b ∨ o = .release b → w.held p b = some hold →
      hold.dirty = false) : Inv tags image (w.setOp p o) where
  order := inv.order
  refcnt b inside := by
    exact (inv.refcnt b inside).trans (obtained_op_same refers b).symm
  tagged := inv.tagged
  users := inv.users.setOp asked (fun b d n here => inv.users.tag p b d n (tag b d n here))
    (fun b here => absurd here (drop b)) ret (fun _ => range)
  owned := inv.owned.setOp owns working written
  synced := by
    refine ⟨inv.synced.clean, ?_, inv.synced.disk⟩
    exact op_cases (P := fun _ o => ∀ b d n, o = .mark b d n →
      w.data b = w.disk d n) (fun b d n here => absurd here (unmarked b d n))
      fun p' _ => inv.synced.marked p'

theorem Inv.hit {dev b : Nat} (here : w.op p = .bget dev n)
    (found : cached w dev n = some b) : Inv tags image ((refer b w).setOp p (.acquire b dev n)) := by
  obtain ⟨inside, sameDev, sameBlock⟩ := cached_some inv found
  have range := inv.users.op_pid p (by simp [here])
  have before : (w.op p).refers = none := by rw [here]; rfl
  have room := obtained_room (inv.nobody b) range.2 before
  refine ⟨inv.order, ?_, inv.tagged, ?_, inv.owned.setOp (by rw [here]; rfl) (by simp) (by simp),
    ⟨inv.synced.clean, ?_, inv.synced.disk⟩⟩
  · intro b' inside'
    refine Eq.trans ?_ (obtained_op_refer range.2 before rfl b').symm
    have exactly := inv.refcnt b' inside'
    simp only [World.setOp, refer]
    by_cases same : b' = b
    · subst same
      rw [update_self, if_pos rfl, exactly, Nat.mod_eq_of_lt room]
    · rw [update_of_ne same, if_neg same, exactly, Nat.add_zero]
  · refine inv.users.setOp nofun ?_ nofun nofun (fun _ => range)
    rintro b' d' n' ⟨⟩
    exact ⟨inside, sameDev, sameBlock, inv.users.asked p dev n here⟩
  · exact op_cases (P := fun _ o => ∀ b d n, o = .mark b d n → w.data b = w.disk d n)
      nofun fun p' _ => inv.synced.marked p'

theorem Inv.unreferred {b : Nat} (inside : b < NBUF)
    (zero : w.refcnt b = 0) (p : Nat) : (w.op p).refers ≠ some b ∧ w.held p b = none := by
  have exactly := inv.refcnt b inside
  rw [zero, obtained] at exactly
  have noHold := Count.eq_zero_iff.mp (by omega :
    count PIDS (fun p => (w.held p b).isSome) = 0)
  have noRef := Count.eq_zero_iff.mp (by omega :
    count PIDS (fun p => decide ((w.op p).refers = some b)) = 0)
  refine ⟨?_, ?_⟩
  · intro refers
    have range := inv.users.op_pid p (by
      intro idle
      rw [idle] at refers
      cases refers)
    simpa [refers] using noRef p range.2
  · cases here : w.held p b with
    | none => rfl
    | some hold => simpa [here] using noHold p (inv.users.held_pid p b hold here).2

theorem Inv.miss {dev b : Nat} (here : w.op p = .bget dev n)
    (missing : cached w dev n = none) (found : unused w = some b) :
    Inv tags image ((recycle b dev n w).setOp p (.acquire b dev n)) := by
  obtain ⟨inside, zero⟩ := unused_some inv found
  have range := inv.users.op_pid p (by simp [here])
  have before : (w.op p).refers = none := by rw [here]; rfl
  have asked := inv.users.asked p dev n here
  refine ⟨inv.order, ?_, inv.tagged.recycle (fun b' inside' => cached_none inv missing inside') asked,
    ?_, inv.owned.setOp (by rw [here]; rfl) (by simp) (by simp), ⟨?_, ?_, inv.synced.disk⟩⟩
  · intro b' inside'
    refine Eq.trans ?_ (obtained_op_refer range.2 before rfl b').symm
    have exactly := inv.refcnt b' inside'
    simp only [World.setOp, recycle]
    by_cases same : b' = b
    · subst same
      rw [update_self, if_pos rfl, ← exactly, zero]
    · rw [update_of_ne same, if_neg same, exactly, Nat.add_zero]
  · refine (inv.users.recycle (inv.unreferred inside zero) dev n false).setOp nofun ?_ nofun nofun
      (fun _ => range)
    rintro b' d' n' ⟨⟩
    exact ⟨inside, by simp, by simp, asked⟩
  · intro b' inside' valid clean
    simp only [World.setOp, recycle, update_apply] at valid ⊢
    split_ifs at valid ⊢ with same
    exact inv.synced.clean b' inside' valid clean
  · exact op_cases (P := fun _ o => ∀ b d n, o = .mark b d n → w.data b = w.disk d n)
      nofun fun p' _ => inv.synced.marked p'

end
end Xv6Lab.Bio
