import Xv6Lab.Bio.Coherence

/-!
The buffer list: bget recycles the buf that has been unused for longest.
-/

namespace Xv6Lab.Bio
open List
open Function (update update_apply update_of_ne update_self)
open DoublyLinked (IsRing)
variable {Data : Type} {uses : Nat → Nat → Bool} {w w' : World Data} {p b : Nat}
  {refcnt : Nat → Nat} {locked : Nat → Bool} {op : Nat → Op} {order : List Nat}

/-- The buf that p will lock or move to the front without another look at its lock. -/
def Op.moves : Op → Option Nat
  | .acquire b _ _ | .release b | .drop b => some b
  | _ => none

structure Listed (refcnt : Nat → Nat) (locked : Nat → Bool) (op : Nat → Op) : Prop where
  small : ∀ b, refcnt b < 2 ^ 32
  locked : ∀ b, locked b → b < NBUF
  moves : ∀ p b, (op p).moves = some b → b < NBUF

section
variable (listed : Listed refcnt locked op)
include listed

theorem Listed.setOp {o : Op} (inside : ∀ b, o.moves = some b → b < NBUF) :
    Listed refcnt locked (update op p o) :=
  ⟨listed.small, listed.locked, op_cases (P := fun _ o => ∀ b, o.moves = some b → b < NBUF) inside
    fun p' _ => listed.moves p'⟩

theorem Listed.stay {o : Op} (stays : o.moves = none) : Listed refcnt locked (update op p o) :=
  listed.setOp fun b moves => by simp [stays] at moves

theorem Listed.count {c : Nat} (small : c < 2 ^ 32) : Listed (update refcnt b c) locked op := by
  refine ⟨fun b' => ?_, listed.locked, listed.moves⟩
  rw [update_apply]
  split_ifs
  · exact small
  · exact listed.small b'

theorem Listed.lock {value : Bool} (inside : value → b < NBUF) :
    Listed refcnt (update locked b value) op := by
  refine ⟨listed.small, fun b' taken => ?_, listed.moves⟩
  rw [update_apply] at taken
  split_ifs at taken with same
  · exact same ▸ inside taken
  · exact listed.locked b' taken

end

theorem Listed.drop (listed : Listed w.refcnt w.locked w.op) :
    Listed (dropSection b w).refcnt (dropSection b w).locked (dropSection b w).op := by
  have counted := listed.count (b := b) (Nat.mod_lt (w.refcnt b + (2 ^ 32 - 1)) (Nat.two_pow_pos 32))
  unfold dropSection
  split_ifs
  · exact counted
  · exact counted

theorem found_inside (ring : IsRing w.next w.prev head order) (perm : order.Perm (List.range NBUF))
    (dev n : Nat) (found : cached w dev n = some b ∨ unused w = some b) : b < NBUF := by
  rw [cached_eq ring perm, unused_eq ring perm] at found
  rw [← mem_range, ← perm.mem_iff]
  rcases found with hit | spare
  · exact mem_of_find?_eq_some hit
  · exact mem_reverse.mp (mem_of_find?_eq_some spare)

theorem Listed.run (listed : Listed w.refcnt w.locked w.op)
    (ring : IsRing w.next w.prev head order) (perm : order.Perm (List.range NBUF))
    (moved : run p w = .ok w') : Listed w'.refcnt w'.locked w'.op := by
  have mine := listed.moves p
  unfold Bio.run at moved
  cases here : w.op p with
  | bget dev n =>
    simp only [here, bgetSection] at moved
    cases found : cached w dev n with
    | some b =>
      simp only [found, Except.ok.injEq] at moved
      rw [← moved]
      refine (listed.count (Nat.mod_lt _ (Nat.two_pow_pos 32))).setOp ?_
      rintro b' ⟨⟩
      exact found_inside ring perm dev n (.inl found)
    | none =>
      cases spare : unused w with
      | none => simp [found, spare] at moved
      | some b =>
        simp only [found, spare, Except.ok.injEq] at moved
        rw [← moved]
        refine (listed.count (by decide)).setOp ?_
        rintro b' ⟨⟩
        exact found_inside ring perm dev n (.inr spare)
  | acquire b dev n =>
    simp only [here] at moved
    split_ifs at moved
    · exact Except.ok.inj moved ▸ listed
    · rw [← Except.ok.inj moved]
      exact (listed.lock fun _ => mine b (by rw [here]; rfl)).stay rfl
  | brelse b =>
    simp only [here] at moved
    split_ifs at moved with holding
    rw [← Except.ok.inj moved]
    refine listed.setOp ?_
    rintro b' ⟨⟩
    exact listed.locked b (holdingsleep_iff.mp holding).1
  | release b =>
    simp only [here, Except.ok.injEq] at moved
    have freed : Listed w.refcnt (update w.locked b false) w.op := listed.lock (by simp)
    rw [← moved]
    refine freed.setOp ?_
    rintro b' ⟨⟩
    exact mine b (by rw [here]; rfl)
  | drop b =>
    simp only [here, Except.ok.injEq] at moved
    rw [← moved]
    exact listed.drop.stay rfl
  | check b dev n =>
    simp only [here, Except.ok.injEq] at moved
    rw [← moved]
    refine listed.stay ?_
    split_ifs <;> rfl
  | bwrite b =>
    simp only [here] at moved
    split_ifs at moved
    rw [← Except.ok.inj moved]
    exact listed.stay rfl
  | idle =>
    simp only [here, Except.ok.injEq] at moved
    exact moved ▸ listed
  | _ =>
    simp only [here, Except.ok.injEq] at moved
    rw [← moved]
    exact listed.stay rfl

theorem run_links (moved : run p w = .ok w') :
    (w'.next = w.next ∧ w'.prev = w.prev ∧ ∀ b, w.refcnt b = 1 → w'.refcnt b ≠ 0) ∨
      ∃ b, w.op p = .drop b ∧ w' = (dropSection b w).setOp p .idle := by
  have same : ∀ b, w.refcnt b = 1 → w.refcnt b ≠ 0 := fun b one => by omega
  unfold Bio.run at moved
  cases here : w.op p with
  | bget dev n =>
    refine .inl ?_
    simp only [here, bgetSection] at moved
    split at moved
    · rw [← Except.ok.inj moved]
      refine ⟨rfl, rfl, fun b one => ?_⟩
      simp only [refer, World.setOp, update_apply]
      split_ifs with same
      · rw [← same, one]
        decide
      · omega
    · split at moved
      · rw [← Except.ok.inj moved]
        refine ⟨rfl, rfl, fun b one => ?_⟩
        simp only [recycle, World.setOp, update_apply]
        split_ifs <;> omega
      · cases moved
  | drop b =>
    simp only [here, Except.ok.injEq] at moved
    exact .inr ⟨b, rfl, moved.symm⟩
  | acquire b dev n =>
    simp only [here] at moved
    split_ifs at moved <;> rw [← Except.ok.inj moved] <;> exact .inl ⟨rfl, rfl, same⟩
  | bwrite b | brelse b =>
    simp only [here] at moved
    split_ifs at moved
    rw [← Except.ok.inj moved]
    exact .inl ⟨rfl, rfl, same⟩
  | _ =>
    simp only [here, Except.ok.injEq] at moved
    rw [← moved]
    exact .inl ⟨rfl, rfl, same⟩

/-- A run of the cache with the time of each buf's last drop of refcnt to 0. Time 0 is never. -/
structure Timed (Data : Type) where
  world : World Data
  now : Nat
  dropped : Nat → Nat

def Timed.next (t : Timed Data) (w' : World Data) : Timed Data where
  world := w'
  now := t.now + 1
  dropped b := if t.world.refcnt b = 1 ∧ w'.refcnt b = 0 then t.now + 1 else t.dropped b

def Timed.step (uses : Nat → Nat → Bool) (t : Timed Data) (e : Event Data) : Timed Data :=
  t.next (Bio.step uses t.world e)

def Timed.init (blank : Data) (image : Nat → Nat → Data) : Timed Data := ⟨Bio.init blank image, 0, fun _ => 0⟩

def Fresher (dropped : Nat → Nat) (b b' : Nat) : Prop := dropped b' < dropped b ∨ dropped b' = 0

def Timed.Ordered (t : Timed Data) (order : List Nat) : Prop :=
  IsRing t.world.next t.world.prev head order ∧ order.Perm (List.range NBUF) ∧
    order.Pairwise (Fresher t.dropped)

structure Recent (t : Timed Data) : Prop where
  order : ∃ order, t.Ordered order
  past : ∀ b, t.dropped b ≤ t.now
  listed : Listed t.world.refcnt t.world.locked t.world.op

section Steps
variable {t : Timed Data}

section
variable (recent : Recent t)
include recent

theorem Recent.past_next (w' : World Data) (b : Nat) : (t.next w').dropped b ≤ (t.next w').now := by
  simp only [Timed.next]
  split_ifs
  · exact le_rfl
  · exact (recent.past b).trans (Nat.le_succ _)

theorem Recent.keep (next : w'.next = t.world.next) (prev : w'.prev = t.world.prev)
    (kept : ∀ b, t.world.refcnt b = 1 → w'.refcnt b ≠ 0) (listed : Listed w'.refcnt w'.locked w'.op) :
    Recent (t.next w') := by
  obtain ⟨order, ring, perm, sorted⟩ := recent.order
  refine ⟨⟨order, ?_, perm, ?_⟩, recent.past_next w', listed⟩
  · simpa only [Timed.next, next, prev] using ring
  · have same : (t.next w').dropped = t.dropped := by
      funext b
      exact if_neg fun fell => kept b fell.1 fell.2
    rwa [same]

theorem Recent.drop (here : t.world.op p = .drop b) :
    Recent (t.next ((dropSection b t.world).setOp p .idle)) := by
  have inside := recent.listed.moves p b (by rw [here]; rfl)
  have listed := (recent.listed.drop (b := b)).stay (p := p) (o := .idle) rfl
  by_cases zero : (unrefer b t.world).refcnt b = 0
  · have moved : dropSection b t.world = ((unrefer b t.world).unlink b).pushFront b := if_pos zero
    rw [moved] at listed ⊢
    have one : t.world.refcnt b = 1 := by
      have small := recent.listed.small b
      simp only [unrefer, update_self, decrement] at zero
      omega
    obtain ⟨order, ring, perm, sorted⟩ := recent.order
    obtain ⟨ring', perm'⟩ := ring_front (w := unrefer b t.world) ring perm inside
    refine ⟨⟨b :: order.erase b, ring', perm', ?_⟩, recent.past_next _, listed⟩
    have newest : (t.next ((((unrefer b t.world).unlink b).pushFront b).setOp p .idle)).dropped b = t.now + 1 :=
      if_pos ⟨one, zero⟩
    have others : ∀ b', b' ≠ b →
        (t.next ((((unrefer b t.world).unlink b).pushFront b).setOp p .idle)).dropped b' = t.dropped b' := by
      intro b' other
      refine if_neg fun fell => ?_
      have same : t.world.refcnt b' = 0 := (update_of_ne other _ _).symm.trans fell.2
      omega
    have apart : ∀ b' ∈ order.erase b, b' ≠ b := fun b' member =>
      ((nodup_cons.mp ring.nodup).2.mem_erase_iff.mp member).1
    refine pairwise_cons.mpr ⟨fun b' member => ?_, ?_⟩
    · have before := recent.past b'
      rw [Fresher, newest, others b' (apart b' member)]
      omega
    · refine (sorted.sublist erase_sublist).imp_of_mem fun member member' fresher => ?_
      rwa [Fresher, others _ (apart _ member), others _ (apart _ member')]
  · have still : dropSection b t.world = unrefer b t.world := if_neg zero
    rw [still] at listed ⊢
    refine recent.keep rfl rfl (fun b' one => ?_) listed
    by_cases same : b' = b
    · exact same ▸ zero
    · simp only [World.setOp, unrefer, update_of_ne same]
      omega

theorem Recent.apply {e : Event Data} (moved : apply uses t.world e = .ok w') :
    Recent (t.next w') := by
  have same : ∀ b, t.world.refcnt b = 1 → t.world.refcnt b ≠ 0 := fun b one => by omega
  cases e with
  | run p =>
    rcases run_links moved with ⟨next, prev, kept⟩ | ⟨b, here, rfl⟩
    · obtain ⟨order, ring, perm, -⟩ := recent.order
      exact recent.keep next prev kept (recent.listed.run ring perm moved)
    · exact recent.drop here
  | modify p b data =>
    simp only [Bio.apply] at moved
    split at moved <;> rw [← Except.ok.inj moved] <;> exact recent.keep rfl rfl same recent.listed
  | _ =>
    simp only [Bio.apply] at moved
    split_ifs at moved <;> rw [← Except.ok.inj moved]
    · exact recent.keep rfl rfl same (recent.listed.stay rfl)
    · exact recent.keep rfl rfl same recent.listed

theorem Recent.step (e : Event Data) : Recent (t.step uses e) := by
  have same : ∀ b, t.world.refcnt b = 1 → t.world.refcnt b ≠ 0 := fun b one => by omega
  unfold Timed.step Bio.step
  split_ifs
  · exact recent.keep rfl rfl same recent.listed
  · cases result : Bio.apply uses t.world e with
    | ok w' => exact recent.apply result
    | error panic => exact recent.keep rfl rfl same recent.listed

end
end Steps

theorem recent_init (blank : Data) (image : Nat → Nat → Data) : Recent (Timed.init blank image) := by
  unfold Timed.init
  obtain ⟨next, prev, state, ring⟩ := init_ring blank image
  rw [state]
  refine ⟨⟨_, ring, reverse_perm _, ?_⟩, fun _ => le_rfl, fun _ => Nat.two_pow_pos 32, nofun, nofun⟩
  exact pairwise_of_forall fun _ _ => .inr rfl

/-- bget recycles an unreferenced buf whose count dropped to 0 before those of all others, or
one that never had references. -/
structure Lru (t : Timed Data) : Prop where
  order : ∃ order, t.Ordered order
  evicts : ∀ p dev n, cached t.world dev n = none → (∃ b < NBUF, t.world.refcnt b = 0) →
    ∃ b < NBUF, t.world.refcnt b = 0 ∧
      bgetSection p dev n t.world = .ok ((recycle b dev n t.world).setOp p (.acquire b dev n)) ∧
      ∀ b' < NBUF, t.world.refcnt b' = 0 → b' ≠ b → Fresher t.dropped b' b

theorem Timed.Ordered.evicts {t : Timed Data} (ordered : t.Ordered order) {dev n : Nat}
    (missing : cached t.world dev n = none) (spare : ∃ b < NBUF, t.world.refcnt b = 0) :
    ∃ b < NBUF, t.world.refcnt b = 0 ∧
      bgetSection p dev n t.world = .ok ((recycle b dev n t.world).setOp p (.acquire b dev n)) ∧
      ∀ b' < NBUF, t.world.refcnt b' = 0 → b' ≠ b → Fresher t.dropped b' b := by
  obtain ⟨ring, perm, sorted⟩ := ordered
  have inside : ∀ {b}, b ∈ order ↔ b < NBUF := perm.mem_iff.trans mem_range
  have search := unused_eq ring perm
  cases found : unused t.world with
  | none =>
    obtain ⟨b, below, zero⟩ := spare
    rw [found] at search
    have all := find?_eq_none.mp search.symm b (mem_reverse.mpr (inside.mpr below))
    exact absurd zero (by simpa using all)
  | some b =>
    rw [found] at search
    -- bget walks backwards: what it has passed is in use, and the rest is fresher
    obtain ⟨zero, passed, rest, split, busy⟩ := find?_eq_some_iff_append.mp search.symm
    have shape : order = rest.reverse ++ b :: passed.reverse := by
      have turned := congrArg List.reverse split
      simpa using turned
    refine ⟨b, inside.mp (by simp [shape]), by simpa using zero, ?_, ?_⟩
    · simp only [bgetSection, missing, found]
    · intro b' below' zero' other
      have member := inside.mpr below'
      rw [shape, mem_append, mem_cons, mem_reverse] at member
      rw [shape, pairwise_append] at sorted
      rcases member with front | rfl | back
      · exact sorted.2.2 b' (mem_reverse.mpr front) b mem_cons_self
      · exact absurd rfl other
      · have used := busy b' (mem_reverse.mp back)
        simp [zero'] at used

theorem buffer_list_lru (uses : Nat → Nat → Bool) (blank : Data) (image : Nat → Nat → Data)
    (events : List (Event Data)) : Lru (Machine.run (Timed.step uses) (Timed.init blank image) events) := by
  have recent : Recent (Machine.run (Timed.step uses) (Timed.init blank image) events) :=
    Machine.run_invariant (Timed.step uses) (fun _ e recent => recent.step e) (recent_init blank image) events
  obtain ⟨order, ordered⟩ := recent.order
  exact ⟨⟨order, ordered⟩, fun p dev n missing spare => ordered.evicts missing spare⟩

end Xv6Lab.Bio
