import Xv6Lab.Console.Model

/-!
The ring of the console under every interleaving of the handler, readers and
consolesetraw. What one step can do to the ring is said once (`Move`).
-/

namespace Xv6Lab.Console
open List
open Function (update update_of_ne update_self)
variable {i : BitVec 32} {n : Nat}

inductive Move (ring ring' : Ring) : Prop
  | idle (buf : ring'.buf = ring.buf) (r : ring'.r = ring.r) (w : ring'.w = ring.w)
      (e : ring'.e = ring.e)
  | take (ready : ring.r ≠ ring.w) (buf : ring'.buf = ring.buf) (r : ring'.r = ring.r + 1)
      (w : ring'.w = ring.w) (e : ring'.e = ring.e)
  | erase (len : Nat) (short : len ≤ (ring.e - ring.w).toNat) (buf : ring'.buf = ring.buf)
      (r : ring'.r = ring.r) (w : ring'.w = ring.w) (e : ring'.e = ring.e - BitVec.ofNat 32 len)
  | put (c : UInt8) (room : (ring.e - ring.r).toNat < INPUT_BUF_SIZE)
      (buf : ring'.buf = update ring.buf (ring.e.toNat % INPUT_BUF_SIZE) c)
      (r : ring'.r = ring.r) (e : ring'.e = ring.e + 1)
      (w : ring'.w = ring.e + 1 ∨ (ring'.w = ring.w ∧ c ≠ newline ∧ c ≠ ctrl 'D' ∧
        (ring.e + 1 - ring.r).toNat ≠ INPUT_BUF_SIZE))

section Input
variable {ring : Ring}

theorem utf8CharBack_le (ring : Ring) (idx n : Nat) :
    utf8CharBack ring idx n ≤ n + (idx - ring.w.toNat) := by
  induction idx generalizing n with
  | zero => exact Nat.le_add_right _ _
  | succ idx ih =>
    rw [utf8CharBack]
    split
    · rename_i inside
      have later := ih (n + 1)
      omega
    · omega

theorem utf8CharLen_le (ring : Ring) : utf8CharLen ring ring.e ≤ (ring.e - ring.w).toNat := by
  unfold utf8CharLen
  split
  · exact Nat.zero_le _
  · rename_i above
    have back := utf8CharBack_le ring (ring.e - 1).toNat 1
    have order : ring.w.toNat < ring.e.toNat := by
      rw [BitVec.le_def] at above
      omega
    have previous : (ring.e - 1).toNat = ring.e.toNat - 1 := by bv_omega
    have distance : (ring.e - ring.w).toNat = ring.e.toNat - ring.w.toNat := by bv_omega
    omega

@[simp] theorem consputc_iterate (c n : Nat) (ring : Ring) :
    ((consputc c)^[n] ring).buf = ring.buf ∧ ((consputc c)^[n] ring).r = ring.r ∧
    ((consputc c)^[n] ring).w = ring.w ∧ ((consputc c)^[n] ring).e = ring.e := by
  induction n generalizing ring with
  | zero => exact ⟨rfl, rfl, rfl, rfl⟩
  | succ n ih =>
    rw [Function.iterate_succ_apply]
    exact ih (consputc c ring)

theorem erase_move (ring : Ring) : Move ring (erase ring) := by
  unfold erase
  obtain ⟨buf, r, w, e⟩ := consputc_iterate BACKSPACE
    (utf8DisplayWidth (utf8Decode ring ring.e (utf8CharLen ring ring.e)))
    { ring with e := ring.e - BitVec.ofNat 32 (utf8CharLen ring ring.e) }
  exact .erase _ (utf8CharLen_le ring) buf r w e

theorem idle_move (ring : Ring) : Move ring ring := .idle rfl rfl rfl rfl

theorem input_move (c : UInt8) (ring : Ring) : Move ring (input c ring).1 := by
  unfold input
  by_cases dump : c = ctrl 'P'
  · rw [if_pos dump]
    exact idle_move ring
  rw [if_neg dump]
  by_cases raw : ring.raw = true
  · rw [if_pos raw]
    split
    · rename_i room
      exact .put (asLine c) (by simpa [Ring.room] using room.2) rfl rfl rfl (.inl rfl)
    · exact idle_move ring
  rw [if_neg raw]
  by_cases kill : c = ctrl 'U'
  · rw [if_pos kill]
    exact idle_move ring
  rw [if_neg kill]
  by_cases back : c = ctrl 'H' ∨ c = delete
  · rw [if_pos back]
    dsimp only
    split
    · exact erase_move ring
    · exact idle_move ring
  rw [if_neg back]
  by_cases room : c ≠ 0 ∧ ring.room = true
  · rw [if_pos room]
    dsimp only
    have space : (ring.e - ring.r).toNat < INPUT_BUF_SIZE := by simpa [Ring.room] using room.2
    split
    · exact .put (asLine c) space rfl rfl rfl (.inl rfl)
    · rename_i more
      simp only [not_or] at more
      exact .put (asLine c) space rfl rfl rfl (.inr ⟨rfl, more.1, more.2.1, more.2.2⟩)
  · rw [if_neg room]
    exact idle_move ring

end Input

section Step
variable {nproc : Nat} {pid : Nat → BitVec 32}

theorem takeByte_move (i : Nat) (rd : Read) (copied : Bool) {w : World} (ready : w.ring.r ≠ w.ring.w) :
    Move w.ring (takeByte i rd copied w).ring := by
  unfold takeByte
  dsimp only
  split
  · split
    · exact idle_move _
    · exact .take ready rfl rfl rfl rfl
  · split
    · split <;> exact .take ready rfl rfl rfl rfl
    · exact .take ready rfl rfl rfl rfl

theorem readStep_move (i : Nat) (stage : Stage) (rd : Read) (choice : Choice) (w : World) :
    Move w.ring (readStep i stage rd choice w).ring := by
  cases stage with
  | enter | killed => rw [readStep]; split <;> exact idle_move _
  | loop =>
    rw [readStep]
    split
    · exact idle_move _
    · split
      · exact idle_move _
      · rename_i ready
        exact takeByte_move i rd _ ready
  | sleep | doze | asleep => exact idle_move _

@[simp] theorem killOne_ring (k : Nat) (w : World) : (killOne k w).ring = w.ring := by
  unfold killOne
  dsimp only
  split <;> rfl

@[simp] theorem wakeOne_ring (k : Nat) (w : World) : (wakeOne k w).ring = w.ring := by
  unfold wakeOne
  split <;> rfl

@[simp] theorem setHandler_ring (w : World) (h : Handler) (next : Option HandlerPc) :
    (w.setHandler h next).ring = w.ring := by
  cases next <;> rfl

theorem threadStep_move (i : Nat) (choice : Choice) (w : World) :
    Move w.ring (threadStep nproc pid i choice w).ring := by
  unfold threadStep
  cases w.pc i with
  | user => cases choice <;> exact idle_move _
  | read stage rd => exact readStep_move i stage rd choice w
  | setraw raw =>
    dsimp only
    split
    · exact idle_move _
    · exact .idle rfl rfl rfl rfl
  | kill q k =>
    dsimp only
    split
    · exact idle_move _
    · split
      · exact idle_move _
      · split
        · simp only [World.ret, World.setPc, killOne_ring]
          exact idle_move _
        · exact idle_move _

theorem handlerStep_move (h : Handler) (w : World) : Move w.ring (handlerStep nproc h w).ring := by
  unfold handlerStep
  cases h.pc with
  | acquire c =>
    dsimp only
    split
    · exact idle_move _
    · rw [setHandler_ring]
      exact idle_move _
  | input c =>
    dsimp only
    rw [setHandler_ring]
    exact input_move c w.ring
  | killLine =>
    dsimp only
    split
    · exact erase_move w.ring
    · rw [setHandler_ring]
      exact idle_move _
  | wake k =>
    dsimp only
    split
    · rw [setHandler_ring]
      exact idle_move _
    · split
      · rw [setHandler_ring]
        exact idle_move _
      · split
        · exact idle_move _
        · rw [setHandler_ring, wakeOne_ring]
          exact idle_move _

theorem dispatchStep_ring (i : Nat) (w : World) : (dispatchStep i w).ring = w.ring := by
  unfold dispatchStep
  split <;> rfl

theorem step_move (w : World) (e : Event) : Move w.ring (step nproc pid w e).ring := by
  cases e with
  | run i choice =>
    rw [step]
    split
    · exact threadStep_move i choice w
    · exact idle_move _
  | dispatch i =>
    rw [step]
    split
    · rw [dispatchStep_ring]
      exact idle_move _
    · exact idle_move _
  | preempt i | uart i c =>
    rw [step]
    split <;> exact idle_move _
  | handler =>
    rw [step]
    split
    · exact idle_move _
    · exact handlerStep_move _ w

end Step

section Invariant

def Ring.span (ring : Ring) (i : BitVec 32) (n : Nat) : List UInt8 :=
  (List.range n).map fun k => ring.byte (i + BitVec.ofNat 32 k)

def Ring.pending (ring : Ring) : List UInt8 := ring.span ring.r (ring.w - ring.r).toNat

def Ring.line (ring : Ring) : List UInt8 := ring.span ring.w (ring.e - ring.w).toNat

/-- The counters are in order, a full ring can be read, and the open line has no end
of line or end of file. -/
structure Ring.Ok (ring : Ring) : Prop where
  ready : (ring.w - ring.r).toNat ≤ (ring.e - ring.r).toNat
  bound : (ring.e - ring.r).toNat ≤ INPUT_BUF_SIZE
  full : (ring.e - ring.r).toNat = INPUT_BUF_SIZE → ring.w = ring.e
  line_open : ∀ c ∈ ring.line, c ≠ newline ∧ c ≠ ctrl 'D'

variable {ring ring' : Ring}

theorem Ring.Ok.line_length (ok : ring.Ok) :
    (ring.e - ring.w).toNat = (ring.e - ring.r).toNat - (ring.w - ring.r).toNat := by
  have := ok.ready
  bv_omega

theorem slot_ne {k : Nat} (before : k < n) (close : n < INPUT_BUF_SIZE) :
    (i + BitVec.ofNat 32 k).toNat % INPUT_BUF_SIZE ≠ (i + BitVec.ofNat 32 n).toNat % INPUT_BUF_SIZE := by
  unfold INPUT_BUF_SIZE at *
  simp only [BitVec.toNat_add, BitVec.toNat_ofNat]
  omega

theorem Move.keeps (move : Move ring ring') (k : Nat) (inside : k < (ring.e - ring.r).toNat) :
    ring'.byte (ring.r + BitVec.ofNat 32 k) = ring.byte (ring.r + BitVec.ofNat 32 k) := by
  cases move with
  | idle buf | take _ buf | erase _ _ buf => rw [Ring.byte, buf]; rfl
  | put c room buf =>
    have last : ring.e = ring.r + BitVec.ofNat 32 (ring.e - ring.r).toNat := by bv_omega
    have other := slot_ne (i := ring.r) inside room
    rw [Ring.byte, buf, update_of_ne]
    · rfl
    · rwa [← last] at other

theorem span_congr
    (same : ∀ k < n, ring'.byte (i + BitVec.ofNat 32 k) = ring.byte (i + BitVec.ofNat 32 k)) :
    ring'.span i n = ring.span i n :=
  map_congr_left fun k member => same k (mem_range.mp member)

theorem span_add (ring : Ring) (i : BitVec 32) (n m : Nat) :
    ring.span i (n + m) = ring.span i n ++ ring.span (i + BitVec.ofNat 32 n) m := by
  simp only [Ring.span, range_add, map_append, map_map]
  congr 2
  funext k
  simp only [Function.comp_apply]
  congr 1
  rw [BitVec.add_assoc, BitVec.ofNat_add]

@[simp] theorem span_length (ring : Ring) (i : BitVec 32) (n : Nat) : (ring.span i n).length = n := by
  simp [Ring.span]

theorem span_one (ring : Ring) (i : BitVec 32) : ring.span i 1 = [ring.byte i] := by
  simp [Ring.span]

theorem Ring.Ok.window (ok : ring.Ok) :
    ring.span ring.r (ring.e - ring.r).toNat = ring.pending ++ ring.line := by
  have start : ring.r + BitVec.ofNat 32 (ring.w - ring.r).toNat = ring.w := by bv_omega
  have whole : (ring.e - ring.r).toNat = (ring.w - ring.r).toNat + (ring.e - ring.w).toNat := by
    have := ok.line_length
    have := ok.ready
    omega
  rw [whole, span_add, start]
  rfl

/-- What the console's input is for: a line that is edited and then handed to the
readers, who take its bytes one by one. -/
inductive Edit : List UInt8 → List UInt8 → List UInt8 → List UInt8 → Prop
  | idle (pending line : List UInt8) : Edit pending line pending line
  | take (c : UInt8) (pending line : List UInt8) : Edit (c :: pending) line pending line
  | erase (pending front back : List UInt8) : Edit pending (front ++ back) pending front
  | put (pending line : List UInt8) (c : UInt8) (plain : c ≠ newline ∧ c ≠ ctrl 'D') :
      Edit pending line pending (line ++ [c])
  | commit (pending line : List UInt8) (c : UInt8) : Edit pending line (pending ++ line ++ [c]) []

theorem take_pending (ready : ring.r ≠ ring.w) :
    ring.pending = ring.byte ring.r :: ring.span (ring.r + 1) (ring.w - (ring.r + 1)).toNat := by
  have size : (ring.w - ring.r).toNat = 1 + (ring.w - (ring.r + 1)).toNat := by bv_omega
  rw [Ring.pending, size, span_add, span_one]
  rfl

theorem put_span {c : UInt8} (room : (ring.e - ring.r).toNat < INPUT_BUF_SIZE)
    (buf : ring'.buf = update ring.buf (ring.e.toNat % INPUT_BUF_SIZE) c) :
    ring'.span ring.r ((ring.e - ring.r).toNat + 1) = ring.span ring.r (ring.e - ring.r).toNat ++ [c] := by
  have last : ring.r + BitVec.ofNat 32 (ring.e - ring.r).toNat = ring.e := by bv_omega
  rw [span_add, last, span_one, Ring.byte, buf, update_self]
  congr 1
  apply span_congr
  intro k inside
  have other := slot_ne (i := ring.r) inside room
  rw [last] at other
  rw [Ring.byte, buf, update_of_ne other]
  rfl

theorem Move.refines (move : Move ring ring') (ok : ring.Ok) :
    ring'.Ok ∧ Edit ring.pending ring.line ring'.pending ring'.line := by
  have ready := ok.ready
  have bound := ok.bound
  have full := ok.full
  have length := ok.line_length
  cases move with
  | idle buf r w e =>
    have pending : ring'.pending = ring.pending := by simp only [Ring.pending, Ring.span, Ring.byte, buf, r, w]
    have line : ring'.line = ring.line := by simp only [Ring.line, Ring.span, Ring.byte, buf, w, e]
    rw [pending, line]
    refine ⟨⟨by rw [r, w, e]; exact ready, by rw [r, e]; exact bound, by rw [r, w, e]; exact full, ?_⟩,
      .idle _ _⟩
    rw [line]
    exact ok.line_open
  | take some_byte buf r w e =>
    have pending : ring'.pending = ring.span (ring.r + 1) (ring.w - (ring.r + 1)).toNat := by
      simp only [Ring.pending, Ring.span, Ring.byte, buf, r, w]
    have line : ring'.line = ring.line := by simp only [Ring.line, Ring.span, Ring.byte, buf, w, e]
    rw [take_pending some_byte, pending, line]
    refine ⟨⟨?_, ?_, ?_, ?_⟩, .take _ _ _⟩
    · rw [r, w, e]
      bv_omega
    · rw [r, e]
      bv_omega
    · rw [r, w, e]
      unfold INPUT_BUF_SIZE at *
      bv_omega
    · rw [line]
      exact ok.line_open
  | erase len short buf r w e =>
    have pending : ring'.pending = ring.pending := by simp only [Ring.pending, Ring.span, Ring.byte, buf, r, w]
    have rest : (ring.e - ring.w).toNat = (ring.e - BitVec.ofNat 32 len - ring.w).toNat + len := by
      bv_omega
    have line : ring'.line = ring.span ring.w (ring.e - BitVec.ofNat 32 len - ring.w).toNat := by
      simp only [Ring.line, Ring.span, Ring.byte, buf, w, e]
    have cut : ring.line = ring'.line ++ ring.span
        (ring.w + BitVec.ofNat 32 (ring.e - BitVec.ofNat 32 len - ring.w).toNat) len := by
      rw [line, ← span_add, ← rest]
      rfl
    rw [pending, cut]
    refine ⟨⟨?_, ?_, ?_, ?_⟩, .erase _ _ _⟩
    · rw [r, w, e]
      bv_omega
    · rw [r, e]
      bv_omega
    · rw [r, w, e]
      unfold INPUT_BUF_SIZE at *
      bv_omega
    · intro c member
      exact ok.line_open c (by rw [cut]; simp [member])
  | put c room buf r e w =>
    have window := put_span room buf
    rw [ok.window] at window
    rcases w with w | ⟨w, plain⟩
    · have pending : ring'.pending = ring.pending ++ ring.line ++ [c] := by
        have size : (ring.e + 1 - ring.r).toNat = (ring.e - ring.r).toNat + 1 := by
          unfold INPUT_BUF_SIZE at room
          bv_omega
        rw [← window, Ring.pending, r, w, size]
      have line : ring'.line = [] := by
        apply eq_nil_of_length_eq_zero
        simp [Ring.line, w, e]
      rw [pending, line]
      refine ⟨⟨?_, ?_, ?_, ?_⟩, .commit _ _ _⟩
      · rw [w, e]
      · rw [r, e]
        unfold INPUT_BUF_SIZE at *
        bv_omega
      · intro _
        rw [w, e]
      · rw [line]
        intro c member
        cases member
    · have size : (ring.e - ring.r).toNat + 1 = (ring.w - ring.r).toNat + (ring.e + 1 - ring.w).toNat := by
        unfold INPUT_BUF_SIZE at room
        bv_omega
      have start : ring.r + BitVec.ofNat 32 (ring.w - ring.r).toNat = ring.w := by bv_omega
      rw [size, span_add, start, append_assoc] at window
      obtain ⟨front, back⟩ := append_inj window (by simp [Ring.pending])
      have pending : ring'.pending = ring.pending := by rw [← front, Ring.pending, r, w]
      have line : ring'.line = ring.line ++ [c] := by rw [← back, Ring.line, w, e]
      rw [pending, line]
      refine ⟨⟨?_, ?_, ?_, ?_⟩, .put _ _ _ ⟨plain.1, plain.2.1⟩⟩
      · rw [r, w, e]
        unfold INPUT_BUF_SIZE at room
        bv_omega
      · rw [r, e]
        unfold INPUT_BUF_SIZE at *
        bv_omega
      · intro last
        rw [r, e] at last
        exact absurd last plain.2.2
      · rw [line]
        intro other member
        rcases mem_append.mp member with member | member
        · exact ok.line_open other member
        · rw [mem_singleton] at member
          rw [member]
          exact ⟨plain.1, plain.2.1⟩

theorem init_ok : init.ring.Ok := by
  refine ⟨by decide, by decide, fun _ => rfl, ?_⟩
  intro c member
  cases member

theorem run_ok (nproc : Nat) (pid : Nat → BitVec 32) (events : List Event) :
    (Machine.run (step nproc pid) init events).ring.Ok :=
  Machine.run_invariant (step nproc pid) (P := fun w => w.ring.Ok)
    (fun w e ok => ((step_move w e).refines ok).1) init_ok events

theorem console_ring_ordered (nproc : Nat) (pid : Nat → BitVec 32) (events : List Event) :
    let w := Machine.run (step nproc pid) init events
    w.ring.Ok ∧ ∀ e, ∀ k < (w.ring.e - w.ring.r).toNat,
      (step nproc pid w e).ring.byte (w.ring.r + BitVec.ofNat 32 k) =
        w.ring.byte (w.ring.r + BitVec.ofNat 32 k) :=
  ⟨run_ok nproc pid events, fun e => (step_move _ e).keeps⟩

end Invariant
end Xv6Lab.Console
