import Xv6Lab.Console.Ring

/-!
What the readers of the console get: every committed byte once and in order, but for
the ^D bytes, which end reads.
-/

namespace Xv6Lab.Console
open List
open World (setPc ret setState)
open Machine (run run_cons run_invariant)
variable {w' : World} {rd : Read} {stage : Stage} {choice : Choice} {out : Option UInt8}
  {line : List UInt8}

def ValidEvent : Type := { e : Event // ∀ i, e ≠ .run i .fault }

section Watching
variable (nproc : Nat) (pid : Nat → BitVec 32)

def meets (w : World) (i : Nat) : Option Read :=
  if w.runs nproc i then
    match w.pc i with
    | .read .loop rd => if 0 < rd.n ∧ w.ring.r ≠ w.ring.w then some rd else none
    | _ => none
  else none

def copyout (w : World) (i : Nat) : Event → Option UInt8
  | .run j _ =>
    if j = i ∧ (meets nproc w i).isSome ∧ w.ring.byte w.ring.r ≠ ctrl 'D' then
      some (w.ring.byte w.ring.r)
    else none
  | _ => none

def begins (w : World) (i : Nat) : Event → Bool
  | .run j (.consoleread _ _) => j = i ∧ w.runs nproc i ∧ w.pc i = .user
  | _ => false

/-- A run with its history: the bytes moved below w, those copied out by any reader, those of
each process's read, and how many were taken from the ring. -/
structure Watched where
  world : World
  committed : List UInt8
  copied : List UInt8
  line : Nat → List UInt8
  taken : Nat

def Event.proc : Event → Nat
  | .run i _ => i
  | _ => 0

def watch (s : Watched) (e : ValidEvent) : Watched :=
  let w := s.world
  let w' := step nproc pid w e.1
  { world := w'
    committed := s.committed ++ w'.ring.span w.ring.w (w'.ring.w - w.ring.w).toNat
    copied := s.copied ++ (copyout nproc w e.1.proc e.1).toList
    line := fun i =>
      if begins nproc w i e.1 then [] else s.line i ++ (copyout nproc w i e.1).toList
    taken := if w'.ring.r = w.ring.r then s.taken else s.taken + 1 }

def start : Watched := ⟨init, [], [], fun _ => [], 0⟩

end Watching

section Flow
variable {ring ring' : Ring}

theorem Move.flow (move : Move ring ring') (ok : ring.Ok) : (ring'.r = ring.r ∧
      ring'.pending = ring.pending ++ ring'.span ring.w (ring'.w - ring.w).toNat) ∨
    (ring.r ≠ ring.w ∧ ring'.r = ring.r + 1 ∧ ring'.w = ring.w ∧
      ring.pending = ring.byte ring.r :: ring'.pending) := by
  have next := (move.refines ok).1
  have ready := ok.ready
  have bound := ok.bound
  by_cases moved : ring'.r = ring.r
  · have order : (ring'.w - ring.r).toNat = (ring.w - ring.r).toNat + (ring'.w - ring.w).toNat := by
      unfold INPUT_BUF_SIZE at bound
      cases move with
      | idle _ _ w _ => rw [w]; bv_omega
      | take _ _ r _ _ => rw [moved] at r; bv_omega
      | erase _ _ _ _ w _ => rw [w]; bv_omega
      | put _ room _ _ _ w =>
        unfold INPUT_BUF_SIZE at room
        rcases w with w | ⟨w, -⟩
        · rw [w]; bv_omega
        · rw [w]; bv_omega
    have stop : ring.r + BitVec.ofNat 32 (ring.w - ring.r).toNat = ring.w := by bv_omega
    refine .inl ⟨moved, ?_⟩
    rw [Ring.pending, moved, order, span_add, stop]
    congr 1
    exact span_congr fun k inside => move.keeps k (by omega)
  · cases move with
    | idle _ r | erase _ _ _ r | put _ _ _ r => exact absurd r moved
    | take some_byte buf r w e =>
      refine .inr ⟨some_byte, r, w, ?_⟩
      rw [take_pending some_byte, Ring.pending, r, w]
      simp only [Ring.span, Ring.byte, buf]

end Flow

section Turns

/-- How a read of process i ends in a step: value is what consoleread returns, and
out the byte copied in this step. -/
inductive Ends (w w' : World) (i : Nat) (rd : Read) : Option UInt8 → Int → Prop
  | killed (killed : w.killed i = true) : Ends w w' i rd none (-1)
  | count (none_left : rd.n ≤ 0) : Ends w w' i rd none (rd.target - rd.n)
  | newline (left : 0 < rd.n) (byte : w.ring.byte w.ring.r = newline) :
      Ends w w' i rd (some newline) (rd.target - rd.n + 1)
  | eof (left : 0 < rd.n) (first : rd.target ≤ rd.n) (byte : w.ring.byte w.ring.r = ctrl 'D')
      (taken : w'.ring.r = w.ring.r + 1) : Ends w w' i rd none (rd.target - rd.n)
  | kept (left : 0 < rd.n) (later : rd.n < rd.target) (byte : w.ring.byte w.ring.r = ctrl 'D')
      (stays : w'.ring = w.ring) : Ends w w' i rd none (rd.target - rd.n)

/-- What a step does to the read of process i, by the byte it copies and whether the
read begins. -/
inductive Turn (w w' : World) (i : Nat) : Option UInt8 → Bool → Prop
  | apart (before : ∀ stage rd, w.pc i ≠ .read stage rd)
      (after : ∀ stage rd, w'.pc i ≠ .read stage rd) : Turn w w' i none false
  | begin (n : Int) (dst : BitVec 64) (after : w'.pc i = .read .enter ⟨n, n, dst⟩) :
      Turn w w' i none true
  | wait (stage stage' : Stage) (rd : Read) (before : w.pc i = .read stage rd)
      (after : w'.pc i = .read stage' rd) : Turn w w' i none false
  | more (rd : Read) (c : UInt8) (before : w.pc i = .read .loop rd) (left : 0 < rd.n)
      (plain : c ≠ newline ∧ c ≠ ctrl 'D')
      (after : w'.pc i = .read .loop { rd with dst := rd.dst + 1, n := rd.n - 1 }) :
      Turn w w' i (some c) false
  | finish (stage : Stage) (rd : Read) (out : Option UInt8) (before : w.pc i = .read stage rd)
      (after : w'.pc i = .user) (ends : Ends w w' i rd out (w'.a0 i)) : Turn w w' i out false

variable {nproc : Nat} {pid : Nat → BitVec 32} {w : World} {i : Nat}

theorem turn_same (same : w'.pc i = w.pc i) : Turn w w' i none false := by
  cases pc : w.pc i with
  | read stage rd => exact .wait stage stage rd pc (by rw [same, pc])
  | user | setraw raw | kill q k => exact .apart (by simp [pc]) (by simp [same, pc])

@[simp] theorem setPc_same (w : World) (i : Nat) (pc : Pc) : (w.setPc i pc).pc i = pc := by
  simp [setPc]

@[simp] theorem leave_pc (w : World) (i : Nat) (value : Int) : (leave i value w).pc i = .user := by
  simp [leave, ret]

@[simp] theorem leave_a0 (w : World) (i : Nat) (value : Int) : (leave i value w).a0 i = value := by
  simp [leave, ret, setPc]

def shown (w : World) : Option UInt8 :=
  if w.ring.byte w.ring.r = ctrl 'D' then none else some (w.ring.byte w.ring.r)

theorem takeByte_turn (before : w.pc i = .read .loop rd) (left : 0 < rd.n) :
    Turn w (takeByte i rd true w) i (shown w) false := by
  unfold takeByte shown
  dsimp only
  by_cases eof : w.ring.byte w.ring.r = ctrl 'D'
  · rw [if_pos eof, if_pos eof]
    by_cases later : rd.n < rd.target
    · rw [if_pos later]
      refine .finish .loop rd none before (leave_pc _ _ _) ?_
      rw [leave_a0]
      exact .kept left later eof rfl
    · rw [if_neg later]
      refine .finish .loop rd none before (leave_pc _ _ _) ?_
      rw [leave_a0]
      exact .eof left (not_lt.mp later) eof rfl
  · rw [if_neg eof, if_neg eof, if_pos rfl]
    by_cases last : w.ring.byte w.ring.r = newline
    · rw [if_pos last, last]
      refine .finish .loop rd (some newline) before (leave_pc _ _ _) ?_
      rw [leave_a0, show rd.target - (rd.n - 1) = rd.target - rd.n + 1 by omega]
      exact .newline left last
    · rw [if_neg last]
      exact .more rd _ before left ⟨last, eof⟩ (setPc_same _ _ _)

theorem readStep_turn (before : w.pc i = .read stage rd) (valid : choice ≠ .fault) :
    Turn w (readStep i stage rd choice w) i
      (if stage = .loop ∧ 0 < rd.n ∧ w.ring.r ≠ w.ring.w then shown w else none) false := by
  cases stage with
  | enter =>
    rw [if_neg (by simp), readStep]
    split
    · exact .wait _ _ rd before before
    · exact .wait _ _ rd before (setPc_same _ _ _)
  | loop =>
    rw [readStep]
    by_cases done : rd.n ≤ 0
    · rw [if_pos done, if_neg (by omega)]
      refine .finish .loop rd none before (leave_pc _ _ _) ?_
      rw [leave_a0]
      exact .count done
    · rw [if_neg done]
      by_cases empty : w.ring.r = w.ring.w
      · rw [if_pos empty, if_neg (by simp [empty])]
        exact .wait _ _ rd before (setPc_same _ _ _)
      · rw [if_neg empty, if_pos ⟨rfl, by omega, empty⟩, decide_eq_true valid]
        exact takeByte_turn before (by omega)
  | killed =>
    rw [if_neg (by simp), readStep]
    by_cases killed : w.killed i = true
    · rw [if_pos killed]
      refine .finish .killed rd none before (leave_pc _ _ _) ?_
      rw [leave_a0]
      exact .killed killed
    · rw [if_neg killed]
      exact .wait _ _ rd before (setPc_same _ _ _)
  | sleep | doze =>
    rw [if_neg (by simp)]
    exact .wait _ _ rd before (setPc_same _ _ _)
  | asleep =>
    rw [if_neg (by simp)]
    exact .wait _ _ rd before before

theorem copyout_read (runs : w.runs nproc i) (pc : w.pc i = .read stage rd) :
    copyout nproc w i (.run i choice) =
      if stage = .loop ∧ 0 < rd.n ∧ w.ring.r ≠ w.ring.w then shown w else none := by
  by_cases reads : stage = .loop ∧ 0 < rd.n ∧ w.ring.r ≠ w.ring.w
  · rw [if_pos reads]
    obtain ⟨rfl, left⟩ := reads
    by_cases eof : w.ring.byte w.ring.r = ctrl 'D'
    · simp [copyout, shown, eof]
    · simp [copyout, meets, shown, runs, pc, left, eof]
  · rw [if_neg reads]
    cases stage <;> simp_all [copyout, meets]

theorem copyout_apart (apart : ∀ stage rd, w.pc i ≠ .read stage rd) :
    copyout nproc w i (.run i choice) = none := by
  cases pc : w.pc i with
  | read stage rd => exact absurd pc (apart stage rd)
  | user | setraw raw | kill q k => simp [copyout, meets, pc]

theorem begins_apart (busy : w.pc i ≠ .user) : begins nproc w i (.run i choice) = false := by
  cases choice <;> simp [begins, busy]

theorem threadStep_turn (runs : w.runs nproc i) (valid : choice ≠ .fault) :
    Turn w (threadStep nproc pid i choice w) i (copyout nproc w i (.run i choice))
      (begins nproc w i (.run i choice)) := by
  unfold threadStep
  cases pc : w.pc i with
  | user =>
    rw [copyout_apart (by simp [pc])]
    cases choice with
    | go => exact turn_same rfl
    | fault => exact absurd rfl valid
    | consoleread n dst =>
      have begun : begins nproc w i (.run i (.consoleread n dst)) = true := by simp [begins, runs, pc]
      rw [begun]
      exact .begin n dst (setPc_same _ _ _)
    | consolesetraw raw | kkill q => exact .apart (by simp [pc]) (by simp [userStep])
  | read stage rd =>
    rw [begins_apart (by simp [pc]), copyout_read runs pc]
    exact readStep_turn pc valid
  | setraw raw =>
    rw [copyout_apart (by simp [pc]), begins_apart (by simp [pc])]
    dsimp only
    split
    · exact turn_same rfl
    · exact .apart (by simp [pc]) (by simp)
  | kill q k =>
    rw [copyout_apart (by simp [pc]), begins_apart (by simp [pc])]
    dsimp only
    split
    · exact .apart (by simp [pc]) (by simp [ret])
    · split
      · exact turn_same rfl
      · split
        · exact .apart (by simp [pc]) (by simp [ret])
        · exact .apart (by simp [pc]) (by simp)

theorem threadStep_other {j : Nat} (other : i ≠ j) :
    (threadStep nproc pid j choice w).pc i = w.pc i := by
  unfold threadStep
  cases w.pc j with
  | user => cases choice <;> simp [userStep, setPc, other]
  | read stage rd =>
    dsimp only
    cases stage <;> simp only [readStep]
    · split <;> simp [setPc, other]
    · split
      · simp [leave, ret, setPc, other]
      · split
        · simp [setPc, other]
        · unfold takeByte
          dsimp only
          split <;> split <;> try split
          all_goals simp [leave, ret, setPc, other]
    · split <;> simp [leave, ret, setPc, other]
    · simp [setPc, other]
    · simp [setPc, setState, other]
  | setraw raw =>
    dsimp only
    split <;> simp [setPc, other]
  | kill q k =>
    dsimp only
    split
    · simp [ret, setPc, other]
    · split
      · rfl
      · split
        · unfold killOne
          dsimp only
          split <;> simp [ret, setPc, setState, other]
        · simp [setPc, other]

@[simp] theorem setHandler_pc (w : World) (h : Handler) (next : Option HandlerPc) :
    (w.setHandler h next).pc = w.pc := by
  cases next <;> rfl

theorem handlerStep_pc (h : Handler) : (handlerStep nproc h w).pc = w.pc := by
  unfold handlerStep
  cases h.pc with
  | acquire c => dsimp only; split <;> rfl
  | input c => dsimp only; rw [setHandler_pc]
  | killLine => dsimp only; split <;> rfl
  | wake k =>
    dsimp only
    split
    · rfl
    · split
      · rfl
      · split
        · rfl
        · unfold wakeOne
          split <;> rfl

theorem dispatchStep_turn (k : Nat) : Turn w (dispatchStep k w) i none false := by
  unfold dispatchStep
  by_cases same : i = k
  · subst same
    cases pc : w.pc i with
    | user | setraw raw | kill q k => exact turn_same rfl
    | read stage rd =>
      cases stage with
      | asleep => exact .wait _ _ rd pc (setPc_same _ _ _)
      | enter | loop | killed | sleep | doze => exact turn_same rfl
  · apply turn_same
    split <;> simp [setPc, setState, same]

theorem step_turn (w : World) (i : Nat) (e : ValidEvent) :
    Turn w (step nproc pid w e.1) i (copyout nproc w i e.1) (begins nproc w i e.1) := by
  obtain ⟨e, valid⟩ := e
  cases e with
  | run j choice =>
    dsimp only
    rw [step]
    by_cases same : j = i
    · subst same
      by_cases runs : w.runs nproc j
      · rw [if_pos runs]
        exact threadStep_turn runs (by rintro rfl; exact valid j rfl)
      · have quiet : copyout nproc w j (.run j choice) = none := by simp [copyout, meets, runs]
        have going : begins nproc w j (.run j choice) = false := by
          cases choice <;> simp [begins, runs]
        rw [if_neg runs, quiet, going]
        exact turn_same rfl
    · have quiet : copyout nproc w i (.run j choice) = none := by simp [copyout, same]
      have going : begins nproc w i (.run j choice) = false := by
        cases choice <;> simp [begins, same]
      rw [quiet, going]
      apply turn_same
      split
      · exact threadStep_other (Ne.symm same)
      · rfl
  | dispatch k =>
    dsimp only [step]
    split
    · exact dispatchStep_turn k
    · exact turn_same rfl
  | preempt k | uart k c =>
    dsimp only [step]
    split <;> exact turn_same rfl
  | handler =>
    dsimp only [step]
    split
    · exact turn_same rfl
    · exact turn_same (by rw [handlerStep_pc])

end Turns

section Invariant

structure Partial (rd : Read) (line : List UInt8) : Prop where
  count : (line.length : Int) = rd.target - rd.n
  left : 0 ≤ rd.n ∨ line = []
  plain : ∀ c ∈ line, c ≠ newline ∧ c ≠ ctrl 'D'

/-- What a read that was not killed returns: the number of bytes it has copied, at most
n, with no byte behind the first end of line. -/
structure Line (n : Int) (line : List UInt8) (value : Int) : Prop where
  count : value = line.length
  bound : value ≤ max n 0
  newline : ∀ front c, line = front ++ [c] → newline ∉ front

structure Delivers (s : Watched) : Prop where
  ok : s.world.ring.Ok
  stream : s.copied ++ s.world.ring.pending.filter (· ≠ ctrl 'D') =
    s.committed.filter (· ≠ ctrl 'D')
  reads : ∀ i stage rd, s.world.pc i = .read stage rd → Partial rd (s.line i)

variable {nproc : Nat} {pid : Nat → BitVec 32} {s : Watched}

theorem erase_r (ring : Ring) : (erase ring).r = ring.r := (consputc_iterate BACKSPACE _ _).2.1

theorem input_r (c : UInt8) (ring : Ring) : (input c ring).1.r = ring.r := by
  unfold input
  split
  · rfl
  split
  · split <;> rfl
  split
  · rfl
  split
  · dsimp only
    split
    · exact erase_r ring
    · rfl
  split
  · dsimp only
    split <;> rfl
  · rfl

theorem handlerStep_r (h : Handler) (w : World) : (handlerStep nproc h w).ring.r = w.ring.r := by
  unfold handlerStep
  cases h.pc with
  | acquire c =>
    dsimp only
    split
    · rfl
    · rw [setHandler_ring]
  | input c =>
    dsimp only
    rw [setHandler_ring]
    exact input_r c w.ring
  | killLine =>
    dsimp only
    split
    · exact erase_r w.ring
    · rw [setHandler_ring]
  | wake k =>
    dsimp only
    split
    · rw [setHandler_ring]
    · split
      · rw [setHandler_ring]
      · split
        · rfl
        · rw [setHandler_ring, wakeOne_ring]

inductive Takes (w w' : World) : Option UInt8 → Prop
  | nothing (r : w'.ring.r = w.ring.r) : Takes w w' none
  | byte (r : w'.ring.r = w.ring.r + 1) (plain : w.ring.byte w.ring.r ≠ ctrl 'D') :
      Takes w w' (some (w.ring.byte w.ring.r))
  | eof (r : w'.ring.r = w.ring.r + 1) (byte : w.ring.byte w.ring.r = ctrl 'D') : Takes w w' none

theorem takeByte_takes (i : Nat) (rd : Read) (w : World) : Takes w (takeByte i rd true w) (shown w) := by
  unfold takeByte shown
  dsimp only
  by_cases eof : w.ring.byte w.ring.r = ctrl 'D'
  · rw [if_pos eof, if_pos eof]
    split
    · exact .nothing rfl
    · exact .eof rfl eof
  · rw [if_neg eof, if_neg eof, if_pos rfl]
    split
    · exact .byte rfl eof
    · exact .byte rfl eof

theorem threadStep_takes {w : World} {i : Nat} (runs : w.runs nproc i) (valid : choice ≠ .fault) :
    Takes w (threadStep nproc pid i choice w) (copyout nproc w i (.run i choice)) := by
  unfold threadStep
  cases pc : w.pc i with
  | user =>
    rw [copyout_apart (by simp [pc])]
    cases choice <;> exact .nothing rfl
  | read stage rd =>
    rw [copyout_read runs pc]
    cases stage with
    | loop =>
      dsimp only [readStep]
      by_cases done : rd.n ≤ 0
      · rw [if_pos done, if_neg (by omega)]
        exact .nothing rfl
      · rw [if_neg done]
        by_cases empty : w.ring.r = w.ring.w
        · rw [if_pos empty, if_neg (by simp [empty])]
          exact .nothing rfl
        · rw [if_neg empty, if_pos ⟨rfl, by omega, empty⟩, decide_eq_true valid]
          exact takeByte_takes i rd w
    | enter | killed =>
      rw [if_neg (by simp)]
      dsimp only [readStep]
      split <;> exact .nothing rfl
    | sleep | doze | asleep => rw [if_neg (by simp)]; exact .nothing rfl
  | setraw raw =>
    rw [copyout_apart (by simp [pc])]
    dsimp only
    split <;> exact .nothing rfl
  | kill q k =>
    rw [copyout_apart (by simp [pc])]
    dsimp only
    split
    · exact .nothing rfl
    · split
      · exact .nothing rfl
      · split
        · refine .nothing ?_
          simp only [ret, setPc, killOne_ring]
        · exact .nothing rfl

theorem step_takes (w : World) (e : ValidEvent) :
    Takes w (step nproc pid w e.1) (copyout nproc w e.1.proc e.1) := by
  obtain ⟨e, valid⟩ := e
  cases e with
  | run i choice =>
    dsimp only [step]
    by_cases runs : w.runs nproc i
    · rw [if_pos runs]
      exact threadStep_takes runs (by rintro rfl; exact valid i rfl)
    · have quiet : copyout nproc w i (.run i choice) = none := by simp [copyout, meets, runs]
      rw [if_neg runs]
      change Takes w w (copyout nproc w i (.run i choice))
      rw [quiet]
      exact .nothing rfl
  | dispatch k =>
    dsimp only [step]
    split
    · exact .nothing (by rw [dispatchStep_ring])
    · exact .nothing rfl
  | preempt k | uart k c =>
    dsimp only [step]
    split <;> exact .nothing rfl
  | handler =>
    dsimp only [step]
    split
    · exact .nothing rfl
    · exact .nothing (handlerStep_r _ w)

theorem Partial.turn {w : World} {i : Nat} {begun : Bool} (turn : Turn w w' i out begun)
    (reads : ∀ stage rd, w.pc i = .read stage rd → Partial rd line)
    (after : w'.pc i = .read stage rd) : Partial rd (if begun then [] else line ++ out.toList) := by
  cases turn with
  | apart _ never => exact absurd after (never stage rd)
  | begin n dst begins =>
    rw [begins] at after
    cases after
    exact ⟨by simp, .inr rfl, by simp⟩
  | wait stage' stage'' rd' before waits =>
    rw [waits] at after
    cases after
    simpa using reads _ _ before
  | more rd' c before left plain moves =>
    rw [moves] at after
    cases after
    have old := reads _ _ before
    refine ⟨?_, .inl (by dsimp only; omega), ?_⟩
    · have := old.count
      simp
      omega
    · intro other member
      simp only [Bool.false_eq_true, if_false, Option.toList, mem_append, mem_singleton] at member
      rcases member with member | rfl
      · exact old.plain other member
      · exact plain
  | finish _ _ _ _ user =>
    rw [user] at after
    cases after

theorem Partial.ends {w : World} {i : Nat}
    {value : Int} (ends : Ends w w' i rd out value) (before : Partial rd line) :
    (w.killed i = true ∧ value = -1) ∨ Line rd.target (line ++ out.toList) value := by
  have count := before.count
  have quiet : ∀ front c, line = front ++ [c] → newline ∉ front := by
    rintro front c rfl member
    exact (before.plain newline (by simp [member])).1 rfl
  have bound : rd.target - rd.n ≤ max rd.target 0 := by
    rcases before.left with nonneg | rfl
    · omega
    · simp at count
      omega
  cases ends with
  | killed killed => exact .inl ⟨killed, rfl⟩
  | count | eof | kept => exact .inr ⟨by simp; omega, bound, by simpa using quiet⟩
  | newline left =>
    refine .inr ⟨by simp; omega, by omega, ?_⟩
    intro front c split member
    obtain ⟨rfl, -⟩ := append_inj' split rfl
    exact (before.plain newline member).1 rfl

theorem Delivers.watch (delivers : Delivers s) (e : ValidEvent) : Delivers (watch nproc pid s e) := by
  have move := @step_move nproc pid s.world e.1
  refine ⟨(move.refines delivers.ok).1, ?_, ?_⟩
  · have stream := delivers.stream
    have takes := @step_takes nproc pid s.world e
    simp only [Console.watch]
    generalize step nproc pid s.world e.1 = w' at *
    generalize copyout nproc s.world e.1.proc e.1 = out at *
    rcases move.flow delivers.ok with ⟨r, pending⟩ | ⟨ready, r, w, pending⟩
    · have nothing : out = none := by
        cases takes with
        | nothing => rfl
        | byte moved => exact absurd (r.symm.trans moved) (by bv_omega)
        | eof moved => rfl
      rw [nothing, pending]
      simp only [Option.toList, append_nil, filter_append, ← append_assoc, stream]
    · have out_eq : out.toList = [s.world.ring.byte s.world.ring.r].filter (· ≠ ctrl 'D') := by
        cases takes with
        | nothing same => exact absurd (same.symm.trans r) (by bv_omega)
        | byte _ plain => simp [plain]
        | eof _ byte => simp [byte]
      rw [out_eq, w, BitVec.sub_self, append_assoc, ← filter_append, singleton_append, ← pending,
        stream]
      simp [Ring.span]
  · intro i stage rd after
    exact Partial.turn (step_turn s.world i e) (delivers.reads i) after

theorem start_delivers : Delivers start :=
  ⟨init_ok, rfl, fun i stage rd reads => by cases reads⟩

theorem run_delivers (nproc : Nat) (pid : Nat → BitVec 32) (events : List ValidEvent) :
    Delivers (run (watch nproc pid) start events) :=
  run_invariant _ (fun _ e delivers => delivers.watch e) start_delivers events

theorem watch_taken_le (s : Watched) (e : ValidEvent) : s.taken ≤ (watch nproc pid s e).taken := by
  simp only [watch]
  split
  · exact le_rfl
  · exact Nat.le_succ _

theorem run_taken_le (s : Watched) (events : List ValidEvent) :
    s.taken ≤ (run (watch nproc pid) s events).taken := by
  induction events generalizing s with
  | nil => exact le_rfl
  | cons e rest ih =>
    rw [run_cons]
    exact (watch_taken_le s e).trans (ih _)

theorem first_stays {c : UInt8} {s : Watched} (delivers : Delivers s)
    (first : s.world.ring.pending.head? = some c) (events : List ValidEvent)
    (untaken : (run (watch nproc pid) s events).taken = s.taken) :
    (run (watch nproc pid) s events).world.ring.pending.head? = some c := by
  induction events generalizing s with
  | nil => exact first
  | cons e rest ih =>
    rw [run_cons] at *
    have later := @run_taken_le nproc pid (watch nproc pid s e) rest
    have now := @watch_taken_le nproc pid s e
    have same : (watch nproc pid s e).taken = s.taken := by omega
    refine ih (delivers.watch e) ?_ (by omega)
    have still : (step nproc pid s.world e.1).ring.r = s.world.ring.r := by
      by_contra moved
      simp only [watch, if_neg moved] at same
      omega
    rcases (step_move s.world e.1).flow delivers.ok with ⟨-, pending⟩ | ⟨-, moved, -⟩
    · change (step nproc pid s.world e.1).ring.pending.head? = some c
      rw [pending, head?_append, first]
      rfl
    · exact absurd (still.symm.trans moved) (by bv_omega)

/-- The read of process i meets ^D in this step: it returns what it has. If that is
nothing, ^D is taken, else it stays the first byte until a byte is taken. -/
theorem meets_eof (delivers : Delivers s) {e : ValidEvent} {i : Nat}
    (turn : e.1 = .run i choice) (meets_byte : meets nproc s.world i = some rd)
    (eof : s.world.ring.byte s.world.ring.r = ctrl 'D') : (watch nproc pid s e).world.pc i = .user ∧
    (watch nproc pid s e).world.a0 i = (s.line i).length ∧
    (s.line i = [] → (watch nproc pid s e).taken = s.taken + 1) ∧
    (s.line i ≠ [] → ∀ events,
      (run (watch nproc pid) (watch nproc pid s e) events).taken = (watch nproc pid s e).taken →
      (run (watch nproc pid) (watch nproc pid s e) events).world.ring.pending.head? =
        some (ctrl 'D')) := by
  unfold meets at meets_byte
  split at meets_byte
  · rename_i runs
    split at meets_byte
    · rename_i rd' pc
      split at meets_byte
      · rename_i ready
        injection meets_byte with same
        subst same
        have before := delivers.reads i .loop rd' pc
        have valid : choice ≠ .fault := by
          rintro rfl
          exact e.2 i turn
        have world : (watch nproc pid s e).world = takeByte i rd' true s.world := by
          simp only [watch, turn, step, if_pos runs, threadStep, pc, readStep,
            if_neg (not_le.mpr ready.1), if_neg ready.2, decide_eq_true valid]
        have count := before.count
        by_cases later : rd'.n < rd'.target
        · have result : takeByte i rd' true s.world = leave i (rd'.target - rd'.n) s.world := by
            simp [takeByte, eof, later]
          refine ⟨by rw [world, result, leave_pc], by rw [world, result, leave_a0, count], ?_, ?_⟩
          · intro nothing
            rw [nothing, length_nil] at count
            omega
          intro _ events untaken
          refine first_stays (delivers.watch e) ?_ events untaken
          rw [world, result]
          change s.world.ring.pending.head? = _
          rw [take_pending ready.2, head?_cons, eof]
        · have result : takeByte i rd' true s.world = leave i (rd'.target - rd'.n)
              { s.world with ring := { s.world.ring with r := s.world.ring.r + 1 } } := by
            simp [takeByte, eof, later]
          refine ⟨by rw [world, result, leave_pc], by rw [world, result, leave_a0, count], ?_, ?_⟩
          · intro _
            have moved : (watch nproc pid s e).world.ring.r ≠ s.world.ring.r := by
              rw [world, result]
              change s.world.ring.r + 1 ≠ s.world.ring.r
              bv_omega
            exact if_neg moved
          intro some_bytes
          have length := length_pos_iff.mpr some_bytes
          omega
      · cases meets_byte
    · cases meets_byte
  · cases meets_byte

theorem console_delivers (nproc : Nat) (pid : Nat → BitVec 32) (events : List ValidEvent) :
    let s := run (watch nproc pid) start events
    s.copied ++ s.world.ring.pending.filter (· ≠ ctrl 'D') = s.committed.filter (· ≠ ctrl 'D') ∧
    (∀ i stage rd, s.world.pc i = .read stage rd → newline ∉ s.line i) ∧
    ∀ e : ValidEvent, let s' := watch nproc pid s e
      (∀ i stage rd, s.world.pc i = .read stage rd → s'.world.pc i = .user →
        (s.world.killed i = true ∧ s'.world.a0 i = -1) ∨
          Line rd.target (s'.line i) (s'.world.a0 i)) ∧
      (∀ i choice rd, e.1 = .run i choice → meets nproc s.world i = some rd →
        s.world.ring.byte s.world.ring.r = ctrl 'D' →
        s'.world.pc i = .user ∧ s'.world.a0 i = (s.line i).length ∧
        (s.line i = [] → s'.taken = s.taken + 1) ∧
        (s.line i ≠ [] → ∀ later,
          (run (watch nproc pid) s' later).taken = s'.taken →
          (run (watch nproc pid) s' later).world.ring.pending.head? = some (ctrl 'D'))) := by
  have delivers := run_delivers nproc pid events
  refine ⟨delivers.stream, ?_, fun e => ⟨?_, ?_⟩⟩
  · intro i stage rd reads member
    exact ((delivers.reads i stage rd reads).plain newline member).1 rfl
  · intro i stage rd before after
    have turn := @step_turn nproc pid
      (run (watch nproc pid) start events).world i e
    simp only [watch] at after ⊢
    generalize step nproc pid (run (watch nproc pid) start events).world e.1 = w' at *
    generalize copyout nproc (run (watch nproc pid) start events).world i e.1 = out at *
    generalize begins nproc (run (watch nproc pid) start events).world i e.1 = begun at *
    cases turn with
    | apart never => exact absurd before (never stage rd)
    | begin n dst begins => rw [begins] at after; cases after
    | wait _ _ _ _ waits => rw [waits] at after; cases after
    | more _ _ _ _ _ moves => rw [moves] at after; cases after
    | finish _ rd' out was _ ends =>
      rw [was] at before
      cases before
      exact Partial.ends ends (delivers.reads i _ _ was)
  · intro i choice rd turn meets_byte eof
    exact meets_eof delivers turn meets_byte eof

end Invariant
end Xv6Lab.Console
