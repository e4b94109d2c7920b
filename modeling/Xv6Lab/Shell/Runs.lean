import Xv6Lab.Shell.Editor

/-!
Runs of the editor's loop, and the calls that main makes one after another.
-/

namespace Xv6Lab.Shell
open List
variable {s t start : Getcmd} {n : Nat}

def Outcome.state : Outcome → Getcmd
  | .again s => s
  | .returned _ s => s

def Outcome.value : Outcome → Option Int
  | .again _ => none
  | .returned value _ => some value

variable {nbuf : Nat}

section Reads

theorem up_reads (s : Getcmd) : (s.up nbuf).input = s.input ∧ (s.up nbuf).offers = s.offers := by
  unfold Getcmd.up
  split_ifs <;> exact ⟨rfl, rfl⟩

theorem down_reads (s : Getcmd) :
    (s.down nbuf).input = s.input ∧ (s.down nbuf).offers = s.offers := by
  unfold Getcmd.down
  split_ifs <;> exact ⟨rfl, rfl⟩

theorem backspace_reads (s : Getcmd) :
    s.backspace.input = s.input ∧ s.backspace.offers = s.offers := by
  unfold Getcmd.backspace
  split_ifs <;> exact ⟨rfl, rfl⟩

theorem inserted_reads (s : Getcmd) (line : Line) (n : Nat) (new : List UInt8) :
    (s.inserted line n new).input = s.input ∧ (s.inserted line n new).offers = s.offers := by
  unfold Getcmd.inserted
  split_ifs <;> exact ⟨rfl, rfl⟩

theorem inserted_line (s : Getcmd) (line : Line) (n : Nat) (new : List UInt8) :
    (s.inserted line n new).line = line := by
  unfold Getcmd.inserted
  split_ifs <;> rfl

theorem delete_reads (s : Getcmd) : s.delete.input <:+ s.input := by
  unfold Getcmd.delete
  cases input : s.input with
  | nil =>
    dsimp only
    rw [input]
  | cons last rest =>
    dsimp only
    split_ifs <;> exact suffix_cons last rest

theorem escape_reads (s : Getcmd) : (s.escape nbuf).input <:+ s.input := by
  unfold Getcmd.escape
  cases input : s.input with
  | nil => exact suffix_rfl
  | cons first rest =>
    cases rest with
    | nil => exact nil_suffix
    | cons second rest =>
      have two : rest <:+ first :: second :: rest :=
        (suffix_cons second rest).trans (suffix_cons first _)
      dsimp only
      split_ifs
      · rw [(up_reads _).1]
        exact two
      · rw [(down_reads _).1]
        exact two
      · exact two
      · exact two
      · exact (delete_reads _).trans two
      · exact two

end Reads

def IsLead (c : UInt8) : Prop :=
  c ≠ ESC ∧ c ≠ TAB ∧ c ≠ ctrl 0x44 ∧ c ≠ ctrl 0x55 ∧ ¬(c = ctrl 0x48 ∨ c = 0x7F) ∧
    ¬(c = newline ∨ c = 0x0D)

inductive Turned (nbuf : Nat) (s : Getcmd) : Outcome → Prop
  | full (full : nbuf ≤ s.line.len + 1) : Turned nbuf s (finish s)
  | eof (room : s.line.len + 1 < nbuf) (read : s.input = []) : Turned nbuf s (.returned (-1) s)
  | escape (room : s.line.len + 1 < nbuf) {input : List UInt8} (read : s.input = ESC :: input) :
      Turned nbuf s (.again ({ s with input }.escape nbuf))
  | tab (room : s.line.len + 1 < nbuf) {input : List UInt8} (read : s.input = TAB :: input) :
      Turned nbuf s (.again ({ s with input }.tab nbuf))
  | quit (room : s.line.len + 1 < nbuf) {input : List UInt8} (read : s.input = ctrl 0x44 :: input) :
      Turned nbuf s (.returned (-1) { s with input })
  | kill (room : s.line.len + 1 < nbuf) {input : List UInt8} (read : s.input = ctrl 0x55 :: input) :
      Turned nbuf s (.again { s with input }.killLine)
  | backspace (room : s.line.len + 1 < nbuf) {c : UInt8} {input : List UInt8} (read : s.input = c :: input)
      (key : c = ctrl 0x48 ∨ c = 0x7F) : Turned nbuf s (.again { s with input }.backspace)
  | enter (room : s.line.len + 1 < nbuf) {c : UInt8} {input : List UInt8} (read : s.input = c :: input)
      (key : c = newline ∨ c = 0x0D) : Turned nbuf s (finish { s with input }.enter)
  | rune (room : s.line.len + 1 < nbuf) {c : UInt8} {input : List UInt8} (read : s.input = c :: input)
      (lead : IsLead c) : Turned nbuf s (.again ({ s with input }.rune nbuf c))

theorem turn_turned (nbuf : Nat) (s : Getcmd) : Turned nbuf s (turn nbuf s) := by
  unfold turn
  by_cases full : nbuf ≤ s.line.len + 1
  · rw [if_pos full]
    exact .full full
  · rw [if_neg full]
    have room := Nat.not_le.mp full
    cases read : s.input with
    | nil => exact .eof room read
    | cons c input =>
      dsimp only
      split_ifs with esc tab quit kill back enter
      · exact .escape room (esc ▸ read)
      · exact .tab room (tab ▸ read)
      · exact .quit room (quit ▸ read)
      · exact .kill room (kill ▸ read)
      · exact .backspace room read back
      · exact .enter room read enter
      · exact .rune room read ⟨esc, tab, quit, kill, back, enter⟩

theorem turn_reads (going : turn nbuf s = .again t) :
    ∃ c rest, s.input = c :: rest ∧ t.input <:+ rest := by
  have turned := turn_turned nbuf s
  rw [going] at turned
  cases turned with
  | escape room read => exact ⟨_, _, read, escape_reads _⟩
  | tab room read =>
    refine ⟨_, _, read, ?_⟩
    rw [Getcmd.tab, (inserted_reads _ _ _ _).1]
  | kill room read => exact ⟨_, _, read, suffix_rfl⟩
  | backspace room read key =>
    refine ⟨_, _, read, ?_⟩
    rw [(backspace_reads _).1]
  | @rune room c input read lead =>
    refine ⟨_, _, read, ?_⟩
    rw [Getcmd.rune, (inserted_reads _ _ _ _).1]
    exact drop_suffix _ input

section Turns

theorem turns_succ (n : Nat) (s : Getcmd) :
    turns nbuf (n + 1) s =
      match turns nbuf n s with
      | .again s => turn nbuf s
      | .returned value s => .returned value s := by
  induction n generalizing s with
  | zero =>
    simp only [turns]
    cases turn nbuf s <;> rfl
  | succ n ih =>
    rw [turns]
    conv_rhs => rw [turns]
    cases turn nbuf s with
    | again s => exact ih s
    | returned value s => rfl

theorem turns_add (m n : Nat) (first : turns nbuf m s = .again t) :
    turns nbuf (m + n) s = turns nbuf n t := by
  induction m generalizing s with
  | zero =>
    rw [Nat.zero_add]
    cases first
    rfl
  | succ m ih =>
    rw [Nat.add_right_comm, turns]
    rw [turns] at first
    cases turned : turn nbuf s with
    | again next =>
      rw [turned] at first
      exact ih first
    | returned value next =>
      rw [turned] at first
      cases first

/-- What every turn keeps holds after any number of them, and what the last turn gives holds
at the end. -/
theorem turns_invariant {P : Getcmd → Prop} {Q : Int → Getcmd → Prop}
    (again : ∀ s t, P s → turn nbuf s = .again t → P t)
    (returned : ∀ s value t, P s → turn nbuf s = .returned value t → Q value t) (n : Nat)
    (start : P s) :
    (∀ t, turns nbuf n s = .again t → P t) ∧ ∀ value t, turns nbuf n s = .returned value t → Q value t := by
  induction n generalizing s with
  | zero =>
    constructor
    · intro t going
      cases going
      exact start
    · intro value t ended
      cases ended
  | succ n ih =>
    rw [turns]
    cases turned : turn nbuf s with
    | again next => exact ih (again s next start turned)
    | returned value next =>
      constructor
      · intro t going
        cases going
      · intro value t ended
        cases ended
        exact returned s value next start turned

theorem turns_then (reached : turns nbuf n start = .again s) :
    turns nbuf (n + 1) start = turn nbuf s := by
  rw [turns_succ, reached]

theorem turns_before (reached : turns nbuf (n + 1) start = .again s) :
    ∃ r, turns nbuf n start = .again r ∧ turn nbuf r = .again s := by
  rw [turns_succ] at reached
  cases before : turns nbuf n start with
  | again r =>
    rw [before] at reached
    exact ⟨r, rfl, reached⟩
  | returned value r =>
    rw [before] at reached
    cases reached

theorem turns_returned_add {value : Int}
    (ended : turns nbuf n s = .returned value t) (m : Nat) : turns nbuf (n + m) s = .returned value t := by
  induction m with
  | zero => exact ended
  | succ m ih => rw [← Nat.add_assoc, turns_succ, ih]

theorem turns_last_unique {m : Nat} (first : turns nbuf m start = .again s)
    (second : turns nbuf n start = .again t) {value value' : Int} {s' t' : Getcmd}
    (ended : turn nbuf s = .returned value s') (ended' : turn nbuf t = .returned value' t') : s = t := by
  have past : ∀ {m n : Nat} {s t s' : Getcmd} {value : Int}, turns nbuf m start = .again s →
      turns nbuf n start = .again t → turn nbuf s = .returned value s' → n ≤ m := by
    intro m n s t s' value first second ended
    by_contra after
    have stays : turns nbuf (m + 1) start = .returned value s' := (turns_then first).trans ended
    have later := turns_returned_add stays (n - (m + 1))
    rw [Nat.add_sub_cancel' (Nat.not_le.mp after), second] at later
    cases later
  have same : m = n := le_antisymm (past second first ended') (past first second ended)
  rw [same, second] at first
  cases first
  rfl

theorem turns_reads (reached : turns nbuf n start = .again s) : s.input <:+ start.input := by
  refine (turns_invariant (P := fun s => s.input <:+ start.input) (Q := fun _ _ => True)
    (fun s t before turned => ?_) (fun _ _ _ _ _ => trivial) n suffix_rfl).1 s reached
  obtain ⟨c, rest, read, later⟩ := turn_reads turned
  rw [read] at before
  exact (later.trans (suffix_cons c rest)).trans before

theorem turns_returns (n : Nat) (s : Getcmd) (enough : s.input.length < n) :
    ∃ value t, turns nbuf n s = .returned value t := by
  induction n generalizing s with
  | zero => exact absurd enough (Nat.not_lt_zero _)
  | succ n ih =>
    rw [turns]
    cases turned : turn nbuf s with
    | again next =>
      obtain ⟨c, rest, read, later⟩ := turn_reads turned
      have shorter := later.length_le
      rw [read, length_cons] at enough
      exact ih next (by omega)
    | returned value next => exact ⟨value, next, rfl⟩

end Turns

/-- What is typed during a call of getcmd, and what completion then offers. No byte is NUL. -/
structure Typed where
  input : List UInt8
  offers : List (List UInt8)
  typed : 0 ∉ input
  offered : ∀ o ∈ offers, 0 ∉ o

def Typed.keys (input : List UInt8) (solid : input.all (· != 0) = true) : Typed where
  input
  offers := []
  typed member := by simpa using all_eq_true.mp solid 0 member
  offered := forall_mem_nil _

def Typed.getcmd (t : Typed) (nbuf : Nat) (history : List (List UInt8)) : Getcmd :=
  Shell.getcmd nbuf history t.input t.offers

def Typed.call (t : Typed) (nbuf : Nat) (history : List (List UInt8)) : Outcome :=
  turns nbuf (t.input.length + 1) (t.getcmd nbuf history)

theorem Typed.call_returns (t : Typed) (nbuf : Nat) (history : List (List UInt8)) :
    ∃ value s, t.call nbuf history = .returned value s :=
  turns_returns _ _ (Nat.lt_succ_self _)

def historyAfter (nbuf : Nat) (history : List (List UInt8)) (lines : List Typed) : List (List UInt8) :=
  lines.foldl (fun history t => (t.call nbuf history).state.history) history

theorem historyAfter_invariant {P : List (List UInt8) → Prop}
    (kept : ∀ (t : Typed) history, P history → P (t.call nbuf history).state.history)
    {history : List (List UInt8)} (start : P history) (lines : List Typed) :
    P (historyAfter nbuf history lines) := by
  induction lines generalizing history with
  | nil => exact start
  | cons t rest ih => exact ih (kept t history start)

end Xv6Lab.Shell
