import Xv6Lab.Shell.Bounds

/-!
getcmd returns with the Enter key, or when the line has nbuf - 1 bytes.
-/

namespace Xv6Lab.Shell

variable {t : Getcmd}

/-- The command that the call returns is the line in which Enter was pressed, with a newline. -/
def Confirmed (nbuf : Nat) (start : Getcmd) : Prop :=
  ∀ n last, turns nbuf n start = .returned 0 last →
    ∃ m s c input, turns nbuf m start = .again s ∧ s.input = c :: input ∧ (c = newline ∨ c = 0x0D) ∧
      turn nbuf s = .returned 0 last ∧
      slice last.line.buf 0 last.line.len = slice s.line.buf 0 s.line.len ++ [newline]

def Getcmd.EscapeFits (nbuf : Nat) (s : Getcmd) (sequence : List UInt8) : Prop :=
  (sequence.take 2 = [bracket, 0x41] → 0 < s.hpos → strlen (s.history.getD (s.hpos - 1) []) + 1 < nbuf) ∧
  (sequence.take 2 = [bracket, 0x42] → s.hpos + 1 < s.history.length →
    strlen (s.history.getD (s.hpos + 1) []) + 1 < nbuf) ∧
  (sequence.take 2 = [bracket, 0x42] → s.hpos + 1 = s.history.length → strlen s.draft + 1 < nbuf)

def Getcmd.Fits (nbuf : Nat) (s : Getcmd) : Prop :=
  ∀ c input, s.input = c :: input →
    (c = ESC → s.EscapeFits nbuf input) ∧
    (c = TAB → s.line.len + (s.offers.headD []).length + 1 ≠ nbuf) ∧
    (IsLead c → s.line.len + (c :: input.take (utf8InputLen c - 1)).length + 1 ≠ nbuf)

variable {nbuf : Nat} {s : Getcmd}

section Room
variable {line : Line}

theorem setLine_room (line : Line) (some : 0 < nbuf) (src : List UInt8) :
    (setLine nbuf line src).len + 1 < nbuf ↔ strlen src + 1 < nbuf := by
  simp only [setLine]
  split_ifs <;> omega

theorem insertBytes_room (room : line.len + 1 < nbuf) (new : List UInt8) :
    (insertBytes nbuf line new).1.len + 1 < nbuf ↔ line.len + new.length + 1 ≠ nbuf := by
  unfold insertBytes
  dsimp only
  split_ifs <;> simp only <;> omega

theorem deleteRange_len (line : Line) (start stop : Nat) : (deleteRange line start stop).len ≤ line.len :=
  Nat.sub_le _ _

section
variable (room : s.line.len + 1 < nbuf)
include room

theorem up_room : (s.up nbuf).line.len + 1 < nbuf ↔
      (0 < s.hpos → strlen (s.history.getD (s.hpos - 1) []) + 1 < nbuf) := by
  unfold Getcmd.up
  by_cases first : s.hpos = 0
  · rw [if_pos first]
    exact ⟨fun _ back => absurd first back.ne', fun _ => room⟩
  · rw [if_neg first, ← setLine_room s.line (by omega)]
    exact ⟨fun fits _ => fits, fun fits => fits (Nat.pos_of_ne_zero first)⟩

theorem down_room (hpos : s.hpos ≤ s.history.length) : (s.down nbuf).line.len + 1 < nbuf ↔
      (s.hpos + 1 < s.history.length → strlen (s.history.getD (s.hpos + 1) []) + 1 < nbuf) ∧
        (s.hpos + 1 = s.history.length → strlen s.draft + 1 < nbuf) := by
  unfold Getcmd.down
  by_cases more : s.hpos < s.history.length
  · rw [if_pos more]
    change (setLine nbuf s.line _).len + 1 < nbuf ↔ _
    rw [setLine_room _ (by omega)]
    by_cases last : s.hpos + 1 = s.history.length
    · rw [if_pos last]
      exact ⟨fun fits => ⟨fun less => absurd last less.ne, fun _ => fits⟩, fun fits => fits.2 last⟩
    · rw [if_neg last]
      exact ⟨fun fits => ⟨fun _ => fits, fun same => absurd same last⟩, fun fits => fits.1 (by omega)⟩
  · rw [if_neg more]
    exact ⟨fun _ => ⟨fun less => absurd less (by omega), fun same => absurd same (by omega)⟩, fun _ => room⟩

theorem delete_room : s.delete.line.len + 1 < nbuf := by
  unfold Getcmd.delete
  cases s.input with
  | nil => exact room
  | cons last input =>
    dsimp only
    split_ifs
    · have shorter := deleteRange_len s.line s.line.cursor
        (utf8Next s.line.buf s.line.cursor s.line.len)
      change (deleteRange s.line _ _).len + 1 < nbuf
      omega
    · exact room

theorem backspace_room : s.backspace.line.len + 1 < nbuf := by
  unfold Getcmd.backspace
  split_ifs
  · have shorter := deleteRange_len s.line (utf8Prev s.line.buf s.line.cursor) s.line.cursor
    change (deleteRange s.line _ _).len + 1 < nbuf
    omega
  · exact room

theorem escape_room (hpos : s.hpos ≤ s.history.length) :
    (s.escape nbuf).line.len + 1 < nbuf ↔ s.EscapeFits nbuf s.input := by
  unfold Getcmd.escape Getcmd.EscapeFits
  cases s.input with
  | nil => simpa using room
  | cons first rest =>
    cases rest with
    | nil => simpa using room
    | cons second rest =>
      have two : ∀ x y : UInt8, (first :: second :: rest).take 2 = [x, y] ↔ first = x ∧ second = y := by
        intro x y
        simp
      simp only [two]
      split_ifs with up down right left three
      · have other : ¬(first = bracket ∧ second = 0x42) := fun down =>
          absurd (up.2.symm.trans down.2) (by decide)
        rw [up_room (s := { s with input := rest }) room]
        exact ⟨fun fits => ⟨fun _ => fits, fun key => absurd key other, fun key => absurd key other⟩,
          fun fits => fits.1 up⟩
      · rw [down_room (s := { s with input := rest }) room hpos]
        exact ⟨fun fits => ⟨fun key => absurd key up, fun _ => fits.1, fun _ => fits.2⟩,
          fun fits => ⟨fits.2.1 down, fits.2.2 down⟩⟩
      · exact ⟨fun _ => ⟨fun key => absurd key up, fun key => absurd key down,
          fun key => absurd key down⟩, fun _ => room⟩
      · exact ⟨fun _ => ⟨fun key => absurd key up, fun key => absurd key down,
          fun key => absurd key down⟩, fun _ => room⟩
      · exact ⟨fun _ => ⟨fun key => absurd key up, fun key => absurd key down,
          fun key => absurd key down⟩, fun _ => delete_room room⟩
      · exact ⟨fun _ => ⟨fun key => absurd key up, fun key => absurd key down,
          fun key => absurd key down⟩, fun _ => room⟩

end
end Room

theorem turn_room (hpos : s.hpos ≤ s.history.length) (turned : turn nbuf s = .again t) :
    t.line.len + 1 < nbuf ↔ s.Fits nbuf := by
  have turned' := turn_turned nbuf s
  rw [turned] at turned'
  cases turned' with
  | @escape room input read =>
    rw [escape_room (s := { s with input }) room hpos]
    constructor
    · intro fits c input read'
      cases read.symm.trans read'
      exact ⟨fun _ => fits, fun key => absurd key (by decide), fun lead => absurd rfl lead.1⟩
    · intro fits
      exact (fits _ _ read).1 rfl
  | tab room read =>
    rw [Getcmd.tab, inserted_line, insertBytes_room room]
    constructor
    · intro fits c input read'
      cases read.symm.trans read'
      exact ⟨fun key => absurd key (by decide), fun _ => fits, fun lead => absurd rfl lead.2.1⟩
    · intro fits
      exact (fits _ _ read).2.1 rfl
  | kill room read =>
    refine ⟨fun _ c input read' => ?_, fun _ => ?_⟩
    · cases read.symm.trans read'
      exact ⟨fun key => absurd key (by decide), fun key => absurd key (by decide),
        fun lead => absurd rfl lead.2.2.2.1⟩
    · change 0 + 1 < nbuf
      omega
  | @backspace room c input read key =>
    refine ⟨fun _ c input read' => ?_, fun _ => backspace_room (s := { s with input }) room⟩
    · cases read.symm.trans read'
      refine ⟨fun esc => ?_, fun tab => ?_, fun lead => absurd key lead.2.2.2.2.1⟩
      · rw [esc] at key
        exact absurd key (by decide)
      · rw [tab] at key
        exact absurd key (by decide)
  | rune room read lead =>
    rw [Getcmd.rune, inserted_line, insertBytes_room room]
    constructor
    · intro fits c input read'
      cases read.symm.trans read'
      exact ⟨fun key => absurd key lead.1, fun key => absurd key lead.2.1, fun _ => fits⟩
    · intro fits
      exact (fits _ _ read).2.2 lead

theorem finish_enter_text (editing : Editing nbuf s) (room : s.line.len + 1 < nbuf) :
    slice (finish s.enter).state.line.buf 0 (finish s.enter).state.line.len =
      slice s.line.buf 0 s.line.len ++ [newline] := by
  obtain ⟨before, after, junk, split, -⟩ := editing.line
  obtain ⟨z, entered⟩ := split.enter room
  rw [split.text, List.append_assoc]
  exact entered.text

theorem turn_zero {last : Getcmd} (ended : turn nbuf s = .returned 0 last) :
    nbuf ≤ s.line.len + 1 ∨ ∃ c input, s.input = c :: input ∧ (c = newline ∨ c = 0x0D) ∧
      last = (finish { s with input }.enter).state := by
  have turned := turn_turned nbuf s
  rw [ended] at turned
  generalize outcome : (.returned 0 last : Outcome) = result at turned
  cases turned with
  | full full => exact .inl full
  | @enter room c input read key => exact .inr ⟨c, input, read, key, congrArg Outcome.state outcome⟩
  | eof room read | quit room read | escape room read | tab room read | kill room read
  | backspace room read key | rune room read lead =>
    cases outcome

section Calls
variable {start : Getcmd}

theorem not_confirmed_full {n : Nat} (reached : turns nbuf n start = .again s)
    (full : nbuf ≤ s.line.len + 1) : ¬Confirmed nbuf start := by
  intro confirmed
  have ended : turn nbuf s = finish s := if_pos full
  obtain ⟨m, other, c, input, reached', -, -, ended', text⟩ :=
    confirmed (n + 1) _ ((turns_then reached).trans ended)
  cases turns_last_unique reached reached' ended ended'
  exact absurd (congrArg List.length text) (by simp)

theorem fits_of_returned (room : s.line.len + 1 < nbuf) {value : Int}
    (ended : turn nbuf s = .returned value t) : s.Fits nbuf := by
  have turned := turn_turned nbuf s
  rw [ended] at turned
  intro c input read
  cases turned with
  | full full => omega
  | eof room nothing =>
    rw [nothing] at read
    cases read
  | quit room read' =>
    cases read.symm.trans read'
    exact ⟨fun key => absurd key (by decide), fun key => absurd key (by decide),
      fun lead => absurd rfl lead.2.2.1⟩
  | enter room read' key =>
    cases read.symm.trans read'
    refine ⟨fun esc => ?_, fun tab => ?_, fun lead => absurd key lead.2.2.2.2.2⟩
    · rw [esc] at key
      exact absurd key (by decide)
    · rw [tab] at key
      exact absurd key (by decide)

theorem fits_of_room (editing : ∀ n s, turns nbuf n start = .again s → Editing nbuf s)
    (room : ∀ n s, turns nbuf n start = .again s → s.line.len + 1 < nbuf) {n : Nat}
    (reached : turns nbuf n start = .again s) : s.Fits nbuf := by
  cases turned : turn nbuf s with
  | again t =>
    rw [← turn_room (editing n s reached).hpos turned]
    exact room (n + 1) t ((turns_then reached).trans turned)
  | returned value t => exact fits_of_returned (room n s reached) turned

theorem confirmed_iff (room : start.line.len + 1 < nbuf)
    (editing : ∀ n s, turns nbuf n start = .again s → Editing nbuf s) :
    Confirmed nbuf start ↔ ∀ n s, turns nbuf n start = .again s → s.Fits nbuf := by
  constructor
  · intro confirmed n s reached
    refine fits_of_room editing (fun n s reached => Nat.not_le.mp fun full => ?_) reached
    exact not_confirmed_full reached full confirmed
  · intro fits
    -- a state of the run has room, because the key before it fitted
    have roomy : ∀ n s, turns nbuf n start = .again s → s.line.len + 1 < nbuf := by
      intro n
      induction n with
      | zero =>
        intro s reached
        cases reached
        exact room
      | succ n ih =>
        intro s reached
        obtain ⟨r, before, turned⟩ := turns_before reached
        exact (turn_room (editing n r before).hpos turned).mpr (fits n r before)
    intro n
    induction n with
    | zero =>
      intro last ended
      cases ended
    | succ n ih =>
      intro last ended
      rw [turns_succ] at ended
      cases before : turns nbuf n start with
      | again s =>
        rw [before] at ended
        change turn nbuf s = _ at ended
        have more := roomy n s before
        rcases turn_zero ended with full | ⟨c, input, read, key, rfl⟩
        · omega
        · have typing := editing n s before
          have rest : 0 ∉ input := fun member =>
            typing.input (read ▸ List.mem_cons_of_mem c member)
          exact ⟨n, s, c, input, before, read, key, ended,
            finish_enter_text (typing.next s.out typing.line rest typing.offers) more⟩
      | returned value s =>
        rw [before] at ended
        exact ih last (before.trans ended)

/-- getcmd returns a command only for the Enter key, exactly if no key brings the line to nbuf -
1 bytes. -/
theorem command_confirmed_iff (some : 1 < nbuf) (fits : nbuf ≤ 100) {history : List (List UInt8)}
    (entries : IsHistory history) (earlier : List Typed) (t : Typed) :
    Confirmed nbuf (t.getcmd nbuf (historyAfter nbuf history earlier)) ↔
      ∀ n s, turns nbuf n (t.getcmd nbuf (historyAfter nbuf history earlier)) = .again s → s.Fits nbuf :=
  confirmed_iff some fun _ _ reached => t.reached (Nat.lt_of_succ_lt some) fits entries _ reached

def lsTyped : Typed := .keys [0x6C, 0x73, newline] rfl

/-- The up key, then a letter. -/
def lsRecalled : Typed := .keys [ESC, bracket, 0x41, 0x61, newline] rfl

theorem command_confirmed_recalled :
    (1 < 100 ∧ 100 ≤ 100 ∧ IsHistory []) ∧
      Confirmed 100 (lsRecalled.getcmd 100 (historyAfter 100 [] [lsTyped])) ∧
      ∃ s, lsRecalled.call 100 (historyAfter 100 [] [lsTyped]) = .returned 0 s ∧
        slice s.line.buf 0 s.line.len = [0x6C, 0x73, 0x61, newline] := by
  have line : ((lsRecalled.call 100 (historyAfter 100 [] [lsTyped])).value,
      slice (lsRecalled.call 100 (historyAfter 100 [] [lsTyped])).state.line.buf 0
        (lsRecalled.call 100 (historyAfter 100 [] [lsTyped])).state.line.len) =
      (some 0, [0x6C, 0x73, 0x61, newline]) := by decide +kernel
  obtain ⟨value, s, ended⟩ := lsRecalled.call_returns 100 (historyAfter 100 [] [lsTyped])
  rw [ended] at line
  have zero : value = 0 := Option.some.inj (Prod.mk.inj line).1
  refine ⟨⟨by decide, by decide, isHistory_nil⟩, ?_, s, zero ▸ ended, (Prod.mk.inj line).2⟩
  refine (command_confirmed_iff (by decide) (by decide) isHistory_nil [lsTyped] lsRecalled).mpr ?_
  have short : ∀ n < 6, (turns 100 n
      (lsRecalled.getcmd 100 (historyAfter 100 [] [lsTyped]))).state.line.len + 1 < 100 := by decide +kernel
  intro n s
  refine fits_of_room (fun _ _ => lsRecalled.reached (by decide) (by decide) isHistory_nil _) fun n s reached => ?_
  by_cases few : n < 6
  · have bound := short n few
    rwa [reached] at bound
  · obtain ⟨value, last, returned⟩ : ∃ value last, Outcome.again s = .returned value last :=
      reached ▸ turns_returns n _ (Nat.not_lt.mp few)
    cases returned

def manyA : Typed := .keys (List.replicate 99 0x61) rfl

/-- The 99th key submits the line. -/
theorem command_unconfirmed :
    newline ∉ manyA.input ∧ 0x0D ∉ manyA.input ∧
      ∃ s, manyA.call 100 (historyAfter 100 [] []) = .returned 0 s ∧
        slice s.line.buf 0 s.line.len = manyA.input ∧ ¬Confirmed 100 (manyA.getcmd 100 (historyAfter 100 [] [])) := by
  have only : ∀ c ∈ manyA.input, c = 0x61 := fun c => List.eq_of_mem_replicate
  have line : (manyA.call 100 []).value = some 0 ∧
      slice (manyA.call 100 []).state.line.buf 0 (manyA.call 100 []).state.line.len = manyA.input := by
    decide +kernel
  obtain ⟨value, s, ended⟩ := manyA.call_returns 100 []
  rw [ended] at line
  have zero : value = 0 := Option.some.inj line.1
  refine ⟨fun member => absurd (only _ member) (by decide), fun member => absurd (only _ member) (by decide),
    s, zero ▸ ended, line.2, fun confirmed => ?_⟩
  obtain ⟨m, last, c, input, reached, read, key, -⟩ := confirmed _ s (zero ▸ ended)
  have typed : c ∈ manyA.input := (turns_reads reached).subset (read ▸ List.mem_cons_self)
  rw [only c typed] at key
  exact absurd key (by decide)

end Calls
end Xv6Lab.Shell
