import Xv6Lab.Shell.Bounds

/-!
Browsing the history with the up and down keys. The first up key of a call keeps the
line in draft; later ones do not.
-/

namespace Xv6Lab.Shell
open List

def upKey : List UInt8 := [ESC, bracket, 0x41]

def downKey : List UInt8 := [ESC, bracket, 0x42]

def pressed (key : List UInt8) : Nat → List UInt8 → List UInt8
  | 0, rest => rest
  | k + 1, rest => key ++ pressed key k rest

def Getcmd.kept (s : Getcmd) : List UInt8 :=
  if s.saved then s.draft else slice s.line.buf 0 s.line.len

def Line.Restored (before after : Line) : Prop :=
  after.len = before.len ∧ slice after.buf 0 after.len = slice before.buf 0 before.len ∧
    after.cursor = after.len

def Restores (nbuf k : Nat) (s : Getcmd) : Prop :=
  ∃ next, turns nbuf (k + k) { s with input := pressed upKey k (pressed downKey k []) } = .again next ∧
    s.line.Restored next.line

variable {nbuf : Nat} {s : Getcmd}

section Line
variable {line : Line}

theorem Line.Ok.setLine_text (ok : line.Ok nbuf) {src : List UInt8} (clean : 0 ∉ src)
    (fits : src.length < nbuf) :
    (Shell.setLine nbuf line src).len = src.length ∧ (Shell.setLine nbuf line src).cursor = src.length ∧
      slice (Shell.setLine nbuf line src).buf 0 src.length = src := by
  obtain ⟨before, after, junk, split, -⟩ := ok
  obtain ⟨z, split'⟩ := split.setLine (strlen_text clean) fits
  have len : (Shell.setLine nbuf line src).len = src.length := by rw [split'.len]; rfl
  have text := split'.text
  rw [len, append_nil] at text
  exact ⟨len, split'.cursor, text⟩

end Line

section Keys

theorem turn_upKey (room : s.line.len + 1 < nbuf) (rest : List UInt8) :
    turn nbuf { s with input := upKey ++ rest } = .again ({ s with input := rest }.up nbuf) :=
  if_neg (Nat.not_le.mpr room)

theorem turn_downKey (room : s.line.len + 1 < nbuf) (rest : List UInt8) :
    turn nbuf { s with input := downKey ++ rest } = .again ({ s with input := rest }.down nbuf) :=
  if_neg (Nat.not_le.mpr room)

/-- What browsing needs of a state: a line, and entries that leave the loop running. -/
structure Browsing (nbuf : Nat) (s : Getcmd) : Prop where
  line : s.line.Ok nbuf
  room : s.line.len + 1 < nbuf
  text : ∀ e ∈ s.history, 0 ∉ e
  hpos : s.hpos ≤ s.history.length

def Fit (nbuf : Nat) (history : List (List UInt8)) (i : Nat) : Prop :=
  ∀ e ∈ history.drop i, e.length < nbuf - 1

theorem Fit.at {history : List (List UInt8)} {i j : Nat} (fit : Fit nbuf history i) (order : i ≤ j)
    (inside : j < history.length) : (history.getD j []).length < nbuf - 1 := by
  rw [getD_eq_getElem _ _ inside]
  refine fit _ (mem_drop_iff_getElem.mpr ⟨j - i, by omega, ?_⟩)
  congr 1
  omega

theorem Browsing.entry (browsing : Browsing nbuf s) (j : Nat) : 0 ∉ s.history.getD j [] := by
  by_cases inside : j < s.history.length
  · rw [getD_eq_getElem _ _ inside]
    exact browsing.text _ (getElem_mem inside)
  · rw [getD_eq_default _ _ (Nat.not_lt.mp inside)]
    exact not_mem_nil

theorem Browsing.shows (browsing : Browsing nbuf s) {j : Nat} (fits : (s.history.getD j []).length < nbuf - 1) :
    (setLine nbuf s.line (s.history.getD j [])).Ok nbuf ∧
      (setLine nbuf s.line (s.history.getD j [])).len + 1 < nbuf := by
  have clean := browsing.entry j
  have shown := browsing.line.setLine_text clean (by omega)
  exact ⟨browsing.line.setLine clean, by omega⟩

theorem turns_up (k : Nat) {s : Getcmd} (browsing : Browsing nbuf s) (count : k ≤ s.hpos)
    (fit : Fit nbuf s.history (s.hpos - k)) (rest : List UInt8) :
    ∃ next, turns nbuf k { s with input := pressed upKey k rest } = .again next ∧ Browsing nbuf next ∧
      next.input = rest ∧ next.history = s.history ∧ next.hpos = s.hpos - k ∧
      (0 < k → next.saved = true ∧ next.draft = s.kept) := by
  induction k generalizing s with
  | zero =>
    exact ⟨_, rfl, ⟨browsing.line, browsing.room, browsing.text, browsing.hpos⟩, rfl, rfl, rfl,
      fun never => absurd never (Nat.lt_irrefl 0)⟩
  | succ k ih =>
    have inside : s.hpos - 1 < s.history.length := by
      have := browsing.hpos
      omega
    have shown := browsing.shows (fit.at (by omega) inside)
    obtain ⟨up, equal⟩ : ∃ up, up = s.up nbuf := ⟨_, rfl⟩
    rw [Getcmd.up, if_neg (by omega)] at equal
    have after : Browsing nbuf up := by
      rw [equal]
      exact ⟨shown.1, shown.2, browsing.text, inside.le⟩
    have hpos : up.hpos = s.hpos - 1 := by rw [equal]; rfl
    have history : up.history = s.history := by rw [equal]; rfl
    have saved : up.saved = true ∧ up.draft = s.kept := by
      rw [equal]
      exact ⟨rfl, rfl⟩
    have turned : turn nbuf { s with input := pressed upKey (k + 1) rest } =
        .again { up with input := pressed upKey k rest } := by
      rw [equal, pressed, turn_upKey browsing.room, Getcmd.up, if_neg (by simp; omega)]
      rfl
    obtain ⟨next, ran, browsing', input, history', hpos', kept⟩ := ih after (by omega) (by
      rw [history, hpos, Nat.sub_sub, Nat.add_comm 1 k]
      exact fit)
    refine ⟨next, ?_, browsing', input, history'.trans history, by omega, fun _ => ?_⟩
    · rw [turns, turned]
      exact ran
    · by_cases more : 0 < k
      · have := kept more
        rw [Getcmd.kept, if_pos saved.1, saved.2] at this
        exact this
      · have none : k = 0 := by omega
        subst none
        cases ran
        exact saved

theorem turns_down (k : Nat) {s : Getcmd} (browsing : Browsing nbuf s) (some : 0 < k)
    (count : s.hpos + k = s.history.length) (fit : Fit nbuf s.history s.hpos) :
    ∃ next line, turns nbuf k { s with input := pressed downKey k [] } = .again next ∧
      line.Ok nbuf ∧ next.line = setLine nbuf line s.draft := by
  induction k generalizing s with
  | zero => exact absurd some (Nat.lt_irrefl 0)
  | succ k ih =>
    obtain ⟨down, equal⟩ : ∃ down, down = s.down nbuf := ⟨_, rfl⟩
    rw [Getcmd.down, if_pos (by omega)] at equal
    have turned : turn nbuf { s with input := pressed downKey (k + 1) [] } =
        .again { down with input := pressed downKey k [] } := by
      rw [equal, pressed, turn_downKey browsing.room, Getcmd.down, if_pos (by simp; omega)]
      rfl
    rw [turns, turned]
    dsimp only at equal
    by_cases last : s.hpos + 1 = s.history.length
    · have none : k = 0 := by omega
      subst none
      rw [if_pos last] at equal
      refine ⟨_, s.line, rfl, browsing.line, ?_⟩
      rw [equal]
      rfl
    · rw [if_neg last] at equal
      have shown := browsing.shows (fit.at (j := s.hpos + 1) (by omega) (by omega))
      have hpos : down.hpos = s.hpos + 1 := by rw [equal]; rfl
      have history : down.history = s.history := by rw [equal]; rfl
      have draft : down.draft = s.draft := by rw [equal]; rfl
      have after : Browsing nbuf down := by
        rw [equal]
        exact ⟨shown.1, shown.2, browsing.text, by simp only [Getcmd.write]; omega⟩
      have less : Fit nbuf down.history down.hpos := by
        intro e member
        rw [history, hpos, ← drop_drop] at member
        exact fit e (mem_of_mem_drop member)
      obtain ⟨next, line, ran, ok, shows⟩ := ih after (by omega) (by rw [history, hpos]; omega) less
      exact ⟨next, line, ran, ok, draft ▸ shows⟩

end Keys

/-- Browsing away from the line being typed and back restores it exactly if draft is free or
has that line. -/
theorem restores_iff_kept (editing : Editing nbuf s) (here : s.hpos = s.history.length)
    (room : s.line.len + 1 < nbuf) {k : Nat} (some : 1 ≤ k)
    (count : k ≤ s.history.length) (fit : Fit nbuf s.history (s.history.length - k)) :
    Restores nbuf k s ↔ s.kept = slice s.line.buf 0 s.line.len := by
  have browsing : Browsing nbuf s := ⟨editing.line, room, editing.history.text, editing.hpos⟩
  obtain ⟨top, up, browsing', input, history, hpos, kept⟩ :=
    turns_up k browsing (by omega) (here ▸ fit) (pressed downKey k [])
  have fit' : Fit nbuf top.history top.hpos := by
    rw [history, hpos, here]
    exact fit
  obtain ⟨next, line, down, ok, shows⟩ := turns_down k browsing' some (by rw [history, hpos]; omega) fit'
  have typed := editing.line.text
  have clean : 0 ∉ s.kept ∧ s.kept.length < nbuf := by
    unfold Getcmd.kept
    split_ifs
    · exact editing.draft
    · exact ⟨typed.1, by omega⟩
  rw [(kept some).2] at shows
  have text := ok.setLine_text clean.1 clean.2
  rw [← shows] at text
  have ran : turns nbuf (k + k) { s with input := pressed upKey k (pressed downKey k []) } = .again next := by
    rw [turns_add k k up]
    have same : top = { top with input := pressed downKey k [] } := by rw [← input]
    rw [same]
    exact down
  have restored : s.line.Restored next.line ↔ s.kept = slice s.line.buf 0 s.line.len := by
    constructor
    · rintro ⟨len, same, -⟩
      rw [text.1, text.2.2] at same
      exact same
    · intro same
      have len : s.kept.length = s.line.len := by rw [same, typed.2]
      refine ⟨text.1.trans len, ?_, text.2.1.trans text.1.symm⟩
      rw [text.1, text.2.2, same]
  constructor
  · rintro ⟨other, ran', same⟩
    rw [ran] at ran'
    cases ran'
    exact restored.mp same
  · intro same
    exact ⟨next, ran, restored.mpr same⟩

/-- Browsing away and back restores the line being typed exactly if no up key came before in
this call, or the line is still the one that the first up key kept. -/
theorem browse_restores_iff (some : 0 < nbuf) (fits : nbuf ≤ 100) {history : List (List UInt8)}
    (entries : IsHistory history) (earlier : List Typed) (t : Typed) (n : Nat)
    (reached : turns nbuf n (t.getcmd nbuf (historyAfter nbuf history earlier)) = .again s)
    (here : s.hpos = s.history.length) (room : s.line.len + 1 < nbuf) {k : Nat} (one : 1 ≤ k)
    (count : k ≤ s.history.length)
    (short : ∀ e ∈ s.history.drop (s.history.length - k), e.length < nbuf - 1) :
    Restores nbuf k s ↔ (s.saved = true → s.draft = slice s.line.buf 0 s.line.len) := by
  have editing := t.reached some fits entries _ reached
  rw [restores_iff_kept editing here room one count short, Getcmd.kept]
  split_ifs with saved
  · exact ⟨fun same _ => same, fun same => same saved⟩
  · exact ⟨fun _ on => absurd on saved, fun _ => rfl⟩

section Examples

def enteredX : Typed := .keys [0x78, newline] rfl

def typedA : Typed := .keys [0x61] rfl

def browsedA : Typed := .keys (upKey ++ downKey ++ [0x61]) rfl

theorem browse_restores_first :
    (0 < 100 ∧ 100 ≤ 100 ∧ IsHistory []) ∧
      ∃ s, turns 100 1 (typedA.getcmd 100 (historyAfter 100 [] [enteredX])) = .again s ∧
        s.history = [[0x78]] ∧ s.hpos = 1 ∧ slice s.line.buf 0 s.line.len = [0x61] ∧ Restores 100 1 s := by
  refine ⟨⟨by decide, by decide, isHistory_nil⟩,
    (turns 100 1 (typedA.getcmd 100 (historyAfter 100 [] [enteredX]))).state, by decide +kernel,
    by decide +kernel, by decide +kernel, by decide +kernel, ?_⟩
  refine (browse_restores_iff (by decide) (by decide) isHistory_nil [enteredX] typedA 1
    (by decide +kernel) (by decide +kernel) (by decide +kernel) le_rfl (by decide +kernel)
    (by decide +kernel)).mpr ?_
  decide +kernel

/-- After up and down a is typed, and the next up and down lose it. -/
theorem browse_loses_line :
    ∃ s, turns 100 3 (browsedA.getcmd 100 (historyAfter 100 [] [enteredX])) = .again s ∧
      s.history = [[0x78]] ∧ s.hpos = s.history.length ∧ s.line.len + 1 < 100 ∧
      slice s.line.buf 0 s.line.len = [0x61] ∧ ¬Restores 100 1 s := by
  refine ⟨(turns 100 3 (browsedA.getcmd 100 (historyAfter 100 [] [enteredX]))).state, by decide +kernel,
    by decide +kernel, by decide +kernel, by decide +kernel, by decide +kernel, ?_⟩
  rintro ⟨next, ran, len, -⟩
  have empty : (turns 100 (1 + 1)
      { (turns 100 3 (browsedA.getcmd 100 (historyAfter 100 [] [enteredX]))).state with
        input := pressed upKey 1 (pressed downKey 1 []) }).state.line.len = 0 := by decide +kernel
  have one : (turns 100 3 (browsedA.getcmd 100 (historyAfter 100 [] [enteredX]))).state.line.len = 1 := by
    decide +kernel
  rw [ran] at empty
  rw [one] at len
  exact absurd (empty.symm.trans len) (by decide)

end Examples
end Xv6Lab.Shell
