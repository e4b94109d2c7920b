import Xv6Lab.Shell.Runs
import Xv6Lab.Shell.Text

/-!
The terminal line shows the shell's buffer after every key.
-/

namespace Xv6Lab.Shell
open List
open Terminal (empty feed_append prints_pending prints_col prints_cells_outside prints_append feed_left prints_cells_congr)
variable {c : Char} {before' after' : List Char}

def promptText : List Char := ['$', ' ']

theorem encode_promptText : encode promptText = PROMPT := by decide

theorem width_promptText : width promptText = 2 := by decide

theorem promptText_printable : ∀ c ∈ promptText, Printable c :=
  forall_mem_cons.mpr ⟨by decide, forall_mem_singleton.mpr (by decide)⟩

/-- The line of the terminal has the prompt and the two texts, and the cursor stands
between them. -/
structure Drawn (t : Terminal) (before after : List Char) : Prop where
  ready : t.pending = []
  cells : t.cells = (empty.prints (promptText ++ (before ++ after))).cells
  col : t.col = 2 + width before

section Drawing
variable {t : Terminal} {nbuf : Nat} {line : Line} {before after : List Char}

theorem feed_printable (ready : t.pending = []) {text : List Char}
    (printable : ∀ c ∈ text, Printable c) : t.feed (encode text) = t.prints text :=
  Terminal.feed_text ready fun c member => (printable c member).1

theorem feed_clear (ready : t.pending = []) :
    t.feed [0x0D, ESC, bracket, 0x32, 0x4B] = empty := by
  have cleared := @Terminal.feed_control { t with col := 0 } ready [0x32]
    (forall_mem_singleton.mpr (by decide)) 0x4B (by decide)
  have start : t.put 0x0D = { t with col := 0 } := by simp [Terminal.put, ready]
  rw [Terminal.feed_cons, start]
  refine cleared.trans ?_
  simp [Terminal.control, Terminal.number, empty]

theorem redraw_eq (h : Holds nbuf line before after) :
    redraw line = [0x0D, ESC, bracket, 0x32, 0x4B] ++ encode (promptText ++ (before ++ after)) ++
      termMoveCursor 0x44 (width after) := by
  rw [encode_append, encode_promptText, ← h.text, ← h.tail_width]
  simp only [redraw, termMoveCursor, PROMPT, Nat.pos_iff_ne_zero, ite_not]
  rfl

theorem drawn_redraw (ready : t.pending = []) (h : Holds nbuf line before after)
    (printable : ∀ c ∈ before ++ after, Printable c) :
    Drawn (t.feed (redraw line)) before after := by
  have all := forall_mem_append.mpr ⟨promptText_printable, printable⟩
  have printed := prints_pending (t := empty) rfl
    (promptText ++ (before ++ after))
  rw [redraw_eq h, feed_append, feed_append, feed_clear ready,
    feed_printable rfl all, feed_left printed]
  refine ⟨printed, rfl, ?_⟩
  simp only [prints_col, width_append, width_promptText, empty]
  omega

theorem drawn_redrawFrom (ready : t.pending = []) (h : Holds nbuf line before after)
    (printable : ∀ c ∈ after, Printable c) (col : t.col = 2 + width before)
    (same : ∀ i < t.col, t.cells i = (empty.prints (promptText ++ before)).cells i) :
    Drawn (t.feed (redrawFrom line)) before after := by
  have col' : t.col = (empty.prints (promptText ++ before)).col := by
    simp [col, width_promptText, empty]
  have printed := prints_pending ready after
  simp only [redrawFrom, h.rest, h.tail_width]
  rw [feed_append, feed_append, feed_printable ready printable,
    Terminal.feed_clearEol printed]
  rw [feed_left (by exact printed)]
  refine ⟨printed, ?_, ?_⟩
  · funext i
    rw [← append_assoc, prints_append]
    simp only [prints_col]
    split_ifs with beyond
    · -- erased here, and never printed to in a repaint
      have width_all : t.col = 0 + width (promptText ++ before) := by rw [col']; simp [empty]
      rw [prints_cells_outside _ _ (.inr (by rw [← col']; exact beyond)),
        prints_cells_outside _ _ (.inr (by simp only [empty]; omega))]
      rfl
    · refine prints_cells_congr after col' fun outside => same i ?_
      omega
  · simp only [prints_col]
    omega

theorem Drawn.append (drawn : Drawn t before []) {new : List Char}
    (printable : ∀ c ∈ new, Printable c) : Drawn (t.feed (encode new)) (before ++ new) [] := by
  rw [feed_printable drawn.ready printable]
  refine ⟨prints_pending drawn.ready new, ?_, ?_⟩
  · funext i
    have cells := congrFun drawn.cells i
    rw [append_nil] at cells
    rw [append_nil, ← append_assoc, prints_append]
    refine prints_cells_congr new ?_ fun _ => cells
    simp [drawn.col, width_promptText, empty]
  · simp [drawn.col, Nat.add_assoc]

theorem Drawn.right (drawn : Drawn t before (c :: after)) :
    Drawn (t.feed (termMoveCursor 0x43 (width [c]))) (before ++ [c]) after := by
  rw [Terminal.feed_right drawn.ready]
  refine ⟨drawn.ready, ?_, ?_⟩
  · simpa using drawn.cells
  · simp [drawn.col, Nat.add_assoc]

theorem Drawn.left (drawn : Drawn t (before ++ [c]) after) :
    Drawn (t.feed (termMoveCursor 0x44 (width [c]))) before (c :: after) := by
  rw [feed_left drawn.ready]
  refine ⟨drawn.ready, ?_, ?_⟩
  · simpa using drawn.cells
  · simp only [drawn.col, width_append]
    omega

end Drawing

def IsEntry (bytes : List UInt8) : Prop :=
  ∃ text : List Char, bytes = encode text ∧ (∀ c ∈ text, Printable c) ∧ bytes.length < LINE

structure Shows (s : Getcmd) (before after : List Char) : Prop where
  holds : Holds LINE s.line before after
  printable : ∀ c ∈ before ++ after, Printable c
  drawn : Drawn (empty.feed s.out) before after
  history : ∀ e ∈ s.history, IsEntry e
  draft : IsEntry s.draft

def Shown (s : Getcmd) : Prop := ∃ before after, Shows s before after

section Keys
variable {s : Getcmd} {before after : List Char}

theorem isEntry_nil : IsEntry [] := ⟨[], rfl, by simp, by decide⟩

section
variable (shows : Shows s before after)
include shows

theorem Shows.reads (input : List UInt8) (offers : List (List UInt8)) :
    Shows { s with input, offers } before after :=
  ⟨shows.holds, shows.printable, shows.drawn, shows.history, shows.draft⟩

theorem Shows.redraw {line : Line}
    (holds : Holds LINE line before' after') (printable : ∀ c ∈ before' ++ after', Printable c) :
    Shows ({ s with line }.write (Shell.redraw line)) before' after' where
  holds := holds
  printable := printable
  drawn := by
    simp only [Getcmd.write, feed_append]
    exact drawn_redraw shows.drawn.ready holds printable
  history := shows.history
  draft := shows.draft

theorem Shows.text : IsEntry (slice s.line.buf 0 s.line.len) := by
  refine ⟨before ++ after, shows.holds.text, shows.printable, ?_⟩
  rw [shows.holds.text, encode_append, length_append, ← shows.holds.len]
  exact shows.holds.room

theorem Shows.entry {hpos : Nat} : IsEntry (s.history.getD hpos []) := by
  rw [getD_eq_getElem?_getD]
  cases found : s.history[hpos]? with
  | none => exact isEntry_nil
  | some e => exact shows.history e (mem_of_getElem? found)

theorem Shows.setLine {src : List UInt8} (entry : IsEntry src) :
    Shown ({ s with line := Shell.setLine LINE s.line src }.write
      (Shell.redraw (Shell.setLine LINE s.line src))) := by
  obtain ⟨text, rfl, printable, fits⟩ := entry
  exact ⟨text, [], shows.redraw (shows.holds.setLine (strlen_encode printable) fits)
    (by simpa using printable)⟩

theorem Shows.up : Shown (s.up LINE) := by
  rw [Getcmd.up]
  by_cases first : s.hpos = 0
  · rw [if_pos first]
    exact ⟨before, after, shows⟩
  · have own : IsEntry (if s.saved then s.draft else slice s.line.buf 0 s.line.len) := by
      split_ifs
      · exact shows.draft
      · exact shows.text
    have moved : Shows { s with
        draft := if s.saved then s.draft else slice s.line.buf 0 s.line.len
        saved := true
        hpos := s.hpos - 1 } before after :=
      ⟨shows.holds, shows.printable, shows.drawn, shows.history, own⟩
    rw [if_neg first]
    exact moved.setLine shows.entry

theorem Shows.down : Shown (s.down LINE) := by
  rw [Getcmd.down]
  by_cases more : s.hpos < s.history.length
  · have source : IsEntry (if s.hpos + 1 = s.history.length then s.draft
        else s.history.getD (s.hpos + 1) []) := by
      split_ifs
      · exact shows.draft
      · exact shows.entry
    have moved : Shows { s with hpos := s.hpos + 1 } before after :=
      ⟨shows.holds, shows.printable, shows.drawn, shows.history, shows.draft⟩
    rw [if_pos more]
    exact moved.setLine source
  · rw [if_neg more]
    exact ⟨before, after, shows⟩

theorem Shows.right : Shown s.right := by
  cases after with
  | nil =>
    have stays : s.right = s := by
      simp only [Getcmd.right, shows.holds.next_nil, Getcmd.write]
      rw [utf8TextWidth, dif_neg (lt_irrefl _)]
      simp [termMoveCursor]
    rw [stays]
    exact ⟨before, [], shows⟩
  | cons c after =>
    refine ⟨before ++ [c], after, ?_, by simpa using shows.printable, ?_, shows.history, shows.draft⟩
    · simpa only [Getcmd.right, Getcmd.write, shows.holds.next_cons] using shows.holds.moveRight
    · simp only [Getcmd.right, Getcmd.write, shows.holds.next_cons, shows.holds.next_width,
        feed_append]
      exact shows.drawn.right

theorem Shows.left : Shown s.left := by
  cases before using List.reverseRecOn with
  | nil =>
    have stays : s.left = s := by
      simp only [Getcmd.left, shows.holds.prev_nil, Getcmd.write]
      rw [utf8TextWidth, dif_neg (lt_irrefl _)]
      simp [termMoveCursor]
    rw [stays]
    exact ⟨[], after, shows⟩
  | append_singleton before c =>
    refine ⟨before, c :: after, ?_, by simpa using shows.printable, ?_, shows.history, shows.draft⟩
    · simpa only [Getcmd.left, Getcmd.write, shows.holds.prev_append] using shows.holds.moveLeft
    · simp only [Getcmd.left, Getcmd.write, shows.holds.prev_append, shows.holds.prev_width,
        feed_append]
      exact shows.drawn.left

theorem Shows.killLine : Shown s.killLine :=
  ⟨[], [], shows.redraw shows.holds.kill (by simp)⟩

theorem Shows.redrawFrom (out : List UInt8) {line : Line} (holds : Holds LINE line before' after')
    (printable : ∀ c ∈ before' ++ after', Printable c) (rest : List Char)
    (drawn : Drawn (empty.feed (s.out ++ out)) before' rest) :
    Shows ({ s with line }.write (out ++ Shell.redrawFrom line)) before' after' where
  holds := holds
  printable := printable
  drawn := by
    simp only [Getcmd.write]
    rw [← append_assoc, feed_append]
    refine drawn_redrawFrom drawn.ready holds (forall_mem_append.mp printable).2 drawn.col ?_
    intro i inside
    rw [drawn.cells, ← append_assoc, prints_append]
    refine prints_cells_outside _ _ (.inl ?_)
    rw [drawn.col] at inside
    simpa [width_promptText, empty] using inside
  history := shows.history
  draft := shows.draft

theorem Shows.delete {input : List UInt8} (read : s.input = 0x7E :: input) :
    Shown s.delete ∧ s.delete.input = input ∧ s.delete.offers = s.offers := by
  simp only [Getcmd.delete, read, true_and]
  cases after with
  | nil =>
    have atEnd : ¬s.line.cursor < s.line.len := by simp [shows.holds.len, shows.holds.cursor]
    rw [if_neg atEnd]
    exact ⟨⟨before, [], shows.reads input s.offers⟩, rfl, rfl⟩
  | cons c after =>
    have inside : s.line.cursor < s.line.len := by
      have positive := encode_char_length_pos c
      rw [shows.holds.len, shows.holds.cursor, encode_cons, length_append]
      omega
    rw [if_pos inside]
    have fewer : ∀ d ∈ before ++ after, Printable d := by
      intro d member
      refine shows.printable d ?_
      simp only [mem_append, mem_cons] at member ⊢
      tauto
    refine ⟨⟨before, after, ?_⟩, rfl, rfl⟩
    exact (shows.reads input s.offers).redrawFrom [] shows.holds.delete fewer
      (c :: after) (by simpa using shows.drawn)

theorem Shows.backspace : Shown s.backspace := by
  cases before using List.reverseRecOn with
  | nil =>
    rw [Getcmd.backspace, if_neg (by simp [shows.holds.cursor])]
    exact ⟨[], after, shows⟩
  | append_singleton before c =>
    have inside : 0 < s.line.cursor := by
      have positive := encode_char_length_pos c
      rw [shows.holds.cursor, encode_append, length_append, encode_cons, length_append]
      omega
    rw [Getcmd.backspace, if_pos inside]
    simp only [shows.holds.prev_append, shows.holds.prev_width]
    refine ⟨before, after, shows.redrawFrom _ shows.holds.erase ?_ (c :: after) ?_⟩
    · intro d member
      refine shows.printable d ?_
      simp only [mem_append] at member ⊢
      tauto
    · rw [feed_append]
      exact shows.drawn.left

theorem Shows.inserted {text : List Char}
    (printable : ∀ c ∈ text, Printable c) {line : Line} {n : Nat}
    (insertion : insertBytes LINE s.line (encode text) = (line, n)) {new : List UInt8}
    (drawn : n = (encode text).length → Holds LINE line (before ++ text) after →
      new = encode text) : Shown (s.inserted line n new) := by
  by_cases full : LINE ≤ s.line.len + (encode text).length
  · obtain ⟨rfl, rfl⟩ := Prod.mk.inj ((insertBytes_full full).symm.trans insertion)
    exact ⟨before, after, shows⟩
  · obtain ⟨next, inserts, holds⟩ := shows.holds.insert text (Nat.not_le.mp full)
    obtain ⟨rfl, rfl⟩ := Prod.mk.inj (inserts.symm.trans insertion)
    have all : ∀ c ∈ (before ++ text) ++ after, Printable c := by
      have old := shows.printable
      simp only [forall_mem_append] at old ⊢
      exact ⟨⟨old.1, printable⟩, old.2⟩
    refine ⟨before ++ text, after, ?_⟩
    unfold Getcmd.inserted
    split_ifs with nothing atEnd
    · obtain rfl := encode_length_eq_zero.mp nothing
      rw [append_nil] at holds all ⊢
      exact ⟨holds, all, shows.drawn, shows.history, shows.draft⟩
    · have rest : after = [] := by
        rw [shows.holds.cursor, shows.holds.len] at atEnd
        exact encode_length_eq_zero.mp (by omega)
      subst rest
      refine ⟨holds, all, ?_, shows.history, shows.draft⟩
      simp only [Getcmd.write, feed_append, drawn rfl holds]
      exact shows.drawn.append printable
    · exact shows.redraw holds all

end
end Keys

def Rune : Type := { c : Char // Printable c }

def runes (text : List Rune) : List Char := text.map Subtype.val

theorem runes_printable (text : List Rune) : ∀ c ∈ runes text, Printable c := by
  intro c member
  obtain ⟨r, -, rfl⟩ := mem_map.mp member
  exact r.2

/-- The keys of the line editor. A tab comes with the text that completion inserts,
empty for none; backspace has two codes. -/
inductive Key
  | rune (r : Rune)
  | up
  | down
  | right
  | left
  | delete
  | tab (text : List Rune)
  | killLine
  | backspace (del : Bool)

namespace Key

def bytes : Key → List UInt8
  | .rune r => String.utf8EncodeChar r.1
  | .up => [ESC, bracket, 0x41]
  | .down => [ESC, bracket, 0x42]
  | .right => [ESC, bracket, 0x43]
  | .left => [ESC, bracket, 0x44]
  | .delete => [ESC, bracket, 0x33, 0x7E]
  | .tab _ => [TAB]
  | .killLine => [ctrl 0x55]
  | .backspace del => [if del then 0x7F else ctrl 0x48]

def offers : Key → List (List UInt8)
  | .tab text => [encode (runes text)]
  | _ => []

end Key

section Turns
variable {s : Getcmd} {input : List UInt8} {offers : List (List UInt8)}

theorem Shown.reads (shown : Shown s) (input : List UInt8) (offers : List (List UInt8)) :
    Shown { s with input, offers } := by
  obtain ⟨before, after, shows⟩ := shown
  exact ⟨before, after, shows.reads input offers⟩

theorem turn_key (k : Key) (shown : Shown s) (room : s.line.len + 1 < LINE)
    (input : List UInt8) (offers : List (List UInt8)) :
    ∃ next, turn LINE { s with input := k.bytes ++ input, offers := k.offers ++ offers } =
      .again next ∧ Shown next ∧ next.input = input ∧ next.offers = offers := by
  obtain ⟨before, after, shows⟩ := shown.reads input offers
  have going : ¬LINE ≤ s.line.len + 1 := Nat.not_le.mpr room
  cases k with
  | rune r =>
    obtain ⟨lead, conts, bytes, rune⟩ := isRune_encode r.1
    have first : ∀ key : UInt8, key < 0x80 → key.toNat < 0x20 ∨ key.toNat = 0x7F → lead ≠ key :=
      fun key => rune_first r.2 rune
    have branch : turn LINE { s with
          input := Key.bytes (.rune r) ++ input
          offers := Key.offers (.rune r) ++ offers } =
        .again ({ s with input := conts ++ input, offers }.rune LINE lead) := by
      simp only [turn, if_neg going, Key.bytes, Key.offers, bytes, cons_append,
        nil_append]
      rw [if_neg (first ESC (by decide) (by decide)), if_neg (first TAB (by decide) (by decide)),
        if_neg (first (ctrl 0x44) (by decide) (by decide)),
        if_neg (first (ctrl 0x55) (by decide) (by decide)),
        if_neg (not_or.mpr ⟨first (ctrl 0x48) (by decide) (by decide),
          first 0x7F (by decide) (by decide)⟩),
        if_neg (not_or.mpr ⟨first newline (by decide) (by decide),
          first 0x0D (by decide) (by decide)⟩)]
    have read : { s with input := conts ++ input, offers }.rune LINE lead =
        { s with input, offers }.inserted
          (insertBytes LINE s.line (encode [r.1])).1 (insertBytes LINE s.line (encode [r.1])).2
          (encode [r.1]) := by
      simp [Getcmd.rune, rune.input, bytes]
    refine ⟨_, branch, ?_⟩
    rw [read]
    exact ⟨shows.inserted (by simpa using r.2) rfl fun _ _ => rfl, inserted_reads ..⟩
  | up => exact ⟨_, if_neg going, shows.up, up_reads _⟩
  | down => exact ⟨_, if_neg going, shows.down, down_reads _⟩
  | right => exact ⟨_, if_neg going, shows.right, rfl, rfl⟩
  | left => exact ⟨_, if_neg going, shows.left, rfl, rfl⟩
  | delete =>
    exact ⟨_, if_neg going, (shows.reads (0x7E :: input) offers).delete rfl⟩
  | tab text =>
    refine ⟨_, if_neg going, ?_, inserted_reads ..⟩
    refine shows.inserted (runes_printable text) rfl fun size holds => ?_
    obtain ⟨junk, content⟩ := holds.content
    have cursor : s.line.cursor = (encode before).length := shows.holds.cursor
    have found := slice_append (encode before) (encode (runes text)) (encode after ++ junk)
    rw [← cursor, ← size] at found
    refine Eq.trans ?_ found
    rw [encode_append, append_assoc] at content
    rw [← content]
    rfl
  | killLine => exact ⟨_, if_neg going, shows.killLine, rfl, rfl⟩
  | backspace del =>
    cases del
    · exact ⟨_, if_neg going, shows.backspace, backspace_reads _⟩
    · exact ⟨_, if_neg going, shows.backspace, backspace_reads _⟩

end Turns

section Saving
variable {s : Getcmd} {history : List (List UInt8)} {buf text tail : List UInt8} {len : Nat}

theorem saveHistory_text (content : buf = text ++ tail) (single : newline ∉ text)
    (ends : len = text.length ∨ len = text.length + 1 ∧ tail.head? = some newline) :
    ∀ e ∈ saveHistory history buf len, e ∈ history ∨ e = text := by
  have cut : slice buf 0 (if 0 < len ∧ byte buf (len - 1) = newline then len - 1 else len) = text := by
    rcases ends with rfl | ⟨rfl, last⟩
    · rw [if_neg, content]
      · simp [slice]
      · rintro ⟨some, last⟩
        refine single (last ▸ ?_)
        rw [content, byte, getD_eq_getElem?_getD, getElem?_append_left (by omega),
          getElem?_eq_getElem (by omega)]
        exact getElem_mem _
    · obtain ⟨z, rfl⟩ := head?_eq_some_iff.mp last
      rw [if_pos (by simp [content, byte]), content]
      simp [slice]
  unfold saveHistory
  dsimp only
  generalize (if 0 < len ∧ byte buf (len - 1) = newline then len - 1 else len) = kept at *
  rw [cut]
  intro e member
  split_ifs at member
  · exact .inl member
  · exact .inl member
  · exact (mem_append.mp member).imp mem_of_mem_drop mem_singleton.mp
  · exact (mem_append.mp member).imp id mem_singleton.mp

theorem Shows.save {before after : List Char} (shows : Shows s before after)
    (content : buf = encode (before ++ after) ++ tail)
    (ends : len = s.line.len ∨ len = s.line.len + 1 ∧ tail.head? = some newline) :
    ∀ e ∈ saveHistory s.history buf len, IsEntry e := by
  have size : s.line.len = (encode (before ++ after)).length := by
    rw [encode_append, length_append, shows.holds.len]
  have single : newline ∉ encode (before ++ after) := fun inside =>
    encode_ne_control shows.printable (by decide) (by decide) (by decide) newline inside rfl
  rw [size] at ends
  intro e member
  rcases saveHistory_text content single ends e member with old | rfl
  · exact shows.history e old
  · rw [← shows.holds.text]
    exact shows.text

theorem Shown.finish (shown : Shown s) : ∀ e ∈ (finish s).state.history, IsEntry e := by
  obtain ⟨before, after, shows⟩ := shown
  obtain ⟨junk, content⟩ := shows.holds.content
  exact shows.save (by rw [content, encode_append, append_assoc]) (.inl rfl)

theorem Shown.enter (shown : Shown s) (room : s.line.len + 1 < LINE) :
    ∀ e ∈ (Shell.finish s.enter).state.history, IsEntry e := by
  obtain ⟨before, after, shows⟩ := shown
  obtain ⟨junk, split⟩ := shows.holds.split
  obtain ⟨z, split'⟩ := split.enter room
  have content : s.enter.line.buf = encode (before ++ after) ++ newline :: 0 :: z := by
    rw [encode_append]
    refine split'.content.trans ?_
    simp
  exact shows.save content (.inr ⟨rfl, rfl⟩)

end Saving

structure History where
  entries : List (List UInt8)
  texts : ∀ e ∈ entries, IsEntry e

def History.getcmd (history : History) (keys : List Key) (more : List UInt8) : Getcmd :=
  Shell.getcmd LINE history.entries (keys.flatMap Key.bytes ++ more) (keys.flatMap Key.offers)

theorem History.shown (history : History) (keys : List Key) (more : List UInt8) :
    Shown (history.getcmd keys more) := by
  refine ⟨[], [], ⟨⟨_, rfl⟩, rfl, rfl, Nat.zero_lt_succ 99, rfl⟩, by simp, ?_, history.texts,
    isEntry_nil⟩
  have printed := feed_printable (t := empty) rfl promptText_printable
  have ready := prints_pending (t := empty) rfl promptText
  rw [encode_promptText] at printed
  change Drawn (empty.feed PROMPT) [] []
  rw [printed]
  exact ⟨ready, rfl, by simp [width_promptText, empty]⟩

/-- The terminal shows what the prompt and buf[0..len) show on an empty line, with the cursor in
the column of the buffer's cursor. -/
def ScreenMatches (s : Getcmd) : Prop :=
  let t := empty.feed s.out
  t.pending = [] ∧
    t.cells = (empty.feed (PROMPT ++ slice s.line.buf 0 s.line.len)).cells ∧
    t.col = 2 + utf8TextWidth s.line.buf 0 s.line.cursor

theorem Shown.matches {s : Getcmd} (shown : Shown s) : ScreenMatches s := by
  obtain ⟨before, after, shows⟩ := shown
  have all := forall_mem_append.mpr ⟨promptText_printable, shows.printable⟩
  refine ⟨shows.drawn.ready, ?_, ?_⟩
  · rw [shows.drawn.cells, shows.holds.text, ← encode_promptText, ← encode_append,
      feed_printable rfl all]
  · rw [shows.drawn.col, shows.holds.head_width]

theorem turns_keys (keys : List Key) {s : Getcmd} (shown : Shown s) (input : List UInt8)
    (offers : List (List UInt8)) :
    (∃ next, turns LINE keys.length { s with
        input := keys.flatMap Key.bytes ++ input
        offers := keys.flatMap Key.offers ++ offers } = .again next ∧
      Shown next ∧ next.input = input ∧ next.offers = offers) ∨
    ∃ full, turns LINE keys.length { s with
        input := keys.flatMap Key.bytes ++ input
        offers := keys.flatMap Key.offers ++ offers } = finish full ∧
      Shown full ∧ LINE ≤ full.line.len + 1 := by
  induction keys generalizing s with
  | nil => exact .inl ⟨_, rfl, shown.reads input offers, rfl, rfl⟩
  | cons k keys ih =>
    by_cases full : LINE ≤ s.line.len + 1
    · refine .inr ⟨_, ?_, shown.reads ((k :: keys).flatMap Key.bytes ++ input)
        ((k :: keys).flatMap Key.offers ++ offers), full⟩
      simp only [length_cons, turns, turn, if_pos full]
      rfl
    · obtain ⟨next, turned, showsNext, read, offered⟩ := turn_key k shown (Nat.not_le.mp full)
        (keys.flatMap Key.bytes ++ input) (keys.flatMap Key.offers ++ offers)
      have rest := ih showsNext
      rw [← read, ← offered] at rest
      simp only [length_cons, turns, flatMap_cons, append_assoc, turned]
      exact rest

/-- The history for the call that follows these keys and Enter. -/
def History.after (history : History) (keys : List Key) : History where
  entries := (turns LINE (keys.length + 1) (history.getcmd keys [newline])).state.history
  texts := by
    have start : history.getcmd keys [newline] = { history.getcmd [] [] with
        input := keys.flatMap Key.bytes ++ [newline]
        offers := keys.flatMap Key.offers ++ [] } := by
      simp [History.getcmd, Shell.getcmd]
    rw [start, turns_succ]
    rcases turns_keys keys (history.shown [] []) [newline] [] with
      ⟨next, turned, shown, input, -⟩ | ⟨full, turned, shown, -⟩
    · rw [turned]
      dsimp only
      by_cases room : LINE ≤ next.line.len + 1
      · rw [turn, if_pos room]
        exact shown.finish
      · rw [turn, if_neg room, input]
        exact (shown.reads [] next.offers).enter (Nat.not_le.mp room)
    · rw [turned]
      exact shown.finish

/-- For all keys typed so far and all that follow, the editor has read exactly those keys and
the screen shows its buffer. -/
theorem screen_matches_buffer (history : History) (keys rest : List Key) :
    match turns LINE keys.length (history.getcmd (keys ++ rest) []) with
    | .again s => ScreenMatches s ∧ s.input = rest.flatMap Key.bytes
    | .returned value s => value = 0 ∧ ScreenMatches s ∧ LINE ≤ s.line.len + 1 := by
  have start : history.getcmd (keys ++ rest) [] = { history.getcmd [] [] with
      input := keys.flatMap Key.bytes ++ rest.flatMap Key.bytes
      offers := keys.flatMap Key.offers ++ rest.flatMap Key.offers } := by
    simp [History.getcmd, getcmd]
  rw [start]
  rcases turns_keys keys (history.shown [] []) (rest.flatMap Key.bytes)
    (rest.flatMap Key.offers) with ⟨next, turned, shown, input, -⟩ | ⟨full, turned, shown, size⟩
  · rw [turned]
    exact ⟨shown.matches, input⟩
  · rw [turned]
    exact ⟨rfl, shown.matches, size⟩

def lsHistory : History :=
  History.after ⟨[], by simp⟩ [.rune ⟨'l', by decide⟩, .rune ⟨'s', by decide⟩]

theorem screen_matches_recalled :
    ∃ s, turns LINE 1 (lsHistory.getcmd [.up, .left] []) = .again s ∧
      slice s.line.buf 0 s.line.len = [0x6C, 0x73] ∧ ScreenMatches s ∧ s.input = Key.left.bytes := by
  have shown := screen_matches_buffer lsHistory [.up] [.left]
  have line : ((turns LINE 1 (lsHistory.getcmd [.up, .left] [])).value,
      slice (turns LINE 1 (lsHistory.getcmd [.up, .left] [])).state.line.buf 0
        (turns LINE 1 (lsHistory.getcmd [.up, .left] [])).state.line.len) = (none, [0x6C, 0x73]) := by
    decide +kernel
  simp only [singleton_append, length_singleton] at shown
  cases turned : turns LINE 1 (lsHistory.getcmd [.up, .left] []) with
  | again s =>
    rw [turned] at shown line
    exact ⟨s, rfl, (Prod.mk.inj line).2, shown⟩
  | returned value s =>
    rw [turned] at line
    cases (Prod.mk.inj line).1

end Xv6Lab.Shell
