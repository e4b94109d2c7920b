import Xv6Lab.Fs.Model
import Xv6Lab.Shell.Bounds
import Xv6Lab.Shell.Parse

/-!
Tab completion (complete_token in sh.c).
-/

namespace Xv6Lab.Shell
open List
open Fs (DIRSIZ)
variable {name : List UInt8}

structure Dirent where
  inum : UInt16
  name : List UInt8
  size : name.length = DIRSIZ
deriving DecidableEq, Repr

def direntname (de : Dirent) : List UInt8 := de.name.takeWhile (· ≠ 0)

def dot : UInt8 := 0x2E

def consoleName : List UInt8 := [0x63, 0x6F, 0x6E, 0x73, 0x6F, 0x6C, 0x65]

def commandEntry (name : List UInt8) : Bool := name ≠ [dot] ∧ name ≠ consoleName ∧ dot ∉ name

def fileEntry (name : List UInt8) : Bool := name ≠ [dot] ∧ name ≠ consoleName

def matchPrefix (name buf : List UInt8) (start : Nat) (n : Int) : Bool :=
  (List.range n.toNat).all fun i => byte name i = byte buf (start + i)

def tokenStart (buf : List UInt8) : Nat → Nat
  | 0 => 0
  | start + 1 => if blankChar (byte buf start) then start + 1 else tokenStart buf start

def firstToken (buf : List UInt8) (start : Nat) : Bool :=
  (List.range start).all fun i => !commandChar (byte buf i)

/-- The local variables start, prefix_start, token_len and command. -/
structure Token where
  start : Nat
  prefixStart : Nat
  len : Int
  command : Bool
deriving DecidableEq, Repr

/-- complete_token up to its call of open; none where it has returned 0. -/
def findToken (line : Line) : Option Token :=
  let here := byte line.buf line.cursor
  if line.cursor < line.len ∧ blankChar here = false ∧ quoteChar here = false then none
  else
    let start := tokenStart line.buf line.cursor
    let quote := byte line.buf start
    if quoteChar quote ∧ line.cursor < line.len ∧ here ≠ quote then none
    else
      let prefixStart := if quoteChar quote then start + 1 else start
      let len : Int := line.cursor - prefixStart
      if DIRSIZ ≤ len then none
      else if (slice line.buf prefixStart line.cursor).any (· = 0x2F) then none
      else some ⟨start, prefixStart, len, firstToken line.buf start⟩

/-- The entries that the loop does not skip. -/
def eligible (command : Bool) (de : Dirent) : Bool :=
  de.inum ≠ 0 ∧ if command then commandEntry (direntname de) else fileEntry (direntname de)

/-- The names that are copied to match, in the order of the directory. -/
def matching (token : Token) (buf : List UInt8) (entries : List Dirent) : List (List UInt8) :=
  ((entries.filter (eligible token.command)).map direntname).filter
    (matchPrefix · buf token.prefixStart token.len)

/-- complete_token, with the number it returns. dir is none if open fails. The result is none if
the suffix would be read from before match. -/
def completeToken (nbuf : Nat) (line : Line) (dir : Option (List Dirent)) : Option (Line × Nat) :=
  match findToken line, dir with
  | some token, some entries =>
    match matching token line.buf entries with
    | [name] =>
      if token.len < 0 then none else some (insertBytes nbuf line (name.drop token.len.toNat))
    | _ => some (line, 0)
  | _, _ => some (line, 0)

section Reads

inductive Source
  | buf
  | name
  | matched
deriving DecidableEq, Repr

def Source.size (nbuf : Nat) : Source → Nat
  | .buf => nbuf
  | .name => DIRSIZ + 1
  | .matched => DIRSIZ + 1

structure Read where
  array : Source
  start : Int
  length : Nat
deriving DecidableEq, Repr

def Read.Inside (nbuf : Nat) (r : Read) : Prop := 0 ≤ r.start ∧ r.start + r.length ≤ r.array.size nbuf

/-- The reads before the call of open; those of token_start go one byte below the start. -/
def findReads (line : Line) : List Read :=
  let start := tokenStart line.buf line.cursor
  [⟨.buf, line.cursor, 1⟩, ⟨.buf, (start - 1 : Nat), line.cursor - (start - 1)⟩, ⟨.buf, start, 1⟩,
    ⟨.buf, 0, start⟩, ⟨.buf, start, line.cursor - start⟩]

/-- The reads for an entry: strcmp, strchr and strcpy read its name with the NUL. -/
def entryReads (token : Token) (name : List UInt8) : List Read :=
  [⟨.name, 0, name.length + 1⟩, ⟨.name, 0, token.len.toNat⟩, ⟨.buf, token.prefixStart, token.len.toNat⟩]

def suffixReads (line : Line) (token : Token) (name : List UInt8) : List Read :=
  [⟨.matched, token.len, (name.length + 1 - token.len).toNat⟩, ⟨.buf, line.cursor, line.len - line.cursor⟩]

def completeReads (line : Line) (dir : Option (List Dirent)) : List Read :=
  findReads line ++
    match findToken line, dir with
    | some token, some entries =>
      ((entries.filter (·.inum ≠ 0)).map direntname).flatMap (entryReads token) ++
        match matching token line.buf entries with
        | [name] => suffixReads line token name
        | _ => []
    | _, _ => []

end Reads

def Token.typed (line : Line) (token : Token) : List UInt8 := slice line.buf token.prefixStart line.cursor

structure Inserted (line next : Line) (bytes : List UInt8) : Prop where
  cursor : next.cursor = line.cursor + bytes.length
  len : next.len = line.len + bytes.length
  before : slice next.buf 0 next.cursor = slice line.buf 0 line.cursor ++ bytes
  after : slice next.buf next.cursor next.len = slice line.buf line.cursor line.len

/-- One byte of a line, for what parsecmd has of the word there and the quote that is open. -/
def readByte (t : List UInt8 × Option UInt8) (c : UInt8) : List UInt8 × Option UInt8 :=
  match t.2 with
  | none =>
    if blankChar c then ([], none) else if quoteChar c then (t.1, some c) else (t.1 ++ [c], none)
  | some quote => if c = quote then (t.1, none) else (t.1 ++ [c], some quote)

/-- The word at the cursor, as far as it is before the cursor, and the quote that is open there. -/
def Line.typing (line : Line) : List UInt8 × Option UInt8 :=
  (slice line.buf 0 line.cursor).foldl readByte ([], none)

def Line.word (line : Line) : List UInt8 :=
  (tokenize (.inside line.typing.1 line.typing.2) (slice line.buf line.cursor line.len)).headD []

structure Completes (nbuf : Nat) (line : Line) (dir : Option (List Dirent)) : Prop where
  token : ∀ token, findToken line = some token →
    0 ≤ token.len ∧ token.len ≤ (DIRSIZ : Int) - 1 ∧
      token.len = (token.typed line).length ∧ token.command = firstToken line.buf token.start
  reads : ∀ r ∈ completeReads line dir, r.Inside nbuf
  result : ∃ next n, completeToken nbuf line dir = some (next, n) ∧ (n = 0 → next = line) ∧
    (0 < n → ∃ token entries name bytes, findToken line = some token ∧ dir = some entries ∧
      ((entries.filter (eligible token.command)).map direntname).filter
        ((token.typed line).isPrefixOf ·) = [name] ∧
      bytes.length = n ∧ Inserted line next bytes ∧
      line.typing.1 = token.typed line ∧ next.typing.1 = name ∧ next.word = name)

def OnOpeningQuote (line : Line) : Prop :=
  line.cursor < line.len ∧ quoteChar (byte line.buf line.cursor) = true ∧
    (line.cursor = 0 ∨ blankChar (byte line.buf (line.cursor - 1)) = true)

/-- A byte that parsecmd takes into the word. -/
def plain (quote : Option UInt8) (c : UInt8) : Bool :=
  match quote with
  | none => !blankChar c && !quoteChar c
  | some quote => c ≠ quote

/-- Where the rest of a name is to be inserted, what has been typed of it is the whole word of
parsecmd, and parsecmd takes the rest as it is. -/
def Continues (nbuf : Nat) (line : Line) (dir : Option (List Dirent)) : Prop :=
  ∀ token entries typed rest, findToken line = some token → dir = some entries → typed = token.typed line →
    matching token line.buf entries = [typed ++ rest] → rest ≠ [] → line.len + rest.length < nbuf →
    line.typing.1 = typed ∧ line.word = typed ∧ ∀ c ∈ rest, plain line.typing.2 c = true

section Words
variable {t : List UInt8 × Option UInt8} {c : UInt8} {bytes : List UInt8}

theorem readByte_plain (taken : plain t.2 c = true) : readByte t c = (t.1 ++ [c], t.2) := by
  obtain ⟨word, quote⟩ := t
  cases quote with
  | none =>
    simp only [plain, Bool.and_eq_true, Bool.not_eq_true'] at taken
    simp [readByte, taken.1, taken.2]
  | some quote => simpa [readByte, plain] using taken

theorem readByte_shorter (other : plain t.2 c = false) : (readByte t c).1.length ≤ t.1.length := by
  obtain ⟨word, quote⟩ := t
  cases quote with
  | none =>
    simp only [plain, Bool.and_eq_false_iff, Bool.not_eq_false'] at other
    unfold readByte
    dsimp only
    split_ifs with blank quote
    · exact Nat.zero_le _
    · exact le_rfl
    · exact absurd other (by simp [blank, quote])
  | some quote =>
    have same : c = quote := by simpa [plain] using other
    simp [readByte, same]

theorem readByte_length (t : List UInt8 × Option UInt8) (c : UInt8) :
    (readByte t c).1.length ≤ t.1.length + 1 := by
  cases taken : plain t.2 c with
  | true => simp [readByte_plain taken]
  | false => exact (readByte_shorter taken).trans (Nat.le_succ _)

theorem foldl_length (bytes : List UInt8) (t : List UInt8 × Option UInt8) :
    (bytes.foldl readByte t).1.length ≤ t.1.length + bytes.length := by
  induction bytes generalizing t with
  | nil => exact le_rfl
  | cons c bytes ih =>
    have first := readByte_length t c
    have rest := ih (readByte t c)
    rw [foldl_cons, length_cons]
    omega

theorem foldl_plain (taken : ∀ c ∈ bytes, plain t.2 c = true) :
    bytes.foldl readByte t = (t.1 ++ bytes, t.2) := by
  induction bytes generalizing t with
  | nil => simp
  | cons c bytes ih =>
    rw [forall_mem_cons] at taken
    rw [foldl_cons, readByte_plain taken.1, ih (t := (t.1 ++ [c], t.2)) taken.2]
    simp

theorem foldl_plain_iff (bytes : List UInt8) (t : List UInt8 × Option UInt8) :
    (bytes.foldl readByte t).1 = t.1 ++ bytes ↔ ∀ c ∈ bytes, plain t.2 c = true := by
  refine ⟨fun text => ?_, fun taken => by rw [foldl_plain taken]⟩
  induction bytes generalizing t with
  | nil => exact forall_mem_nil _
  | cons c bytes ih =>
    have size := foldl_length bytes (readByte t c)
    rw [foldl_cons] at text
    have full := congrArg length text
    rw [length_append, length_cons] at full
    cases taken : plain t.2 c with
    | false =>
      have shorter := readByte_shorter taken
      omega
    | true =>
      rw [readByte_plain taken] at text
      exact forall_mem_cons.mpr ⟨taken, ih (t := (t.1 ++ [c], t.2)) (by simpa using text)⟩

theorem tokenize_inside (bytes : List UInt8) (quote : Option UInt8) :
    ∃ rest more, ∀ word, tokenize (.inside word quote) bytes = (word ++ rest) :: more := by
  induction bytes generalizing quote with
  | nil => exact ⟨[], [], fun word => by rw [tokenize, append_nil]⟩
  | cons c bytes ih =>
    by_cases taken : plain quote c = true
    · obtain ⟨rest, more, after⟩ := ih quote
      refine ⟨c :: rest, more, fun word => ?_⟩
      cases quote with
      | none =>
        simp only [plain, Bool.and_eq_true, Bool.not_eq_true'] at taken
        simp [tokenize, taken.1, taken.2, after]
      | some quote =>
        have other : c ≠ quote := by simpa [plain] using taken
        simp [tokenize, other, after]
    · cases quote with
      | none =>
        by_cases blank : blankChar c = true
        · exact ⟨[], tokenize .outside bytes, fun word => by simp [tokenize, blank]⟩
        · have quote : quoteChar c = true := by
            simpa [plain, blank] using taken
          obtain ⟨rest, more, after⟩ := ih (some c)
          exact ⟨rest, more, fun word => by simp [tokenize, blank, quote, after]⟩
      | some quote =>
        have same : c = quote := by simpa [plain] using taken
        obtain ⟨rest, more, after⟩ := ih none
        exact ⟨rest, more, fun word => by simp [tokenize, same, after]⟩

theorem Inserted.word_iff {line next : Line} (inserted : Inserted line next bytes) :
    next.typing.1 = line.typing.1 ++ bytes ∧ next.word = line.typing.1 ++ bytes ↔
      line.word = line.typing.1 ∧ ∀ c ∈ bytes, plain line.typing.2 c = true := by
  have typing : next.typing = bytes.foldl readByte line.typing := by
    rw [Line.typing, inserted.before, foldl_append]
    rfl
  rw [typing, foldl_plain_iff, and_comm]
  refine and_congr_left fun taken => ?_
  obtain ⟨rest, more, after⟩ := tokenize_inside (slice line.buf line.cursor line.len) line.typing.2
  rw [Line.word, Line.word, typing, foldl_plain taken, inserted.after, after, after]
  simp

end Words

section Token
variable {line : Line}

theorem tokenStart_le (buf : List UInt8) (pos : Nat) : tokenStart buf pos ≤ pos := by
  induction pos with
  | zero => exact le_rfl
  | succ pos ih =>
    rw [tokenStart]
    split_ifs
    · exact le_rfl
    · omega

theorem tokenStart_first (buf : List UInt8) (pos : Nat) :
    tokenStart buf pos = 0 ∨ blankChar (byte buf (tokenStart buf pos - 1)) = true := by
  induction pos with
  | zero => exact .inl rfl
  | succ pos ih =>
    rw [tokenStart]
    split_ifs with blank
    · exact .inr blank
    · exact ih

theorem findToken_some {token : Token} (found : findToken line = some token) :
    token.start = tokenStart line.buf line.cursor ∧
      token.prefixStart = (if quoteChar (byte line.buf token.start) then token.start + 1 else token.start) ∧
      token.len = line.cursor - token.prefixStart ∧ token.len < DIRSIZ ∧
      token.command = firstToken line.buf token.start := by
  unfold findToken at found
  dsimp only at found
  by_cases inside : line.cursor < line.len ∧ blankChar (byte line.buf line.cursor) = false ∧
      quoteChar (byte line.buf line.cursor) = false
  · rw [if_pos inside] at found
    cases found
  · rw [if_neg inside] at found
    by_cases other : quoteChar (byte line.buf (tokenStart line.buf line.cursor)) = true ∧
        line.cursor < line.len ∧ byte line.buf line.cursor ≠ byte line.buf (tokenStart line.buf line.cursor)
    · rw [if_pos other] at found
      cases found
    · rw [if_neg other] at found
      generalize prefixed : (if quoteChar (byte line.buf (tokenStart line.buf line.cursor)) = true then
        tokenStart line.buf line.cursor + 1 else tokenStart line.buf line.cursor) = start at found
      by_cases long : (DIRSIZ : Int) ≤ line.cursor - start
      · rw [if_pos long] at found
        cases found
      · rw [if_neg long] at found
        split_ifs at found
        cases found
        exact ⟨rfl, prefixed.symm, rfl, Int.not_le.mp long, rfl⟩

theorem findToken_quote (on : OnOpeningQuote line) : ∃ token, findToken line = some token ∧ token.len = -1 := by
  obtain ⟨inside, quote, first⟩ := on
  have here : tokenStart line.buf line.cursor = line.cursor := by
    cases cursor : line.cursor with
    | zero => rfl
    | succ before =>
      rw [cursor] at first
      have blank : blankChar (byte line.buf before) = true := by
        rcases first with zero | blank
        · cases zero
        · exact blank
      rw [tokenStart, if_pos blank]
  have empty : slice line.buf (line.cursor + 1) line.cursor = [] := by simp [slice]
  refine ⟨⟨line.cursor, line.cursor + 1, -1, firstToken line.buf line.cursor⟩, ?_, rfl⟩
  unfold findToken
  dsimp only
  rw [here, if_neg (by rw [quote]; rintro ⟨-, -, never⟩; cases never),
    if_neg (by rintro ⟨-, -, differs⟩; exact differs rfl), if_pos quote, empty]
  have len : (line.cursor : Int) - ((line.cursor + 1 : Nat) : Int) = -1 := by omega
  rw [len, if_neg (by decide)]
  rfl

theorem findToken_len {nbuf : Nat} (ok : line.Ok nbuf) (off : ¬OnOpeningQuote line) {token : Token}
    (found : findToken line = some token) : token.prefixStart ≤ line.cursor := by
  obtain ⟨start, text, -⟩ := findToken_some found
  have before := tokenStart_le line.buf line.cursor
  rw [← start] at before
  rw [text]
  split_ifs with quote
  · by_contra past
    have same : token.start = line.cursor := by omega
    have bounds := ok.bounds
    refine off ⟨?_, same ▸ quote, ?_⟩
    · refine lt_of_le_of_ne bounds.1 fun last => ?_
      have nul := ok.nul
      rw [same, last, nul] at quote
      exact absurd quote (by decide)
    · have first := tokenStart_first line.buf line.cursor
      rw [← start, same] at first
      exact first
  · exact before

end Token

section Matching
variable {nbuf : Nat} {line : Line} {token : Token}

theorem length_direntname (de : Dirent) : (direntname de).length ≤ DIRSIZ := by
  have shorter := (List.takeWhile_prefix (p := (· ≠ 0)) (l := de.name)).length_le
  rw [de.size] at shorter
  exact shorter

theorem matching_name {buf : List UInt8} {entries : List Dirent} (single : matching token buf entries = [name]) :
    ∃ de ∈ entries, direntname de = name := by
  have member : name ∈ matching token buf entries := single ▸ mem_singleton_self name
  obtain ⟨de, listed, named⟩ := mem_map.mp (mem_of_mem_filter member)
  exact ⟨de, mem_of_mem_filter listed, named⟩

section
variable (ok : line.Ok nbuf)
include ok

theorem typed_at {i : Nat} (inside : token.prefixStart + i < line.cursor) :
    (token.typed line)[i]? = some (byte line.buf (token.prefixStart + i)) := by
  have bounds := ok.bounds
  exact getElem?_slice (by rw [ok.size]; omega) inside

theorem length_typed (token : Token) :
    (token.typed line).length = line.cursor - token.prefixStart := by
  have bounds := ok.bounds
  exact length_slice (by rw [ok.size]; omega) _

theorem matchPrefix_eq (starts : token.prefixStart ≤ line.cursor)
    (len : token.len = line.cursor - token.prefixStart) (name : List UInt8) :
    matchPrefix name line.buf token.prefixStart token.len = (token.typed line).isPrefixOf name := by
  have bounds := ok.bounds
  have count : token.len.toNat = line.cursor - token.prefixStart := by omega
  rw [Bool.eq_iff_iff, isPrefixOf_iff_prefix, prefix_iff_getElem?, matchPrefix, all_eq_true]
  constructor
  · intro same i inside
    rw [← getElem?_eq_getElem inside]
    rw [length_typed ok] at inside
    have equal := same i (mem_range.mpr (by omega))
    have solid := ok.solid (i := token.prefixStart + i) (by omega)
    rw [decide_eq_true_iff] at equal
    rw [typed_at ok (by omega), ← equal]
    -- the byte in the buffer is not NUL, so the name has not ended
    rw [← equal, byte] at solid
    have more : i < name.length := by
      by_contra past
      exact solid (getD_eq_default _ _ (Nat.not_lt.mp past))
    rw [byte, getD_eq_getElem _ _ more, getElem?_eq_getElem more]
  · intro same i member
    rw [mem_range, count] at member
    have equal := same i (by rw [length_typed ok]; exact member)
    rw [← getElem?_eq_getElem, typed_at ok (by omega)] at equal
    rw [decide_eq_true_iff, byte, getD_eq_getElem?_getD, equal, Option.getD_some]

theorem inserted_bytes {bytes : List UInt8} (fits : line.len + bytes.length < nbuf) :
    ∃ next, insertBytes nbuf line bytes = (next, bytes.length) ∧ Inserted line next bytes := by
  obtain ⟨before, after, junk, split, -⟩ := ok
  obtain ⟨next, z, inserted, split'⟩ := split.insert bytes fits
  refine ⟨next, inserted, ?_, ?_, ?_, split'.rest.trans split.rest.symm⟩
  · rw [split'.cursor, length_append, split.cursor]
  · rw [split'.len, length_append, split.len]
    omega
  · rw [split'.content, split.content, slice_drop _ _ split'.cursor (Nat.zero_le _),
      slice_drop _ _ split.cursor (Nat.zero_le _)]
    rfl

theorem insertBytes_nil : insertBytes nbuf line [] = (line, 0) := by
  obtain ⟨before, after, junk, split, -⟩ := ok
  have moved : memmove line.buf line.cursor after = line.buf := by
    rw [split.content, split.cursor]
    exact memmove_append before after _ rfl
  have placed : memmove line.buf line.cursor [] = line.buf := by
    rw [split.content, split.cursor]
    exact memmove_append before [] _ rfl
  have closed : line.buf.set line.len 0 = line.buf := by
    rw [split.content, ← append_assoc, set_append _ _ (by rw [split.len, length_append])]
    rfl
  unfold insertBytes
  simp only [length_nil, Nat.add_zero, if_neg (Nat.not_le.mpr split.room), split.rest, moved, placed, closed]

theorem matching_eq (starts : token.prefixStart ≤ line.cursor)
    (len : token.len = line.cursor - token.prefixStart) (entries : List Dirent) :
    matching token line.buf entries =
      ((entries.filter (eligible token.command)).map direntname).filter ((token.typed line).isPrefixOf ·) :=
  filter_congr fun name _ => matchPrefix_eq ok starts len name

end
end Matching

section Complete
variable {nbuf : Nat} {line : Line}

section
variable (ok : line.Ok nbuf)
include ok

theorem findReads_inside : ∀ r ∈ findReads line, r.Inside nbuf := by
  have bounds := ok.bounds
  have start := tokenStart_le line.buf line.cursor
  simp only [findReads, forall_mem_cons, Read.Inside, Source.size]
  exact ⟨by omega, by omega, by omega, by omega, by omega, forall_mem_nil _⟩

theorem entryReads_inside {token : Token} (starts : token.prefixStart ≤ line.cursor)
    (len : token.len = line.cursor - token.prefixStart) (short : token.len < DIRSIZ)
    (fits : name.length ≤ DIRSIZ) : ∀ r ∈ entryReads token name, r.Inside nbuf := by
  have bounds := ok.bounds
  simp only [entryReads, forall_mem_cons, Read.Inside, Source.size]
  exact ⟨by omega, by omega, by omega, forall_mem_nil _⟩

theorem suffixReads_inside {token : Token} (starts : token.prefixStart ≤ line.cursor)
    (len : token.len = line.cursor - token.prefixStart) (fits : name.length ≤ DIRSIZ)
    (found : token.typed line <+: name) : ∀ r ∈ suffixReads line token name, r.Inside nbuf := by
  have bounds := ok.bounds
  have longer := found.length_le
  rw [length_typed ok] at longer
  simp only [suffixReads, forall_mem_cons, Read.Inside, Source.size]
  exact ⟨by omega, by omega, forall_mem_nil _⟩

theorem matching_single {token : Token} (starts : token.prefixStart ≤ line.cursor)
    (len : token.len = line.cursor - token.prefixStart) {entries : List Dirent}
    (single : matching token line.buf entries = [name]) :
    (∃ de ∈ entries, direntname de = name) ∧ token.typed line <+: name := by
  have member : name ∈ matching token line.buf entries := single ▸ mem_singleton_self name
  rw [matching_eq ok starts len, mem_filter] at member
  exact ⟨matching_name single, isPrefixOf_iff_prefix.mp member.2⟩

theorem completeReads_inside (off : ¬OnOpeningQuote line) (dir : Option (List Dirent)) :
    ∀ r ∈ completeReads line dir, r.Inside nbuf := by
  unfold completeReads
  rw [forall_mem_append]
  refine ⟨findReads_inside ok, ?_⟩
  cases found : findToken line with
  | none => exact forall_mem_nil _
  | some token =>
    obtain ⟨-, -, len, short, -⟩ := findToken_some found
    have starts := findToken_len ok off found
    cases dir with
    | none => exact forall_mem_nil _
    | some entries =>
      dsimp only
      rw [forall_mem_append]
      constructor
      · intro r member
        obtain ⟨name, named, member⟩ := mem_flatMap.mp member
        obtain ⟨de, -, rfl⟩ := mem_map.mp named
        exact entryReads_inside ok starts len short (length_direntname de) r member
      · split
        case _ name single =>
          obtain ⟨⟨de, -, rfl⟩, typed⟩ := matching_single ok starts len single
          exact suffixReads_inside ok starts len (length_direntname de) typed
        case _ => exact forall_mem_nil _

theorem completeToken_insert {token : Token} {entries : List Dirent} {rest : List UInt8}
    (starts : token.prefixStart ≤ line.cursor) (found : findToken line = some token)
    (single : matching token line.buf entries = [token.typed line ++ rest]) :
    completeToken nbuf line (some entries) = some (insertBytes nbuf line rest) := by
  obtain ⟨-, -, len, -⟩ := findToken_some found
  have length : (token.typed line).length = token.len.toNat := by
    rw [length_typed ok]
    omega
  unfold completeToken
  rw [found]
  dsimp only
  rw [single]
  dsimp only
  rw [if_neg (by omega), ← length, drop_left]

theorem completeToken_result (off : ¬OnOpeningQuote line) (dir : Option (List Dirent))
    (continues : Continues nbuf line dir) :
    ∃ next n, completeToken nbuf line dir = some (next, n) ∧ (n = 0 → next = line) ∧
      (0 < n → ∃ token entries name bytes, findToken line = some token ∧ dir = some entries ∧
        ((entries.filter (eligible token.command)).map direntname).filter
          ((token.typed line).isPrefixOf ·) = [name] ∧
        bytes.length = n ∧ Inserted line next bytes ∧
        line.typing.1 = token.typed line ∧ next.typing.1 = name ∧ next.word = name) := by
  have nothing : ∀ P : Line → Nat → Prop, ∃ next n, some (line, 0) = some (next, n) ∧ (n = 0 → next = line) ∧
      (0 < n → P next n) := fun _ =>
    ⟨line, 0, rfl, fun _ => rfl, fun some => absurd some (Nat.lt_irrefl 0)⟩
  cases found : findToken line with
  | none =>
    unfold completeToken
    rw [found]
    exact nothing _
  | some token =>
    obtain ⟨-, -, len, -⟩ := findToken_some found
    have starts := findToken_len ok off found
    cases dir with
    | none =>
      unfold completeToken
      rw [found]
      exact nothing _
    | some entries =>
      by_cases one : ∃ name, matching token line.buf entries = [name]
      · obtain ⟨name, single⟩ := one
        obtain ⟨-, rest, rfl⟩ := matching_single ok starts len single
        rw [completeToken_insert ok starts found single]
        by_cases fits : line.len + rest.length < nbuf
        · by_cases more : rest = []
          · rw [more, insertBytes_nil ok]
            exact nothing _
          · obtain ⟨next, inserts, inserted⟩ := inserted_bytes ok fits
            obtain ⟨typed, whole, taken⟩ := continues token entries _ rest found rfl rfl single more fits
            obtain ⟨before, word⟩ := inserted.word_iff.mpr ⟨whole.trans typed.symm, taken⟩
            rw [typed] at before word
            refine ⟨next, rest.length, congrArg some inserts, fun none => ?_, fun _ => ?_⟩
            · exact absurd (length_eq_zero_iff.mp none) more
            · refine ⟨token, entries, _, rest, rfl, rfl, ?_, rfl, inserted, typed, before, word⟩
              rw [← matching_eq ok starts len]
              exact single
        · rw [insertBytes_full (Nat.not_lt.mp fits)]
          exact nothing _
      · unfold completeToken
        rw [found]
        dsimp only
        split
        case _ name single => exact absurd ⟨name, single⟩ one
        case _ => exact nothing _

theorem Completes.continues {dir : Option (List Dirent)} (off : ¬OnOpeningQuote line)
    (completes : Completes nbuf line dir) : Continues nbuf line dir := by
  rintro token entries typed rest found rfl rfl single more fits
  have starts := findToken_len ok off found
  obtain ⟨next, inserts, inserted⟩ := inserted_bytes ok fits
  obtain ⟨next', n, result, -, changed⟩ := completes.result
  rw [completeToken_insert ok starts found single, inserts] at result
  cases result
  obtain ⟨token', entries', name, bytes, found', dir, one, -, inserted', typed, before, word⟩ :=
    changed (length_pos_iff.mpr more)
  cases found.symm.trans found'
  cases dir
  obtain ⟨-, -, len, -⟩ := findToken_some found
  rw [← matching_eq ok starts len, single] at one
  cases one
  rw [← typed] at before word
  obtain ⟨whole, taken⟩ := inserted.word_iff.mp ⟨before, word⟩
  exact ⟨typed, whole.trans typed, taken⟩

end

/-- complete_token does what it should exactly if the cursor is not on a quote that starts a token,
and where it inserts, it completes the word that parsecmd will see. -/
theorem completes_iff (ok : line.Ok nbuf) (dir : Option (List Dirent)) :
    Completes nbuf line dir ↔ ¬OnOpeningQuote line ∧ Continues nbuf line dir := by
  constructor
  · intro completes
    have off : ¬OnOpeningQuote line := by
      intro on
      obtain ⟨token, found, negative⟩ := findToken_quote on
      have positive := (completes.token token found).1
      omega
    exact ⟨off, completes.continues ok off⟩
  · rintro ⟨off, continues⟩
    refine ⟨fun token found => ?_, completeReads_inside ok off dir, completeToken_result ok off dir continues⟩
    obtain ⟨-, -, len, short, command⟩ := findToken_some found
    have starts := findToken_len ok off found
    refine ⟨by omega, by omega, ?_, command⟩
    rw [length_typed ok]
    omega

section Examples

def lsEntry : Dirent := ⟨1, [0x6C, 0x73] ++ List.replicate 12 0, rfl⟩

-- 'l', with the cursor on the second quote
def lineL : Line := ⟨[0x27, 0x6C, 0x27] ++ List.replicate 97 0, 3, 2⟩

def lineQuote : Line := ⟨0x27 :: List.replicate 99 0, 1, 0⟩

theorem completes_command :
    lineL.Ok 100 ∧ Completes 100 lineL (some [lsEntry]) ∧
      (completeToken 100 lineL (some [lsEntry])).map Prod.snd = some 1 := by
  have ok : lineL.Ok 100 :=
    ⟨[0x27, 0x6C], [0x27], List.replicate 96 0, ⟨rfl, rfl, rfl, by decide, by decide⟩, by decide⟩
  refine ⟨ok, (completes_iff ok (some [lsEntry])).mpr ⟨by unfold OnOpeningQuote; decide +kernel, ?_⟩,
    by decide +kernel⟩
  rintro token entries typed rest found ⟨⟩ rfl single - -
  have same : findToken lineL = some ⟨0, 1, 1, true⟩ := by decide +kernel
  cases same.symm.trans found
  have names : matching ⟨0, 1, 1, true⟩ lineL.buf [lsEntry] = [[0x6C, 0x73]] := by decide +kernel
  have text : Token.typed lineL ⟨0, 1, 1, true⟩ = [0x6C] := by decide +kernel
  rw [names, text] at single
  cases single
  decide +kernel

/-- On the quote the length is -1 and the suffix starts before match. -/
theorem completes_not_quote :
    lineQuote.Ok 100 ∧ (findToken lineQuote).map Token.len = some (-1) ∧
      completeToken 100 lineQuote (some [lsEntry]) = none ∧ ¬Completes 100 lineQuote (some [lsEntry]) := by
  have ok : lineQuote.Ok 100 :=
    ⟨[], [0x27], List.replicate 98 0, ⟨rfl, rfl, rfl, by decide, by decide⟩, by decide⟩
  refine ⟨ok, by decide +kernel, by decide +kernel, fun completes => ?_⟩
  obtain ⟨next, n, ran, -⟩ := completes.result
  have outside : completeToken 100 lineQuote (some [lsEntry]) = none := by decide +kernel
  rw [outside] at ran
  cases ran

end Examples
end Complete
end Xv6Lab.Shell
