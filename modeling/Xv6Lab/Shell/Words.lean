import Xv6Lab.Shell.Parse

/-!
parsecmd stores the words of the reference tokenizer.
-/

namespace Xv6Lab.Shell
open List

def Orderly (size : Nat) (log : List Access) : Prop :=
  ∀ before i after, log = before ++ .write i :: after → .read i ∈ before ∧ i ≤ size

def StringAt (buf : List UInt8) (place : Nat) (string : List UInt8) : Prop :=
  0 ∉ string ∧ ∃ rest, buf.drop place = string ++ 0 :: rest

def Stored (argv : List (Option Nat)) (buf : List UInt8) (words : List (List UInt8)) : Prop :=
  ∀ (i : Nat) (word : List UInt8), words[i]? = some word → ∃ place : Nat, argv[i]? = some (some place) ∧ StringAt buf place word

/-- The string has size bytes. Those written are done, rest is still to be read, and gap is
between; tail is behind the string. -/
structure Parsing (size : Nat) (tail : List UInt8) (p : Parser) (done gap rest : List UInt8) : Prop where
  buf : p.buf = done ++ (gap ++ (rest ++ 0 :: tail))
  dst : p.dst = done.length
  src : p.src = done.length + gap.length
  length : p.src + rest.length = size
  text : 0 ∉ rest
  log : Orderly size p.log
  seen : ∀ i < p.src, .read i ∈ p.log

section Log
variable {size : Nat} {log : List Access}

theorem orderly_nil : Orderly size [] := by
  intro before i after never
  cases before <;> cases never

theorem Orderly.read (orderly : Orderly size log) (j : Nat) : Orderly size (log ++ [.read j]) := by
  intro before i after equal
  cases after using List.reverseRecOn with
  | nil => cases (append_inj_right' equal rfl)
  | append_singleton after last =>
    rw [← cons_append, ← append_assoc] at equal
    exact orderly before i after (append_inj_left' equal rfl)

theorem Orderly.write (orderly : Orderly size log) {j : Nat} (seen : .read j ∈ log) (inside : j ≤ size) :
    Orderly size (log ++ [.write j]) := by
  intro before i after equal
  cases after using List.reverseRecOn with
  | nil =>
    cases append_inj_right' equal rfl
    cases append_inj_left' equal rfl
    exact ⟨seen, inside⟩
  | append_singleton after last =>
    rw [← cons_append, ← append_assoc] at equal
    exact orderly before i after (append_inj_left' equal rfl)

end Log

section Strings
variable {buf : List UInt8} {argv : List (Option Nat)} {words : List (List UInt8)}

theorem StringAt.append {place : Nat} {string : List UInt8} (at' : StringAt buf place string) (more : List UInt8) :
    StringAt (buf ++ more) place string := by
  obtain ⟨text, rest, found⟩ := at'
  have inside : place ≤ buf.length := by
    by_contra past
    rw [drop_eq_nil_of_le (Nat.not_le.mp past).le] at found
    cases string <;> cases found
  refine ⟨text, rest ++ more, ?_⟩
  rw [drop_append_of_le_length inside, found, append_assoc, cons_append]

theorem Stored.append (stored : Stored argv buf words) (more : List UInt8) : Stored argv (buf ++ more) words := by
  intro i word here
  obtain ⟨place, known, found⟩ := stored i word here
  exact ⟨place, known, found.append more⟩

theorem Stored.snoc (stored : Stored argv buf words) (count : argv.length = words.length) {word : List UInt8}
    (text : 0 ∉ word) : Stored (argv ++ [some buf.length]) (buf ++ (word ++ [0])) (words ++ [word]) := by
  intro i found here
  by_cases old : i < words.length
  · rw [List.getElem?_append_left old] at here
    obtain ⟨place, known, string⟩ := stored i found here
    exact ⟨place, by rw [List.getElem?_append_left (count ▸ old)]; exact known, string.append _⟩
  · have last : i = words.length := by
      have inside := (List.getElem?_eq_some_iff.mp here).1
      rw [length_append, length_singleton] at inside
      omega
    rw [last, getElem?_concat_length, Option.some.injEq] at here
    subst here
    refine ⟨buf.length, ?_, text, [], by rw [drop_left]⟩
    rw [last, ← count, getElem?_concat_length]

end Strings

namespace Parsing

variable {size : Nat} {tail done gap rest : List UInt8} {p : Parser} {c : UInt8}

theorem here_nil (parsing : Parsing size tail p done gap []) : p.here = 0 := by
  simp [Parser.here, byte, parsing.buf, parsing.src]

theorem here_cons (parsing : Parsing size tail p done gap (c :: rest)) : p.here = c ∧ c ≠ 0 := by
  constructor
  · simp [Parser.here, byte, parsing.buf, parsing.src]
  · rintro rfl
    exact parsing.text mem_cons_self

theorem peek (parsing : Parsing size tail p done gap rest) : Parsing size tail p.peek done gap rest where
  buf := parsing.buf
  dst := parsing.dst
  src := parsing.src
  length := parsing.length
  text := parsing.text
  log := parsing.log.read _
  seen i less := mem_append_left _ (parsing.seen i less)

theorem peek_seen (p : Parser) : .read p.peek.src ∈ p.peek.log :=
  mem_append_right _ mem_cons_self

theorem seen_to (parsing : Parsing size tail p done gap rest) (now : .read p.src ∈ p.log) {i : Nat}
    (less : i ≤ p.src) : .read i ∈ p.log := by
  rcases Nat.lt_or_eq_of_le less with less | rfl
  · exact parsing.seen i less
  · exact now

theorem skip (parsing : Parsing size tail p done gap (c :: rest)) (now : .read p.src ∈ p.log) :
    Parsing size tail p.skip done (gap ++ [c]) rest where
  buf := by
    rw [Parser.skip_buf, parsing.buf]
    simp
  dst := parsing.dst
  src := by
    rw [Parser.skip_src, parsing.src, length_append]
    rfl
  length := by
    have length := parsing.length
    rw [length_cons] at length
    rw [Parser.skip_src]
    omega
  text := fun member => parsing.text (mem_cons_of_mem c member)
  log := parsing.log
  seen i less := parsing.seen_to now (Nat.le_of_lt_succ less)

theorem copy (parsing : Parsing size tail p done gap (c :: rest)) (now : .read p.src ∈ p.log) :
    ∃ gap', gap'.length = gap.length ∧ Parsing size tail p.copy (done ++ [c]) gap' rest := by
  obtain ⟨first, gap', equal⟩ := exists_cons_of_ne_nil (l := gap ++ [c]) (by simp)
  have one := congrArg List.length equal
  rw [length_append, length_singleton, length_cons] at one
  have length := parsing.length
  rw [length_cons] at length
  have order : p.dst ≤ p.src := by rw [parsing.dst, parsing.src]; omega
  refine ⟨gap', by omega, ?_, ?_, ?_, ?_, fun member => parsing.text (mem_cons_of_mem c member),
    parsing.log.write (parsing.seen_to now order) (by omega), ?_⟩
  · have buf : p.buf = done ++ (first :: (gap' ++ (rest ++ 0 :: tail))) := by
      rw [parsing.buf, ← cons_append, ← equal]
      simp
    change p.buf.set p.dst p.here = _
    rw [parsing.here_cons.1, buf, set_append _ _ parsing.dst]
    simp
  · change p.dst + 1 = _
    rw [parsing.dst, length_append]
    rfl
  · rw [Parser.copy_src, parsing.src, length_append, length_singleton]
    omega
  · rw [Parser.copy_src]
    omega
  · intro i less
    exact mem_append_left _ (parsing.seen_to now (Nat.le_of_lt_succ less))

theorem close {first : UInt8} (parsing : Parsing size tail p done (first :: gap) rest) :
    Parsing size tail (p.put 0) (done ++ [0]) gap rest := by
  have src := parsing.src
  rw [length_cons] at src
  have length := parsing.length
  have dst := parsing.dst
  refine ⟨?_, ?_, ?_, parsing.length, parsing.text, parsing.log.write (parsing.seen _ (by omega)) (by omega), ?_⟩
  · change p.buf.set p.dst 0 = _
    rw [parsing.buf, set_append _ _ parsing.dst]
    simp
  · change p.dst + 1 = _
    rw [dst, length_append]
    rfl
  · change p.src = _
    rw [src, length_append, length_singleton]
    omega
  · intro i less
    exact mem_append_left _ (parsing.seen i less)

theorem skipBlanks (parsing : Parsing size tail p done gap rest) :
    Parsing size tail p.skipBlanks done (gap ++ rest.takeWhile blankChar) (rest.dropWhile blankChar) ∧
      p.skipBlanks.argv = p.argv := by
  induction rest generalizing p gap with
  | nil =>
    have blank : ¬blankChar p.here = true := by rw [parsing.here_nil]; decide
    rw [Parser.skipBlanks, dif_neg blank, takeWhile_nil, append_nil, dropWhile_nil]
    exact ⟨parsing.peek, rfl⟩
  | cons c rest ih =>
    rw [Parser.skipBlanks, parsing.here_cons.1]
    by_cases blank : blankChar c = true
    · have step := ih (parsing.peek.skip (peek_seen p))
      rw [dif_pos blank, takeWhile_cons_of_pos blank, dropWhile_cons_of_pos blank]
      rw [append_assoc] at step
      exact step
    · rw [dif_neg blank, takeWhile_cons_of_neg blank, dropWhile_cons_of_neg blank, append_nil]
      exact ⟨parsing.peek, rfl⟩

theorem quoted (quote : UInt8) (parsing : Parsing size tail p done gap rest) :
    ∃ gap', gap'.length = gap.length ∧
      Parsing size tail (p.quoted quote) (done ++ rest.takeWhile (· ≠ quote)) gap'
        (rest.dropWhile (· ≠ quote)) ∧
      .read (p.quoted quote).src ∈ (p.quoted quote).log ∧ (p.quoted quote).argv = p.argv := by
  induction rest generalizing p done gap with
  | nil =>
    rw [Parser.quoted, dif_neg (by rintro ⟨more, -⟩; exact more parsing.here_nil), takeWhile_nil,
      append_nil, dropWhile_nil]
    exact ⟨gap, rfl, parsing.peek, peek_seen p, rfl⟩
  | cons c rest ih =>
    obtain ⟨here, some⟩ := parsing.here_cons
    rw [Parser.quoted, here]
    by_cases closed : c = quote
    · have stop : (c :: rest).takeWhile (· ≠ quote) = [] ∧ (c :: rest).dropWhile (· ≠ quote) = c :: rest := by
        simp [closed]
      rw [dif_neg (by rintro ⟨-, differs⟩; exact differs closed), stop.1, stop.2, append_nil]
      exact ⟨gap, rfl, parsing.peek, peek_seen p, rfl⟩
    · have more : (c :: rest).takeWhile (· ≠ quote) = c :: rest.takeWhile (· ≠ quote) ∧
          (c :: rest).dropWhile (· ≠ quote) = rest.dropWhile (· ≠ quote) := by
        simp [closed]
      obtain ⟨gap', length, copied⟩ := parsing.peek.copy (peek_seen p)
      obtain ⟨gap'', length', step⟩ := ih copied
      rw [dif_pos ⟨some, closed⟩, more.1, more.2]
      rw [append_assoc] at step
      exact ⟨gap'', length'.trans length, step⟩

theorem span {quote : UInt8} (parsing : Parsing size tail p done gap (quote :: rest))
    (now : .read p.src ∈ p.log) :
    ∃ gap', Parsing size tail p.span (done ++ rest.takeWhile (· ≠ quote)) gap'
        (rest.dropWhile (· ≠ quote)).tail ∧ p.span.argv = p.argv := by
  obtain ⟨here, some⟩ := parsing.here_cons
  obtain ⟨gap', -, quoted, seen, argv⟩ := (parsing.skip now).quoted quote
  unfold Parser.span
  dsimp only
  rw [here]
  cases left : rest.dropWhile (· ≠ quote) with
  | nil =>
    rw [left] at quoted
    rw [if_neg (by rw [quoted.here_nil]; exact some.symm)]
    exact ⟨gap', quoted, argv⟩
  | cons c rest' =>
    rw [left] at quoted
    have closed : c = quote := by
      have stops := head?_dropWhile_not (fun x => decide (x ≠ quote)) rest
      rw [left] at stops
      simpa using stops
    rw [if_pos (quoted.here_cons.1.trans closed)]
    exact ⟨_, quoted.skip seen, argv⟩

section
variable (parsing : Parsing size tail p done gap rest)
include parsing

theorem word (read : List UInt8) :
    ∃ new gap' rest', tokenize (.inside read none) rest = (read ++ new) :: tokenize .outside rest' ∧
      Parsing size tail p.word (done ++ new) gap' rest' ∧ (∀ c ∈ rest'.head?, blankChar c = true) ∧
      .read p.word.src ∈ p.word.log ∧ p.word.argv = p.argv ∧ 0 ∉ new := by
  induction size' : rest.length using Nat.strong_induction_on generalizing p done gap rest read with
  | _ n ih =>
    cases rest with
    | nil =>
      refine ⟨[], gap, [], by simp [tokenize], ?_⟩
      rw [Parser.word, dif_neg (by rintro ⟨more, -⟩; exact more parsing.here_nil), append_nil]
      exact ⟨parsing.peek, by simp, peek_seen p, rfl, by simp⟩
    | cons c rest =>
      obtain ⟨here, some⟩ := parsing.here_cons
      rw [length_cons] at size'
      rw [Parser.word, here]
      by_cases blank : blankChar c = true
      · refine ⟨[], gap, c :: rest, ?_, ?_⟩
        · rw [tokenize, if_pos blank, tokenize, if_pos blank, append_nil]
        · rw [dif_neg (by rintro ⟨-, solid⟩; rw [blank] at solid; cases solid), append_nil]
          exact ⟨parsing.peek, by simpa using blank, peek_seen p, rfl, by simp⟩
      · rw [dif_pos ⟨some, Bool.eq_false_iff.mpr blank⟩, tokenize, if_neg blank]
        by_cases quote : quoteChar c = true
        · obtain ⟨gap', spanned, argv⟩ := parsing.peek.span (peek_seen p)
          have shorter : (rest.dropWhile (· ≠ c)).tail.length < n := by
            have drops := (dropWhile_suffix (l := rest) (fun x => decide (x ≠ c))).length_le
            rw [length_tail]
            omega
          obtain ⟨new, gap'', rest', reads, words, stops, seen, argv', text⟩ :=
            ih _ shorter spanned (read ++ rest.takeWhile (· ≠ c)) rfl
          rw [if_pos quote, if_pos quote]
          refine ⟨rest.takeWhile (· ≠ c) ++ new, gap'', rest', ?_, ?_, stops, seen, argv'.trans argv, ?_⟩
          · rw [tokenize_quote, reads, append_assoc]
          · rw [← append_assoc]
            exact words
          · rw [mem_append, not_or]
            exact ⟨fun member => parsing.text
              (mem_cons_of_mem c ((List.takeWhile_prefix _).subset member)), text⟩
        · obtain ⟨gap', -, copied⟩ := parsing.peek.copy (peek_seen p)
          obtain ⟨new, gap'', rest', reads, words, stops, seen, argv, text⟩ :=
            ih _ (by omega) copied (read ++ [c]) rfl
          rw [if_neg quote, if_neg quote]
          refine ⟨c :: new, gap'', rest', ?_, ?_, stops, seen, argv, ?_⟩
          · rw [reads, append_assoc, singleton_append]
          · rw [append_assoc, singleton_append] at words
            exact words
          · rw [mem_cons, not_or]
            exact ⟨some.symm, text⟩

theorem store (argv : List (Option Nat)) : Parsing size tail { p with argv } done gap rest :=
  ⟨parsing.buf, parsing.dst, parsing.src, parsing.length, parsing.text, parsing.log, parsing.seen⟩

theorem tail_kept : p.buf.drop (size + 1) = tail := by
  have length : (done ++ (gap ++ (rest ++ [0]))).length = size + 1 := by
    have length := parsing.length
    rw [parsing.src] at length
    simp only [length_append, length_singleton]
    omega
  have buf : p.buf = (done ++ (gap ++ (rest ++ [0]))) ++ tail := by
    rw [parsing.buf]
    simp
  rw [buf, ← length, drop_left]

end
end Parsing

/-- The last word goes up to the NUL of the string, with no quote removed before it. -/
structure Ended (size : Nat) (tail : List UInt8) (p : Parser) (done : List UInt8) : Prop where
  buf : p.buf = done ++ tail
  length : done.length = size + 1
  here : p.here = 0
  log : Orderly size p.log

section Loop
variable {size : Nat} {tail done gap rest : List UInt8} {p : Parser} {c : UInt8}

theorem Parsing.closeEnd (parsing : Parsing size tail p done [] []) (now : .read p.src ∈ p.log) :
    Ended size tail (p.put 0) (done ++ [0]) := by
  have length := parsing.length
  have src := parsing.src
  have dst := parsing.dst
  rw [length_nil, Nat.add_zero] at length src
  have buf : (p.put 0).buf = done ++ [0] ++ tail := by
    change p.buf.set p.dst 0 = _
    rw [parsing.buf, set_append _ _ parsing.dst]
    simp
  have last : p.dst = p.src := dst.trans src.symm
  refine ⟨buf, by rw [length_append, length_singleton]; omega, ?_,
    parsing.log.write (last ▸ now) (by omega)⟩
  rw [Parser.here, buf]
  change byte _ p.src = 0
  rw [src]
  simp [byte]

theorem Parsing.takeWord (parsing : Parsing size tail p done gap (c :: rest)) (solid : blankChar c = false) :
    ∃ new rest', tokenize .outside (c :: rest) = new :: tokenize .outside rest' ∧ 0 ∉ new ∧
      rest'.length < (c :: rest).length ∧ p.takeWord.argv = p.argv ++ [some done.length] ∧
      ((∃ gap', Parsing size tail p.takeWord (done ++ (new ++ [0])) gap' rest') ∨
        rest' = [] ∧ Ended size tail p.takeWord (done ++ (new ++ [0]))) := by
  have stored := parsing.store (p.argv ++ [some p.dst])
  obtain ⟨here, more⟩ := stored.here_cons
  have progress := Parser.word_progress (here ▸ more) (here ▸ solid)
  obtain ⟨new, gap', rest', reads, read, stops, seen, argv, text⟩ := stored.word []
  obtain ⟨q, equal⟩ : ∃ q, q = Parser.word { p with argv := p.argv ++ [some p.dst] } := ⟨_, rfl⟩
  have shorter : rest'.length < (c :: rest).length := by
    have before := stored.length
    have after := read.length
    omega
  unfold Parser.takeWord
  dsimp only
  rw [← equal] at read seen argv ⊢
  rw [parsing.dst] at argv
  rw [nil_append, ← tokenize_start solid] at reads
  cases rest' with
  | nil =>
    rw [if_neg (by rw [read.here_nil]; decide)]
    refine ⟨new, [], reads, text, shorter, argv, ?_⟩
    rw [← append_assoc]
    cases gap' with
    | nil => exact .inr ⟨rfl, read.closeEnd seen⟩
    | cons first gap' => exact .inl ⟨gap', read.close⟩
  | cons b rest' =>
    have blank : blankChar b = true := stops b rfl
    rw [if_pos (by rw [read.here_cons.1]; exact blank)]
    rw [length_cons] at shorter
    refine ⟨new, rest', ?_, text, by omega, argv, .inl ?_⟩
    · rw [reads, tokenize, if_pos blank]
    · obtain ⟨first, gap'', equal⟩ := exists_cons_of_ne_nil (l := gap' ++ [b]) (by simp)
      have skipped := read.skip seen
      rw [equal] at skipped
      rw [← append_assoc]
      exact ⟨gap'', skipped.close⟩

structure Result (size : Nat) (tail : List UInt8) (words : List (List UInt8)) (p : Parser) : Prop where
  count : p.argv.length = words.length + 1
  null : p.argv[words.length]? = some none
  stored : Stored p.argv p.buf words
  log : Orderly size p.log
  tail : p.buf.drop (size + 1) = tail

theorem finish_result {words : List (List UInt8)} (count : p.argv.length = words.length)
    (stored : Stored p.argv done words) {more : List UInt8} (buf : p.buf = done ++ more)
    (log : Orderly size p.log) (kept : p.buf.drop (size + 1) = tail) :
    ∃ q, p.finish = .returned words.length q ∧ Result size tail words q := by
  refine ⟨{ p with argv := p.argv ++ [none] }, by rw [Parser.finish, count], ?_, ?_, ?_, log, kept⟩
  · simp [count]
  · simp [← count]
  · intro i word here
    obtain ⟨place, known, string⟩ := (stored.append more) i word here
    refine ⟨place, ?_, ?_⟩
    · rw [List.getElem?_append_left (List.getElem?_eq_some_iff.mp known).1]
      exact known
    · change StringAt p.buf place word
      rw [buf]
      exact string

theorem parseLoop_words (parsing : Parsing size tail p done gap rest) (old : List (List UInt8))
    (count : p.argv.length = old.length) (few : old.length ≤ MAXARGS - 1) (stored : Stored p.argv done old) :
    ((old ++ words rest).length < MAXARGS →
        ∃ q, parseLoop p = .returned (old ++ words rest).length q ∧ Result size tail (old ++ words rest) q) ∧
      (MAXARGS ≤ (old ++ words rest).length →
        ∃ q, parseLoop p = .panicked "too many args" q ∧ q.argv.length = MAXARGS - 1 ∧ Orderly size q.log ∧
          q.buf.drop (size + 1) = tail) := by
  induction size' : rest.length using Nat.strong_induction_on generalizing p done gap rest old with
  | _ n ih =>
    have limit : MAXARGS = 10 := rfl
    cases rest with
    | nil =>
      have none : old ++ words [] = old := append_nil old
      rw [parseLoop, if_neg (by rw [parsing.here_nil]; simp), none]
      exact ⟨fun _ => finish_result count stored parsing.buf parsing.peek.log parsing.tail_kept,
        fun many => by omega⟩
    | cons c rest =>
      obtain ⟨blanks, argv⟩ := parsing.skipBlanks
      rw [parseLoop, if_pos (by rw [parsing.here_cons.1]; exact parsing.here_cons.2), words, tokenize_blanks]
      cases left : (c :: rest).dropWhile blankChar with
      | nil =>
        rw [left] at blanks
        have none : old ++ tokenize .outside [] = old := append_nil old
        rw [dif_pos blanks.here_nil, none]
        exact ⟨fun _ => finish_result (argv ▸ count) (argv ▸ stored) blanks.buf blanks.log blanks.tail_kept,
          fun many => by omega⟩
      | cons b rest' =>
        rw [left] at blanks
        have solid : blankChar b = false := by
          have stops := head?_dropWhile_not blankChar (c :: rest)
          rw [left] at stops
          simpa using stops
        have shorter := (dropWhile_suffix (l := c :: rest) blankChar).length_le
        rw [left] at shorter
        obtain ⟨new, rest'', reads, text, less, argv', after⟩ := blanks.takeWord solid
        rw [dif_neg (by rw [blanks.here_cons.1]; exact blanks.here_cons.2), argv, count, reads]
        by_cases full : MAXARGS - 1 ≤ old.length
        · rw [if_pos full]
          refine ⟨fun fewer => ?_, fun _ => ⟨_, rfl, ?_, blanks.log, blanks.tail_kept⟩⟩
          · rw [length_append, length_cons] at fewer
            omega
          · rw [argv, count]
            omega
        · rw [if_neg full]
          rw [argv] at argv'
          have stored' : Stored p.skipBlanks.takeWord.argv (done ++ (new ++ [0])) (old ++ [new]) := by
            rw [argv']
            exact stored.snoc count text
          have count' : p.skipBlanks.takeWord.argv.length = (old ++ [new]).length := by
            rw [argv', length_append, length_append, count]
            rfl
          have all : old ++ new :: tokenize .outside rest'' = (old ++ [new]) ++ words rest'' := by
            rw [append_assoc]
            rfl
          have few' : (old ++ [new]).length ≤ MAXARGS - 1 := by
            rw [length_append, length_singleton]
            omega
          rw [all]
          rcases after with ⟨gap', parsing'⟩ | ⟨rfl, ended⟩
          · exact ih _ (by omega) parsing' _ count' few' stored' rfl
          · have none : (old ++ [new]) ++ words [] = old ++ [new] := append_nil _
            rw [parseLoop, if_neg (by rw [ended.here]; simp), none]
            refine ⟨fun _ => finish_result count' stored' ended.buf (ended.log.read _) ?_, fun many => by omega⟩
            change p.skipBlanks.takeWord.buf.drop (size + 1) = tail
            rw [ended.buf, ← ended.length, drop_left]

end Loop

/-- parsecmd returns the words of the tokenizer, with a null pointer after them, or reports that
there are too many. All it writes is in the line or its NUL and was read before. -/
theorem parsecmd_words (line tail : List UInt8) (text : 0 ∉ line) :
    ((words line).length < MAXARGS →
        ∃ p, parsecmd (line ++ 0 :: tail) = .returned (words line).length p ∧
          Result line.length tail (words line) p) ∧
      (MAXARGS ≤ (words line).length →
        ∃ p, parsecmd (line ++ 0 :: tail) = .panicked "too many args" p ∧ p.argv.length = MAXARGS - 1 ∧
          Orderly line.length p.log ∧ p.buf.drop (line.length + 1) = tail) := by
  have start : Parsing line.length tail ⟨line ++ 0 :: tail, 0, 0, [], []⟩ [] [] line :=
    ⟨rfl, rfl, rfl, Nat.zero_add _, text, orderly_nil, fun i never => absurd never (Nat.not_lt_zero i)⟩
  exact parseLoop_words start [] rfl (Nat.zero_le _) (by
    intro i word never
    cases never)

theorem parsecmd_words_quoted :
    (0 : UInt8) ∉ [0x61, 0x20, 0x27, 0x62, 0x20, 0x63, 0x27] ∧
      ∃ p, parsecmd ([0x61, 0x20, 0x27, 0x62, 0x20, 0x63, 0x27] ++ 0 :: [newline]) = .returned 2 p ∧
        Stored p.argv p.buf [[0x61], [0x62, 0x20, 0x63]] := by
  have text : (0 : UInt8) ∉ [0x61, 0x20, 0x27, 0x62, 0x20, 0x63, 0x27] := by decide
  have two : words [0x61, 0x20, 0x27, 0x62, 0x20, 0x63, 0x27] = [[0x61], [0x62, 0x20, 0x63]] := by decide
  obtain ⟨p, ran, result⟩ := (parsecmd_words _ [newline] text).1 (by rw [two]; decide)
  rw [two] at ran result
  exact ⟨text, p, ran, result.stored⟩

end Xv6Lab.Shell
