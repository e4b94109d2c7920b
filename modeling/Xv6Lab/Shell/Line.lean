import Mathlib.Data.List.TakeWhile
import Xv6Lab.Shell.Editor

/-!
The buffer as the bytes before the cursor, those after it, and what is behind the line.
-/

namespace Xv6Lab.Shell
open List
variable {n start stop : Nat} {buf : List UInt8}

section Lists

theorem memmove_append (a b c : List UInt8) {x : List UInt8} (same : x.length = b.length) :
    memmove (a ++ (b ++ c)) a.length x = a ++ (x ++ c) := by
  simp [memmove, same]

theorem set_append (a b : List UInt8) (here : n = a.length) (x : UInt8) :
    (a ++ b).set n x = a ++ b.set 0 x := by
  simp [here]

theorem exists_split (l : List UInt8) (inside : n ≤ l.length) : ∃ a b, l = a ++ b ∧ a.length = n :=
  ⟨l.take n, l.drop n, (take_append_drop n l).symm, by simp [inside]⟩

theorem set_close (a : List UInt8) {b : List UInt8} (here : n = a.length) (more : b ≠ [])
    (x : UInt8) : ∃ c, (a ++ b).set n x = a ++ x :: c ∧ b.length = c.length + 1 := by
  obtain ⟨y, c, rfl⟩ := exists_cons_of_ne_nil more
  exact ⟨c, by simp [here], rfl⟩

theorem slice_drop (a b : List UInt8) (here : stop = a.length) (inside : start ≤ stop) :
    slice (a ++ b) start stop = a.drop start := by
  subst here
  rw [slice, drop_append_of_le_length inside, ← length_drop, take_left]

theorem length_slice (size : stop ≤ buf.length) (start : Nat) :
    (slice buf start stop).length = stop - start := by
  rw [slice, length_take, length_drop]
  omega

theorem getElem?_slice {i : Nat} (size : stop ≤ buf.length)
    (inside : start + i < stop) : (slice buf start stop)[i]? = some (byte buf (start + i)) := by
  rw [slice, getElem?_take, if_pos (by omega), getElem?_drop, byte, getD_eq_getElem?_getD,
    getElem?_eq_getElem (by omega), Option.getD_some]

end Lists

structure Split (nbuf : Nat) (line : Line) (before after junk : List UInt8) : Prop where
  content : line.buf = before ++ (after ++ junk)
  cursor : line.cursor = before.length
  len : line.len = before.length + after.length
  room : line.len < nbuf
  size : line.buf.length = nbuf

variable {nbuf : Nat} {line : Line} {before after junk : List UInt8}

namespace Split

section
variable (split : Split nbuf line before after junk)
include split

theorem length : before.length + (after.length + junk.length) = nbuf := by
  have size := split.size
  rw [split.content] at size
  simpa using size

theorem text : slice line.buf 0 line.len = before ++ after := by
  have all := slice_append [] (before ++ after) junk
  rw [split.content, split.len]
  simpa using all

theorem rest : slice line.buf line.cursor line.len = after := by
  rw [split.content, split.len, split.cursor]
  exact slice_append ..

theorem move {first last : List UInt8} (whole : before ++ after = first ++ last) :
    Split nbuf { line with cursor := first.length } first last junk where
  content := by
    rw [split.content, ← append_assoc, whole, append_assoc]
  cursor := rfl
  len := by
    have lengths := congrArg List.length whole
    simp only [length_append] at lengths
    exact split.len.trans lengths
  room := split.room
  size := split.size

theorem insert (s : List UInt8) (fits : line.len + s.length < nbuf) :
    ∃ next z, insertBytes nbuf line s = (next, s.length) ∧ Split nbuf next (before ++ s) after (0 :: z) := by
  have total := split.length
  have len := split.len
  -- the buffer from the cursor on: what the new bytes overwrite, then what the rest does
  obtain ⟨x, y, cut, xlen⟩ := exists_split (after ++ junk) (n := s.length)
    (by simp only [length_append]; omega)
  have ylen := congrArg List.length cut
  simp only [length_append] at ylen
  obtain ⟨y, z, rfl, ylen'⟩ := exists_split y (n := after.length) (by omega)
  simp only [length_append] at ylen
  have moved : memmove line.buf (line.cursor + s.length) (slice line.buf line.cursor line.len) =
      before ++ (x ++ (after ++ z)) := by
    have step := memmove_append (before ++ x) y z ylen'.symm
    rw [split.rest, split.cursor, split.content, cut, ← xlen]
    simpa using step
  have placed : memmove (before ++ (x ++ (after ++ z))) line.cursor s = before ++ (s ++ (after ++ z)) := by
    rw [split.cursor]
    exact memmove_append _ _ _ xlen.symm
  have nonempty : z ≠ [] := by
    rintro rfl
    simp only [length_nil] at ylen
    omega
  obtain ⟨z', closed, zlen⟩ := set_close (before ++ (s ++ after)) (n := line.len + s.length)
    (by simp only [length_append]; omega) nonempty 0
  simp only [append_assoc] at closed
  refine ⟨_, z', by rw [insertBytes, if_neg (by omega)], ?_⟩
  rw [moved, placed, closed]
  refine ⟨by simp, by simp [split.cursor], ?_, fits, ?_⟩
  · simp only [length_append]
    omega
  · simp only [length_append, length_cons]
    omega

theorem deleteRange (first gone last : List UInt8)
    (whole : before ++ after = first ++ (gone ++ last)) (starts : start = first.length)
    (stops : stop = (first ++ gone).length) (cursor : Nat) (here : cursor = first.length) :
    ∃ y, Split nbuf { Shell.deleteRange line start stop with cursor } first last (0 :: y) := by
  have total := split.length
  have room := split.room
  have lengths := congrArg List.length whole
  simp only [length_append] at lengths stops
  have text : line.buf = first ++ (gone ++ (last ++ junk)) := by
    rw [split.content, ← append_assoc, whole]
    simp
  have len : line.len = first.length + (gone.length + last.length) := split.len.trans lengths
  have kept : slice line.buf stop line.len = last := by
    have step := slice_append (first ++ gone) last junk
    rw [text, len, stops]
    simpa [Nat.add_assoc] using step
  obtain ⟨x, y, cut, xlen⟩ := exists_split (gone ++ (last ++ junk)) (n := last.length)
    (by simp only [length_append]; omega)
  have ylen := congrArg List.length cut
  simp only [length_append] at ylen
  have moved : memmove line.buf start (slice line.buf stop line.len) = first ++ (last ++ y) := by
    rw [kept, starts, text, cut]
    exact memmove_append _ _ _ xlen.symm
  have short : line.len - (stop - start) = first.length + last.length := by omega
  have nonempty : y ≠ [] := by
    rintro rfl
    simp only [length_nil] at ylen
    omega
  obtain ⟨y', closed, ylen'⟩ := set_close (first ++ last) (n := line.len - (stop - start))
    (by simp only [length_append]; omega) nonempty 0
  simp only [append_assoc] at closed
  refine ⟨y', ?_⟩
  simp only [Shell.deleteRange, moved, closed]
  refine ⟨rfl, here, short, ?_, ?_⟩
  · change line.len - (stop - start) < nbuf
    omega
  · simp only [length_append, length_cons]
    omega

theorem setLine {src : List UInt8} (size : strlen src = src.length) (fits : src.length < nbuf) :
    ∃ z, Split nbuf (Shell.setLine nbuf line src) src [] (0 :: z) := by
  have total := split.size
  obtain ⟨x, y, cut, xlen⟩ := exists_split line.buf (n := src.length) (by omega)
  have moved : memmove line.buf 0 src = src ++ y := by
    have step := memmove_append [] x y xlen.symm
    rw [cut]
    simpa using step
  have ylen := congrArg List.length cut
  rw [length_append] at ylen
  have nonempty : y ≠ [] := by
    rintro rfl
    simp only [length_nil] at ylen
    omega
  obtain ⟨z, closed, zlen⟩ := set_close src (n := src.length) rfl nonempty 0
  refine ⟨z, ?_⟩
  simp only [Shell.setLine, size, if_neg (Nat.not_le.mpr fits), take_length, moved, closed]
  refine ⟨by simp, rfl, by simp, fits, ?_⟩
  simp only [length_append, length_cons]
  omega

theorem kill : ∃ z, Split nbuf ⟨line.buf.set 0 0, 0, 0⟩ [] [] (0 :: z) := by
  have room := split.room
  have size := split.size
  obtain ⟨z, closed, zlen⟩ := set_close [] (b := line.buf) (n := 0) rfl (by
    rintro empty
    rw [empty, length_nil] at size
    omega) 0
  refine ⟨z, closed, rfl, rfl, Nat.zero_lt_of_lt room, ?_⟩
  rw [length_set, size]

theorem enter (more : line.len + 1 < nbuf) :
    ∃ z, Split nbuf ⟨(line.buf.set line.len newline).set (line.len + 1) 0, line.len + 1, line.cursor⟩
      before (after ++ [newline]) (0 :: z) := by
  have total := split.length
  have len := split.len
  have nonempty : junk ≠ [] := by
    rintro rfl
    simp only [length_nil] at total
    omega
  obtain ⟨y, first, ylen⟩ := set_close (before ++ after) (n := line.len)
    (by simp only [length_append]; omega) nonempty newline
  have nonempty' : y ≠ [] := by
    rintro rfl
    simp only [length_nil] at ylen
    omega
  obtain ⟨z, second, zlen⟩ := set_close (before ++ (after ++ [newline])) (n := line.len + 1)
    (by simp only [length_append, length_singleton]; omega) nonempty' 0
  refine ⟨z, ?_, split.cursor, ?_, more, ?_⟩
  · change (line.buf.set line.len newline).set (line.len + 1) 0 = _
    rw [split.content, ← append_assoc, first]
    simpa using second
  · simp only [length_append, length_singleton]
    omega
  · change ((line.buf.set line.len newline).set (line.len + 1) 0).length = nbuf
    rw [length_set, length_set, split.size]

end
end Split

theorem insertBytes_full {s : List UInt8} (full : nbuf ≤ line.len + s.length) :
    insertBytes nbuf line s = (line, 0) := by
  rw [insertBytes, if_pos full]

end Xv6Lab.Shell
