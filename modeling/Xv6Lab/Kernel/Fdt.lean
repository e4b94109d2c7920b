import Xv6Lab.Lib.Bytes

/-!
fdt_get_memory_size (fdt.c): the walk over the structure block of a flattened device
tree. The 32-bit sum in the length of a value wraps as in the source.
-/

namespace Xv6Lab.Fdt
open List
open Bytes (Mem)
variable {text : List UInt8}

def KERNBASE : Nat := 0x80000000
def FDT_MAGIC : Nat := 0xd00dfeed
def FDT_BEGIN_NODE : Nat := 1
def FDT_END_NODE : Nat := 2
def FDT_PROP : Nat := 3
def FDT_NOP : Nat := 4
def FDT_END : Nat := 9

def bswap32 (x : Nat) : Nat :=
  ((x &&& 0xff) <<< 24) ||| ((x &&& 0xff00) <<< 8) ||| ((x &&& 0xff0000) >>> 8) |||
    ((x &&& 0xff000000) >>> 24)

/-- bswap32(*(uint32*)a) -/
def word (mem : Mem) (a : Nat) : Nat := bswap32 (Bytes.load mem a 4)

/-- ((uint64)bswap32(sp[0]) << 32) | bswap32(sp[1]) -/
def cell (mem : Mem) (sp : Nat) : Nat := (word mem sp <<< 32) ||| word mem (sp + 4)

/-- (a + 3) & ~3 -/
def align4 (a : Nat) : Nat := (a + 3) / 4 * 4

/-- while (*(char*)sp) sp++ -/
def skipName (mem : Mem) : Nat → Nat → Option Nat
  | 0, _ => none
  | fuel + 1, sp => if mem sp = 0 then some sp else skipName mem fuel (sp + 1)

/-- name[0] == 'r' && ... && name[3] == 0 -/
def isReg (mem : Mem) (name : Nat) : Bool :=
  mem name = 0x72 && mem (name + 1) = 0x65 && mem (name + 2) = 0x67 && mem (name + 3) = 0

/-- What a property makes fdt_get_memory_size return; its value is at sp. -/
def memoryAt (mem : Mem) (name len sp : Nat) : Option Nat :=
  if 16 ≤ len ∧ isReg mem name then
    if cell mem sp = KERNBASE then
      if cell mem (sp + 8) > 0 then some ((KERNBASE + cell mem (sp + 8)) % 2 ^ 64) else none
    else none
  else none

/-- The while loop; none when the fuel runs out. -/
def walk (mem : Mem) (ep strings : Nat) : Nat → Nat → Option Nat
  | 0, _ => none
  | fuel + 1, sp =>
    if sp < ep then
      let token := word mem sp
      let sp := sp + 4
      if token = FDT_BEGIN_NODE then
        match skipName mem fuel sp with
        | none => none
        | some sp => walk mem ep strings fuel (align4 (sp + 1))
      else if token = FDT_END_NODE then walk mem ep strings fuel sp
      else if token = FDT_PROP then
        let len := word mem sp
        let nameoff := word mem (sp + 4)
        let sp := sp + 8
        match memoryAt mem (strings + nameoff) len sp with
        | some top => some top
        | none => walk mem ep strings fuel (sp + (len + 3) % 2 ^ 32 / 4 * 4)
      else if token = FDT_NOP then walk mem ep strings fuel sp
      else some 0 -- FDT_END, and any other token
    else some 0

def fdtGetMemorySize (mem : Mem) (dtb : Nat) (fuel : Nat) : Option Nat :=
  if dtb = 0 ∨ word mem dtb ≠ FDT_MAGIC then some 0
  else
    let sp := dtb + word mem (dtb + 8)
    walk mem (sp + word mem (dtb + 36) / 4 * 4) (dtb + word mem (dtb + 12)) fuel sp

section Tree

/-- A NUL-terminated string without its NUL. -/
abbrev Name := { text : List UInt8 // 0 ∉ text }

structure Property where
  name : Name
  nameoff : BitVec 32
  value : List UInt8

/-- What a node contains, or the structure block: properties, nodes and FDT_NOPs in any order. -/
inductive Items where
  | done
  | prop (p : Property) (rest : Items)
  | nop (rest : Items)
  | node (name : Name) (children rest : Items)

def be32 (v : Nat) : List UInt8 :=
  [UInt8.ofNat (v / 2 ^ 24), UInt8.ofNat (v / 2 ^ 16), UInt8.ofNat (v / 2 ^ 8), UInt8.ofNat v]

def beValue (bytes : List UInt8) : Nat := bytes.foldl (fun v b => 256 * v + b.toNat) 0

def padded (bytes : List UInt8) : List UInt8 :=
  bytes ++ List.replicate (align4 bytes.length - bytes.length) 0

def Property.bytes (p : Property) : List UInt8 :=
  be32 FDT_PROP ++ (be32 p.value.length ++ (be32 p.nameoff.toNat ++ padded p.value))

def Items.bytes : Items → List UInt8
  | done => []
  | prop p rest => p.bytes ++ rest.bytes
  | nop rest => be32 FDT_NOP ++ rest.bytes
  | node name children rest =>
    be32 FDT_BEGIN_NODE ++ (padded (name.1 ++ [0]) ++ (children.bytes ++ (be32 FDT_END_NODE ++ rest.bytes)))

def Items.props : Items → List Property
  | done => []
  | prop p rest => p :: rest.props
  | nop rest => rest.props
  | node _ children rest => children.props ++ rest.props

/-- The end of memory, if the property is a reg of at least 16 bytes at KERNBASE that is not empty. -/
def Property.memoryTop (p : Property) : Option Nat :=
  let size := beValue ((p.value.drop 8).take 8)
  if p.name.1 = [0x72, 0x65, 0x67] ∧ 16 ≤ p.value.length ∧ beValue (p.value.take 8) = KERNBASE ∧ 0 < size
  then some ((KERNBASE + size) % 2 ^ 64) else none

def Holds (mem : Mem) (a : Nat) (bytes : List UInt8) : Prop := Bytes.read mem a bytes.length = bytes

instance (mem : Mem) (a : Nat) (bytes : List UInt8) : Decidable (Holds mem a bytes) :=
  inferInstanceAs (Decidable (_ = _))

def Named (mem : Mem) (strings : Nat) (props : List Property) : Prop :=
  ∀ p ∈ props, Holds mem (strings + p.nameoff.toNat) (p.name.1 ++ [0])

structure WellFormed (mem : Mem) (dtb : Nat) (items : Items) where
  offStruct : BitVec 32
  offStrings : BitVec 32
  sizeStruct : BitVec 32
  nonzero : dtb ≠ 0
  aligned : dtb % 4 = 0 ∧ offStruct.toNat % 4 = 0
  magic : Holds mem dtb (be32 FDT_MAGIC)
  header : Holds mem (dtb + 8) (be32 offStruct.toNat ++ be32 offStrings.toNat)
  size : Holds mem (dtb + 36) (be32 sizeStruct.toNat)
  block : Holds mem (dtb + offStruct.toNat) (items.bytes ++ be32 FDT_END)
  length : (items.bytes ++ be32 FDT_END).length = sizeStruct.toNat
  strings : Named mem (dtb + offStrings.toNat) items.props

end Tree

section Words
variable {mem : Mem} {a v n : Nat} {xs ys : List UInt8}

theorem read_append (mem : Mem) (a n m : Nat) :
    Bytes.read mem a (n + m) = Bytes.read mem a n ++ Bytes.read mem (a + n) m := by
  simp only [Bytes.read, range_add, map_append, map_map]
  congr 2
  funext i
  simp only [Function.comp_apply, Nat.add_assoc]

theorem holds_append : Holds mem a (xs ++ ys) ↔ Holds mem a xs ∧ Holds mem (a + xs.length) ys := by
  unfold Holds
  rw [length_append, read_append]
  refine ⟨fun same => append_inj same (Bytes.length_read mem a xs.length), ?_⟩
  rintro ⟨front, back⟩
  rw [front, back]

theorem and_mask (x k : Nat) : x &&& (2 ^ 8 - 1) * 2 ^ k = x / 2 ^ k % 2 ^ 8 * 2 ^ k := by
  apply Nat.eq_of_testBit_eq
  intro i
  rw [Nat.testBit_and, Nat.testBit_mul_two_pow, Nat.testBit_mul_two_pow, Nat.testBit_two_pow_sub_one,
    Nat.testBit_mod_two_pow, Nat.testBit_div_two_pow]
  by_cases low : k ≤ i
  · rw [Nat.sub_add_cancel low]
    cases x.testBit i <;> simp [low]
  · simp [low]

theorem or_shift (hi : Nat) {lo k : Nat} (small : lo < 2 ^ k) : hi <<< k ||| lo = hi * 2 ^ k + lo := by
  rw [← Nat.shiftLeft_add_eq_or_of_lt small, Nat.shiftLeft_eq]

theorem bswap32_eq {b0 b1 b2 b3 : Nat} (h0 : b0 < 2 ^ 8) (h1 : b1 < 2 ^ 8) (h2 : b2 < 2 ^ 8)
    (h3 : b3 < 2 ^ 8) : bswap32 (b0 + 256 * (b1 + 256 * (b2 + 256 * b3))) =
      ((b0 * 2 ^ 8 + b1) * 2 ^ 8 + b2) * 2 ^ 8 + b3 := by
  have masks : 0xff = (2 ^ 8 - 1) * 2 ^ 0 ∧ 0xff00 = (2 ^ 8 - 1) * 2 ^ 8 ∧
      0xff0000 = (2 ^ 8 - 1) * 2 ^ 16 ∧ 0xff000000 = (2 ^ 8 - 1) * 2 ^ 24 := by decide
  rw [bswap32, masks.1, masks.2.1, masks.2.2.1, masks.2.2.2]
  simp only [and_mask, Nat.shiftRight_eq_div_pow]
  have first : (b0 + 256 * (b1 + 256 * (b2 + 256 * b3))) / 2 ^ 0 % 2 ^ 8 * 2 ^ 0 = b0 := by omega
  have second : ((b0 + 256 * (b1 + 256 * (b2 + 256 * b3))) / 2 ^ 8 % 2 ^ 8 * 2 ^ 8) <<< 8 = b1 <<< 16 := by
    rw [Nat.shiftLeft_eq, Nat.shiftLeft_eq]
    omega
  have third : (b0 + 256 * (b1 + 256 * (b2 + 256 * b3))) / 2 ^ 16 % 2 ^ 8 * 2 ^ 16 / 2 ^ 8 = b2 <<< 8 := by
    rw [Nat.shiftLeft_eq]
    omega
  have fourth : (b0 + 256 * (b1 + 256 * (b2 + 256 * b3))) / 2 ^ 24 % 2 ^ 8 * 2 ^ 24 / 2 ^ 24 = b3 := by
    rw [Nat.mul_div_cancel _ (by decide)]
    omega
  rw [first, second, third, fourth, show 24 = 8 + 16 from rfl, Nat.shiftLeft_add,
    ← Nat.shiftLeft_or_distrib, or_shift b0 h1, show 16 = 8 + 8 from rfl, Nat.shiftLeft_add,
    ← Nat.shiftLeft_or_distrib, or_shift _ h2, or_shift _ h3]

theorem word_eq (mem : Mem) (a : Nat) : word mem a = beValue (Bytes.read mem a 4) := by
  simp only [word, Bytes.load, Nat.mul_zero, Nat.add_zero]
  rw [bswap32_eq (mem a).toNat_lt (mem (a + 1)).toNat_lt (mem (a + 1 + 1)).toNat_lt
    (mem (a + 1 + 1 + 1)).toNat_lt]
  simp only [beValue, Bytes.read, range_succ, range_zero, map_append, map_cons,
    map_nil, nil_append, foldl_append, foldl_cons, foldl_nil, Nat.add_assoc,
    Nat.reduceAdd, Nat.add_zero]
  omega

theorem word_of_holds (held : Holds mem a (be32 v)) (small : v < 2 ^ 32) : word mem a = v := by
  have bytes : Bytes.read mem a 4 = be32 v := held
  rw [word_eq, bytes]
  simp only [beValue, be32, foldl_cons, foldl_nil, UInt8.toNat_ofNat']
  omega

theorem beValue_append (xs ys : List UInt8) :
    beValue (xs ++ ys) = beValue xs * 256 ^ ys.length + beValue ys := by
  induction ys using List.reverseRecOn with
  | nil => simp [beValue]
  | append_singleton ys y ih =>
    unfold beValue at ih ⊢
    rw [← append_assoc, foldl_append, ih, foldl_append, length_append]
    simp only [foldl_cons, foldl_nil, length_singleton]
    ring

theorem word_lt (mem : Mem) (a : Nat) : word mem a < 2 ^ 32 := by
  rw [word_eq]
  simp only [beValue, Bytes.read, range_succ, range_zero, map_append, map_cons,
    map_nil, nil_append, foldl_append, foldl_cons, foldl_nil]
  have := (mem (a + 0)).toNat_lt
  have := (mem (a + 1)).toNat_lt
  have := (mem (a + 2)).toNat_lt
  have := (mem (a + 3)).toNat_lt
  omega

theorem cell_eq (mem : Mem) (a : Nat) : cell mem a = beValue (Bytes.read mem a 8) := by
  rw [cell, or_shift _ (word_lt mem (a + 4)), word_eq, word_eq, show 8 = 4 + 4 from rfl, read_append,
    beValue_append, Bytes.length_read, show 256 ^ 4 = 2 ^ 32 from rfl]

end Words

section Walk
variable {mem : Mem} {ep strings sp sp' sp'' r : Nat}

theorem holds_cons {c : UInt8} {xs : List UInt8} :
    Holds mem sp (c :: xs) ↔ mem sp = c ∧ Holds mem (sp + 1) xs := by
  rw [← singleton_append, holds_append]
  simp [Holds, Bytes.read]

theorem skipName_name (free : 0 ∉ text) (held : Holds mem sp (text ++ [0])) :
    ∀ fuel > text.length, skipName mem fuel sp = some (sp + text.length) := by
  induction text generalizing sp with
  | nil =>
    intro fuel enough
    obtain ⟨fuel, rfl⟩ := Nat.exists_eq_succ_of_ne_zero (Nat.ne_of_gt enough)
    rw [skipName, if_pos (holds_cons.mp held).1]
    rfl
  | cons c text ih =>
    rw [mem_cons, not_or] at free
    obtain ⟨first, rest⟩ := holds_cons.mp held
    intro fuel enough
    obtain ⟨fuel, rfl⟩ := Nat.exists_eq_succ_of_ne_zero (Nat.ne_of_gt (Nat.zero_lt_of_lt enough))
    rw [skipName, if_neg (by rw [first]; exact fun zero => free.1 zero.symm),
      ih free.2 rest fuel (by simpa using enough), length_cons]
    congr 1
    omega

theorem isReg_iff (free : 0 ∉ text) (held : Holds mem sp (text ++ [0])) :
    isReg mem sp = true ↔ text = [0x72, 0x65, 0x67] := by
  rcases text with _ | ⟨c0, _ | ⟨c1, _ | ⟨c2, _ | ⟨c3, rest⟩⟩⟩⟩ <;>
    simp only [cons_append, nil_append, holds_cons, mem_cons, not_or, Nat.add_assoc,
      Nat.reduceAdd] at held free <;>
    simp [isReg, held, and_assoc]
  exact fun _ _ _ => Ne.symm free.2.2.2.1

theorem read_take {value : List UInt8} {n : Nat} (held : Holds mem sp value) (inside : n ≤ value.length) :
    value.take n = Bytes.read mem sp n ∧ Holds mem (sp + n) (value.drop n) := by
  rw [← take_append_drop n value, holds_append, length_take_of_le inside] at held
  have front := held.1
  rw [Holds, length_take_of_le inside] at front
  exact ⟨front.symm, held.2⟩

theorem memoryAt_eq {p : Property} {name : Nat} (named : Holds mem name (p.name.1 ++ [0]))
    (held : Holds mem sp p.value) : memoryAt mem name p.value.length sp = p.memoryTop := by
  unfold memoryAt Property.memoryTop
  simp only [isReg_iff p.name.2 named]
  by_cases long : 16 ≤ p.value.length
  · obtain ⟨base, rest⟩ := read_take held (show 8 ≤ p.value.length by omega)
    obtain ⟨size, -⟩ := read_take rest (show 8 ≤ (p.value.drop 8).length by simp; omega)
    rw [base, size, cell_eq, cell_eq]
    split_ifs <;> simp_all
  · simp [long]

def Returns (mem : Mem) (ep strings sp r : Nat) : Prop :=
  ∃ n, ∀ fuel ≥ n, walk mem ep strings fuel sp = some r

/-- The walk comes from sp to sp' over the properties, unless it finds the memory among them. -/
def Passes (mem : Mem) (ep strings sp sp' : Nat) (props : List Property) : Prop :=
  ∀ r, (props.findSome? Property.memoryTop = none → Returns mem ep strings sp' r) →
    Returns mem ep strings sp ((props.findSome? Property.memoryTop).getD r)

theorem Passes.append {ps qs : List Property} (first : Passes mem ep strings sp sp' ps)
    (second : Passes mem ep strings sp' sp'' qs) : Passes mem ep strings sp sp'' (ps ++ qs) := by
  intro r last
  rw [findSome?_append] at last ⊢
  cases found : ps.findSome? Property.memoryTop with
  | none =>
    rw [found, Option.none_or] at last
    rw [Option.none_or]
    have passed := first _ fun _ => second r last
    rwa [found] at passed
  | some top =>
    have passed := first top fun none => by rw [found] at none; cases none
    rwa [found] at passed

theorem passes_step (least : Nat) (step : ∀ fuel ≥ least,
    walk mem ep strings (fuel + 1) sp = walk mem ep strings fuel sp') :
    Passes mem ep strings sp sp' [] := by
  intro r last
  obtain ⟨n, result⟩ := last rfl
  refine ⟨max n least + 1, ?_⟩
  intro fuel enough
  obtain ⟨fuel, rfl⟩ : ∃ k, fuel = k + 1 := ⟨fuel - 1, by omega⟩
  rw [step fuel (by omega), result fuel (by omega)]
  rfl

theorem passes_nop (inside : sp < ep) (token : word mem sp = FDT_NOP ∨ word mem sp = FDT_END_NODE) :
    Passes mem ep strings sp (sp + 4) [] := by
  apply passes_step 0
  intro fuel _
  rw [walk, if_pos inside]
  rcases token with token | token <;>
    simp [token, FDT_NOP, FDT_END_NODE, FDT_BEGIN_NODE, FDT_PROP]

theorem align4_le (n : Nat) : n ≤ align4 n := by
  unfold align4
  omega

theorem padded_length (bytes : List UInt8) : (padded bytes).length = align4 bytes.length := by
  have := align4_le bytes.length
  rw [padded, length_append, length_replicate]
  omega

theorem be32_length (v : Nat) : (be32 v).length = 4 := rfl

theorem passes_begin {name : Name} (aligned : sp % 4 = 0) (inside : sp < ep)
    (held : Holds mem sp (be32 FDT_BEGIN_NODE ++ padded (name.1 ++ [0]))) :
    Passes mem ep strings sp (sp + (4 + align4 (name.1.length + 1))) [] := by
  rw [holds_append, padded, holds_append, be32_length] at held
  have token : word mem sp = FDT_BEGIN_NODE := word_of_holds held.1 (by decide)
  apply passes_step (name.1.length + 1)
  intro fuel enough
  rw [walk, if_pos inside]
  dsimp only
  rw [if_pos token, skipName_name name.2 held.2.1 fuel enough]
  dsimp only
  congr 1
  unfold align4
  omega

theorem passes_prop {p : Property} (inside : sp < ep) (small : p.bytes.length < 2 ^ 32)
    (held : Holds mem sp p.bytes) (named : Holds mem (strings + p.nameoff.toNat) (p.name.1 ++ [0])) :
    Passes mem ep strings sp (sp + p.bytes.length) [p] := by
  have length : p.bytes.length = 12 + align4 p.value.length := by
    simp only [Property.bytes, length_append, be32_length, padded_length]
    omega
  have room := align4_le p.value.length
  simp only [Property.bytes, padded, holds_append, be32_length, Nat.add_assoc, Nat.reduceAdd] at held
  obtain ⟨token, len, nameoff, value, -⟩ := held
  have token := word_of_holds token (by decide)
  have len := word_of_holds len (by omega)
  have nameoff := word_of_holds nameoff p.nameoff.isLt
  have skip : (p.value.length + 3) % 2 ^ 32 = p.value.length + 3 := Nat.mod_eq_of_lt (by omega)
  have step (fuel : Nat) : walk mem ep strings (fuel + 1) sp =
      match p.memoryTop with
      | some top => some top
      | none => walk mem ep strings fuel (sp + p.bytes.length) := by
    rw [walk, if_pos inside]
    simp only [token, FDT_BEGIN_NODE, FDT_END_NODE, FDT_PROP, Nat.add_assoc, Nat.reduceAdd, len, nameoff,
      memoryAt_eq named value, skip, length, align4]
    rfl
  cases found : p.memoryTop with
  | none =>
    have passed : Passes mem ep strings sp (sp + p.bytes.length) [] :=
      passes_step 0 fun fuel _ => by rw [step, found]
    intro r last
    have none : [p].findSome? Property.memoryTop = none := by simp [found]
    rw [none]
    exact passed r fun _ => last none
  | some top =>
    intro r _
    refine ⟨1, fun fuel enough => ?_⟩
    obtain ⟨fuel, rfl⟩ : ∃ k, fuel = k + 1 := ⟨fuel - 1, by omega⟩
    rw [step, found]
    simp [found]

theorem bytes_aligned (items : Items) : items.bytes.length % 4 = 0 := by
  induction items with
  | done => rfl
  | prop p rest ih =>
    simp only [Items.bytes, Property.bytes, length_append, be32_length, padded_length, align4]
    omega
  | nop rest ih =>
    simp only [Items.bytes, length_append, be32_length]
    omega
  | node name children rest ih ih' =>
    simp only [Items.bytes, length_append, be32_length, padded_length, align4]
    omega

theorem passes_items (items : Items) : ∀ sp, sp % 4 = 0 → Holds mem sp items.bytes →
    sp + items.bytes.length ≤ ep → items.bytes.length < 2 ^ 32 → Named mem strings items.props →
    Passes mem ep strings sp (sp + items.bytes.length) items.props := by
  induction items with
  | done =>
    intro sp _ _ _ _ _ r last
    exact last rfl
  | prop p rest ih =>
    intro sp aligned held inside small named
    have some_bytes : 4 ≤ p.bytes.length := by
      simp only [Property.bytes, length_append, be32_length]
      omega
    have whole := bytes_aligned (.prop p rest)
    have part := bytes_aligned rest
    rw [Items.bytes, holds_append] at held
    rw [Items.bytes, length_append] at inside small whole ⊢
    rw [Items.props, Named, forall_mem_cons] at named
    have later := ih (sp + p.bytes.length) (by omega) held.2 (by omega) (by omega) named.2
    rw [Nat.add_assoc] at later
    exact (passes_prop (by omega) (by omega) held.1 named.1).append later
  | nop rest ih =>
    intro sp aligned held inside small named
    rw [Items.bytes, holds_append] at held
    rw [Items.bytes, length_append, be32_length] at inside small ⊢
    have token := word_of_holds held.1 (by decide)
    have later := ih (sp + 4) (by omega) held.2 (by omega) (by omega) named
    rw [Nat.add_assoc] at later
    exact (passes_nop (by omega) (.inl token)).append later
  | node name children rest ih ih' =>
    intro sp aligned held inside small named
    have part := bytes_aligned children
    have size : align4 (name.1.length + 1) % 4 = 0 := by unfold align4; omega
    rw [Items.bytes, ← append_assoc, holds_append] at held
    obtain ⟨begins, held⟩ := held
    obtain ⟨inner, held⟩ := holds_append.mp held
    obtain ⟨ends, after⟩ := holds_append.mp held
    simp only [Items.bytes, length_append, length_singleton, be32_length, padded_length]
      at inner ends after inside small ⊢
    rw [Items.props, Named, forall_mem_append] at named
    have opened : Passes mem ep strings sp _ [] := passes_begin aligned (by omega) begins
    have first := ih _ (by omega) inner (by omega) (by omega) named.1
    have closed : Passes mem ep strings _ _ [] :=
      passes_nop (by omega) (.inr (word_of_holds ends (by decide)))
    have later := ih' _ (by omega) after (by omega) (by omega) named.2
    have all := (opened.append (first.append closed)).append later
    simpa only [Items.props, nil_append, append_nil, Nat.add_assoc] using all

end Walk

/-- On every well-formed blob the walk ends, with the end of the first memory in
document order, or 0. -/
theorem fdt_memory_found (mem : Mem) (dtb : Nat) (items : Items) (blob : WellFormed mem dtb items) :
    ∃ n, ∀ fuel ≥ n, fdtGetMemorySize mem dtb fuel =
      some ((items.props.findSome? Property.memoryTop).getD 0) := by
  have offsets := holds_append.mp blob.header
  have magic := word_of_holds blob.magic (by decide)
  have structOffset := word_of_holds offsets.1 blob.offStruct.isLt
  have stringsOffset : word mem (dtb + 12) = _ := word_of_holds offsets.2 blob.offStrings.isLt
  have size := word_of_holds blob.size blob.sizeStruct.isLt
  have length := blob.length
  have bound := blob.sizeStruct.isLt
  have whole := bytes_aligned items
  have aligned := blob.aligned
  obtain ⟨tree, last⟩ := holds_append.mp blob.block
  rw [length_append, be32_length] at length
  have passes := passes_items items (dtb + blob.offStruct.toNat) (by omega) tree
    (show _ ≤ dtb + blob.offStruct.toNat + blob.sizeStruct.toNat / 4 * 4 by omega) (by omega) blob.strings
  have ended : Returns mem (dtb + blob.offStruct.toNat + blob.sizeStruct.toNat / 4 * 4)
      (dtb + blob.offStrings.toNat) (dtb + blob.offStruct.toNat + items.bytes.length) 0 := by
    refine ⟨1, fun fuel enough => ?_⟩
    obtain ⟨fuel, rfl⟩ : ∃ k, fuel = k + 1 := ⟨fuel - 1, by omega⟩
    rw [walk, if_pos (by omega), word_of_holds last (by decide)]
    rfl
  obtain ⟨n, result⟩ := passes 0 fun _ => ended
  refine ⟨n, fun fuel enough => ?_⟩
  simp only [fdtGetMemorySize, blob.nonzero, magic, structOffset, stringsOffset, size, ne_eq,
    not_true_eq_false, or_self, if_false, result fuel enough]

def smallTree : Items :=
  .node ⟨[0x6d], by decide⟩
    (.nop (.prop ⟨⟨[0x72, 0x65, 0x67], by decide⟩, 0, be32 0 ++ be32 KERNBASE ++ be32 0 ++ be32 0x8000000⟩ .done))
    .done

def smallBlob : List UInt8 :=
  be32 FDT_MAGIC ++ be32 92 ++ be32 40 ++ be32 88 ++ be32 0 ++ be32 17 ++ be32 16 ++ be32 0 ++ be32 4 ++
    be32 48 ++ (smallTree.bytes ++ be32 FDT_END) ++ [0x72, 0x65, 0x67, 0]

def smallWellFormed : WellFormed (fun a => smallBlob.getD (a - 64) 0) 64 smallTree where
  offStruct := 40
  offStrings := 88
  sizeStruct := 48
  nonzero := by decide
  aligned := by decide
  magic := by decide
  header := by decide
  size := by decide
  block := by decide
  length := by decide
  strings := by
    intro p member
    rw [mem_singleton.mp member]
    decide

theorem fdt_memory_found_small :
    ∃ n, ∀ fuel ≥ n, fdtGetMemorySize (fun a => smallBlob.getD (a - 64) 0) 64 fuel = some 0x88000000 :=
  fdt_memory_found _ 64 smallTree smallWellFormed

end Xv6Lab.Fdt
