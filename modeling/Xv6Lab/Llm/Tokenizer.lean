import Xv6Lab.Llm.Reader

/-!
The tokenizer of llm.c: the loader of a .ltok file, llm_encode and
llm_decode_piece. The text is the memory from its first byte on, also behind the
terminating NUL. The token buffer keeps the indices that were stored to.
-/

namespace Xv6Lab.Llm

def TOKENIZER_MAGIC : Nat := 0x4e4b4f54
def TOKENIZER_VERSION : Nat := 3

structure Merge where
  left : Int
  right : Int
  out : Int
deriving DecidableEq, Repr

/-- llm_tokenizer_t. piece_lens[i] is the length of pieces[i]; the counts are the
lengths of the tables. -/
structure Tokenizer where
  pieces : List (List UInt8)
  initialIds : UInt8 → Int
  specialIds : List Int
  merges : List Merge
  maxPieceLen : Int
  bosId : Int
  eosId : Int
  unkId : Int

def Tokenizer.vocabSize (t : Tokenizer) : Int := t.pieces.length

def Tokenizer.piece (t : Tokenizer) (id : Int) : List UInt8 := t.pieces.getD id.toNat []

structure Header where
  vocabSize : Int
  maxPieceLen : Int
  bosId : Int
  eosId : Int
  unkId : Int
  specialCount : Int
  mergeCount : Int
deriving DecidableEq, Repr

/-- What stops llm_tokenizer_load when a part of the file is refused. -/
def badTokenizer : Stop := .fail "llm: bad tokenizer\n"

def readTokenizerHeader : Loader Header := do
  let magic ← need badTokenizer (readInts 1)
  let version ← need badTokenizer (readInts 1)
  let header ← need badTokenizer (readInts 8)
  let _ ← need badTokenizer (readInts 54)
  if magic ≠ [int TOKENIZER_MAGIC] ∨ version ≠ [int TOKENIZER_VERSION] then throw badTokenizer
  match header with
  | [vocabSize, maxPieceLen, bosId, eosId, unkId, specialCount, mergeCount, _] =>
    if vocabSize > 0 ∧ maxPieceLen > 0 ∧ specialCount ≥ 0 ∧ mergeCount ≥ 0 then
      return ⟨vocabSize, maxPieceLen, bosId, eosId, unkId, specialCount, mergeCount⟩
    else throw badTokenizer
  | _ => throw badTokenizer

def loadPiece (granted : List Nat → Bool) : Loader (List UInt8) := do
  match ← need badTokenizer (readInts 1) with
  | [len] =>
    if len < 0 then throw badTokenizer
    xmalloc granted (u32 (len + 1))
    need badTokenizer (readExact len.toNat)
  | _ => throw badTokenizer

def loadPieceLoop (granted : List Nat → Bool) : Nat → Loader (List (List UInt8))
  | 0 => pure []
  | n + 1 => do
    let piece ← loadPiece granted
    let rest ← loadPieceLoop granted n
    return piece :: rest

def loadPieces (granted : List Nat → Bool) (h : Header) : Loader (List (List UInt8)) := do
  xmalloc granted (← Prog.lift (checkedBytes (u64 h.vocabSize) 8))
  xmalloc granted (← Prog.lift (checkedBytes (u64 h.vocabSize) 4))
  loadPieceLoop granted h.vocabSize.toNat

def readMerges : Nat → Loader (List Merge)
  | 0 => pure []
  | n + 1 => do
    match ← need badTokenizer (readInts 3) with
    | [left, right, out] =>
      let rest ← readMerges n
      return ⟨left, right, out⟩ :: rest
    | _ => throw badTokenizer

def allocTable (granted : List Nat → Bool) (count : Int) (itemSize : Nat) : Loader Unit :=
  if count > 0 then do
    let bytes ← Prog.lift (checkedBytes (u64 count) itemSize)
    xmalloc granted bytes
  else pure ()

def loadBpe (granted : List Nat → Bool) (h : Header) :
    Loader ((UInt8 → Int) × List Int × List Merge) := do
  xmalloc granted (256 * 4)
  allocTable granted h.specialCount 4
  allocTable granted h.mergeCount 12
  let initial ← need badTokenizer (readInts 256)
  let special ← need badTokenizer (readInts h.specialCount.toNat)
  let merges ← readMerges h.mergeCount.toNat
  return (fun c => initial.getD c.toNat 0, special, merges)

def loadTokenizer (granted : List Nat → Bool) : Loader Tokenizer := do
  let h ← readTokenizerHeader
  let pieces ← loadPieces granted h
  let (initialIds, specialIds, merges) ← loadBpe granted h
  return ⟨pieces, initialIds, specialIds, merges, h.maxPieceLen, h.bosId, h.eosId, h.unkId⟩

/-- The file is none if it cannot be opened. -/
def llmTokenizerLoad (granted : List Nat → Bool) (path : String) (file : Option (List UInt8)) :
    Except Stop Tokenizer :=
  match file with
  | none => .error (.fail ("llm: cannot open " ++ path ++ "\n"))
  | some bytes => (loadTokenizer granted).run' ⟨bytes, []⟩

section Encode
variable (t : Tokenizer) (text : Nat → UInt8)

def startsWith : Nat → List UInt8 → Bool
  | _, [] => true
  | s, c :: rest => if text s ≠ c then false else startsWith (s + 1) rest

/-- The loop over special_ids: special and special_len. -/
def findSpecial (p : Nat) : List Int → Int × Nat → Int × Nat
  | [], best => best
  | id :: rest, best =>
    if id < 0 ∨ id ≥ t.vocabSize then findSpecial p rest best
    else
      let len := (t.piece id).length
      if len > best.2 ∧ len > 0 ∧ startsWith text p (t.piece id) then findSpecial p rest (id, len)
      else findSpecial p rest best

/-- initial_ids[c], or unk_id. -/
def byteId (c : UInt8) : Int := if t.initialIds c < 0 then t.unkId else t.initialIds c

/-- The token at p and its length in the text, before the bound on n is checked;
none for the -1 of a byte without an id. -/
def nextToken (p : Nat) : Option (Int × Nat) :=
  let (special, len) := findSpecial t text p t.specialIds (-1, 0)
  if special ≥ 0 then some (special, len)
  else if byteId t (text p) < 0 then none
  else some (byteId t (text p), 1)

end Encode

structure Buffer where
  tokens : Nat → Int
  n : Nat
  stored : List Nat

def Buffer.store (b : Buffer) (i : Nat) (id : Int) : Buffer :=
  { b with tokens := Function.update b.tokens i id, stored := i :: b.stored }

/-- tokens[n++] = id -/
def Buffer.push (b : Buffer) (id : Int) : Buffer := { b.store b.n id with n := b.n + 1 }

/-- tokens[0..n) -/
def Buffer.ids (b : Buffer) : List Int := (List.range b.n).map b.tokens

/-- The loop over the text. The error is the return of -1, with the buffer as it stands then.
room is max_tokens - n. -/
def scan (t : Tokenizer) (text : Nat → UInt8) : Nat → Nat → Buffer → Except Buffer Buffer
  | room, p, b =>
    if text p = 0 then .ok b
    else
      match room with
      | 0 => .error b
      | room + 1 =>
        match nextToken t text p with
        | none => .error b
        | some (id, len) => scan t text room (p + len) (b.push id)

/-- best_rank, best_idx (none for -1) and best_out. -/
structure Best where
  rank : Nat
  idx : Option Nat
  out : Int
deriving DecidableEq, Repr

/-- The loop over the merges, which stops at the first for this pair. -/
def findRank (merges : List Merge) (left right : Int) : Option Nat :=
  merges.findIdx? fun m => m.left = left ∧ m.right = right

def mergeOut (merges : List Merge) (rank : Nat) : Int := ((merges[rank]?).map Merge.out).getD 0

def considerPair (merges : List Merge) (tokens : Nat → Int) (best : Best) (i : Nat) : Best :=
  match findRank merges (tokens i) (tokens (i + 1)) with
  | none => best
  | some rank => if rank < best.rank then ⟨rank, some i, mergeOut merges rank⟩ else best

def findBest (merges : List Merge) (b : Buffer) : Best :=
  (List.range (b.n - 1)).foldl (considerPair merges b.tokens) ⟨merges.length + 1, none, -1⟩

/-- tokens[i] = tokens[i + 1] for count indices from i on. -/
def shift : Nat → Nat → Buffer → Buffer
  | 0, _, b => b
  | count + 1, i, b => shift count (i + 1) (b.store i (b.tokens (i + 1)))

def applyMerge (b : Buffer) (idx : Nat) (out : Int) : Buffer :=
  let b' := shift (b.n - 1 - (idx + 1)) (idx + 1) (b.store idx out)
  { b' with n := b'.n - 1 }

/-- The do loop. A round that merges makes n smaller by one, so n rounds are enough. -/
def mergeLoop (merges : List Merge) : Nat → Buffer → Buffer
  | 0, b => b
  | rounds + 1, b =>
    match (findBest merges b).idx with
    | none => b
    | some idx => mergeLoop merges rounds (applyMerge b idx (findBest merges b).out)

def addId (wanted : Bool) (id : Int) (maxTokens : Int) (b : Buffer) : Except Buffer Buffer :=
  if wanted ∧ id ≥ 0 then
    if b.n ≥ maxTokens then .error b else .ok (b.push id)
  else .ok b

/-- The returned n is that of the buffer; tokens is what the caller's array holds. -/
def llmEncode (t : Tokenizer) (text : Nat → UInt8) (addBos addEos : Bool) (tokens : Nat → Int)
    (maxTokens : Int) : Except Buffer Buffer := do
  let b ← addId addBos t.bosId maxTokens ⟨tokens, 0, []⟩
  let b ← scan t text (maxTokens - b.n).toNat 0 b
  addId addEos t.eosId maxTokens (mergeLoop t.merges b.n b)

def cstring (bytes : List UInt8) : List UInt8 := bytes.takeWhile (· ≠ 0)

def llmDecodePiece (t : Tokenizer) (token : Int) : Option (List UInt8) :=
  if token < 0 ∨ token ≥ t.vocabSize then none else some (cstring (t.piece token))

end Xv6Lab.Llm
