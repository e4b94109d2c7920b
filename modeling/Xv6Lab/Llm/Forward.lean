import Xv6Lab.Lib.Trace
import Xv6Lab.Llm.Weights

/-!
The model of llm.c: llm_model_load with alloc_state, and llm_forward as a program
that logs every element it reads or writes. Floats are a parameter: no index depends
on one.
-/

namespace Xv6Lab.Llm

def MODEL_MAGIC : Nat := 0x464e494c
def MODEL_VERSION : Nat := 3

structure Arrays where
  x : Nat
  xb : Nat
  xb2 : Nat
  hb : Nat
  hb2 : Nat
  q : Nat
  att : Nat
  logits : Nat
  keyCache : Nat
  valueCache : Nat
deriving DecidableEq, Repr

structure Model where
  config : Config
  weights : Weights
  state : Arrays
  weightData : List UInt8
  weightCount : Nat

section Loading
variable (granted : List Nat → Bool)

/-- xmalloc(checked_bytes(count, sizeof(float))) -/
def allocFloats (count : Nat) : Loader Nat := do
  let bytes ← Prog.lift (checkedBytes count 4)
  xmalloc granted bytes
  return bytes

def allocState (p : Config) : Loader Arrays := do
  let cacheItems ← Prog.lift (checkedMul3 (u64 p.nLayers) (u64 p.seqLen) (u64 p.kvDim))
  let x ← allocFloats granted (u64 p.dim)
  let xb ← allocFloats granted (u64 p.dim)
  let xb2 ← allocFloats granted (u64 p.dim)
  let hb ← allocFloats granted (u64 p.hiddenDim)
  let hb2 ← allocFloats granted (u64 p.hiddenDim)
  let q ← allocFloats granted (u64 p.dim)
  let att ← allocFloats granted (u64 p.nHeads * u64 p.seqLen % 2 ^ 64)
  let logits ← allocFloats granted (u64 p.vocabSize)
  let keyCache ← allocFloats granted cacheItems
  let valueCache ← allocFloats granted cacheItems
  return ⟨x, xb, xb2, hb, hb2, q, att, logits, keyCache, valueCache⟩

def badHeader : Stop := .fail "llm: bad model header\n"

def readConfig : Loader Config := do
  let magic ← need badHeader (readInts 1)
  let version ← need badHeader (readInts 1)
  let config ← need badHeader (readInts 10)
  let _ ← need badHeader (readInts 52)
  if magic ≠ [int MODEL_MAGIC] ∨ version ≠ [int MODEL_VERSION] then
    throw (.fail "llm: unsupported model\n")
  match config with
  | [dim, hiddenDim, nLayers, nHeads, nKvHeads, vocabSize, seqLen, ropeTheta, rmsNormEps, shared] =>
    let p : Config :=
      ⟨dim, hiddenDim, nLayers, nHeads, nKvHeads, vocabSize, seqLen, ropeTheta, rmsNormEps, shared⟩
    if p.accepted then return p else throw (.fail "llm: invalid model config\n")
  | _ => throw badHeader

def loadModel : Loader Model := do
  let p ← readConfig
  let count ← Prog.lift (expectedWeightCount p)
  let bytes ← allocFloats granted count
  let data ← need (.fail "llm: short model read\n") (readExact bytes)
  let w ← Prog.lift (mapWeights p)
  let s ← allocState granted p
  return ⟨p, w, s, data, count⟩

def llmModelLoad (path : String) (file : Option (List UInt8)) : Except Stop Model :=
  match file with
  | none => .error (.fail ("llm: cannot open " ++ path ++ "\n"))
  | some bytes => (loadModel granted).run' ⟨bytes, []⟩

end Loading

inductive Block
  | x | xb | xb2 | hb | hb2 | q | att | logits | keyCache | valueCache
  | wq | wk | wv | wo | w1 | w2 | w3 | rmsAttWeight | rmsFfnWeight | rmsFinalWeight
  | wcls | tokenEmbeddingTable
deriving DecidableEq, Repr

structure Access where
  block : Block
  index : Nat
  write : Bool
deriving DecidableEq, Repr

structure Pointer where
  block : Block
  offset : Nat
deriving DecidableEq, Repr

def Pointer.plus (p : Pointer) (n : Nat) : Pointer := { p with offset := p.offset + n }

def Block.start (b : Block) : Pointer := ⟨b, 0⟩

/-- The operations on floats that llm.c uses, those of math.c among them. -/
structure Floats (F : Type) where
  add : F → F → F
  sub : F → F → F
  mul : F → F → F
  div : F → F → F
  neg : F → F
  ofInt : Int → F
  ofBits : Int → F
  greater : F → F → Bool
  sqrtApprox : F → F
  powApprox : F → F → F
  expApprox : F → F
  cosApprox : F → F
  sinApprox : F → F

abbrev Compute (F : Type) := Traced (Block → Nat → F) Access

section Forward
variable {F : Type} (ops : Floats F)

def readAt (p : Pointer) (i : Nat) : Compute F F :=
  Traced.event ⟨p.block, p.offset + i, false⟩ fun s => (s p.block (p.offset + i), s)

def writeAt (p : Pointer) (i : Nat) (v : F) : Compute F Unit :=
  Traced.event ⟨p.block, p.offset + i, true⟩ fun s =>
    ((), Function.update s p.block (Function.update (s p.block) (p.offset + i) v))

/-- for (i = 0; i < n; i++) with an accumulator -/
def sumLoop (n : Nat) (body : Nat → F → Compute F F) : Compute F F :=
  Traced.loop body n 0 (ops.ofInt 0)

def forLoop (n : Nat) (body : Nat → Compute F Unit) : Compute F Unit :=
  Traced.loop (fun i _ => body i) n 0 ()

def rmsnorm (out x weight : Pointer) (size : Nat) (eps : F) : Compute F Unit := do
  let ss ← sumLoop ops size fun i ss => do
    let v ← readAt x i
    return ops.add ss (ops.mul v v)
  let ss := ops.div (ops.ofInt 1) (ops.sqrtApprox (ops.add (ops.div ss (ops.ofInt size)) eps))
  forLoop size fun i => do
    let w ← readAt weight i
    let v ← readAt x i
    writeAt out i (ops.mul w (ops.mul ss v))

def matmul (out x w : Pointer) (n d : Nat) : Compute F Unit :=
  forLoop d fun i => do
    let val ← sumLoop ops n fun j val => do
      let a ← readAt w (i * n + j)
      let b ← readAt x j
      return ops.add val (ops.mul a b)
    writeAt out i val

def softmax (x : Pointer) (n : Nat) : Compute F Unit := do
  let first ← readAt x 0
  let max ← Traced.loop (fun i max => do
    let v ← readAt x i
    return if ops.greater v max then v else max) (n - 1) 1 first
  let sum ← sumLoop ops n fun i sum => do
    let v ← readAt x i
    writeAt x i (ops.expApprox (ops.sub v max))
    let v ← readAt x i
    return ops.add sum v
  forLoop n fun i => do
    let v ← readAt x i
    writeAt x i (ops.div v sum)

def copyFloats (out x : Pointer) (n : Nat) : Compute F Unit :=
  forLoop n fun i => do
    let v ← readAt x i
    writeAt out i v

/-- x[i] += y[i] -/
def accumulate (x y : Pointer) (n : Nat) : Compute F Unit :=
  forLoop n fun i => do
    let a ← readAt x i
    let b ← readAt y i
    writeAt x i (ops.add a b)

def rotatePair (vec : Pointer) (h : Nat) (fcr fci : F) : Compute F Unit := do
  let v0 ← readAt vec h
  let v1 ← readAt vec (h + 1)
  writeAt vec h (ops.sub (ops.mul v0 fcr) (ops.mul v1 fci))
  writeAt vec (h + 1) (ops.add (ops.mul v0 fci) (ops.mul v1 fcr))

/-- for (h = 0; h < dim; h += 2): the rotary step, on q and on the row k. -/
def rotary (p : Config) (k : Pointer) (pos : Nat) : Compute F Unit :=
  forLoop ((p.width + 1) / 2) fun i => do
    let h := 2 * i
    let headDim := h % p.headSize.toNat
    let exponent := ops.div (ops.ofInt headDim) (ops.ofInt p.headSize)
    let freq := ops.div (ops.ofInt 1) (ops.powApprox (ops.ofBits p.ropeTheta) exponent)
    let val := ops.mul (ops.ofInt pos) freq
    let fcr := ops.cosApprox val
    let fci := ops.sinApprox val
    forLoop (if h < p.kvWidth then 2 else 1) fun vi =>
      rotatePair ops (if vi = 0 then Block.q.start else k) h fcr fci

def layerOffset (p : Config) (l : Nat) : Nat := l * p.seqLen.toNat * p.kvWidth

/-- The rows of position t in the caches, and the part of them for head h. -/
def cacheRow (p : Config) (cache : Block) (l t : Nat) : Pointer :=
  cache.start.plus (layerOffset p l + t * p.kvWidth)

def headRow (p : Config) (cache : Block) (l t h : Nat) : Pointer :=
  (cacheRow p cache l t).plus (h / (p.nHeads.tdiv p.nKvHeads).toNat * p.headSize.toNat)

def attendHead (p : Config) (l pos h : Nat) : Compute F Unit := do
  let headSize := p.headSize.toNat
  let q := Block.q.start.plus (h * headSize)
  let att := Block.att.start.plus (h * p.seqLen.toNat)
  let xb := Block.xb.start.plus (h * headSize)
  forLoop (pos + 1) fun t => do
    let kt := headRow p .keyCache l t h
    let score ← sumLoop ops headSize fun i score => do
      let a ← readAt q i
      let b ← readAt kt i
      return ops.add score (ops.mul a b)
    writeAt att t (ops.div score (ops.sqrtApprox (ops.ofInt headSize)))
  softmax ops att (pos + 1)
  forLoop headSize fun i => writeAt xb i (ops.ofInt 0)
  forLoop (pos + 1) fun t => do
    let vt := headRow p .valueCache l t h
    let a ← readAt att t
    forLoop headSize fun i => do
      let b ← readAt xb i
      let c ← readAt vt i
      writeAt xb i (ops.add b (ops.mul a c))

def gate (hiddenDim : Nat) : Compute F Unit :=
  forLoop hiddenDim fun i => do
    let val ← readAt Block.hb.start i
    let val := ops.mul val (ops.div (ops.ofInt 1)
      (ops.add (ops.ofInt 1) (ops.expApprox (ops.neg val))))
    let b ← readAt Block.hb2.start i
    writeAt Block.hb.start i (ops.mul val b)

def forwardLayer (p : Config) (pos l : Nat) : Compute F Unit := do
  let dim := p.width
  let kvDim := p.kvWidth
  let hiddenDim := p.hidden
  let eps := ops.ofBits p.rmsNormEps
  let x := Block.x.start
  let xb := Block.xb.start
  let k := cacheRow p .keyCache l pos
  let v := cacheRow p .valueCache l pos
  rmsnorm ops xb x (Block.rmsAttWeight.start.plus (l * dim)) dim eps
  matmul ops Block.q.start xb (Block.wq.start.plus (l * dim * dim)) dim dim
  matmul ops k xb (Block.wk.start.plus (l * dim * kvDim)) dim kvDim
  matmul ops v xb (Block.wv.start.plus (l * dim * kvDim)) dim kvDim
  rotary ops p k pos
  forLoop p.nHeads.toNat fun h => attendHead ops p l pos h
  matmul ops Block.xb2.start xb (Block.wo.start.plus (l * dim * dim)) dim dim
  accumulate ops x Block.xb2.start dim
  rmsnorm ops xb x (Block.rmsFfnWeight.start.plus (l * dim)) dim eps
  matmul ops Block.hb.start xb (Block.w1.start.plus (l * hiddenDim * dim)) dim hiddenDim
  matmul ops Block.hb2.start xb (Block.w3.start.plus (l * hiddenDim * dim)) dim hiddenDim
  gate ops hiddenDim
  matmul ops xb Block.hb.start (Block.w2.start.plus (l * dim * hiddenDim)) hiddenDim dim
  accumulate ops x xb dim

def llmForward (p : Config) (token pos : Nat) : Compute F Unit := do
  copyFloats Block.x.start (Block.tokenEmbeddingTable.start.plus (token * p.width)) p.width
  forLoop p.layers fun l => forwardLayer ops p pos l
  rmsnorm ops Block.x.start Block.x.start Block.rmsFinalWeight.start p.width (ops.ofBits p.rmsNormEps)
  matmul ops Block.logits.start Block.x.start Block.wcls.start p.width p.vocab

end Forward
end Xv6Lab.Llm
