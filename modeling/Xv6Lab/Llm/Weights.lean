import Xv6Lab.Llm.Format

/-!
The size guard of the model loader (expected_weight_count with checked_bytes) and
the layout of the weights (map_weights), in floats from weight_data on.
-/

namespace Xv6Lab.Llm
open List
variable {c n : Nat}

structure Config where
  dim : Int
  hiddenDim : Int
  nLayers : Int
  nHeads : Int
  nKvHeads : Int
  vocabSize : Int
  seqLen : Int
  ropeTheta : Int
  rmsNormEps : Int
  sharedClassifier : Int
deriving DecidableEq, Repr

def Config.headSize (p : Config) : Int := p.dim.tdiv p.nHeads
def Config.kvDim (p : Config) : Int := p.nKvHeads * p.headSize

def Config.accepted (p : Config) : Prop :=
  ¬(p.dim ≤ 0 ∨ p.nHeads ≤ 0 ∨ p.dim.tmod p.nHeads ≠ 0 ∨ p.nKvHeads ≤ 0 ∨
    p.nHeads.tmod p.nKvHeads ≠ 0)

instance (p : Config) : Decidable p.accepted := inferInstanceAs (Decidable ¬_)

/-- checked_mul(checked_mul(a, b), c) -/
def checkedMul3 (a b c : Nat) : Except Stop Nat := do
  let ab ← checkedMul a b
  checkedMul ab c

/-- n += k -/
def addTo (n k : Nat) : Nat := (n + k) % 2 ^ 64

def addClassifier (p : Config) (n : Nat) : Except Stop Nat :=
  if p.sharedClassifier = 0 then do
    let k ← checkedMul (u64 p.vocabSize) (u64 p.dim)
    pure (addTo n k)
  else pure n

def expectedWeightCount (p : Config) : Except Stop Nat := do
  let layers := u64 p.nLayers
  let dim := u64 p.dim
  let kvDim := u64 p.kvDim
  let hiddenDim := u64 p.hiddenDim
  let vocabSize := u64 p.vocabSize
  let n := addTo 0 (← checkedMul3 layers dim dim)
  let n := addTo n (← checkedMul3 layers dim kvDim)
  let n := addTo n (← checkedMul3 layers dim kvDim)
  let n := addTo n (← checkedMul3 layers dim dim)
  let n := addTo n (← checkedMul3 layers hiddenDim dim)
  let n := addTo n (← checkedMul3 layers dim hiddenDim)
  let n := addTo n (← checkedMul3 layers hiddenDim dim)
  let n := addTo n (← checkedMul layers dim)
  let n := addTo n (← checkedMul layers dim)
  let n := addTo n dim
  let n ← addClassifier p n
  return addTo n (← checkedMul vocabSize dim)

structure Weights where
  wq : Nat
  wk : Nat
  wv : Nat
  wo : Nat
  w1 : Nat
  w2 : Nat
  w3 : Nat
  rmsAttWeight : Nat
  rmsFfnWeight : Nat
  rmsFinalWeight : Nat
  wcls : Nat
  tokenEmbeddingTable : Nat
deriving DecidableEq, Repr

def mapWeights (p : Config) : Except Stop Weights := do
  let layers := u64 p.nLayers
  let dim := u64 p.dim
  let kvDim := u64 p.kvDim
  let hiddenDim := u64 p.hiddenDim
  let vocabSize := u64 p.vocabSize
  let wq := 0
  let wk := wq + (← checkedMul3 layers dim dim)
  let wv := wk + (← checkedMul3 layers dim kvDim)
  let wo := wv + (← checkedMul3 layers dim kvDim)
  let w1 := wo + (← checkedMul3 layers dim dim)
  let w2 := w1 + (← checkedMul3 layers hiddenDim dim)
  let w3 := w2 + (← checkedMul3 layers dim hiddenDim)
  let rmsAttWeight := w3 + (← checkedMul3 layers hiddenDim dim)
  let rmsFfnWeight := rmsAttWeight + (← checkedMul layers dim)
  let rmsFinalWeight := rmsFfnWeight + (← checkedMul layers dim)
  let ptr := rmsFinalWeight + dim
  if p.sharedClassifier = 0 then
    let table := ptr + (← checkedMul vocabSize dim)
    return ⟨wq, wk, wv, wo, w1, w2, w3, rmsAttWeight, rmsFfnWeight, rmsFinalWeight, ptr, table⟩
  else
    return ⟨wq, wk, wv, wo, w1, w2, w3, rmsAttWeight, rmsFfnWeight, rmsFinalWeight, ptr, ptr⟩

section Tiling

/-- The intervals (start, length) lie end to end from a to b. -/
def Tiles : Nat → List (Nat × Nat) → Nat → Prop
  | a, [], b => a = b
  | a, (start, length) :: rest, b => start = a ∧ Tiles (a + length) rest b

/-- The intervals are disjoint, each starts where the one before it ends, and
together they are [0, n). -/
structure Covers (regions : List (Nat × Nat)) (n : Nat) : Prop where
  contiguous : Tiles 0 regions n
  disjoint : regions.Pairwise fun r s =>
    ∀ i, ¬(r.1 ≤ i ∧ i < r.1 + r.2 ∧ s.1 ≤ i ∧ i < s.1 + s.2)
  covered : ∀ i, i < n ↔ ∃ r ∈ regions, r.1 ≤ i ∧ i < r.1 + r.2

variable {regions : List (Nat × Nat)} {a b : Nat}

section
variable (tiles : Tiles a regions b)
include tiles

theorem Tiles.le : a ≤ b := by
  induction regions generalizing a with
  | nil => exact Nat.le_of_eq tiles
  | cons r rest ih => exact (Nat.le_add_right a r.2).trans (ih tiles.2)

theorem Tiles.mem_iff (i : Nat) : (a ≤ i ∧ i < b) ↔ ∃ r ∈ regions, r.1 ≤ i ∧ i < r.1 + r.2 := by
  induction regions generalizing a with
  | nil =>
    have same : a = b := tiles
    simp only [not_mem_nil, false_and, exists_false, iff_false]
    omega
  | cons r rest ih =>
    have start : r.1 = a := tiles.1
    have later := ih tiles.2
    have bound := Tiles.le tiles.2
    simp only [mem_cons, exists_eq_or_imp, ← later, start]
    omega

theorem Tiles.disjoint :
    regions.Pairwise fun r s => ∀ i, ¬(r.1 ≤ i ∧ i < r.1 + r.2 ∧ s.1 ≤ i ∧ i < s.1 + s.2) := by
  induction regions generalizing a with
  | nil => exact .nil
  | cons r rest ih =>
    refine .cons ?_ (ih tiles.2)
    rintro s member i ⟨-, below, above, inside⟩
    have start : r.1 = a := tiles.1
    have later := (Tiles.mem_iff tiles.2 i).mpr ⟨s, member, above, inside⟩
    omega

end

theorem Tiles.unique (first : Tiles a regions b) (second : Tiles a regions c) : b = c := by
  induction regions generalizing a with
  | nil => exact Eq.trans (Eq.symm first) second
  | cons r rest ih => exact ih first.2 second.2

theorem Tiles.covers (tiles : Tiles 0 regions n) : Covers regions n :=
  ⟨tiles, Tiles.disjoint tiles, fun i => by rw [← Tiles.mem_iff tiles i]; omega⟩

end Tiling

section Sizes
variable (p : Config)

def Config.layers : Nat := p.nLayers.toNat
def Config.width : Nat := p.dim.toNat
def Config.kvWidth : Nat := p.kvDim.toNat
def Config.hidden : Nat := p.hiddenDim.toNat
def Config.vocab : Nat := p.vocabSize.toNat

def Config.attention : Nat := p.layers * p.width * p.width
def Config.attentionKv : Nat := p.layers * p.width * p.kvWidth
def Config.feedForward : Nat := p.layers * p.hidden * p.width
def Config.norms : Nat := p.layers * p.width
def Config.table : Nat := p.vocab * p.width

/-- The regions of map_weights; wcls is one of its own unless it is the embedding
table. -/
def regions (w : Weights) : List (Nat × Nat) :=
  [(w.wq, p.attention), (w.wk, p.attentionKv), (w.wv, p.attentionKv), (w.wo, p.attention),
    (w.w1, p.feedForward), (w.w2, p.feedForward), (w.w3, p.feedForward),
    (w.rmsAttWeight, p.norms), (w.rmsFfnWeight, p.norms), (w.rmsFinalWeight, p.width)] ++
  (if p.sharedClassifier = 0 then [(w.wcls, p.table)] else []) ++
  [(w.tokenEmbeddingTable, p.table)]

/-- The number of weights, without a bound. -/
def Config.total : Nat :=
  2 * p.attention + 2 * p.attentionKv + 3 * p.feedForward + 2 * p.norms + p.width +
    (if p.sharedClassifier = 0 then p.table else 0) + p.table

structure Config.ProductsFit : Prop where
  norms : p.norms < 2 ^ 64
  gates : p.layers * p.hidden < 2 ^ 64
  attention : p.attention < 2 ^ 64
  attentionKv : p.attentionKv < 2 ^ 64
  feedForward : p.feedForward < 2 ^ 64
  table : p.table < 2 ^ 64

end Sizes

section Guard
variable {p : Config}

structure Config.Ints (p : Config) : Prop where
  dim : IsInt p.dim
  hiddenDim : IsInt p.hiddenDim
  nLayers : IsInt p.nLayers
  vocabSize : IsInt p.vocabSize

structure Config.Shape (p : Config) : Prop where
  heads : p.dim = p.nHeads * p.headSize
  groups : p.nHeads = p.nKvHeads * p.nHeads.tdiv p.nKvHeads
  nHeads_pos : 0 < p.nHeads
  nKvHeads_pos : 0 < p.nKvHeads
  headSize_pos : 0 < p.headSize
  group_pos : 0 < p.nHeads.tdiv p.nKvHeads

theorem shape_of_accepted (accepted : p.accepted) : p.Shape := by
  simp only [Config.accepted, not_or, not_le, not_not] at accepted
  obtain ⟨dim, heads, rows, kvHeads, groups⟩ := accepted
  have first : p.dim = p.nHeads * p.headSize := (Int.mul_tdiv_cancel' (Int.dvd_of_tmod_eq_zero rows)).symm
  have second : p.nHeads = p.nKvHeads * p.nHeads.tdiv p.nKvHeads :=
    (Int.mul_tdiv_cancel' (Int.dvd_of_tmod_eq_zero groups)).symm
  refine ⟨first, second, heads, kvHeads, ?_, ?_⟩
  · by_contra small
    have := mul_nonpos_of_nonneg_of_nonpos heads.le (not_lt.mp small)
    omega
  · by_contra small
    have := mul_nonpos_of_nonneg_of_nonpos kvHeads.le (not_lt.mp small)
    omega

theorem Config.Shape.kvDim_le (shape : p.Shape) : 0 < p.kvDim ∧ p.kvDim ≤ p.dim := by
  have few : p.nKvHeads ≤ p.nHeads := by
    rw [shape.groups]
    exact le_mul_of_one_le_right shape.nKvHeads_pos.le shape.group_pos
  refine ⟨mul_pos shape.nKvHeads_pos shape.headSize_pos, ?_⟩
  rw [shape.heads]
  exact mul_le_mul_of_nonneg_right few shape.headSize_pos.le

theorem u64_of_nonneg {n : Int} (nonneg : 0 ≤ n) (fits : IsInt n) : u64 n = n.toNat := by
  have := fits.2
  unfold u64
  omega

theorem bind_ok {α β ε : Type} {x : Except ε α} {f : α → Except ε β} {b : β} (ok : (x >>= f) = .ok b) :
    ∃ a, x = .ok a ∧ f a = .ok b := by
  cases x with
  | error e => cases ok
  | ok a => exact ⟨a, rfl, ok⟩

theorem checkedMul3_ok {a b : Nat} (ok : checkedMul3 a b c = .ok n) :
    n = a * b * c ∧ a * b < 2 ^ 64 ∧ a * b * c < 2 ^ 64 := by
  obtain ⟨ab, first, second⟩ := bind_ok ok
  obtain ⟨rfl, small⟩ := checkedMul_ok first
  obtain ⟨rfl, fits⟩ := checkedMul_ok second
  exact ⟨rfl, small, fits⟩

theorem checkedMul3_of_lt {a b : Nat} (small : a * b < 2 ^ 64) (fits : a * b * c < 2 ^ 64) :
    checkedMul3 a b c = .ok (a * b * c) := by
  simp only [checkedMul3, checkedMul_of_lt small, bind, Except.bind, checkedMul_of_lt fits]

/-- The fields of the config as the guard and the layout see them. -/
structure Config.Nonneg (p : Config) : Prop where
  layers : u64 p.nLayers = p.layers
  dim : u64 p.dim = p.width
  kvDim : u64 p.kvDim = p.kvWidth
  hiddenDim : u64 p.hiddenDim = p.hidden
  vocabSize : u64 p.vocabSize = p.vocab

theorem nonneg_of_accepted (ints : p.Ints) (accepted : p.accepted) (layers : 0 ≤ p.nLayers)
    (hidden : 0 ≤ p.hiddenDim) (vocab : 0 ≤ p.vocabSize) : p.Nonneg := by
  have kv := (shape_of_accepted accepted).kvDim_le
  have dim := ints.dim.2
  exact ⟨u64_of_nonneg layers ints.nLayers, u64_of_nonneg (by omega) ints.dim,
    u64_of_nonneg kv.1.le ⟨by omega, by omega⟩, u64_of_nonneg hidden ints.hiddenDim,
    u64_of_nonneg vocab ints.vocabSize⟩

theorem expectedWeightCount_ok (nonneg : p.Nonneg) (ok : expectedWeightCount p = .ok n) :
    p.ProductsFit ∧ n = p.total % 2 ^ 64 := by
  unfold expectedWeightCount addClassifier at ok
  rw [nonneg.layers, nonneg.dim, nonneg.kvDim, nonneg.hiddenDim, nonneg.vocabSize] at ok
  obtain ⟨_, q, ok⟩ := bind_ok ok
  obtain ⟨_, k, ok⟩ := bind_ok ok
  obtain ⟨_, v, ok⟩ := bind_ok ok
  obtain ⟨_, o, ok⟩ := bind_ok ok
  obtain ⟨_, one, ok⟩ := bind_ok ok
  obtain ⟨_, two, ok⟩ := bind_ok ok
  obtain ⟨_, three, ok⟩ := bind_ok ok
  obtain ⟨_, att, ok⟩ := bind_ok ok
  obtain ⟨_, ffn, ok⟩ := bind_ok ok
  obtain ⟨rfl, -, attention⟩ := checkedMul3_ok q
  obtain ⟨rfl, -, attentionKv⟩ := checkedMul3_ok k
  obtain ⟨rfl, -, -⟩ := checkedMul3_ok v
  obtain ⟨rfl, -, -⟩ := checkedMul3_ok o
  obtain ⟨rfl, gates, feedForward⟩ := checkedMul3_ok one
  obtain ⟨rfl, -, -⟩ := checkedMul3_ok two
  obtain ⟨rfl, -, -⟩ := checkedMul3_ok three
  obtain ⟨rfl, norms⟩ := checkedMul_ok att
  obtain ⟨rfl, -⟩ := checkedMul_ok ffn
  obtain ⟨before, classifier, ok⟩ := bind_ok ok
  obtain ⟨_, embedding, ok⟩ := bind_ok ok
  obtain ⟨rfl, table⟩ := checkedMul_ok embedding
  refine ⟨⟨norms, gates, attention, attentionKv, feedForward, table⟩, ?_⟩
  injection ok with same
  have swap : p.layers * p.width * p.hidden = p.layers * p.hidden * p.width := by ring
  rw [swap] at classifier
  simp only [addTo] at same classifier
  unfold Config.total Config.attention Config.attentionKv Config.feedForward Config.norms Config.table
  split at classifier
  · rename_i own
    rw [if_pos own]
    obtain ⟨_, product, classifier⟩ := bind_ok classifier
    obtain ⟨rfl, -⟩ := checkedMul_ok product
    injection classifier with sum
    omega
  · rename_i shared
    rw [if_neg shared]
    injection classifier with sum
    omega

theorem Config.ProductsFit.products (fit : p.ProductsFit) :
    checkedMul3 p.layers p.width p.width = .ok p.attention ∧
    checkedMul3 p.layers p.width p.kvWidth = .ok p.attentionKv ∧
    checkedMul3 p.layers p.hidden p.width = .ok p.feedForward ∧
    checkedMul3 p.layers p.width p.hidden = .ok p.feedForward ∧
    checkedMul p.layers p.width = .ok p.norms ∧
    checkedMul p.vocab p.width = .ok p.table := by
  have swap : p.layers * p.width * p.hidden = p.feedForward := by unfold Config.feedForward; ring
  refine ⟨checkedMul3_of_lt fit.norms fit.attention, checkedMul3_of_lt fit.norms fit.attentionKv,
    checkedMul3_of_lt fit.gates fit.feedForward, ?_, checkedMul_of_lt fit.norms,
    checkedMul_of_lt fit.table⟩
  rw [← swap]
  exact checkedMul3_of_lt fit.norms (by rw [swap]; exact fit.feedForward)

theorem expectedWeightCount_of_fit (nonneg : p.Nonneg) (fit : p.ProductsFit) :
    expectedWeightCount p = .ok (p.total % 2 ^ 64) := by
  obtain ⟨attention, attentionKv, gates, down, norms, table⟩ := fit.products
  unfold expectedWeightCount addClassifier
  rw [nonneg.layers, nonneg.dim, nonneg.kvDim, nonneg.hiddenDim, nonneg.vocabSize]
  simp only [attention, attentionKv, gates, down, norms, table, bind, Except.bind, pure, Except.pure]
  by_cases own : p.sharedClassifier = 0
  · simp only [own, if_true, addTo, Config.total, Except.ok.injEq]
    omega
  · simp only [own, if_false, addTo, Config.total, Except.ok.injEq]
    omega

theorem mapWeights_of_fit (nonneg : p.Nonneg) (fit : p.ProductsFit) :
    ∃ w, mapWeights p = .ok w ∧ Tiles 0 (regions p w) p.total ∧
      (p.sharedClassifier ≠ 0 → w.wcls = w.tokenEmbeddingTable) := by
  obtain ⟨attention, attentionKv, gates, down, norms, table⟩ := fit.products
  unfold mapWeights
  rw [nonneg.layers, nonneg.dim, nonneg.kvDim, nonneg.hiddenDim, nonneg.vocabSize]
  simp only [attention, attentionKv, gates, down, norms, table, bind, Except.bind, pure, Except.pure]
  by_cases own : p.sharedClassifier = 0
  · rw [if_pos own]
    refine ⟨_, rfl, ?_, fun shared => absurd own shared⟩
    simp only [regions, own, if_true, cons_append, nil_append, Tiles, Config.total, true_and]
    omega
  · rw [if_neg own]
    refine ⟨_, rfl, ?_, fun _ => rfl⟩
    simp only [regions, own, if_false, cons_append, nil_append, Tiles, Config.total, true_and]
    omega

/-- The guard is sound: when it lets the config pass, the regions of map_weights
cover the n floats that are read from the file. -/
def GuardSound (p : Config) : Prop :=
  ∀ n bytes, expectedWeightCount p = .ok n → checkedBytes n 4 = .ok bytes →
    ∃ w, mapWeights p = .ok w ∧ Covers (regions p w) n ∧
      (p.sharedClassifier ≠ 0 → w.wcls = w.tokenEmbeddingTable)

/-- The true number of weights is below 2^64, unless the guard stops the loader: at a
product, or at the size of the wrapped sum. -/
def Config.NoWrap (p : Config) : Prop :=
  p.ProductsFit → p.total % 2 ^ 64 < 2 ^ 30 → p.total < 2 ^ 64

theorem guard_sound_iff_no_wrap (p : Config) (ints : p.Ints) (accepted : p.accepted)
    (layers : 0 ≤ p.nLayers) (hidden : 0 ≤ p.hiddenDim) (vocab : 0 ≤ p.vocabSize) :
    GuardSound p ↔ p.NoWrap := by
  have nonneg := nonneg_of_accepted ints accepted layers hidden vocab
  constructor
  · intro sound fit small
    obtain ⟨w, mapped, covers, -⟩ := sound _ _ (expectedWeightCount_of_fit nonneg fit)
      (checkedBytes_of_lt (by omega))
    obtain ⟨w', mapped', tiles, -⟩ := mapWeights_of_fit nonneg fit
    rw [mapped] at mapped'
    cases mapped'
    have whole := Tiles.unique covers.contiguous tiles
    omega
  · intro noWrap n bytes counted guarded
    obtain ⟨fit, rfl⟩ := expectedWeightCount_ok nonneg counted
    obtain ⟨rfl, small⟩ := checkedBytes_ok guarded
    have true_total := noWrap fit (by omega)
    obtain ⟨w, mapped, tiles, shared⟩ := mapWeights_of_fit nonneg fit
    rw [Nat.mod_eq_of_lt true_total]
    exact ⟨w, mapped, Tiles.covers tiles, shared⟩

def small : Config := ⟨2, 2, 1, 1, 1, 3, 4, 0, 0, 1⟩

theorem guard_sound_iff_no_wrap_small : GuardSound small ↔ small.NoWrap :=
  guard_sound_iff_no_wrap small ⟨by decide, by decide, by decide, by decide⟩ (by decide) (by decide)
    (by decide) (by decide)

/-- 4 * n_layers * dim * dim is just below 2^64, and the rest makes up for it. -/
def wrapping : Config := ⟨65536, 0, 1073733632, 1, 1, 16383, 1, 0, 0, 1⟩

theorem guard_unsound_at_wrapping :
    wrapping.accepted ∧ 0 ≤ wrapping.nLayers ∧ 0 ≤ wrapping.hiddenDim ∧ 0 ≤ wrapping.vocabSize ∧
    expectedWeightCount wrapping = .ok 0 ∧ checkedBytes 0 4 = .ok 0 ∧ wrapping.total = 2 ^ 64 ∧
    ¬ GuardSound wrapping := by
  have counted : expectedWeightCount wrapping = .ok 0 := by rfl
  refine ⟨by decide, by decide, by decide, by decide, counted, rfl, by decide, ?_⟩
  intro sound
  obtain ⟨w, mapped, covers, -⟩ := sound 0 0 counted rfl
  have start : w.wq = 0 := covers.contiguous.1
  have size : 0 < w.wq + wrapping.attention := by rw [start]; decide
  have inside := (covers.covered 0).mpr
    ⟨(w.wq, wrapping.attention), by simp [regions], Nat.le_of_eq start, size⟩
  exact Nat.lt_irrefl 0 inside

end Guard
end Xv6Lab.Llm
