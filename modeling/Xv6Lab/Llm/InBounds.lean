import Xv6Lab.Llm.ModelFile

/-!
The elements that llm_forward touches lie inside their arrays if and only if the
pairs of the rotary step fit: dim and kv_dim are even.
-/

namespace Xv6Lab.Llm

variable {n h l pos token i t : Nat} {out x k : Pointer} {b : Block} {e : Access} {m : Model}

section Bounds

def Inside (size : Block → Nat) (a : Access) : Prop := a.index < size a.block

def Fits (size : Block → Nat) (p : Pointer) (n : Nat) : Prop := p.offset + n ≤ size p.block

variable {F : Type} {ops : Floats F} {size : Block → Nat} {P : Access → Prop}

theorem Fits.mono {p : Pointer} {k : Nat} (fits : Fits size p n) (fewer : k ≤ n) : Fits size p k := by
  unfold Fits at *
  omega

theorem readAt_inside {p : Pointer} (fits : Fits size p n) (small : i < n) :
    Logs (Inside size) (readAt (F := F) p i) := by
  apply logs_event
  unfold Fits at fits
  unfold Inside
  dsimp only
  omega

theorem writeAt_inside {p : Pointer} (fits : Fits size p n) (small : i < n) (v : F) :
    Logs (Inside size) (writeAt p i v) := by
  apply logs_event
  unfold Fits at fits
  unfold Inside
  dsimp only
  omega

theorem forLoop_logs {body : Nat → Compute F Unit} (each : ∀ i < n, Logs P (body i)) :
    Logs P (forLoop n body) :=
  logs_loop () fun i _ high _ => each i (by omega)

theorem sumLoop_logs {body : Nat → F → Compute F F} (each : ∀ i < n, ∀ acc, Logs P (body i acc)) :
    Logs P (sumLoop ops n body) :=
  logs_loop _ fun i _ high acc => each i (by omega) acc

theorem rmsnorm_inside {weight : Pointer} (eps : F) (fitsOut : Fits size out n)
    (fitsX : Fits size x n) (fitsWeight : Fits size weight n) :
    Logs (Inside size) (rmsnorm ops out x weight n eps) := by
  unfold rmsnorm
  apply logs_bind
  · apply sumLoop_logs
    intro i small acc
    exact logs_bind (readAt_inside fitsX small) fun _ => logs_pure _
  · intro ss
    apply forLoop_logs
    intro i small
    refine logs_bind (readAt_inside fitsWeight small) fun w => ?_
    exact logs_bind (readAt_inside fitsX small) fun v => writeAt_inside fitsOut small _

theorem matmul_inside {w : Pointer} {d : Nat} (fitsOut : Fits size out d) (fitsX : Fits size x n)
    (fitsW : Fits size w (d * n)) : Logs (Inside size) (matmul ops out x w n d) := by
  apply forLoop_logs
  intro i row
  apply logs_bind
  · apply sumLoop_logs
    intro j column acc
    have index : i * n + j < d * n := by
      have next : (i + 1) * n ≤ d * n := Nat.mul_le_mul_right n row
      rw [Nat.succ_mul] at next
      omega
    refine logs_bind (readAt_inside fitsW index) fun a => ?_
    exact logs_bind (readAt_inside fitsX column) fun b => logs_pure _
  · intro val
    exact writeAt_inside fitsOut row val

theorem softmax_inside (fits : Fits size x (n + 1)) :
    Logs (Inside size) (softmax ops x (n + 1)) := by
  unfold softmax
  apply logs_bind (readAt_inside fits (by omega))
  intro first
  apply logs_bind
  · apply logs_loop
    intro i low high acc
    exact logs_bind (readAt_inside fits (by omega)) fun _ => logs_pure _
  · intro max
    apply logs_bind
    · apply sumLoop_logs
      intro i small acc
      refine logs_bind (readAt_inside fits small) fun v => ?_
      refine logs_bind (writeAt_inside fits small _) fun _ => ?_
      exact logs_bind (readAt_inside fits small) fun _ => logs_pure _
    · intro sum
      apply forLoop_logs
      intro i small
      exact logs_bind (readAt_inside fits small) fun v => writeAt_inside fits small _

theorem copyFloats_inside (fitsOut : Fits size out n) (fitsX : Fits size x n) :
    Logs (Inside size) (copyFloats (F := F) out x n) := by
  apply forLoop_logs
  intro i small
  exact logs_bind (readAt_inside fitsX small) fun v => writeAt_inside fitsOut small v

theorem accumulate_inside {y : Pointer} (fitsX : Fits size x n) (fitsY : Fits size y n) :
    Logs (Inside size) (accumulate ops x y n) := by
  apply forLoop_logs
  intro i small
  refine logs_bind (readAt_inside fitsX small) fun a => ?_
  exact logs_bind (readAt_inside fitsY small) fun b => writeAt_inside fitsX small _

theorem rotatePair_inside {vec : Pointer} (fcr fci : F) (fits : Fits size vec (h + 2)) :
    Logs (Inside size) (rotatePair ops vec h fcr fci) := by
  refine logs_bind (readAt_inside fits (by omega)) fun v0 => ?_
  refine logs_bind (readAt_inside fits (by omega)) fun v1 => ?_
  refine logs_bind (writeAt_inside fits (by omega) _) fun _ => ?_
  exact writeAt_inside fits (by omega) _

theorem gate_inside (fitsHb : Fits size Block.hb.start n) (fitsHb2 : Fits size Block.hb2.start n) :
    Logs (Inside size) (gate ops n) := by
  apply forLoop_logs
  intro i small
  refine logs_bind (readAt_inside fitsHb small) fun val => ?_
  exact logs_bind (readAt_inside fitsHb2 small) fun b => writeAt_inside fitsHb small _

end Bounds

/-- The number of elements of each block: what alloc_state has asked for, and the distance to the
next pointer of map_weights. The last region of the weights, and wcls that can be the same, have the
size of the table. -/
def Model.size (m : Model) : Block → Nat
  | .x => m.state.x / 4
  | .xb => m.state.xb / 4
  | .xb2 => m.state.xb2 / 4
  | .hb => m.state.hb / 4
  | .hb2 => m.state.hb2 / 4
  | .q => m.state.q / 4
  | .att => m.state.att / 4
  | .logits => m.state.logits / 4
  | .keyCache => m.state.keyCache / 4
  | .valueCache => m.state.valueCache / 4
  | .wq => m.weights.wk - m.weights.wq
  | .wk => m.weights.wv - m.weights.wk
  | .wv => m.weights.wo - m.weights.wv
  | .wo => m.weights.w1 - m.weights.wo
  | .w1 => m.weights.w2 - m.weights.w1
  | .w2 => m.weights.w3 - m.weights.w2
  | .w3 => m.weights.rmsAttWeight - m.weights.w3
  | .rmsAttWeight => m.weights.rmsFfnWeight - m.weights.rmsAttWeight
  | .rmsFfnWeight => m.weights.rmsFinalWeight - m.weights.rmsFfnWeight
  | .rmsFinalWeight => m.weights.wcls - m.weights.rmsFinalWeight
  | .wcls => m.config.table
  | .tokenEmbeddingTable => m.config.table

/-- Where a block of weights starts in weight_data. -/
def Weights.start (w : Weights) : Block → Option Nat
  | .wq => some w.wq
  | .wk => some w.wk
  | .wv => some w.wv
  | .wo => some w.wo
  | .w1 => some w.w1
  | .w2 => some w.w2
  | .w3 => some w.w3
  | .rmsAttWeight => some w.rmsAttWeight
  | .rmsFfnWeight => some w.rmsFfnWeight
  | .rmsFinalWeight => some w.rmsFinalWeight
  | .wcls => some w.wcls
  | .tokenEmbeddingTable => some w.tokenEmbeddingTable
  | _ => none

/-- The element is one of the block, and inside weight_data if it is a weight. -/
def Model.InMemory (m : Model) (a : Access) : Prop :=
  Inside m.size a ∧ ∀ start, m.weights.start a.block = some start → start + a.index < m.weightCount

def Config.heads (p : Config) : Nat := p.nHeads.toNat
def Config.kvHeads (p : Config) : Nat := p.nKvHeads.toNat
def Config.headWidth (p : Config) : Nat := p.headSize.toNat
def Config.group (p : Config) : Nat := (p.nHeads.tdiv p.nKvHeads).toNat
def Config.positions (p : Config) : Nat := p.seqLen.toNat

structure Sized (p : Config) (size : Block → Nat) : Prop where
  x : size .x = p.width
  xb : size .xb = p.width
  xb2 : size .xb2 = p.width
  hb : size .hb = p.hidden
  hb2 : size .hb2 = p.hidden
  q : size .q = p.width
  att : size .att = p.heads * p.positions
  logits : size .logits = p.vocab
  keyCache : size .keyCache = p.layers * p.positions * p.kvWidth
  valueCache : size .valueCache = p.layers * p.positions * p.kvWidth
  wq : size .wq = p.attention
  wk : size .wk = p.attentionKv
  wv : size .wv = p.attentionKv
  wo : size .wo = p.attention
  w1 : size .w1 = p.feedForward
  w2 : size .w2 = p.feedForward
  w3 : size .w3 = p.feedForward
  rmsAttWeight : size .rmsAttWeight = p.norms
  rmsFfnWeight : size .rmsFfnWeight = p.norms
  rmsFinalWeight : size .rmsFinalWeight = p.width
  wcls : size .wcls = p.table
  tokenEmbeddingTable : size .tokenEmbeddingTable = p.table
  heads : p.width = p.heads * p.headWidth
  kvHeads : p.kvWidth = p.kvHeads * p.headWidth
  groups : p.heads = p.kvHeads * p.group
  group_pos : 0 < p.group

section Layer
variable {F : Type} {ops : Floats F} {size : Block → Nat} {p : Config}

theorem row_le {rows : Nat} (small : l < rows) : l * n + n ≤ rows * n := by
  have next : (l + 1) * n ≤ rows * n := Nat.mul_le_mul_right n small
  rwa [Nat.succ_mul] at next

theorem start_fits (whole : n ≤ size b) : Fits size b.start n := by
  simpa [Fits, Block.start] using whole

theorem plus_fits {k : Nat} (whole : k + n ≤ size b) : Fits size (b.start.plus k) n := by
  simpa [Fits, Block.start, Pointer.plus] using whole

theorem cacheRow_le (layer : l < p.layers) (position : t < p.positions) :
    layerOffset p l + t * p.kvWidth + p.kvWidth ≤ p.layers * p.positions * p.kvWidth := by
  have rows : t * p.kvWidth + p.kvWidth ≤ p.positions * p.kvWidth := row_le position
  have layers : l * p.positions + p.positions ≤ p.layers * p.positions := row_le layer
  calc layerOffset p l + t * p.kvWidth + p.kvWidth
      ≤ l * p.positions * p.kvWidth + p.positions * p.kvWidth := by
        unfold layerOffset Config.positions at *
        omega
    _ = (l * p.positions + p.positions) * p.kvWidth := by ring
    _ ≤ p.layers * p.positions * p.kvWidth := Nat.mul_le_mul_right _ layers

section
variable (sized : Sized p size)
include sized

theorem headOffset_le (head : h < p.heads) :
    h / p.group * p.headWidth + p.headWidth ≤ p.kvWidth := by
  rw [sized.kvHeads]
  apply row_le
  rw [Nat.div_lt_iff_lt_mul sized.group_pos, ← sized.groups]
  exact head

theorem headRow_fits {cache : Block} (whole : size cache = p.layers * p.positions * p.kvWidth)
    (layer : l < p.layers) (position : t < p.positions) (head : h < p.heads) :
    Fits size (headRow p cache l t h) p.headWidth := by
  have row := cacheRow_le layer position
  have part := headOffset_le sized head
  unfold Fits headRow cacheRow Config.group Config.headWidth at *
  simp only [Pointer.plus, Block.start, whole]
  omega

theorem attendHead_inside (layer : l < p.layers)
    (position : pos < p.positions) (head : h < p.heads) :
    Logs (Inside size) (attendHead ops p l pos h) := by
  have row := row_le (n := p.headWidth) head
  have fitsQ : Fits size (Block.q.start.plus (h * p.headWidth)) p.headWidth :=
    plus_fits (by rw [sized.q, sized.heads]; exact row)
  have fitsXb : Fits size (Block.xb.start.plus (h * p.headWidth)) p.headWidth :=
    plus_fits (by rw [sized.xb, sized.heads]; exact row)
  have fitsAtt : Fits size (Block.att.start.plus (h * p.positions)) (pos + 1) :=
    (plus_fits (by rw [sized.att]; exact row_le head)).mono position
  unfold attendHead
  refine logs_bind (forLoop_logs fun t earlier => ?_) fun _ => ?_
  · have fitsKt := headRow_fits sized sized.keyCache (t := t) layer (by omega) head
    refine logs_bind (sumLoop_logs fun i small acc => ?_) fun score => ?_
    · refine logs_bind (readAt_inside fitsQ small) fun a => ?_
      exact logs_bind (readAt_inside fitsKt small) fun b => logs_pure _
    · exact writeAt_inside fitsAtt earlier _
  refine logs_bind (softmax_inside fitsAtt) fun _ => ?_
  refine logs_bind (forLoop_logs fun i small => writeAt_inside fitsXb small _) fun _ => ?_
  apply forLoop_logs
  intro t earlier
  have fitsVt := headRow_fits sized sized.valueCache (t := t) layer (by omega) head
  refine logs_bind (readAt_inside fitsAtt earlier) fun a => ?_
  apply forLoop_logs
  intro i small
  refine logs_bind (readAt_inside fitsXb small) fun b => ?_
  exact logs_bind (readAt_inside fitsVt small) fun c => writeAt_inside fitsXb small _

theorem rotary_inside (fitsK : Fits size k p.kvWidth)
    (even : 2 ∣ p.width) (evenKv : 2 ∣ p.kvWidth) : Logs (Inside size) (rotary ops p k pos) := by
  apply forLoop_logs
  intro i small
  apply forLoop_logs
  intro vi turn
  apply rotatePair_inside
  by_cases first : vi = 0
  · rw [if_pos first]
    exact start_fits (by rw [sized.q]; omega)
  · rw [if_neg first]
    split at turn
    · exact fitsK.mono (by omega)
    · omega

theorem forwardLayer_inside (layer : l < p.layers)
    (position : pos < p.positions) (even : 2 ∣ p.width) (evenKv : 2 ∣ p.kvWidth) :
    Logs (Inside size) (forwardLayer ops p pos l) := by
  have fitsX : Fits size Block.x.start p.width := start_fits sized.x.ge
  have fitsXb : Fits size Block.xb.start p.width := start_fits sized.xb.ge
  have fitsXb2 : Fits size Block.xb2.start p.width := start_fits sized.xb2.ge
  have fitsQ : Fits size Block.q.start p.width := start_fits sized.q.ge
  have fitsHb : Fits size Block.hb.start p.hidden := start_fits sized.hb.ge
  have fitsHb2 : Fits size Block.hb2.start p.hidden := start_fits sized.hb2.ge
  have fitsK : Fits size (cacheRow p .keyCache l pos) p.kvWidth :=
    plus_fits (by rw [sized.keyCache]; exact cacheRow_le layer position)
  have fitsV : Fits size (cacheRow p .valueCache l pos) p.kvWidth :=
    plus_fits (by rw [sized.valueCache]; exact cacheRow_le layer position)
  have norm := row_le (n := p.width) layer
  have square : l * p.width * p.width + p.width * p.width ≤ p.attention := by
    have := Nat.mul_le_mul_right p.width norm
    rwa [Nat.add_mul] at this
  have keys : l * p.width * p.kvWidth + p.kvWidth * p.width ≤ p.attentionKv := by
    have := Nat.mul_le_mul_right p.kvWidth norm
    rwa [Nat.add_mul, Nat.mul_comm p.width p.kvWidth] at this
  have gates : l * p.hidden * p.width + p.hidden * p.width ≤ p.feedForward := by
    have := Nat.mul_le_mul_right p.width (row_le (n := p.hidden) layer)
    rwa [Nat.add_mul] at this
  have down : l * p.width * p.hidden + p.width * p.hidden ≤ p.feedForward := by
    calc l * p.width * p.hidden + p.width * p.hidden
        = l * p.hidden * p.width + p.hidden * p.width := by ring
      _ ≤ p.feedForward := gates
  unfold forwardLayer
  refine logs_bind (rmsnorm_inside _ fitsXb fitsX (plus_fits (by rw [sized.rmsAttWeight]; exact norm)))
    fun _ => ?_
  refine logs_bind (matmul_inside fitsQ fitsXb (plus_fits (by rw [sized.wq]; exact square))) fun _ => ?_
  refine logs_bind (matmul_inside fitsK fitsXb (plus_fits (by rw [sized.wk]; exact keys))) fun _ => ?_
  refine logs_bind (matmul_inside fitsV fitsXb (plus_fits (by rw [sized.wv]; exact keys))) fun _ => ?_
  refine logs_bind (rotary_inside sized fitsK even evenKv) fun _ => ?_
  refine logs_bind (forLoop_logs fun h head => attendHead_inside sized layer position head) fun _ => ?_
  refine logs_bind (matmul_inside fitsXb2 fitsXb (plus_fits (by rw [sized.wo]; exact square))) fun _ => ?_
  refine logs_bind (accumulate_inside fitsX fitsXb2) fun _ => ?_
  refine logs_bind (rmsnorm_inside _ fitsXb fitsX (plus_fits (by rw [sized.rmsFfnWeight]; exact norm)))
    fun _ => ?_
  refine logs_bind (matmul_inside fitsHb fitsXb (plus_fits (by rw [sized.w1]; exact gates))) fun _ => ?_
  refine logs_bind (matmul_inside fitsHb2 fitsXb (plus_fits (by rw [sized.w3]; exact gates))) fun _ => ?_
  refine logs_bind (gate_inside fitsHb fitsHb2) fun _ => ?_
  refine logs_bind (matmul_inside fitsXb fitsHb (plus_fits (by rw [sized.w2]; exact down))) fun _ => ?_
  exact accumulate_inside fitsX fitsXb

theorem llmForward_inside (known : token < p.vocab)
    (position : pos < p.positions) (even : p.layers = 0 ∨ (2 ∣ p.width ∧ 2 ∣ p.kvWidth)) :
    Logs (Inside size) (llmForward ops p token pos) := by
  have fitsX : Fits size Block.x.start p.width := start_fits sized.x.ge
  have fitsLogits : Fits size Block.logits.start p.vocab := start_fits sized.logits.ge
  have table : Fits size (Block.tokenEmbeddingTable.start.plus (token * p.width)) p.width :=
    plus_fits (by rw [sized.tokenEmbeddingTable]; exact row_le known)
  unfold llmForward
  refine logs_bind (copyFloats_inside fitsX table) fun _ => ?_
  refine logs_bind (forLoop_logs fun l layer => ?_) fun _ => ?_
  · rcases even with none | ⟨even, evenKv⟩
    · omega
    · exact forwardLayer_inside sized layer position even evenKv
  refine logs_bind (rmsnorm_inside _ fitsX fitsX (start_fits sized.rmsFinalWeight.ge)) fun _ => ?_
  exact matmul_inside fitsLogits fitsX (start_fits sized.wcls.ge)

end
end Layer

section Rotary
variable {F : Type} {ops : Floats F} {p : Config}

def OwnRow (p : Config) (k : Pointer) (a : Access) : Prop :=
  a.write = true → a.block = .keyCache → k.offset ≤ a.index ∧ a.index < k.offset + p.kvWidth

theorem rotary_own_row (evenKv : 2 ∣ p.kvWidth) : Logs (OwnRow p k) (rotary ops p k pos) := by
  apply forLoop_logs
  intro i small
  apply forLoop_logs
  intro vi turn
  -- only the writes of the second turn can be to the key cache
  have writes : ∀ d < 2, OwnRow p k ⟨(if vi = 0 then Block.q.start else k).block,
      (if vi = 0 then Block.q.start else k).offset + (2 * i + d), true⟩ := by
    intro d one written cached
    by_cases first : vi = 0
    · rw [first] at cached
      cases cached
    · rw [if_neg first]
      split at turn
      · exact ⟨Nat.le_add_right _ _, by dsimp only; omega⟩
      · omega
  have reads : ∀ block index, OwnRow p k ⟨block, index, false⟩ := by
    intro block index written
    cases written
  refine logs_bind (logs_event _ (reads _ _)) fun v0 => ?_
  refine logs_bind (logs_event _ (reads _ _)) fun v1 => ?_
  refine logs_bind (logs_event _ (writes 0 (by omega))) fun _ => ?_
  exact logs_event _ (writes 1 (by omega))

theorem rotary_emits (i vi : Nat) (pair : i < (p.width + 1) / 2)
    (turn : vi < if 2 * i < p.kvWidth then 2 else 1)
    (emits : ∀ fcr fci, Emits e (rotatePair ops (if vi = 0 then Block.q.start else k) (2 * i) fcr fci)) :
    Emits e (rotary ops p k pos) := by
  apply emits_loop () (Nat.zero_le i) (by omega)
  intro _
  apply emits_loop () (Nat.zero_le vi) (by omega)
  intro _
  exact emits _ _

theorem rotary_reads_behind_q (odd : ¬2 ∣ p.width) :
    Emits ⟨.q, p.width, false⟩ (rotary ops p k pos) := by
  apply rotary_emits (p.width / 2) 0 (by omega)
  · split <;> omega
  · intro fcr fci
    have last : 2 * (p.width / 2) + 1 = p.width := by omega
    apply emits_second
    intro v0
    apply emits_first
    have read := emits_event (σ := Block → Nat → F) (e := (⟨.q, p.width, false⟩ : Access))
      fun s => (s .q p.width, s)
    simpa [readAt, Block.start, last] using read

theorem rotary_writes_behind_row (odd : ¬2 ∣ p.kvWidth) (narrow : p.kvWidth ≤ p.width) :
    Emits ⟨k.block, k.offset + p.kvWidth, true⟩ (rotary ops p k pos) := by
  apply rotary_emits (p.kvWidth / 2) 1 (by omega)
  · rw [if_pos (by omega)]
    omega
  · intro fcr fci
    have last : 2 * (p.kvWidth / 2) + 1 = p.kvWidth := by omega
    apply emits_second
    intro v0
    apply emits_second
    intro v1
    apply emits_second
    intro _
    rw [if_neg (by decide)]
    simp only [writeAt, last]
    exact emits_event _

theorem llmForward_emits (layer : l < p.layers)
    (emits : Emits e (rotary ops p (cacheRow p .keyCache l pos) pos)) :
    Emits e (llmForward ops p token pos) := by
  apply emits_second
  intro _
  apply emits_first
  apply emits_loop () (Nat.zero_le l) (by omega)
  intro _
  apply emits_second
  intro _
  apply emits_second
  intro _
  apply emits_second
  intro _
  apply emits_second
  intro _
  exact emits_first emits

end Rotary

/-- llm_forward stays inside the blocks, and its rotary step inside the row of pos. -/
structure ComputesInBounds {F : Type} (ops : Floats F) (m : Model) (token pos : Nat) : Prop where
  inside : Logs (Inside m.size) (llmForward ops m.config token pos)
  own_row : ∀ l < m.config.layers,
    Logs (OwnRow m.config (cacheRow m.config .keyCache l pos))
      (rotary ops m.config (cacheRow m.config .keyCache l pos) pos)

theorem computesInBounds_iff {F : Type} (ops : Floats F) (sized : Sized m.config m.size)
    (narrow : m.config.kvWidth ≤ m.config.width) (known : token < m.config.vocab)
    (position : pos < m.config.positions) : ComputesInBounds ops m token pos ↔
      m.config.layers = 0 ∨ (2 ∣ m.config.width ∧ 2 ∣ m.config.kvWidth) := by
  have : Nonempty (Block → Nat → F) := ⟨fun _ _ => ops.ofInt 0⟩
  constructor
  · intro bounds
    rcases Nat.eq_zero_or_pos m.config.layers with none | layer
    · exact .inl none
    refine .inr ⟨?_, ?_⟩
    · by_contra odd
      refine Emits.refutes (llmForward_emits layer (rotary_reads_behind_q odd)) ?_ bounds.inside
      simp [Inside, sized.q]
    · by_contra odd
      refine Emits.refutes (rotary_writes_behind_row odd narrow) ?_ (bounds.own_row 0 layer)
      intro row
      have inside := row rfl rfl
      dsimp only at inside
      omega
  · intro even
    refine ⟨llmForward_inside sized known position even, ?_⟩
    intro l layer
    rcases even with none | ⟨-, evenKv⟩
    · omega
    · exact rotary_own_row evenKv

section Loading

theorem nonneg_of_u64_lt {n : Int} (ints : IsInt n) (small : u64 n < 2 ^ 62) : 0 ≤ n ∧ u64 n = n.toNat := by
  have := ints.1
  have := ints.2
  unfold u64 at *
  omega

theorem first_le_product {a b c : Nat} (b_pos : 0 < b) (c_pos : 0 < c) : a ≤ a * b * c :=
  (Nat.le_mul_of_pos_right a b_pos).trans (Nat.le_mul_of_pos_right _ c_pos)

section
variable (loaded : Loaded m) (some_position : 0 < m.config.positions)
include loaded some_position

theorem Loaded.seqLen_eq : u64 m.config.seqLen = m.config.positions :=
  u64_of_nonneg (by unfold Config.positions at some_position; omega) loaded.seqLen

theorem Loaded.nonneg : m.config.Nonneg := by
  have kv := (shape_of_accepted loaded.accepted).kvDim_le
  have kvDim : u64 m.config.kvDim = m.config.kvWidth := by
    have := loaded.ints.dim.2
    exact u64_of_nonneg (by omega) ⟨by omega, by omega⟩
  refine ⟨?_, u64_of_nonneg (by omega) loaded.ints.dim, kvDim, ?_, ?_⟩
  · have bound := first_le_product (a := u64 m.config.nLayers) (b := u64 m.config.seqLen)
      (c := u64 m.config.kvDim) (by rw [loaded.seqLen_eq some_position]; exact some_position)
      (by rw [kvDim]; unfold Config.kvWidth; omega)
    have := loaded.keyCache.floats
    have := loaded.keyCache.small
    exact (nonneg_of_u64_lt loaded.ints.nLayers (by omega)).2
  · have := loaded.hb.floats
    have := loaded.hb.small
    exact (nonneg_of_u64_lt loaded.ints.hiddenDim (by omega)).2
  · have := loaded.logits.floats
    have := loaded.logits.small
    exact (nonneg_of_u64_lt loaded.ints.vocabSize (by omega)).2

theorem Loaded.tiles : Tiles 0 (regions m.config m.weights) m.config.total ∧
    (m.config.sharedClassifier ≠ 0 → m.weights.wcls = m.weights.tokenEmbeddingTable) ∧
    m.weightCount = m.config.total % 2 ^ 64 := by
  have nonneg := loaded.nonneg some_position
  obtain ⟨fit, count⟩ := expectedWeightCount_ok nonneg loaded.counted
  obtain ⟨w, mapped, tiles, shared⟩ := mapWeights_of_fit nonneg fit
  rw [loaded.mapped] at mapped
  cases mapped
  exact ⟨tiles, shared, count⟩

/-- The pointers of map_weights, one after the other. -/
theorem Loaded.pointers : m.weights.wq = 0 ∧ m.weights.wk = m.weights.wq + m.config.attention ∧
    m.weights.wv = m.weights.wk + m.config.attentionKv ∧
    m.weights.wo = m.weights.wv + m.config.attentionKv ∧
    m.weights.w1 = m.weights.wo + m.config.attention ∧
    m.weights.w2 = m.weights.w1 + m.config.feedForward ∧
    m.weights.w3 = m.weights.w2 + m.config.feedForward ∧
    m.weights.rmsAttWeight = m.weights.w3 + m.config.feedForward ∧
    m.weights.rmsFfnWeight = m.weights.rmsAttWeight + m.config.norms ∧
    m.weights.rmsFinalWeight = m.weights.rmsFfnWeight + m.config.norms ∧
    m.weights.wcls = m.weights.rmsFinalWeight + m.config.width ∧
    m.weights.wcls ≤ m.weights.tokenEmbeddingTable ∧
    m.weights.tokenEmbeddingTable + m.config.table = m.config.total := by
  obtain ⟨tiles, shared, -⟩ := loaded.tiles some_position
  by_cases own : m.config.sharedClassifier = 0
  · simp only [regions, own, if_true, List.cons_append, List.nil_append, Tiles] at tiles
    omega
  · simp only [regions, own, if_false, List.cons_append, List.nil_append, Tiles] at tiles
    have := shared own
    omega

/-- If the number of weights has not wrapped, all of them are inside weight_data. -/
theorem Loaded.inMemory (noWrap : m.config.total < 2 ^ 64) (inside : Inside m.size e) : m.InMemory e := by
  refine ⟨inside, fun start here => ?_⟩
  have count := (loaded.tiles some_position).2.2
  have pointers := loaded.pointers some_position
  rw [Nat.mod_eq_of_lt noWrap] at count
  unfold Inside at inside
  generalize e.block = block at here inside
  cases block <;> simp only [Weights.start, Option.some.injEq, reduceCtorEq] at here <;>
    simp only [Model.size] at inside <;> omega

theorem sized_of_loaded : Sized m.config m.size := by
  have shape := shape_of_accepted loaded.accepted
  have nonneg := loaded.nonneg some_position
  have seqLen := loaded.seqLen_eq some_position
  have pointers := loaded.pointers some_position
  have nHeads := u64_of_nonneg shape.nHeads_pos.le loaded.nHeads
  have attention : u64 m.config.nHeads * u64 m.config.seqLen < 2 ^ 64 := by
    rw [nHeads, seqLen]
    have := loaded.nHeads.2
    have := loaded.seqLen.2
    unfold Config.positions
    calc m.config.nHeads.toNat * m.config.seqLen.toNat
        ≤ 2 ^ 31 * 2 ^ 31 := Nat.mul_le_mul (by omega) (by omega)
      _ < 2 ^ 64 := by decide
  have floats : ∀ {bytes count : Nat}, Allocated bytes count → bytes / 4 = count := by
    intro bytes count allocated
    rw [allocated.floats, Nat.mul_div_cancel _ (by decide)]
  have heads : m.config.width = m.config.heads * m.config.headWidth := by
    unfold Config.width Config.heads Config.headWidth
    rw [← Int.toNat_mul shape.nHeads_pos.le shape.headSize_pos.le, ← shape.heads]
  have groups : m.config.heads = m.config.kvHeads * m.config.group := by
    unfold Config.heads Config.kvHeads Config.group
    rw [← Int.toNat_mul shape.nKvHeads_pos.le shape.group_pos.le, ← shape.groups]
  constructor
  case x => exact (floats loaded.x).trans nonneg.dim
  case xb => exact (floats loaded.xb).trans nonneg.dim
  case xb2 => exact (floats loaded.xb2).trans nonneg.dim
  case hb => exact (floats loaded.hb).trans nonneg.hiddenDim
  case hb2 => exact (floats loaded.hb2).trans nonneg.hiddenDim
  case q => exact (floats loaded.q).trans nonneg.dim
  case att =>
    have size := floats loaded.att
    rwa [Nat.mod_eq_of_lt attention, nHeads, seqLen] at size
  case logits => exact (floats loaded.logits).trans nonneg.vocabSize
  case keyCache =>
    have size := floats loaded.keyCache
    rwa [nonneg.layers, seqLen, nonneg.kvDim] at size
  case valueCache =>
    have size := floats loaded.valueCache
    rwa [nonneg.layers, seqLen, nonneg.kvDim] at size
  case heads => exact heads
  case kvHeads => exact Int.toNat_mul shape.nKvHeads_pos.le shape.headSize_pos.le
  case groups => exact groups
  case group_pos =>
    have := shape.group_pos
    unfold Config.group
    omega
  case wcls => rfl
  case tokenEmbeddingTable => rfl
  all_goals
    simp only [Model.size]
    omega

end

theorem forward_in_bounds_iff_even {F : Type} (ops : Floats F) (granted : List Nat → Bool)
    (path : String) (file : Option (List UInt8)) :
    match llmModelLoad granted path file with
    | .ok m => ∀ (token : Fin m.config.vocab) (pos : Fin m.config.positions),
        ComputesInBounds ops m token pos ↔
          m.config.layers = 0 ∨ (2 ∣ m.config.width ∧ 2 ∣ m.config.kvWidth)
    | .error _ => True := by
  cases load : llmModelLoad granted path file with
  | error _ => trivial
  | ok m =>
    intro token pos
    have loaded := loaded_of_load load
    have narrow := (shape_of_accepted loaded.accepted).kvDim_le.2
    have sized := sized_of_loaded loaded (Nat.zero_lt_of_lt pos.isLt)
    exact computesInBounds_iff ops sized (by unfold Config.kvWidth Config.width; omega) token.isLt pos.isLt

def odd : Config := ⟨1, 0, 1, 1, 1, 1, 1, 0, 0, 1⟩

def toyFloats : Floats Int where
  add := (· + ·)
  sub := (· - ·)
  mul := (· * ·)
  div := (· / ·)
  neg := (- ·)
  ofInt := id
  ofBits := id
  greater := fun a b => decide (a > b)
  sqrtApprox := id
  powApprox := fun a _ => a
  expApprox := id
  cosApprox := id
  sinApprox := id

theorem odd_out_of_bounds :
    ∃ m, llmModelLoad (fun _ => true) "odd.linf" (some (modelFile odd (List.replicate 32 0))) = .ok m ∧
      0 < m.config.vocab ∧ 0 < m.config.positions ∧ ¬ ComputesInBounds toyFloats m 0 0 := by
  have ran : (llmModelLoad (fun _ => true) "odd.linf"
      (some (modelFile odd (List.replicate 32 0)))).toOption.map Model.config = some odd := by decide +kernel
  obtain ⟨m, load, config⟩ := ok_of_toOption ran
  have loaded := loaded_of_load load
  have token : 0 < m.config.vocab := by rw [config]; decide
  have position : 0 < m.config.positions := by rw [config]; decide
  refine ⟨m, load, token, position, ?_⟩
  rw [computesInBounds_iff toyFloats (sized_of_loaded loaded position) (by rw [config]; decide) token position,
    config]
  decide

end Loading
end Xv6Lab.Llm
