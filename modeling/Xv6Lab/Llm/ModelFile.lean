import Xv6Lab.Llm.Forward

/-!
What llm_model_load has checked of a model that it returns, and the file of a model.
-/

namespace Xv6Lab.Llm

structure Allocated (bytes count : Nat) : Prop where
  floats : bytes = count * 4
  small : bytes < 2 ^ 32

structure Loaded (m : Model) : Prop where
  accepted : m.config.accepted
  ints : m.config.Ints
  nHeads : IsInt m.config.nHeads
  seqLen : IsInt m.config.seqLen
  counted : expectedWeightCount m.config = .ok m.weightCount
  mapped : mapWeights m.config = .ok m.weights
  x : Allocated m.state.x (u64 m.config.dim)
  xb : Allocated m.state.xb (u64 m.config.dim)
  xb2 : Allocated m.state.xb2 (u64 m.config.dim)
  hb : Allocated m.state.hb (u64 m.config.hiddenDim)
  hb2 : Allocated m.state.hb2 (u64 m.config.hiddenDim)
  q : Allocated m.state.q (u64 m.config.dim)
  att : Allocated m.state.att (u64 m.config.nHeads * u64 m.config.seqLen % 2 ^ 64)
  logits : Allocated m.state.logits (u64 m.config.vocabSize)
  keyCache : Allocated m.state.keyCache
    (u64 m.config.nLayers * u64 m.config.seqLen * u64 m.config.kvDim)
  valueCache : Allocated m.state.valueCache
    (u64 m.config.nLayers * u64 m.config.seqLen * u64 m.config.kvDim)

section Checks
variable {granted : List Nat → Bool} {s : Session} {α β : Type}

abbrev Returns (x : Loader α) (Q : α → Prop) (s : Session) : Prop :=
  wp x (fun _ => True) (fun a _ => Q a) s

theorem returns_seq {x : Loader α} {f : α → Loader β} {P : α → Prop} {Q : β → Prop} (first : Returns x P s)
    (rest : ∀ a s, P a → Returns (f a) Q s) : Returns (x >>= f) Q s :=
  wp_seq first fun a s holds => rest a s holds

theorem returns_lift {x : Except Stop α} : Returns (Prog.lift x) (fun a => x = .ok a) s := by
  rw [Returns, wp_lift]
  cases x with
  | error _ => trivial
  | ok a => rfl

theorem returns_any (x : Loader α) : Returns x (fun _ => True) s := by
  unfold Returns wp
  cases x.run s <;> trivial

theorem allocFloats_returns (count : Nat) : Returns (allocFloats granted count) (Allocated · count) s := by
  apply returns_seq returns_lift
  intro bytes s fits
  obtain ⟨rfl, small⟩ := checkedBytes_ok fits
  apply returns_seq (returns_any _)
  intro _ s _
  exact ⟨rfl, small⟩

theorem readInts_returns (stop : Stop) (n : Nat) :
    Returns (need stop (readInts n)) (fun ns => ∀ n ∈ ns, IsInt n) s := by
  simp only [Returns, need, readInts, wp_bind]
  refine wp_post (returns_any _) ?_
  intro bytes s _
  cases bytes with
  | none => trivial
  | some bytes => exact ints_isInt bytes

theorem readConfig_returns :
    Returns readConfig (fun p => p.accepted ∧ p.Ints ∧ IsInt p.nHeads ∧ IsInt p.seqLen) s := by
  unfold readConfig
  apply returns_seq (returns_any _)
  intro magic s _
  apply returns_seq (returns_any _)
  intro version s _
  apply returns_seq (readInts_returns _ _)
  intro config s ints
  apply returns_seq (returns_any _)
  intro reserved s _
  rw [Returns, wp_ite]
  refine ⟨fun _ => trivial, fun _ => ?_⟩
  split
  · rw [wp_ite]
    refine ⟨fun accepted => ⟨accepted, ?_, ?_, ?_⟩, fun _ => trivial⟩
    · exact ⟨ints _ (by simp), ints _ (by simp), ints _ (by simp), ints _ (by simp)⟩
    · exact ints _ (by simp)
    · exact ints _ (by simp)
  · trivial

theorem loadModel_returns : Returns (loadModel granted) Loaded s := by
  unfold loadModel
  apply returns_seq readConfig_returns
  rintro p s ⟨accepted, ints, nHeads, seqLen⟩
  apply returns_seq returns_lift
  intro count s counted
  apply returns_seq (returns_any _)
  intro bytes s _
  apply returns_seq (returns_any _)
  intro data s _
  apply returns_seq returns_lift
  intro w s mapped
  unfold allocState
  simp only [bind_assoc, pure_bind]
  apply returns_seq returns_lift
  intro items s cached
  obtain ⟨rfl, -, -⟩ := checkedMul3_ok cached
  apply returns_seq (allocFloats_returns _)
  intro x s hx
  apply returns_seq (allocFloats_returns _)
  intro xb s hxb
  apply returns_seq (allocFloats_returns _)
  intro xb2 s hxb2
  apply returns_seq (allocFloats_returns _)
  intro hb s hhb
  apply returns_seq (allocFloats_returns _)
  intro hb2 s hhb2
  apply returns_seq (allocFloats_returns _)
  intro q s hq
  apply returns_seq (allocFloats_returns _)
  intro att s hatt
  apply returns_seq (allocFloats_returns _)
  intro logits s hlogits
  apply returns_seq (allocFloats_returns _)
  intro keyCache s hkey
  apply returns_seq (allocFloats_returns _)
  intro valueCache s hvalue
  exact ⟨accepted, ints, nHeads, seqLen, counted, mapped, hx, hxb, hxb2, hhb, hhb2, hq, hatt, hlogits,
    hkey, hvalue⟩

theorem loaded_of_load {path : String} {file : Option (List UInt8)} {m : Model}
    (load : llmModelLoad granted path file = .ok m) : Loaded m := by
  cases file with
  | none => cases load
  | some bytes =>
    have spec : Returns (loadModel granted) Loaded ⟨bytes, []⟩ := loadModel_returns
    simp only [llmModelLoad, StateT.run'_eq] at load
    unfold Returns wp at spec
    cases ran : (loadModel granted).run ⟨bytes, []⟩ with
    | error stop => rw [ran] at load; cases load
    | ok result =>
      rw [ran] at load spec
      cases load
      exact spec

end Checks

def Config.header (p : Config) : List Int :=
  [p.dim, p.hiddenDim, p.nLayers, p.nHeads, p.nKvHeads, p.vocabSize, p.seqLen, p.ropeTheta,
    p.rmsNormEps, p.sharedClassifier]

def modelFile (p : Config) (data : List UInt8) : List UInt8 :=
  intBytes MODEL_MAGIC ++ (intBytes MODEL_VERSION ++ (p.header.flatMap intBytes ++
    ((List.replicate 52 0).flatMap intBytes ++ data)))

end Xv6Lab.Llm
