import Xv6Lab.Llm.Ids
import Xv6Lab.Llm.InBounds
import Xv6Lab.Llm.RoundTrip

/-!
The main loop of next: the prompt, and then the tokens that the model picks, go
through llm_forward one position after the other.
-/

namespace Xv6Lab.Llm

section Next
variable {F : Type} (ops : Floats F)

def sampleArgmax (n : Nat) : Compute F Nat := do
  let first ← readAt Block.logits.start 0
  let best ← Traced.loop (fun i best => do
    let v ← readAt Block.logits.start i
    if ops.greater v best.2 then return (i, ← readAt Block.logits.start i) else return best)
    (n - 1) 1 (0, first)
  return best.1

variable (p : Config)

/-- The loop over the prompt; pos behind it. -/
def evaluate : List Int → Nat → Compute F Nat
  | [], pos => pure pos
  | token :: rest, pos =>
    if pos < p.positions then do
      llmForward ops p token.toNat pos
      evaluate rest (pos + 1)
    else pure pos

/-- The loop over the steps; the tokens that it prints. logits is set once pos is not 0. -/
def generate (eosId : Int) : Nat → Nat → Compute F (List Nat)
  | 0, _ => pure []
  | steps + 1, pos =>
    if pos < p.positions ∧ pos ≠ 0 then do
      let token ← sampleArgmax ops p.vocab
      if (token : Int) = eosId then return []
      else
        llmForward ops p token pos
        let rest ← generate eosId steps (pos + 1)
        return token :: rest
    else pure []

def next (eosId : Int) (tokens : List Int) (steps : Nat) : Compute F (List Nat) := do
  let pos ← evaluate ops p tokens 0
  generate ops p eosId steps pos

end Next

section Bounds
variable {F : Type} {ops : Floats F} {p : Config} {size : Block → Nat}

theorem sampleArgmax_meets (sized : Sized p size) (some : 0 < p.vocab) :
    Meets (Inside size) (· < p.vocab) (sampleArgmax ops p.vocab) := by
  have reads (i : Nat) (small : i < p.vocab) :=
    (readAt_inside (F := F) (start_fits sized.logits.ge) small).meets
  refine meets_bind (reads 0 some) fun first _ => ?_
  refine meets_bind (Q := (·.1 < p.vocab)) ?_ fun best small => meets_pure small
  refine meets_loop some fun i best high small => meets_bind (reads i (by omega)) fun v _ => ?_
  split_ifs
  · exact meets_bind (reads i (by omega)) fun _ _ => meets_pure (by dsimp only; omega)
  · exact meets_pure small

variable {P : Access → Prop} (sized : 0 < p.positions → Sized p size) (inside : 0 < p.positions → ∀ a, Inside size a → P a)
  (even : p.layers = 0 ∨ (2 ∣ p.width ∧ 2 ∣ p.kvWidth)) {pos : Nat} (some : pos ≠ 0 → 0 < p.vocab)
include sized inside even

theorem forward_meets {token : Nat} (known : token < p.vocab) (position : pos < p.positions) :
    Meets P (fun _ => True) (llmForward ops p token pos) :=
  (llmForward_inside (sized (by omega)) known position even).meets.mono (inside (by omega))

include some

theorem evaluate_meets {tokens : List Int} (known : ∀ token ∈ tokens, token.toNat < p.vocab) :
    Meets P (fun pos => pos ≠ 0 → 0 < p.vocab) (evaluate ops p tokens pos) := by
  induction tokens generalizing pos with
  | nil => exact meets_pure some
  | cons token rest ih =>
    rw [List.forall_mem_cons] at known
    rw [evaluate]
    split_ifs with position
    · exact meets_bind (forward_meets sized inside even known.1 position) fun _ _ =>
        ih (fun _ => by omega) known.2
    · exact meets_pure some

theorem generate_meets (eosId : Int) (steps : Nat) : Meets P
    (fun tokens => tokens.length ≤ steps ∧ tokens.length ≤ p.positions - pos ∧
      ∀ token ∈ tokens, token < p.vocab ∧ (token : Int) ≠ eosId) (generate ops p eosId steps pos) := by
  induction steps generalizing pos with
  | zero => exact meets_pure (by simp)
  | succ steps ih =>
    rw [generate]
    split_ifs with position
    · have sampled : Meets (Inside size) (· < p.vocab) (sampleArgmax ops p.vocab) :=
        sampleArgmax_meets (sized (by omega)) (some position.2)
      refine meets_bind (sampled.mono (inside (by omega))) fun token known => ?_
      split_ifs with last
      · exact meets_pure (by simp)
      · refine meets_bind (forward_meets sized inside even known position.1) fun _ _ => ?_
        refine meets_bind (ih fun _ => some position.2) ?_
        rintro rest ⟨few, room, valid⟩
        refine meets_pure ⟨?_, ?_, List.forall_mem_cons.mpr ⟨⟨known, last⟩, valid⟩⟩ <;>
          rw [List.length_cons] <;> omega
    · exact meets_pure (by simp)

end Bounds

/-- With a tokenizer that belongs to the model and gives ids in range only, and a number of weights
that has not wrapped, next stays inside the arrays of the model whatever the prompt and the weights
are. It prints no more tokens than steps and positions allow, and each has a piece. -/
theorem next_in_bounds {F : Type} (ops : Floats F) (granted : List Nat → Bool) (model tokenizer : String)
    (file file' : Option (List UInt8)) :
    match llmModelLoad granted model file, llmTokenizerLoad granted tokenizer file' with
    | .ok m, .ok t => t.vocabSize = m.config.vocabSize → EncodesInRange t → m.config.total < 2 ^ 64 →
        m.config.layers = 0 ∨ (2 ∣ m.config.width ∧ 2 ∣ m.config.kvWidth) →
        ∀ text nul tokens maxTokens b steps, text nul = 0 →
        llmEncode t text true false tokens maxTokens = .ok b →
        Meets m.InMemory (fun printed => printed.length ≤ min steps m.config.positions ∧
            ∀ token : Nat, token ∈ printed → token ≠ t.eosId ∧ llmDecodePiece t token ≠ none)
          (next ops m.config t.eosId b.ids steps)
    | _, _ => True := by
  cases load : llmModelLoad granted model file with
  | error _ => trivial
  | ok m =>
    cases llmTokenizerLoad granted tokenizer file' with
    | error _ => trivial
    | ok t =>
      intro vocab encodes noWrap even text nul tokens maxTokens b steps ends encoded
      have loaded := loaded_of_load load
      have sized := sized_of_loaded loaded
      have inside : 0 < m.config.positions → ∀ a, Inside m.size a → m.InMemory a :=
        fun some_position _ => loaded.inMemory some_position noWrap
      have known : ∀ token ∈ b.ids, token.toNat < m.config.vocab := fun token member => by
        have range := encodes text nul _ _ _ _ b ends encoded token member
        unfold Tokenizer.InRange at range
        unfold Config.vocab
        omega
      refine meets_bind (evaluate_meets sized inside even (by simp) known) fun pos some s => ?_
      obtain ⟨logs, few, room, printed⟩ := generate_meets sized inside even some t.eosId steps s
      refine ⟨logs, by omega, fun token member => ⟨(printed token member).2, ?_⟩⟩
      have small := (printed token member).1
      unfold Config.vocab at small
      rw [llmDecodePiece, if_neg (by omega)]
      simp

def abModel : Config := ⟨2, 2, 1, 1, 1, 3, 4, 0, 0, 1⟩

def onlyAb : Tokenizer where
  pieces := [[97], [98], [97, 98]]
  initialIds := fun c => if c = 97 then 0 else 1
  specialIds := []
  merges := [⟨0, 1, 2⟩]
  maxPieceLen := 2
  bosId := -1
  eosId := -1
  unkId := -1

theorem onlyAb_encodes : EncodesInRange onlyAb := by
  refine encodes_of_tables (by decide) (by decide) (fun c => ?_) (by decide)
  simp only [byteId, onlyAb]
  split_ifs <;> decide

theorem next_in_bounds_ab : ∃ m b,
    llmModelLoad (fun _ => true) "ab.linf" (some (modelFile abModel (List.replicate 160 0))) = .ok m ∧
    llmTokenizerLoad (fun _ => true) "ab.ltok" (some onlyAb.file) = .ok onlyAb ∧
    llmEncode onlyAb ab true false (fun _ => 0) 10 = .ok b ∧ b.ids = [2] ∧
    Meets m.InMemory (fun printed => printed.length ≤ min 2 m.config.positions ∧
        ∀ token : Nat, token ∈ printed → token ≠ onlyAb.eosId ∧ llmDecodePiece onlyAb token ≠ none)
      (next toyFloats m.config onlyAb.eosId b.ids 2) := by
  have ran : (llmModelLoad (fun _ => true) "ab.linf"
      (some (modelFile abModel (List.replicate 160 0)))).toOption.map Model.config = some abModel := by
    decide +kernel
  have load' : llmTokenizerLoad (fun _ => true) "ab.ltok" (some onlyAb.file) = .ok onlyAb :=
    load_of_data (by decide +kernel)
  have result : (llmEncode onlyAb ab true false (fun _ => 0) 10).toOption.map Buffer.ids = some [2] := by
    decide +kernel
  obtain ⟨m, load, config⟩ := ok_of_toOption ran
  obtain ⟨b, encoded, ids⟩ := ok_of_toOption result
  -- the files are too long to be unfolded
  generalize some (modelFile abModel (List.replicate 160 0)) = file at *
  generalize some onlyAb.file = file' at *
  have bounds := next_in_bounds toyFloats (fun _ => true) "ab.linf" "ab.ltok" file file'
  rw [load, load'] at bounds
  refine ⟨m, b, load, load', encoded, ids, ?_⟩
  exact bounds (by rw [config]; rfl) onlyAb_encodes (by rw [config]; decide)
    (by rw [config]; decide) ab 2 _ 10 b 2 rfl encoded

end Xv6Lab.Llm
