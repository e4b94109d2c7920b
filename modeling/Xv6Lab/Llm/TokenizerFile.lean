import Xv6Lab.Llm.Format
import Xv6Lab.Llm.Tokenizer

/-!
The file that holds a tokenizer.
-/

namespace Xv6Lab.Llm
open List

def pieceBytes (piece : List UInt8) : List UInt8 := intBytes piece.length ++ piece

def mergeBytes (m : Merge) : List UInt8 := [m.left, m.right, m.out].flatMap intBytes

def Tokenizer.initialTable (t : Tokenizer) : List Int :=
  (List.range 256).map fun c => t.initialIds (UInt8.ofNat c)

def Tokenizer.header (t : Tokenizer) : List Int :=
  [t.vocabSize, t.maxPieceLen, t.bosId, t.eosId, t.unkId, t.specialIds.length, t.merges.length, 0]

def Tokenizer.file (t : Tokenizer) : List UInt8 :=
  intBytes TOKENIZER_MAGIC ++ (intBytes TOKENIZER_VERSION ++ (t.header.flatMap intBytes ++
    ((List.replicate 54 0).flatMap intBytes ++ (t.pieces.flatMap pieceBytes ++
      (t.initialTable.flatMap intBytes ++ (t.specialIds.flatMap intBytes ++
        t.merges.flatMap mergeBytes))))))

/-- What the file says of a tokenizer, with the ids of the 256 bytes as a table. -/
abbrev Tokenizer.data (t : Tokenizer) :=
  (t.pieces, t.merges, t.specialIds, t.header, t.initialTable)

theorem initialTable_getD (t : Tokenizer) : (fun c : UInt8 => t.initialTable.getD c.toNat 0) = t.initialIds := by
  funext c
  have small := c.toNat_lt
  simp [Tokenizer.initialTable, List.getD, small]

theorem Tokenizer.data_injective : Function.Injective Tokenizer.data := by
  intro t u same
  simp only [Tokenizer.data, Tokenizer.header, Prod.mk.injEq, List.cons.injEq] at same
  obtain ⟨pieces, merges, special, ⟨-, longest, bos, eos, unk, -⟩, table⟩ := same
  have initial : t.initialIds = u.initialIds := by rw [← initialTable_getD, table, initialTable_getD]
  cases t
  cases u
  simp_all

theorem load_of_data {t : Tokenizer} {load : Except Stop Tokenizer}
    (ran : load.toOption.map Tokenizer.data = some t.data) : load = .ok t := by
  obtain ⟨loaded, rfl, same⟩ := ok_of_toOption ran
  rw [Tokenizer.data_injective same]

end Xv6Lab.Llm
