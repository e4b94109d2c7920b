import Xv6Lab.Bio.Model

/-!
The invariant of the buffer cache.
-/

namespace Xv6Lab.Bio
open DoublyLinked (IsRing)
variable {Data : Type}

/-- Which blocks are asked for, on devices other than 0. -/
structure Tags where
  uses : Nat → Nat → Bool
  nonzero : ∀ dev n, uses dev n → dev ≠ 0

def Op.refers : Op → Option Nat
  | .acquire b _ _ | .check b _ _ | .fill b _ _ | .mark b _ _ | .ret b _ _ | .drop b => some b
  | _ => none

def Op.tag : Op → Option (Nat × Nat × Nat)
  | .acquire b dev n | .check b dev n | .fill b dev n | .mark b dev n | .ret b dev n =>
    some (b, dev, n)
  | _ => none

def Op.owns : Op → Option Nat
  | .check b _ _ | .fill b _ _ | .mark b _ _ | .ret b _ _ => some b
  | _ => none

/-- Processes that have obtained b from bget and not yet completed brelse. A
process that asks again for a block it holds waits for itself and counts twice. -/
def obtained (op : Nat → Op) (held : Nat → Nat → Option Hold) (b : Nat) : Nat :=
  count PIDS (fun p => (held p b).isSome) + count PIDS (fun p => (op p).refers = some b)

def contents (image : Nat → Nat → Data) (writes : List (BWrite Data)) (dev n : Nat) : Data :=
  match writes.find? (fun write => write.dev = dev ∧ write.blockno = n) with
  | some write => write.data
  | none => image dev n

structure Tagged (tags : Tags) (dev blockno : Nat → Nat) (valid : Nat → Bool) : Prop where
  unique : ∀ b b', b < NBUF → b' < NBUF → dev b ≠ 0 → dev b = dev b' → blockno b = blockno b' →
    b = b'
  used : ∀ b, b < NBUF → dev b ≠ 0 → tags.uses (dev b) (blockno b)
  valid_used : ∀ b, b < NBUF → valid b → dev b ≠ 0

structure Users (tags : Tags) (dev blockno : Nat → Nat) (valid : Nat → Bool) (op : Nat → Op)
    (held : Nat → Nat → Option Hold) : Prop where
  asked : ∀ p d n, op p = .bget d n → tags.uses d n
  tag : ∀ p b d n, (op p).tag = some (b, d, n) → b < NBUF ∧ dev b = d ∧ blockno b = n ∧ tags.uses d n
  drop : ∀ p b, op p = .drop b → b < NBUF
  ret : ∀ p b d n, op p = .ret b d n → valid b
  hold : ∀ p b hold, held p b = some hold →
    b < NBUF ∧ dev b = hold.dev ∧ blockno b = hold.blockno ∧ tags.uses hold.dev hold.blockno ∧
      valid b
  op_pid : ∀ p, op p ≠ .idle → 0 < p ∧ p < PIDS
  held_pid : ∀ p b hold, held p b = some hold → 0 < p ∧ p < PIDS

structure Owned (locked : Nat → Bool) (pid : Nat → Nat) (op : Nat → Op)
    (held : Nat → Nat → Option Hold) : Prop where
  op_locked : ∀ p b, (op p).owns = some b → locked b ∧ pid b = p
  held_locked : ∀ p b, (held p b).isSome → locked b ∧ pid b = p
  locked_owned : ∀ b, locked b → (op (pid b)).owns = some b ∨ (held (pid b) b).isSome
  apart : ∀ p b, (op p).owns = some b → held p b = none
  working : ∀ p b, op p = .store b ∨ op p = .release b → (held p b).isSome
  written : ∀ p b hold, op p = .brelse b ∨ op p = .release b → held p b = some hold →
    hold.dirty = false

structure Synced (image : Nat → Nat → Data) (w : World Data) : Prop where
  clean : ∀ b, b < NBUF → w.valid b →
    (∀ p hold, w.held p b = some hold → hold.dirty = false) →
    w.data b = w.disk (w.dev b) (w.blockno b)
  marked : ∀ p b d n, w.op p = .mark b d n → w.data b = w.disk d n
  disk : ∀ d n, w.disk d n = contents image w.writes d n

structure Inv (tags : Tags) (image : Nat → Nat → Data) (w : World Data) : Prop where
  order : ∃ order, IsRing w.next w.prev head order ∧ order.Perm (List.range NBUF)
  refcnt : ∀ b, b < NBUF → w.refcnt b = obtained w.op w.held b
  tagged : Tagged tags w.dev w.blockno w.valid
  users : Users tags w.dev w.blockno w.valid w.op w.held
  owned : Owned w.locked w.pid w.op w.held
  synced : Synced image w

end Xv6Lab.Bio
