import Xv6Lab.Fs.Model

/-!
What readi delivers: a front part of the bytes that were asked for.
-/

namespace Xv6Lab.Fs
open Bytes (Mem read)
open Mm (Panic)
open Virtio (BSIZE)
variable {bn off n : Nat}

def fileByte (image : Mem) (ip : Inode) (pos : Nat) : UInt8 :=
  match bmap image ip (pos / BSIZE) with
  | .ok addr => block image addr (pos % BSIZE)
  | .error _ => 0

def fileBytes (image : Mem) (ip : Inode) (off n : Nat) : List UInt8 :=
  (List.range n).map fun j => fileByte image ip (off + j)

def Backed (image : Mem) (ip : Inode) (pos : Nat) : Prop :=
  ∃ addr, addr ≠ 0 ∧ bmap image ip (pos / BSIZE) = .ok addr

def Hole (image : Mem) (ip : Inode) (pos : Nat) : Prop := bmap image ip (pos / BSIZE) = .ok 0

def readCount (ip : Inode) (off n : Nat) : Nat :=
  if ip.size < off ∨ (off + n) % 2 ^ 32 < off then 0 else min n (ip.size - off)

theorem readCount_le (ip : Inode) (off n : Nat) : readCount ip off n ≤ n := by
  unfold readCount
  split_ifs <;> omega

section Files
variable {image : Mem} {ip : Inode}

theorem bmap_error {e : Panic} (failed : bmap image ip bn = .error e) : e = .bmap := by
  unfold bmap at failed
  simp only at failed
  split at failed
  · cases failed
  · split at failed
    · split at failed <;> cases failed
    · split at failed
      · split at failed
        · cases failed
        · split at failed <;> cases failed
      · exact (Except.error.inj failed).symm

theorem bmap_ok (inside : bn < MAXFILE) : ∃ addr, bmap image ip bn = .ok addr := by
  unfold MAXFILE at inside
  unfold bmap
  dsimp only
  split_ifs with direct single _ double
  · exact ⟨_, rfl⟩
  · exact ⟨_, rfl⟩
  · exact ⟨_, rfl⟩
  · exact ⟨_, rfl⟩
  · exact ⟨_, rfl⟩
  · exact ⟨_, rfl⟩
  · omega

theorem bmap_outside (outside : MAXFILE ≤ bn) : bmap image ip bn = .error .bmap := by
  unfold MAXFILE at outside
  unfold bmap
  dsimp only
  rw [if_neg (by omega), if_neg (by omega), if_neg (by omega)]

theorem Backed.inside (backed : Backed image ip off) : off / BSIZE < MAXFILE := by
  by_contra outside
  obtain ⟨addr, -, here⟩ := backed
  rw [bmap_outside (by omega)] at here
  cases here

theorem Backed.next {i : Nat} (backed : Backed image ip off) (same : i < BSIZE - off % BSIZE) :
    off + i < MAXFILE * BSIZE ∧ Backed image ip (off + i) := by
  have inside := backed.inside
  have block : (off + i) / BSIZE = off / BSIZE := by
    simp only [BSIZE] at *
    omega
  refine ⟨?_, by rwa [Backed, block]⟩
  simp only [BSIZE] at *
  omega

theorem length_fileBytes (image : Mem) (ip : Inode) (off n : Nat) :
    (fileBytes image ip off n).length = n := by
  simp [fileBytes]

theorem getD_fileBytes {j : Nat} (inside : j < n) :
    (fileBytes image ip off n).getD j 0 = fileByte image ip (off + j) := by
  simp [fileBytes, inside]

theorem read_block {addr m : Nat} (here : bmap image ip (off / BSIZE) = .ok addr)
    (fits : off % BSIZE + m ≤ BSIZE) :
    read (block image addr) (off % BSIZE) m = fileBytes image ip off m := by
  refine List.map_congr_left fun j inside => ?_
  rw [List.mem_range] at inside
  have place : (off + j) / BSIZE = off / BSIZE ∧ (off + j) % BSIZE = off % BSIZE + j := by
    simp only [BSIZE] at *
    omega
  rw [fileByte, place.1, here, place.2]

end Files

section Rules
variable {σ : Type} {E : Panic → Prop} {P : Nat → σ → Prop} {F : σ → Prop} {image : Mem} {ip : Inode}
  {put : Nat → List UInt8 → Prog Panic σ Bool} {s : σ}

theorem read_room {k tot m : Nat} (count : m = min (n - tot) (BSIZE - (off + tot) % BSIZE))
    (room : (off + tot) % BSIZE + (n - tot) ≤ (k + 1) * BSIZE) (more : tot + m < n) :
    (off + (tot + m)) % BSIZE + (n - (tot + m)) ≤ k * BSIZE := by
  simp only [BSIZE] at *
  omega

theorem readLoop_spec
    (range : ∀ tot s e, tot < n → P tot s → bmap image ip ((off + tot) / BSIZE) = .error e → E e)
    (step : ∀ tot m s, 0 < m → tot + m ≤ n → m ≤ BSIZE - (off + tot) % BSIZE →
      Backed image ip (off + tot) → P tot s →
      wp (put tot (fileBytes image ip (off + tot) m)) E
        (fun ok s' => if ok then P (tot + m) s' else F s') s)
    (k : Nat) {tot : Nat} (bound : tot ≤ n)
    (room : tot < n → (off + tot) % BSIZE + (n - tot) ≤ k * BSIZE) (start : P tot s) :
    wp (readLoop image ip put n k (off + tot) tot) E (fun r s' =>
      (∃ c : Nat, r = c ∧ tot ≤ c ∧ c ≤ n ∧ P c s' ∧ (c = n ∨ Hole image ip (off + c))) ∨
        r = -1 ∧ F s') s := by
  induction k generalizing tot s with
  | zero =>
    have done : tot = n := by
      by_contra more
      have := room (by omega)
      omega
    exact .inl ⟨tot, rfl, Nat.le_refl _, bound, start, .inl done⟩
  | succ k ih =>
    rw [readLoop]
    simp only [wp_ite, wp_bind, wp_pure, wp_lift]
    refine ⟨fun more => ?_, fun done => .inl ⟨tot, rfl, Nat.le_refl _, bound, start, .inl (by omega)⟩⟩
    cases here : bmap image ip ((off + tot) / BSIZE) with
    | error e =>
      exact range tot s e more start here
    | ok addr =>
      refine ⟨fun zero => ?_, fun nonzero => ?_⟩
      · rw [zero] at here
        exact .inl ⟨tot, rfl, Nat.le_refl _, bound, start, .inr here⟩
      · obtain ⟨m, count⟩ : ∃ m, m = min (n - tot) (BSIZE - (off + tot) % BSIZE) := ⟨_, rfl⟩
        have size : 0 < m ∧ tot + m ≤ n ∧ (off + tot) % BSIZE + m ≤ BSIZE := by
          simp only [BSIZE] at *
          omega
        rw [← count, read_block here size.2.2]
        apply wp_post (step tot m s size.1 size.2.1 (by omega) ⟨addr, nonzero, here⟩ start)
        intro ok s' after
        cases ok with
        | false => exact ⟨fun yes => absurd yes (by decide), fun _ => .inr ⟨trivial, after⟩⟩
        | true =>
          refine ⟨fun _ => ?_, fun no => absurd rfl no⟩
          rw [Nat.add_assoc]
          apply wp_post (ih size.2.1 (read_room count (room more)) after)
          rintro r s2 (⟨c, value, low, high, holds, stop⟩ | failed)
          · exact .inl ⟨c, value, by omega, high, holds, stop⟩
          · exact .inr failed

theorem readi_spec (range : ∀ tot s e, tot < readCount ip off n → P tot s →
      bmap image ip ((off + tot) / BSIZE) = .error e → E e)
    (step : ∀ tot m s, 0 < m → tot + m ≤ readCount ip off n → m ≤ BSIZE - (off + tot) % BSIZE →
      Backed image ip (off + tot) → P tot s →
      wp (put tot (fileBytes image ip (off + tot) m)) E
        (fun ok s' => if ok then P (tot + m) s' else F s') s) (start : P 0 s) :
    wp (readi image ip put off n) E (fun r s' =>
      (∃ c : Nat, r = c ∧ c ≤ readCount ip off n ∧ P c s' ∧
        (c = readCount ip off n ∨ Hole image ip (off + c))) ∨ r = -1 ∧ F s') s := by
  unfold readi
  simp only [wp_ite, wp_pure]
  refine ⟨fun outside => .inl ⟨0, rfl, Nat.zero_le _, start, .inl ?_⟩, fun inside => ?_⟩
  · rw [readCount, if_pos outside]
  · have count : (if ip.size < off + n then ip.size - off else n) = readCount ip off n := by
      rw [readCount, if_neg inside]
      split_ifs <;> omega
    rw [count]
    have room : 0 < readCount ip off n →
        (off + 0) % BSIZE + (readCount ip off n - 0) ≤ (readCount ip off n / BSIZE + 2) * BSIZE := by
      simp only [BSIZE]
      omega
    apply wp_post (readLoop_spec range step _ (Nat.zero_le _) room start)
    rintro r s' (⟨c, value, -, high, holds, stop⟩ | failed)
    · exact .inl ⟨c, value, high, holds, stop⟩
    · exact .inr failed

end Rules
end Xv6Lab.Fs
