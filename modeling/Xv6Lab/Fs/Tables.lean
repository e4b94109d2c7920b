import Xv6Lab.Fs.Model

/-!
The calls on the inode table as equations.
-/

namespace Xv6Lab.Fs
open List
open Bytes (Mem)
open Mm (Panic)
variable {dev inum : Nat}

section Set
variable (t : Tables) {i j : Nat} (ip ip' : Inode)

@[simp] theorem Tables.setInode_self : (t.setInode i ip).inode i = ip := Function.update_self ..

theorem Tables.setInode_other (other : j ≠ i) : (t.setInode i ip).inode j = t.inode j :=
  Function.update_of_ne other ..

@[simp] theorem Tables.setInode_setInode : (t.setInode i ip).setInode i ip' = t.setInode i ip' := by
  simp [Tables.setInode]

theorem Tables.setInode_comm (other : j ≠ i) :
    (t.setInode i ip).setInode j ip' = (t.setInode j ip').setInode i ip := by
  simp [Tables.setInode, Function.update_comm other]

end Set

/-- The entry that iget returns: one for the inode, or else the first empty one. -/
def Tables.pick (t : Tables) (dev inum : Nat) : Option Nat :=
  ((List.range NINODE).find? fun i =>
    0 < (t.inode i).ref ∧ (t.inode i).dev = dev ∧ (t.inode i).inum = inum).or
    ((List.range NINODE).find? fun i => (t.inode i).ref = 0)

def Inode.grab (dev inum : Nat) (ip : Inode) : Inode :=
  if 0 < ip.ref then { ip with ref := ip.ref + 1 } else { ip with dev, inum, ref := 1, valid := false }

theorem Inode.grab_used {ip : Inode} (used : 0 < ip.ref) (dev inum : Nat) :
    ip.grab dev inum = { ip with ref := ip.ref + 1 } := if_pos used

theorem Inode.grab_empty {ip : Inode} (empty : ¬0 < ip.ref) (dev inum : Nat) :
    ip.grab dev inum = { ip with dev, inum, ref := 1, valid := false } := if_neg empty

variable {t t' : Tables} {i : Nat} {image : Mem} {pid : BitVec 32}

theorem iget_run (t : Tables) (dev inum : Nat) :
    (iget dev inum).run t =
      match t.pick dev inum with
      | some i => .ok (i, t.setInode i ((t.inode i).grab dev inum))
      | none => .error .iget := by
  unfold iget Tables.pick
  change (match (List.range NINODE).find? fun i =>
    0 < (t.inode i).ref ∧ (t.inode i).dev = dev ∧ (t.inode i).inum = inum with
    | some i => _
    | none => _ : FM Nat).run t = _
  cases found : (List.range NINODE).find? fun i =>
      0 < (t.inode i).ref ∧ (t.inode i).dev = dev ∧ (t.inode i).inum = inum with
  | some i =>
    have used := find?_some found
    rw [decide_eq_true_eq] at used
    rw [Option.some_or]
    dsimp only
    rw [Inode.grab_used used.1]
    rfl
  | none =>
    rw [Option.none_or]
    cases empty : (List.range NINODE).find? fun i => (t.inode i).ref = 0 with
    | none => rfl
    | some i =>
      have zero := find?_some empty
      rw [decide_eq_true_eq] at zero
      dsimp only
      rw [Inode.grab_empty (by omega)]
      rfl

structure Inode.SameKey (ip ip' : Inode) : Prop where
  used : 0 < ip.ref ↔ 0 < ip'.ref
  empty : ip.ref = 0 ↔ ip'.ref = 0
  dev : ip.dev = ip'.dev
  inum : ip.inum = ip'.inum

theorem Inode.SameKey.refl (ip : Inode) : ip.SameKey ip := ⟨Iff.rfl, Iff.rfl, rfl, rfl⟩

theorem Tables.pick_congr (same : ∀ i, (t.inode i).SameKey (t'.inode i)) (dev inum : Nat) :
    t.pick dev inum = t'.pick dev inum := by
  have first : (fun i => decide (0 < (t.inode i).ref ∧ (t.inode i).dev = dev ∧ (t.inode i).inum = inum)) =
      fun i => decide (0 < (t'.inode i).ref ∧ (t'.inode i).dev = dev ∧ (t'.inode i).inum = inum) := by
    funext i
    rw [(same i).dev, (same i).inum]
    exact decide_eq_decide.mpr (and_congr_left fun _ => (same i).used)
  have second : (fun i => decide ((t.inode i).ref = 0)) = fun i => decide ((t'.inode i).ref = 0) := by
    funext i
    exact decide_eq_decide.mpr (same i).empty
  unfold Tables.pick
  rw [first, second]

theorem Tables.pick_set {ip : Inode} (used : 0 < (t.inode i).ref) (used' : 0 < ip.ref)
    (dev_ : ip.dev = (t.inode i).dev) (inum_ : ip.inum = (t.inode i).inum) (dev inum : Nat) :
    (t.setInode i ip).pick dev inum = t.pick dev inum := by
  refine Tables.pick_congr (fun j => ?_) dev inum
  by_cases same : j = i
  · rw [same, t.setInode_self]
    exact ⟨⟨fun _ => used, fun _ => used'⟩, by omega, dev_, inum_⟩
  · rw [t.setInode_other ip same]
    exact Inode.SameKey.refl _

theorem Tables.pick_some (picked : t.pick dev inum = some i) :
    i < NINODE ∧ ((0 < (t.inode i).ref ∧ (t.inode i).dev = dev ∧ (t.inode i).inum = inum) ∨
      (t.inode i).ref = 0) := by
  rcases Option.or_eq_some_iff.mp picked with found | ⟨-, found⟩
  all_goals
    have holds := find?_some found
    have member := mem_of_find?_eq_some found
    rw [decide_eq_true_eq] at holds
    rw [mem_range] at member
  · exact ⟨member, .inl holds⟩
  · exact ⟨member, .inr holds⟩

theorem Inode.grab_key {ip : Inode}
    (key : (0 < ip.ref ∧ ip.dev = dev ∧ ip.inum = inum) ∨ ip.ref = 0) :
    (ip.grab dev inum).dev = dev ∧ (ip.grab dev inum).inum = inum ∧ 0 < (ip.grab dev inum).ref := by
  unfold Inode.grab
  split_ifs with used
  · rcases key with ⟨-, dev_, inum_⟩ | zero
    · exact ⟨dev_, inum_, by dsimp only; omega⟩
    · omega
  · exact ⟨rfl, rfl, Int.one_pos⟩

structure Tables.Settled (image : Mem) (t : Tables) : Prop where
  sb : t.sb = readsb image
  unlocked : ∀ i, (t.inode i).locked = false
  loaded : ∀ i, 0 < (t.inode i).ref → (t.inode i).valid = true →
    readDinode image (readsb image) (t.inode i) = t.inode i

section
variable (settled : t.Settled image)
include settled

theorem Tables.Settled.set {ip : Inode} (unlocked : ip.locked = false)
    (loaded : 0 < ip.ref → ip.valid = true → readDinode image (readsb image) ip = ip) :
    (t.setInode i ip).Settled image := by
  refine ⟨settled.sb, fun j => ?_, fun j => ?_⟩
  · by_cases same : j = i
    · rw [same, t.setInode_self]
      exact unlocked
    · rw [t.setInode_other ip same]
      exact settled.unlocked j
  · by_cases same : j = i
    · rw [same, t.setInode_self]
      exact loaded
    · rw [t.setInode_other ip same]
      exact settled.loaded j

theorem Tables.Settled.grab (i dev inum : Nat) :
    (t.setInode i ((t.inode i).grab dev inum)).Settled image := by
  by_cases used : 0 < (t.inode i).ref
  · rw [Inode.grab_used used]
    refine settled.set (settled.unlocked i) fun _ valid => ?_
    exact congrArg (fun ip : Inode => { ip with ref := ip.ref + 1 }) (settled.loaded i used valid)
  · rw [Inode.grab_empty used]
    exact settled.set (settled.unlocked i) fun _ valid => Bool.noConfusion valid

theorem ilock_run (used : 0 < (t.inode i).ref)
    (typed : (readDinode image (readsb image) (t.inode i)).type ≠ 0) : (ilock image pid i).run t =
      .ok ((), t.setInode i { readDinode image (readsb image) (t.inode i) with locked := true, pid }) := by
  have ref : ¬(t.inode i).ref < 1 := by omega
  have free := settled.unlocked i
  unfold ilock
  change (if (t.inode i).ref < 1 then _ else _ : FM Unit).run t = _
  rw [if_neg ref, free, if_neg (by decide)]
  dsimp only
  by_cases valid : (t.inode i).valid = true
  · have same := settled.loaded i used valid
    rw [if_pos valid, same]
    rfl
  · rw [if_neg valid, settled.sb]
    change (if (readDinode image (readsb image) (t.inode i)).type = 0 then _ else _ : FM Unit).run _ = _
    rw [if_neg typed]
    rfl

end

theorem iunlock_run (locked : (t.inode i).locked = true) (owner : (t.inode i).pid = pid)
    (used : 0 < (t.inode i).ref) :
    (iunlock pid i).run t = .ok ((), t.setInode i { t.inode i with locked := false, pid := 0 }) := by
  have held : ¬(¬((t.inode i).locked ∧ (t.inode i).pid = pid) ∨ (t.inode i).ref < 1) := by
    rw [locked, owner]
    simp only [and_self, not_true_eq_false, false_or]
    omega
  unfold iunlock
  change (if ¬((t.inode i).locked ∧ (t.inode i).pid = pid) ∨ (t.inode i).ref < 1 then _ else _ : FM Unit).run t = _
  rw [if_neg held]
  rfl

theorem iunlockput_run (locked : (t.inode i).locked = true) (owner : (t.inode i).pid = pid)
    (used : 0 < (t.inode i).ref) :
    (iunlockput pid i).run t =
      .ok ((), t.setInode i { t.inode i with locked := false, pid := 0, ref := (t.inode i).ref - 1 }) := by
  rw [iunlockput, Prog.run_ok (iunlock_run locked owner used)]
  change Except.ok ((), (t.setInode i _).setInode i { (t.setInode i _).inode i with ref := _ }) = _
  rw [t.setInode_self, t.setInode_setInode]

end Xv6Lab.Fs
