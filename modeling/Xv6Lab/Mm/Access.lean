import Xv6Lab.Mm.Space
import Xv6Lab.Mm.UserCopy
import Mathlib.Data.Nat.Bitwise

/-!
What the kernel does with the pages of an address space: uvmcopy, uvmclear and the
copies from and to user memory.
-/

namespace Xv6Lab.Mm
open List
open Bytes (Mem load store fill write read)
variable {P : Label → Prop} {dstva srcva : Nat} {src : List UInt8}

section Copy
variable {cfg : Config} {own own' : Nat → Label} {mem mem' : Mem} {s : Mach}
  {r rn tf tfn n m sz : Nat} {S Sn S' : Shape}

def Copied (mem : Mem) (S S' : Shape) (m : Nat) : Prop :=
  ∀ v, v < m → ∃ e y, S.leaf v = some e ∧ Phys y ∧ S'.leaf v = some (leafOf y (PTE_FLAGS e)) ∧
    ∀ o, o < PGSIZE → mem (y + o) = mem (PTE2PA e + o)

def Forked (cfg : Config) (own : Nat → Label) (mem : Mem) (rn tfn : Nat) (S : Shape) (n : Nat)
    (ok : Bool) (s' : Mach) : Prop :=
  ∃ own' S' m, Heap (IsPage cfg) own' s' ∧ Space cfg own' s'.mem rn tfn m S' ∧
    Within (Mine rn) own own' mem s'.mem ∧ if ok then m = n ∧ Copied s'.mem S S' m else m = 0

theorem readable_flags {e : Nat} (readable : e &&& PTE_R ≠ 0) : PTE_FLAGS e &&& PTE_R ≠ 0 := by
  rwa [flags_and e (by decide)]

theorem Duplicated.forked {ok : Bool} {s' : Mach} (small : sz ≤ TRAPFRAME) (other : r ≠ rn)
    (old : Space cfg own s.mem r tf (pagesOf sz) S) (new : Space cfg own s.mem rn tfn 0 Sn)
    (duplicated : Duplicated (IsPage cfg) Plain (· < USERTOP) own s.mem S Sn rn sz ok s') :
    Forked cfg own s.mem rn tfn S (pagesOf sz) ok s' := by
  obtain ⟨-, own', S', growth⟩ := duplicated
  have bound := (roundUp_eq small).2
  have leaf : ∀ v, v < pagesOf sz → ∃ e, S.leaf v = some e := by
    intro v below
    apply Option.ne_none_iff_exists'.mp
    rw [Ne, old.low v (by omega)]
    omega
  refine ⟨own', S', _, growth.toHeap, growth.space new (Nat.zero_le _) ?_, growth.mine, ?_⟩
  · intro v _ high
    obtain ⟨e, found⟩ := leaf v (by split at high <;> omega)
    exact ⟨_, _, copies_some found, flags_lt e, readable_flags (old.readable v e found)⟩
  · cases ok with
    | false => rfl
    | true =>
      refine ⟨rfl, fun v below => ?_⟩
      obtain ⟨e, found⟩ := leaf v below
      obtain ⟨y, label, leaf', bytes⟩ := growth.pages v _ _ (Nat.zero_le v) below (copies_some found)
      have source := old.users.label (lt_of_lt_of_le below bound) found
      have same := growth.mine.bytes (PTE2PA e) (PTE2PA_aligned e)
        (by simpa [source, Mine, Label.root] using other)
      refine ⟨e, y, found, growth.toHeap.used (by simp [label]), leaf', fun o low => ?_⟩
      rw [bytes o low, same o low]

theorem uvmcopy_spec (heap : Heap (IsPage cfg) own s) (small : sz ≤ TRAPFRAME) (other : r ≠ rn)
    (old : Space cfg own s.mem r tf (pagesOf sz) S) (new : Space cfg own s.mem rn tfn 0 Sn) :
    wp (uvmcopy cfg r rn sz) (Big cfg) (Forked cfg own s.mem rn tfn S (pagesOf sz)) s := by
  have bound := (roundUp_eq small).2
  have fits : sz ≤ MAXVA := by
    simp only [TRAPFRAME, TRAMPOLINE] at small
    omega
  refine wp_mono (uvmcopy_rule (E := fun _ => False) (fun x free => heap.page x (by simp [free]))
    (fun _ _ _ above _ => absurd above (by omega)) ?_ old.tree other ?_ (new.pageTable heap) new.users)
    (fun ok s' => Duplicated.forked small other old new) fun _ never => never.elim
  · intro v _ below
    have user : v < USERTOP := lt_of_lt_of_le ((page_lt fits).mp below) bound
    exact ⟨(new.low v user).mpr (Nat.zero_le v), user⟩
  · intro v e _ below leaf
    rw [old.users.label (lt_of_lt_of_le ((page_lt fits).mp below) bound) leaf]
    simpa [Mine, Label.root] using other

end Copy

section Access
variable {cfg : Config} {own : Nat → Label} {mem mem' : Mem} {s : Mach} {r tf n : Nat} {S : Shape}

theorem Space.touch (space : Space cfg own mem r tf n S)
    (pages : ∀ x, own x ≠ .outside → Phys x) (within : Within P own own mem mem')
    (tables : ∀ l n, ¬P (.table r l n)) : Space cfg own mem' r tf n S :=
  { space with tree := space.tree.frame pages within tables }

theorem Space.user (space : Space cfg own mem r tf n S) {v e : Nat} (leaf : S.leaf v = some e)
    (user : e &&& PTE_U ≠ 0) : v < USERTOP := by
  by_contra high
  have cases : v = USERTOP ∨ v = USERTOP + 1 ∨ USERTOP + 1 < v := by omega
  rcases cases with top | top | above
  · rw [top, space.trapframe] at leaf
    rw [← Option.some.inj leaf, leafOf_and (by decide) (by decide)] at user
    exact user (by decide)
  · rw [top, space.trampoline] at leaf
    rw [← Option.some.inj leaf, leafOf_and (by decide) (by decide)] at user
    exact user (by decide)
  · rw [space.high v above] at leaf
    cases leaf

def Data (r : Nat) (l : Label) : Prop := ∃ v, l = .user r v

theorem Data.mine {l : Label} (data : Data r l) : Mine r l := by
  obtain ⟨v, label⟩ := data
  exact .inr (by rw [label, Label.root])

theorem Space.label (space : Space cfg own mem r tf n S) {v e : Nat} (leaf : S.leaf v = some e)
    (user : e &&& PTE_U ≠ 0) : own (PTE2PA e) = .user r v :=
  space.users.label (space.user leaf user) leaf

theorem Space.targets (space : Space cfg own s.mem r tf n S) (heap : Heap (IsPage cfg) own s) :
    Targets own r S where
  nonzero v e leaf user := (heap.page _ (by simp [space.label leaf user])).pos
  distinct v v' e e' leaf user leaf' user' same := by
    have label := space.label leaf user
    rw [same, space.label leaf' user'] at label
    injection label with _ page
    exact page.symm
  table v e leaf user l n := by simp [space.label leaf user]

theorem Stored.within {s' : Mach} {ok : Bool} (stored : Stored S s s' dstva src ok)
    (space : Space cfg own s.mem r tf n S) : Within (Data r) own own s.mem s'.mem where
  label _ _ := rfl
  stay _ inside := inside
  bytes x aligned outside o small := by
    refine stored.others (x + o) fun i _ _ address => outside ?_
    obtain ⟨-, e, leaf, user, place⟩ := userAddr_eq_some.mp address
    have page : PTE2PA e = x := by
      have aligned' := PTE2PA_aligned e
      simp only [PGSIZE] at *
      omega
    exact ⟨_, page ▸ space.label leaf user⟩

section
variable (heap : Heap (IsPage cfg) own s) (space : Space cfg own s.mem r tf n S)
include heap space

theorem copyout_spec : wp (copyout r dstva src) (fun _ => False) (fun _ s' =>
    Heap (IsPage cfg) own s' ∧ Space cfg own s'.mem r tf n S ∧
      Within (Data r) own own s.mem s'.mem) s := by
  apply wp_post (copyout_bytes space.tree (space.targets heap) (fun _ => heap.used) dstva src)
  rintro ok s' ⟨tree, stored⟩
  have within := stored.within space
  refine ⟨?_, { space with tree }, within⟩
  rw [stored.machine]
  exact heap.frame within (by simp [Data]) (by simp [Data])

theorem copyin_spec {len : Nat} : wp (copyin r srcva len) (fun _ => False) (fun _ s' => s' = s) s :=
  wp_post (copyin_bytes space.tree (space.targets heap) srcva len) fun _ _ outcome => outcome.1

theorem copyinstr_spec {max : Nat} : wp (copyinstr r srcva max) (fun _ => False) (fun bytes s' =>
    s' = s ∧ ∀ b, bytes = some b → b.length < max) s := by
  apply wp_post (copyinstr_bytes space.tree (space.targets heap) srcva max)
  rintro bytes s' ⟨same, ⟨b, rfl, string⟩ | ⟨rfl, -⟩⟩
  · exact ⟨same, fun b' equal => Option.some.inj equal ▸ string.short⟩
  · exact ⟨same, by simp⟩

end
end Access

section Clear
variable {cfg : Config} {own : Nat → Label} {s : Mach} {r tf n v : Nat} {S : Shape} {e : Nat}

def clearUser (e : Nat) : Nat := if e &&& PTE_U ≠ 0 then e - PTE_U else e

theorem clearUser_spec (e : Nat) : clearUser e ≤ e ∧ PTE2PA (clearUser e) = PTE2PA e ∧
    clearUser e &&& PTE_V = e &&& PTE_V ∧ clearUser e &&& PTE_R = e &&& PTE_R := by
  have bit : ∀ e i, e &&& 2 ^ i = e / 2 ^ i % 2 * 2 ^ i := by
    intro e i
    rw [Nat.and_two_pow, Nat.testBit_eq_decide_div_mod_eq]
    rcases Nat.mod_two_eq_zero_or_one (e / 2 ^ i) with zero | one
    · simp [zero]
    · simp [one]
  have flags : PTE_V = 2 ^ 0 ∧ PTE_R = 2 ^ 1 ∧ PTE_U = 2 ^ 4 := by decide
  unfold clearUser PTE2PA
  rw [flags.1, flags.2.1, flags.2.2]
  simp only [bit]
  split
  · next user => omega
  · next supervisor => omega

theorem uvmclear_spec (heap : Heap (IsPage cfg) own s) (space : Space cfg own s.mem r tf n S)
    (below : v < n) : wp (uvmclear r (v * PGSIZE)) (fun _ => False) (fun _ s' => ∃ S',
      Heap (IsPage cfg) own s' ∧ Space cfg own s'.mem r tf n S' ∧
        Within (Mine r) own own s.mem s'.mem) s := by
  have bound := space.bound
  have high : v * PGSIZE < MAXVA := by
    simp only [USERTOP, TRAPFRAME, TRAMPOLINE, MAXVA, PGSIZE] at *
    omega
  obtain ⟨e, leaf⟩ : ∃ e, S.leaf v = some e := by
    apply Option.ne_none_iff_exists'.mp
    rw [Ne, space.low v (by omega)]
    omega
  unfold uvmclear
  rw [wp_bind]
  apply wp_post (walk_find space.tree high)
  rintro a s' ⟨same, found⟩
  subst same found
  rw [Nat.mul_div_cancel v (by decide : 0 < PGSIZE)]
  cases table : S.table 0 (v / 512) with
  | none =>
    rw [space.tree.leafParent v table] at leaf
    cases leaf
  | some t =>
    have entry := space.tree.read_leaf table
    rw [leaf, valid_eq_some] at entry
    obtain ⟨holds, value⟩ := entry
    simp only [Option.map_some, wp_bind, wp_readPte, wp_writePte]
    rw [← value] at holds ⊢
    rw [← clearUser]
    obtain ⟨less, address, present, readable⟩ := clearUser_spec e
    have fits : clearUser e < 256 ^ 8 := by
      refine lt_of_le_of_lt less ?_
      rw [value]
      exact Bytes.load_lt _ _ _
    obtain ⟨pt, within⟩ := (space.pageTable heap).writeLeaf table fits
    rw [valid_of (by rwa [present])] at pt
    have others : ∀ w, w ≠ v → (S.setLeaf v (some (clearUser e))).leaf w = S.leaf w :=
      fun w other => Function.update_of_ne other _ _
    have here : (S.setLeaf v (some (clearUser e))).leaf v = some (clearUser e) :=
      Function.update_self ..
    refine ⟨_, pt.toHeap, space.resize pt.tree ?_ bound ?_ ?_ ?_, within.mono fun _ => touch_mine⟩
    · intro w x
      rw [space.users w x]
      by_cases same : w = v
      · subst same
        simp [leaf, here, address]
      · rw [others w same]
    · intro w low
      rw [← space.low w low]
      by_cases same : w = v
      · subst same
        simp [leaf, here]
      · rw [others w same]
    · intro w top
      exact others w (by omega)
    · intro w e' _ found
      by_cases same : w = v
      · subst same
        rw [here] at found
        rw [← Option.some.inj found, readable]
        exact space.readable w e leaf
      · rw [others w same] at found
        exact space.readable w e' found

end Clear

def userByte (mem : Mem) (r va : Nat) : Option UInt8 :=
  if va < MAXVA then
    (leafAt mem r (va / PGSIZE)).bind fun e =>
      if e &&& PTE_U ≠ 0 then some (mem (PTE2PA e + va % PGSIZE)) else none
  else none

section Visible
variable {cfg : Config} {own own' : Nat → Label} {mem mem' : Mem} {r rn tf tfn n va : Nat}
  {S S' : Shape}

theorem Space.userByte_frame (space : Space cfg own mem r tf n S)
    (pages : ∀ x, own x ≠ .outside → Phys x) (within : Within P own own' mem mem')
    (tables : ∀ l n, ¬P (.table r l n)) (user : ∀ v, ¬P (.user r v)) :
    userByte mem' r va = userByte mem r va := by
  have tree := space.tree.frame pages within tables
  unfold userByte
  rw [tree.leafAt, space.tree.leafAt]
  split
  · cases leaf : S.leaf (va / PGSIZE) with
    | none => rfl
    | some e =>
      simp only [Option.bind_some]
      split
      · next visible =>
          have label := space.users.label (space.user leaf visible) leaf
          have same := within.bytes (PTE2PA e) (pages _ (by simp [label])).1
            (by rw [label]; exact user _)
          rw [same _ (offset_lt va)]
      · rfl
  · rfl

theorem Copied.userByte (old : Space cfg own mem r tf n S) (new : Space cfg own mem rn tfn n S')
    (copied : Copied mem S S' n) : userByte mem rn va = userByte mem r va := by
  unfold Mm.userByte
  rw [old.tree.leafAt, new.tree.leafAt]
  split
  · by_cases low : va / PGSIZE < n
    · obtain ⟨e, y, source, phys, target, bytes⟩ := copied _ low
      have flags : leafOf y (PTE_FLAGS e) &&& PTE_U = e &&& PTE_U := by
        rw [leafOf_and (flags_lt e) (by decide), Nat.and_or_distrib_right, flags_and e (by decide)]
        exact Nat.or_zero _
      rw [source, target]
      simp only [Option.bind_some, flags, PTE2PA_leafOf (flags_lt e) phys, bytes _ (offset_lt va)]
    · have hidden : ∀ {r tf S}, Space cfg own mem r tf n S →
          ((S.leaf (va / PGSIZE)).bind fun e =>
            if e &&& PTE_U ≠ 0 then some (mem (PTE2PA e + va % PGSIZE)) else none) = none := by
        intro r tf S space
        cases leaf : S.leaf (va / PGSIZE) with
        | none => rfl
        | some e =>
          simp only [Option.bind_some]
          split
          · next visible =>
              rw [(space.low _ (space.user leaf visible)).mpr (by omega)] at leaf
              cases leaf
          · rfl
      rw [hidden old, hidden new]
  · rfl

end Visible
end Xv6Lab.Mm
