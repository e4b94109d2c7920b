import Xv6Lab.Mm.Walk
import Mathlib.Data.List.TakeWhile

/-!
copyout, copyin and copyinstr byte by byte.
-/

namespace Xv6Lab.Mm
open List
open Bytes (Mem load store fill write read)
variable {m k e dstva max va len i : Nat} {src : List UInt8}

def userAddr (S : Shape) (va : Nat) : Option Nat :=
  if va < MAXVA then
    (S.leaf (va / PGSIZE)).bind fun e => if e &&& PTE_U ≠ 0 then some (PTE2PA e + va % PGSIZE) else none
  else none

def Writable (S : Shape) (va : Nat) : Prop :=
  va < MAXVA ∧ ∃ e, S.leaf (va / PGSIZE) = some e ∧ e &&& PTE_U ≠ 0 ∧ e &&& PTE_W ≠ 0

structure Targets (own : Nat → Label) (r : Nat) (S : Shape) : Prop where
  nonzero : ∀ v e, S.leaf v = some e → e &&& PTE_U ≠ 0 → PTE2PA e ≠ 0
  distinct : ∀ v v' e e', S.leaf v = some e → e &&& PTE_U ≠ 0 → S.leaf v' = some e' →
    e' &&& PTE_U ≠ 0 → PTE2PA e = PTE2PA e' → v = v'
  table : ∀ v e, S.leaf v = some e → e &&& PTE_U ≠ 0 → ∀ l n, own (PTE2PA e) ≠ .table r l n

section Pages

theorem pgRoundDown_div (va : Nat) : pgRoundDown va / PGSIZE = va / PGSIZE := by
  simp only [pgRoundDown, PGSIZE]
  omega

theorem sub_pgRoundDown (va : Nat) : va - pgRoundDown va = va % PGSIZE := by
  simp only [pgRoundDown, PGSIZE]
  omega

theorem pgRoundDown_lt : pgRoundDown va < MAXVA ↔ va < MAXVA := by
  simp only [pgRoundDown, PGSIZE, MAXVA]
  omega

theorem offset_lt (va : Nat) : va % PGSIZE < PGSIZE := Nat.mod_lt _ (by decide)

theorem room_start (va len : Nat) : va % PGSIZE + len ≤ (len / PGSIZE + 2) * PGSIZE := by
  simp only [PGSIZE]
  omega

section
variable (cut : m = min (PGSIZE - va % PGSIZE) len)
include cut

theorem first_page (inside : i < m) :
    (va + i) / PGSIZE = va / PGSIZE ∧ (va + i) % PGSIZE = va % PGSIZE + i := by
  simp only [PGSIZE] at *
  omega

theorem next_page (inside : i < len - m) : va + (m + i) = pgRoundDown va + PGSIZE + i := by
  simp only [pgRoundDown, PGSIZE] at *
  omega

theorem room_next (room : va % PGSIZE + len ≤ (k + 1) * PGSIZE) :
    (pgRoundDown va + PGSIZE) % PGSIZE + (len - m) ≤ k * PGSIZE := by
  simp only [pgRoundDown, PGSIZE] at *
  omega

theorem forall_range_iff {P : Nat → Prop} : (∀ i < len, P (va + i)) ↔
    (∀ i < m, P (va + i)) ∧ ∀ i < len - m, P (pgRoundDown va + PGSIZE + i) := by
  constructor
  · intro all
    refine ⟨fun i inside => all i (by omega), fun i inside => ?_⟩
    rw [← next_page cut inside]
    exact all (m + i) (by omega)
  · rintro ⟨first, rest⟩ i inside
    by_cases here : i < m
    · exact first i here
    · obtain ⟨d, rfl⟩ := Nat.exists_eq_add_of_le (Nat.le_of_not_lt here)
      rw [next_page cut (by omega)]
      exact rest d (by omega)

end
end Pages

section Addresses
variable {I : Nat → Prop} {own : Nat → Label} {s : Mach} {r : Nat} {S : Shape} {va' x : Nat}

theorem userAddr_eq_some : userAddr S va = some x ↔
    va < MAXVA ∧ ∃ e, S.leaf (va / PGSIZE) = some e ∧ e &&& PTE_U ≠ 0 ∧ x = PTE2PA e + va % PGSIZE := by
  unfold userAddr
  split_ifs with below
  · rw [Option.bind_eq_some_iff]
    constructor
    · rintro ⟨e, leaf, found⟩
      split_ifs at found with user
      · exact ⟨below, e, leaf, user, (Option.some.inj found).symm⟩
    · rintro ⟨-, e, leaf, user, rfl⟩
      exact ⟨e, leaf, by rw [if_pos user]⟩
  · exact ⟨False.elim, fun found => absurd found.1 below⟩

theorem Writable.addr (writable : Writable S va) : (userAddr S va).isSome := by
  obtain ⟨below, e, leaf, user, -⟩ := writable
  rw [userAddr_eq_some.mpr ⟨below, e, leaf, user, rfl⟩]
  rfl

theorem Targets.inj (targets : Targets own r S) (here : userAddr S va = some x)
    (there : userAddr S va' = some x) : va = va' := by
  obtain ⟨-, e, leaf, user, address⟩ := userAddr_eq_some.mp here
  obtain ⟨-, e', leaf', user', address'⟩ := userAddr_eq_some.mp there
  have first := PTE2PA_aligned e
  have second := PTE2PA_aligned e'
  have pages : PTE2PA e = PTE2PA e' ∧ va % PGSIZE = va' % PGSIZE := by
    simp only [PGSIZE] at *
    omega
  have page := targets.distinct _ _ e e' leaf user leaf' user' pages.1
  have offset := pages.2
  simp only [PGSIZE] at *
  omega

theorem walkaddr_page (tree : Tree I own s.mem r S) (targets : Targets own r S) (va : Nat) :
    wp (walkaddr r (pgRoundDown va)) (fun _ => False) (fun pa s' => s' = s ∧
      (pa = 0 ∧ userAddr S va = none ∨ pa ≠ 0 ∧ va < MAXVA ∧
        ∃ e, S.leaf (va / PGSIZE) = some e ∧ e &&& PTE_U ≠ 0 ∧ pa = PTE2PA e)) s := by
  apply wp_post (walkaddr_spec tree)
  rintro pa s' ⟨same, value⟩
  simp only [pgRoundDown_div, pgRoundDown_lt] at value
  refine ⟨same, ?_⟩
  by_cases below : va < MAXVA
  · cases leaf : S.leaf (va / PGSIZE) with
    | none => exact .inl ⟨by simpa [below, leaf] using value, by simp [userAddr, leaf]⟩
    | some e =>
      by_cases user : e &&& PTE_U = 0
      · exact .inl ⟨by simpa [below, leaf, Option.filter_some, user] using value, by simp [userAddr, leaf, user]⟩
      · have page : pa = PTE2PA e := by simpa [below, leaf, Option.filter_some, user] using value
        exact .inr ⟨page ▸ targets.nonzero _ e leaf user, below, e, rfl, user, page⟩
  · exact .inl ⟨by simpa [below] using value, if_neg below⟩

theorem userAddr_first (below : va < MAXVA) (leaf : S.leaf (va / PGSIZE) = some e)
    (user : e &&& PTE_U ≠ 0) (cut : m = min (PGSIZE - va % PGSIZE) len) (inside : i < m) :
    userAddr S (va + i) = some (PTE2PA e + va % PGSIZE + i) := by
  obtain ⟨page, offset⟩ := first_page cut inside
  refine userAddr_eq_some.mpr ⟨?_, e, by rw [page, leaf], user, by rw [offset, Nat.add_assoc]⟩
  simp only [MAXVA, PGSIZE] at *
  omega

end Addresses

section Copyout
variable {I : Nat → Prop} {own : Nat → Label} {s : Mach} {r : Nat} {S : Shape}

/-- What copyout has done when it returns ok: it stores the bytes up to the first page that is
not writable. -/
structure Stored (S : Shape) (s s' : Mach) (dstva : Nat) (src : List UInt8) (ok : Bool) : Prop where
  success : ok = true ↔ ∀ i < src.length, Writable S (dstva + i)
  bytes : ∀ i < src.length, (∀ j ≤ i, Writable S (dstva + j)) →
    ∀ x, userAddr S (dstva + i) = some x → s'.mem x = src.getD i 0
  others : ∀ x, (∀ i < src.length, (∀ j ≤ i, Writable S (dstva + j)) →
    userAddr S (dstva + i) ≠ some x) → s'.mem x = s.mem x
  machine : s' = { s with mem := s'.mem }

theorem Stored.nothing (s : Mach) (dstva : Nat) : Stored S s s dstva [] true where
  success := by simp
  bytes := by simp
  others _ _ := rfl
  machine := rfl

theorem Stored.refused (some : src ≠ []) (not : ¬Writable S dstva) :
    Stored S s s dstva src false where
  success := by
    refine ⟨fun yes => absurd yes (by decide), fun all => absurd ?_ not⟩
    exact all 0 (length_pos_iff.mpr some)
  bytes i _ all := absurd (all 0 (Nat.zero_le i)) not
  others _ _ := rfl
  machine := rfl

theorem Tree.poke {mem : Mem} {pa : Nat} (tree : Tree I own s.mem r S)
    (pages : ∀ x, own x ≠ .outside → Phys x) (free : ∀ l n, own pa ≠ .table r l n)
    (only : OnlyPage s.mem mem pa) : Tree I own mem r S := by
  have inside : (fun label : Label => ∀ l n, label ≠ .table r l n) (own pa) := free
  have within := Within.touch (P := fun label => ∀ l n, label ≠ .table r l n) inside only
  exact tree.frame pages within fun l n all => all l n rfl

theorem Stored.cons {s1 s2 : Mach} {ok : Bool} (targets : Targets own r S) (below : dstva < MAXVA)
    (leaf : S.leaf (dstva / PGSIZE) = some e) (user : e &&& PTE_U ≠ 0) (writable : e &&& PTE_W ≠ 0)
    (cut : m = min (PGSIZE - dstva % PGSIZE) src.length)
    (first : s1 = { s with mem := write s.mem (PTE2PA e + dstva % PGSIZE) (src.take m) })
    (rest : Stored S s1 s2 (pgRoundDown dstva + PGSIZE) (src.drop m) ok) :
    Stored S s s2 dstva src ok := by
  have length : (src.take m).length = m := by
    rw [length_take]
    omega
  have remaining : (src.drop m).length = src.length - m := length_drop
  have address : ∀ i < m, userAddr S (dstva + i) = some (PTE2PA e + dstva % PGSIZE + i) :=
    fun i inside => userAddr_first below leaf user cut inside
  have start : ∀ i < m, Writable S (dstva + i) := by
    intro i inside
    have page := (first_page cut inside).1
    obtain ⟨top, -⟩ := userAddr_eq_some.mp (address i inside)
    exact ⟨top, e, by rw [page, leaf], user, writable⟩
  refine ⟨?_, fun i inside all x here => ?_, fun x other => ?_, by rw [rest.machine, first]⟩
  · rw [rest.success, remaining, forall_range_iff cut]
    exact ⟨fun all => ⟨start, all⟩, fun all => all.2⟩
  · by_cases early : i < m
    · -- the later pages are other pages
      have still : s2.mem x = s1.mem x := by
        refine rest.others x fun j inside' _ there => ?_
        have same := targets.inj here there
        rw [← next_page cut (by omega)] at same
        omega
      rw [address i early] at here
      rw [still, first, ← Option.some.inj here]
      simp only [write]
      rw [if_pos (by omega), Nat.add_sub_cancel_left, getD_eq_getElem?_getD,
        getElem?_take_of_lt early, getD_eq_getElem?_getD]
    · obtain ⟨d, rfl⟩ := Nat.exists_eq_add_of_le (Nat.le_of_not_lt early)
      rw [next_page cut (by omega)] at here
      rw [rest.bytes d (by omega) (fun j before => ?_) x here, getD_eq_getElem?_getD, getElem?_drop,
        getD_eq_getElem?_getD]
      rw [← next_page cut (by omega)]
      exact all (m + j) (by omega)
  · have untouched : s1.mem x = s.mem x := by
      rw [first]
      refine Bytes.write_outside ?_
      rw [length]
      by_contra inside
      refine other (x - (PTE2PA e + dstva % PGSIZE)) (by omega) (fun j before => start j (by omega)) ?_
      rw [address _ (by omega)]
      congr 1
      omega
    rw [rest.others x fun j inside' all => ?_, untouched]
    rw [← next_page cut (by omega)]
    refine other (m + j) (by omega) fun j' before => ?_
    by_cases early : j' < m
    · exact start j' early
    · obtain ⟨d, rfl⟩ := Nat.exists_eq_add_of_le (Nat.le_of_not_lt early)
      rw [next_page cut (by omega)]
      exact all d (by omega)

theorem copyoutLoop_bytes (k : Nat) (tree : Tree I own s.mem r S) (targets : Targets own r S)
    (pages : ∀ x, own x ≠ .outside → Phys x) (room : dstva % PGSIZE + src.length ≤ k * PGSIZE) :
    wp (copyoutLoop r k dstva src) (fun _ => False) (fun ok s' =>
      Tree I own s'.mem r S ∧ Stored S s s' dstva src ok) s := by
  induction k generalizing s dstva src with
  | zero =>
    have empty : src = [] := length_eq_zero_iff.mp (by omega)
    rw [empty]
    exact ⟨tree, Stored.nothing s dstva⟩
  | succ k ih =>
    rw [copyoutLoop]
    simp only [wp_ite, wp_pure, wp_bind]
    refine ⟨fun empty => ?_, fun some => ⟨fun high => ⟨tree, ?_⟩, fun _ => ?_⟩⟩
    · rw [empty]
      exact ⟨tree, Stored.nothing s dstva⟩
    · refine Stored.refused some fun writable => ?_
      have low := pgRoundDown_lt.mpr writable.1
      omega
    · apply wp_post (walkaddr_page tree targets dstva)
      rintro pa s' ⟨rfl, ⟨zero, absent⟩ | ⟨nonzero, below, e, leaf, user, address⟩⟩
      · refine ⟨fun _ => ⟨tree, Stored.refused some fun writable => ?_⟩, fun not => absurd zero not⟩
        have here := writable.addr
        rw [absent] at here
        cases here
      refine ⟨fun zero => absurd zero nonzero, fun _ => ?_⟩
      apply wp_post (walk_find tree (pgRoundDown_lt.mpr below))
      rintro a s1 ⟨same, pte⟩
      subst same pte
      rw [pgRoundDown_div]
      cases table : S.table 0 (dstva / PGSIZE / 512) with
      | none =>
        rw [tree.leafParent _ table] at leaf
        cases leaf
      | some t =>
        have entry := tree.read_leaf table
        rw [leaf] at entry
        obtain ⟨-, entry⟩ := valid_eq_some.mp entry
        simp only [Option.map_some, wp_bind, wp_readPte, wp_ite, wp_pure, wp_modify]
        rw [← entry]
        refine ⟨fun readonly => ⟨tree, Stored.refused some fun writable => ?_⟩, fun writable => ?_⟩
        · obtain ⟨-, e', leaf', -, writes⟩ := writable
          rw [leaf] at leaf'
          rw [← Option.some.inj leaf'] at writes
          exact writes readonly
        · rw [sub_pgRoundDown, address]
          obtain ⟨m, cut⟩ : ∃ m, m = min (PGSIZE - dstva % PGSIZE) src.length := ⟨_, rfl⟩
          rw [← cut]
          have only : OnlyPage s1.mem (write s1.mem (PTE2PA e + dstva % PGSIZE) (src.take m))
              (PTE2PA e) := by
            refine onlyPage_write (PTE2PA_aligned e) (by omega) ?_
            rw [length_take]
            have offset := offset_lt dstva
            omega
          have tree1 := tree.poke pages (targets.table _ e leaf user) only
          refine wp_post (ih tree1 (by rw [length_drop]; exact room_next cut room)) ?_
          rintro ok s2 ⟨tree2, stored⟩
          exact ⟨tree2, stored.cons targets below leaf user writable cut rfl⟩

theorem copyout_bytes (tree : Tree I own s.mem r S) (targets : Targets own r S)
    (pages : ∀ x, own x ≠ .outside → Phys x) (dstva : Nat) (src : List UInt8) :
    wp (copyout r dstva src) (fun _ => False) (fun ok s' =>
      Tree I own s'.mem r S ∧ Stored S s s' dstva src ok) s :=
  copyoutLoop_bytes _ tree targets pages (room_start dstva src.length)

end Copyout

section Copyin
variable {I : Nat → Prop} {own : Nat → Label} {s : Mach} {r : Nat} {S : Shape} {mem : Mem}

def Readable (S : Shape) (va len : Nat) : Prop := ∀ i < len, (userAddr S (va + i)).isSome

/-- The bytes that user code has at va and behind it; a byte that it does not have is 0. -/
def userBytes (S : Shape) (mem : Mem) (va len : Nat) : List UInt8 :=
  (List.range len).map fun i => ((userAddr S (va + i)).map mem).getD 0

theorem length_userBytes (S : Shape) (mem : Mem) (va len : Nat) : (userBytes S mem va len).length = len := by
  simp [userBytes]

theorem userBytes_append (S : Shape) (mem : Mem) (va m len : Nat) :
    userBytes S mem va (m + len) = userBytes S mem va m ++ userBytes S mem (va + m) len := by
  unfold userBytes
  rw [range_add, map_append, map_map]
  congr 1
  refine map_congr_left fun i _ => ?_
  rw [Function.comp_apply, Nat.add_assoc]

theorem userBytes_split (mem : Mem) (cut : m = min (PGSIZE - va % PGSIZE) len) :
    userBytes S mem va len =
      userBytes S mem va m ++ userBytes S mem (pgRoundDown va + PGSIZE) (len - m) := by
  by_cases all : len = m
  · rw [all, Nat.sub_self]
    simp [userBytes]
  · have next := next_page (i := 0) cut (by omega)
    rw [Nat.add_zero, Nat.add_zero] at next
    rw [← next, ← userBytes_append, Nat.add_sub_cancel' (by omega)]

/-- One page of copyin and copyinstr: what they read of it, and where they go on. -/
theorem page_bytes (mem : Mem) (below : va < MAXVA) (leaf : S.leaf (va / PGSIZE) = some e)
    (user : e &&& PTE_U ≠ 0) (cut : m = min (PGSIZE - va % PGSIZE) len) :
    read mem (PTE2PA e + (va - pgRoundDown va)) m = userBytes S mem va m ∧ Readable S va m ∧
      (pgRoundDown va + PGSIZE) % 2 ^ 64 = pgRoundDown va + PGSIZE := by
  refine ⟨map_congr_left fun i inside => ?_, fun i inside => ?_, Nat.mod_eq_of_lt ?_⟩
  · rw [userAddr_first below leaf user cut (mem_range.mp inside), sub_pgRoundDown]
    rfl
  · rw [userAddr_first below leaf user cut inside]
    rfl
  · simp only [pgRoundDown, PGSIZE, MAXVA] at *
    omega

theorem copyinLoop_bytes (k : Nat) (tree : Tree I own s.mem r S) (targets : Targets own r S)
    (room : va % PGSIZE + len ≤ k * PGSIZE) :
    wp (copyinLoop r k va len) (fun _ => False) (fun bytes s' => s' = s ∧
      (Readable S va len ∧ bytes = some (userBytes S s.mem va len) ∨
        ¬Readable S va len ∧ bytes = none)) s := by
  induction k generalizing va len with
  | zero =>
    obtain rfl : len = 0 := by omega
    exact ⟨rfl, .inl ⟨fun i inside => absurd inside (Nat.not_lt_zero i), rfl⟩⟩
  | succ k ih =>
    rw [copyinLoop]
    simp only [wp_ite, wp_pure, wp_bind, wp_get]
    refine ⟨fun zero => ?_, fun some => ?_⟩
    · subst zero
      exact ⟨trivial, .inl ⟨fun i inside => absurd inside (Nat.not_lt_zero i), rfl⟩⟩
    · apply wp_post (walkaddr_page tree targets va)
      rintro pa s' ⟨rfl, ⟨zero, absent⟩ | ⟨nonzero, below, e, leaf, user, rfl⟩⟩
      · refine ⟨fun _ => ⟨rfl, .inr ⟨fun all => ?_, trivial⟩⟩, fun not => absurd zero not⟩
        have first := all 0 (by omega)
        rw [Nat.add_zero, absent] at first
        cases first
      refine ⟨fun zero => absurd zero nonzero, fun _ => ?_⟩
      obtain ⟨m, cut⟩ : ∃ m, m = min (PGSIZE - va % PGSIZE) len := ⟨_, rfl⟩
      obtain ⟨bytes, here, next⟩ := page_bytes s'.mem below leaf user cut
      rw [sub_pgRoundDown] at bytes ⊢
      rw [next, ← cut, bytes]
      refine wp_post (ih (room_next cut room)) ?_
      rintro rest s2 ⟨rfl, outcome⟩
      have split : Readable S va len ↔ _ :=
        forall_range_iff (P := fun va => (userAddr S va).isSome = true) cut
      rcases outcome with ⟨all, rfl⟩ | ⟨missing, rfl⟩
      · refine ⟨rfl, .inl ⟨split.mpr ⟨here, all⟩, ?_⟩⟩
        rw [userBytes_split s2.mem cut]
      · exact ⟨rfl, .inr ⟨fun all => missing (split.mp all).2, rfl⟩⟩

theorem copyin_bytes (tree : Tree I own s.mem r S) (targets : Targets own r S) (va len : Nat) :
    wp (copyin r va len) (fun _ => False) (fun bytes s' => s' = s ∧
      (Readable S va len ∧ bytes = some (userBytes S s.mem va len) ∨
        ¬Readable S va len ∧ bytes = none)) s :=
  copyinLoop_bytes _ tree targets (room_start va len)

/-- The string at va is b: it ends within max bytes, and user code has it with its NUL. -/
structure UserString (S : Shape) (mem : Mem) (va max : Nat) (b : List UInt8) : Prop where
  short : b.length < max
  bytes : b = userBytes S mem va b.length
  text : 0 ∉ b
  nul : (userAddr S (va + b.length)).map mem = some 0
  there : Readable S va (b.length + 1)

def HasNul (S : Shape) (mem : Mem) (va max : Nat) : Prop :=
  ∃ k < max, Readable S va (k + 1) ∧ (userAddr S (va + k)).map mem = some 0

theorem UserString.hasNul {b : List UInt8} (string : UserString S mem va max b) :
    HasNul S mem va max := ⟨b.length, string.short, string.there, string.nul⟩

theorem getElem?_userBytes (inside : i < len) :
    (userBytes S mem va len)[i]? = some (((userAddr S (va + i)).map mem).getD 0) := by
  simp [userBytes, inside]

theorem take_userBytes (inside : k ≤ len) :
    (userBytes S mem va len).take k = userBytes S mem va k := by
  obtain ⟨rest, rfl⟩ := Nat.exists_eq_add_of_le inside
  rw [userBytes_append, take_left' (length_userBytes S mem va k)]

theorem takeWhile_lt {bytes : List UInt8} (found : 0 ∈ bytes) :
    (bytes.takeWhile (· ≠ 0)).length < bytes.length := by
  apply lt_of_le_of_ne (List.takeWhile_prefix _).length_le
  intro same
  have all := takeWhile_eq_self_iff.mp ((List.takeWhile_prefix _).eq_of_length same)
  simpa using all 0 found

theorem userString_first (fits : m ≤ max) (here : Readable S va m)
    (found : 0 ∈ userBytes S mem va m) :
    UserString S mem va max ((userBytes S mem va m).takeWhile (· ≠ 0)) := by
  obtain ⟨b, cut⟩ : ∃ b, b = (userBytes S mem va m).takeWhile (· ≠ 0) := ⟨_, rfl⟩
  have short : b.length < m := by
    have shorter := takeWhile_lt found
    rw [length_userBytes, ← cut] at shorter
    exact shorter
  have start : b = userBytes S mem va b.length := by
    have front := prefix_iff_eq_take.mp (List.takeWhile_prefix (· ≠ 0) (l := userBytes S mem va m))
    rw [← cut, take_userBytes (by omega)] at front
    exact front
  have last : (userBytes S mem va m)[b.length]? = some 0 := by
    have after := dropWhile_get_zero_not (fun c : UInt8 => decide (c ≠ 0)) (userBytes S mem va m)
    have parts := takeWhile_append_dropWhile (p := fun c : UInt8 => decide (c ≠ 0))
      (l := userBytes S mem va m)
    rw [← cut] at parts
    cases rest : (userBytes S mem va m).dropWhile fun c => decide (c ≠ 0) with
    | nil =>
      rw [rest, append_nil] at parts
      rw [parts, length_userBytes] at short
      exact absurd short (Nat.lt_irrefl m)
    | cons c tail =>
      have zero : c = 0 := by
        have fails := after (by rw [rest]; exact Nat.succ_pos _)
        simp only [rest, get_eq_getElem, getElem_cons_zero] at fails
        simpa using fails
      rw [← parts, rest, getElem?_append_right (Nat.le_refl _), Nat.sub_self, zero]
      rfl
  rw [← cut]
  refine ⟨by omega, start, fun zero => ?_, ?_, fun i early => here i (by omega)⟩
  · rw [cut] at zero
    simpa using mem_takeWhile_imp zero
  · rw [getElem?_userBytes short] at last
    obtain ⟨x, address⟩ := Option.isSome_iff_exists.mp (here b.length short)
    rw [address] at last ⊢
    exact last

theorem copyinstrLoop_bytes (k : Nat) (tree : Tree I own s.mem r S) (targets : Targets own r S)
    (room : va % PGSIZE + max ≤ k * PGSIZE) :
    wp (copyinstrLoop r k va max) (fun _ => False) (fun bytes s' => s' = s ∧
      ((∃ b, bytes = some b ∧ UserString S s.mem va max b) ∨
        bytes = none ∧ ¬HasNul S s.mem va max)) s := by
  induction k generalizing va max with
  | zero =>
    obtain rfl : max = 0 := by omega
    refine ⟨rfl, .inr ⟨rfl, ?_⟩⟩
    rintro ⟨k, inside, -⟩
    exact absurd inside (Nat.not_lt_zero k)
  | succ k ih =>
    rw [copyinstrLoop]
    simp only [wp_ite, wp_pure, wp_bind, wp_get]
    refine ⟨fun zero => ?_, fun some => ?_⟩
    · subst zero
      refine ⟨trivial, .inr ⟨trivial, ?_⟩⟩
      rintro ⟨k, inside, -⟩
      exact absurd inside (Nat.not_lt_zero k)
    · apply wp_post (walkaddr_page tree targets va)
      rintro pa s' ⟨rfl, ⟨zero, absent⟩ | ⟨nonzero, below, e, leaf, user, rfl⟩⟩
      · refine ⟨fun _ => ⟨rfl, .inr ⟨trivial, ?_⟩⟩, fun not => absurd zero not⟩
        rintro ⟨k, -, all, -⟩
        have first := all 0 (Nat.succ_pos k)
        rw [Nat.add_zero, absent] at first
        cases first
      refine ⟨fun zero => absurd zero nonzero, fun _ => ?_⟩
      obtain ⟨m, cut⟩ : ∃ m, m = min (PGSIZE - va % PGSIZE) max := ⟨_, rfl⟩
      obtain ⟨bytes, here, next⟩ := page_bytes s'.mem below leaf user cut
      rw [sub_pgRoundDown] at bytes ⊢
      rw [next, ← cut, bytes]
      refine ⟨fun zero => ⟨rfl, .inl ⟨_, rfl, userString_first (by omega) here zero⟩⟩, fun none => ?_⟩
      refine wp_post (ih (room_next cut room)) ?_
      rintro rest s2 ⟨rfl, ⟨b, rfl, string⟩ | ⟨rfl, missing⟩⟩
      · have short := string.short
        refine ⟨rfl, .inl ⟨_, rfl, ?_⟩⟩
        have total : (userBytes S s2.mem va m ++ b).length = m + b.length := by
          rw [length_append, length_userBytes]
        refine ⟨by omega, ?_, ?_, ?_, ?_⟩
        · have start := next_page (i := 0) cut (by omega)
          rw [Nat.add_zero, Nat.add_zero] at start
          rw [total, userBytes_append, start, ← string.bytes]
        · rw [mem_append, not_or]
          exact ⟨none, string.text⟩
        · rw [total, next_page cut short]
          exact string.nul
        · intro i early
          by_cases first : i < m
          · exact here i first
          · obtain ⟨d, rfl⟩ := Nat.exists_eq_add_of_le (Nat.le_of_not_lt first)
            rw [next_page cut (by omega)]
            exact string.there d (by omega)
      · refine ⟨rfl, .inr ⟨rfl, ?_⟩⟩
        rintro ⟨k, inside, all, nul⟩
        by_cases first : k < m
        · refine none (mem_of_getElem? (i := k) ?_)
          rw [getElem?_userBytes first, nul]
          rfl
        · obtain ⟨d, rfl⟩ := Nat.exists_eq_add_of_le (Nat.le_of_not_lt first)
          rw [next_page cut (by omega)] at nul
          refine missing ⟨d, by omega, fun i early => ?_, nul⟩
          rw [← next_page cut (by omega)]
          exact all (m + i) (by omega)

theorem copyinstr_bytes (tree : Tree I own s.mem r S) (targets : Targets own r S) (va max : Nat) :
    wp (copyinstr r va max) (fun _ => False) (fun bytes s' => s' = s ∧
      ((∃ b, bytes = some b ∧ UserString S s.mem va max b) ∨
        bytes = none ∧ ¬HasNul S s.mem va max)) s :=
  copyinstrLoop_bytes _ tree targets (room_start va max)

end Copyin
end Xv6Lab.Mm
