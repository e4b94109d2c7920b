import Xv6Lab.Mm.Access
import Xv6Lab.Mm.Refinement

/-!
The copies from and to user memory for any well-formed page table.
-/

namespace Xv6Lab.Mm
open List
open Bytes (Mem load store fill write read)

structure DistinctTargets (mem : Mem) (r : Nat) : Prop where
  nonzero : ∀ v e, leafAt mem r v = some e → PTE2PA e ≠ 0
  distinct : ∀ v v' e e', leafAt mem r v = some e → leafAt mem r v' = some e' →
    PTE2PA e = PTE2PA e' → v = v'

def shapeAt (mem : Mem) (r : Nat) : Shape := ⟨tableAt mem r, leafAt mem r⟩

/-- The address of byte i of the range at va, as the hardware and uint64 have it. -/
def rangeAddr (va i : Nat) : Nat := (va + i) % 2 ^ 64

/-- copyout returns whether every byte is in a page with V, U and W; it changes these bytes
to src and no others, and copyin has them back. -/
structure CopyoutSpec (s : Mach) (r dstva : Nat) (src : List UInt8) (ok : Bool) (s' : Mach) :
    Prop where
  success : ok = true ↔
    src = [] ∨ ∀ i < src.length, Writable (shapeAt s.mem r) (rangeAddr dstva i)
  bytes : ok = true → ∀ i < src.length, userByte s'.mem r (rangeAddr dstva i) = src[i]?
  others : ∀ x, (∀ i < src.length, userAddr (shapeAt s.mem r) (rangeAddr dstva i) ≠ some x) →
    s'.mem x = s.mem x
  freelist : s'.freelist = s.freelist
  back : ok = true → (copyin r dstva src.length).run s' = .ok (some src, s')

structure CopyinSpec (s : Mach) (r srcva len : Nat) (result : Option (List UInt8)) : Prop where
  success : result.isSome ↔ ∀ i < len, (userByte s.mem r (rangeAddr srcva i)).isSome
  bytes : ∀ dst, result = some dst →
    dst.length = len ∧ ∀ i < len, dst[i]? = userByte s.mem r (rangeAddr srcva i)

/-- copyinstr returns the bytes up to the first NUL, which is one of the first max bytes. -/
structure CopyinstrSpec (s : Mach) (r srcva max : Nat) (result : Option (List UInt8)) : Prop where
  success : result.isSome ↔ ∃ k < max, (∀ i ≤ k, (userByte s.mem r (rangeAddr srcva i)).isSome) ∧
    userByte s.mem r (rangeAddr srcva k) = some 0
  bytes : ∀ b, result = some b → b.length < max ∧ 0 ∉ b ∧
    ∀ i ≤ b.length, (b ++ [0])[i]? = userByte s.mem r (rangeAddr srcva i)

section Ranges
variable {P : Nat → Prop} {va len i : Nat}

theorem rangeAddr_lt (small : va + i < 2 ^ 64) : rangeAddr va i = va + i := Nat.mod_eq_of_lt small

theorem forall_rangeAddr (fits : va < 2 ^ 64) (below : ∀ x, P x → x < MAXVA) :
    (∀ i < len, P (rangeAddr va i)) ↔ ∀ i < len, P (va + i) := by
  have limit : MAXVA < 2 ^ 64 := by decide
  constructor
  · intro all
    have short : va + len ≤ 2 ^ 64 := by
      by_contra long
      have last := below _ (all (2 ^ 64 - 1 - va) (by omega))
      rw [rangeAddr_lt (by omega)] at last
      simp only [MAXVA] at last
      omega
    intro i inside
    have here := all i inside
    rwa [rangeAddr_lt (by omega)] at here
  · intro all i inside
    have here := below _ (all i inside)
    rw [rangeAddr_lt (by omega)]
    exact all i inside

theorem userAddr_lt {S : Shape} {va : Nat} (there : (userAddr S va).isSome) : va < MAXVA := by
  obtain ⟨x, address⟩ := Option.isSome_iff_exists.mp there
  exact (userAddr_eq_some.mp address).1

theorem userAddr_rangeAddr {S : Shape} (fits : va + i < 2 ^ 64 ∨ (userAddr S (va + i)).isSome) :
    userAddr S (rangeAddr va i) = userAddr S (va + i) := by
  have limit : MAXVA < 2 ^ 64 := by decide
  rcases fits with small | there
  · rw [rangeAddr_lt small]
  · rw [rangeAddr_lt (by have := userAddr_lt there; omega)]

end Ranges

section Bytewise
variable {s : Mach} {r va : Nat}

theorem userByte_eq {I : Nat → Prop} {own : Nat → Label} {mem : Mem} {S : Shape}
    (tree : Tree I own mem r S) (va : Nat) :
    userByte mem r va = (userAddr S va).map mem := by
  unfold userByte userAddr
  rw [tree.leafAt]
  split_ifs
  · cases S.leaf (va / PGSIZE) with
    | none => rfl
    | some e =>
      simp only [Option.bind_some]
      split_ifs <;> rfl
  · rfl

section
variable (wf : WellFormed s.mem r)
include wf

theorem WellFormed.shape :
    Tree (fun _ => True) (labelling s.mem r []) s.mem r (shapeAt s.mem r) := wf.tree []

theorem WellFormed.targets (distinct : DistinctTargets s.mem r) :
    Targets (labelling s.mem r []) r (shapeAt s.mem r) where
  nonzero v e leaf _ := distinct.nonzero v e leaf
  distinct v v' e e' leaf _ leaf' _ same := distinct.distinct v v' e e' leaf leaf' same
  table v e leaf _ l n label := wf.target v e l n leaf ((labelling_table wf).mp label)

theorem WellFormed.labelled (x : Nat) (used : labelling s.mem r [] x ≠ .outside) : Phys x := by
  by_contra not
  refine used (labelling_outside (fun l n here => not (wf.phys here)) (by simp))

theorem userByte_shapeAt (va : Nat) :
    userByte s.mem r va = (userAddr (shapeAt s.mem r) va).map s.mem :=
  userByte_eq wf.shape va

theorem all_userByte (fits : va < 2 ^ 64) (len : Nat) :
    (∀ i < len, (userByte s.mem r (rangeAddr va i)).isSome) ↔
      Readable (shapeAt s.mem r) va len := by
  simp only [userByte_shapeAt wf, Option.isSome_map]
  exact forall_rangeAddr (P := fun x => (userAddr (shapeAt s.mem r) x).isSome) fits
    fun x there => userAddr_lt there

end

theorem getElem?_bytes {S : Shape} {mem : Mem} {len i : Nat} (inside : i < len)
    (there : (userAddr S (va + i)).isSome) :
    (userBytes S mem va len)[i]? = (userAddr S (rangeAddr va i)).map mem := by
  rw [getElem?_userBytes inside, userAddr_rangeAddr (.inr there)]
  obtain ⟨x, address⟩ := Option.isSome_iff_exists.mp there
  rw [address]
  rfl

theorem copyin_spec_of (wf : WellFormed s.mem r) (distinct : DistinctTargets s.mem r)
    (fits : va < 2 ^ 64) (len : Nat) :
    ∃ result, (copyin r va len).run s = .ok (result, s) ∧ CopyinSpec s r va len result := by
  obtain ⟨result, s', run, same, outcome⟩ :=
    wp_returns (copyin_bytes wf.shape (wf.targets distinct) va len)
  subst same
  refine ⟨result, run, ?_⟩
  have all := all_userByte wf fits len
  rcases outcome with ⟨there, rfl⟩ | ⟨missing, rfl⟩
  · refine ⟨iff_of_true rfl (all.mpr there), ?_⟩
    rintro dst same
    obtain rfl := Option.some.inj same
    refine ⟨length_userBytes _ _ _ _, fun i inside => ?_⟩
    rw [userByte_shapeAt wf]
    exact getElem?_bytes inside (there i inside)
  · refine ⟨iff_of_false (by simp) fun there => missing (all.mp there), ?_⟩
    intro dst same
    cases same

theorem copyinstr_spec_of (wf : WellFormed s.mem r) (distinct : DistinctTargets s.mem r)
    (fits : va < 2 ^ 64) (max : Nat) :
    ∃ result, (copyinstr r va max).run s = .ok (result, s) ∧ CopyinstrSpec s r va max result := by
  obtain ⟨result, s', run, same, outcome⟩ :=
    wp_returns (copyinstr_bytes wf.shape (wf.targets distinct) va max)
  subst same
  refine ⟨result, run, ?_⟩
  have nul : (∃ k < max, (∀ i ≤ k, (userByte s'.mem r (rangeAddr va i)).isSome) ∧
      userByte s'.mem r (rangeAddr va k) = some 0) ↔ HasNul (shapeAt s'.mem r) s'.mem va max := by
    refine exists_congr fun k => and_congr_right fun _ => ?_
    simp only [← Nat.lt_succ_iff]
    rw [all_userByte wf fits]
    refine and_congr_right fun there => ?_
    rw [userByte_shapeAt wf, userAddr_rangeAddr (.inr (there k (Nat.lt_succ_self k)))]
  rcases outcome with ⟨b, rfl, string⟩ | ⟨rfl, missing⟩
  · refine ⟨iff_of_true rfl (nul.mpr string.hasNul), ?_⟩
    rintro b' same
    obtain rfl := Option.some.inj same
    refine ⟨string.short, string.text, fun i early => ?_⟩
    have there := string.there i (Nat.lt_succ_of_le early)
    rw [userByte_shapeAt wf]
    rcases Nat.lt_or_eq_of_le early with before | rfl
    · rw [getElem?_append_left before, ← getElem?_bytes before there]
      exact congrArg (·[i]?) string.bytes
    · rw [getElem?_append_right (Nat.le_refl _), Nat.sub_self, userAddr_rangeAddr (.inr there)]
      exact string.nul.symm
  · refine ⟨iff_of_false (by simp) fun found => missing (nul.mp found), ?_⟩
    intro b same
    cases same

theorem copyout_spec_of (wf : WellFormed s.mem r) (distinct : DistinctTargets s.mem r)
    (fits : va < 2 ^ 64) (src : List UInt8) :
    ∃ ok s', (copyout r va src).run s = .ok (ok, s') ∧ CopyoutSpec s r va src ok s' := by
  have targets := wf.targets distinct
  obtain ⟨ok, s', run, tree, stored⟩ :=
    wp_returns (copyout_bytes wf.shape targets wf.labelled va src)
  have all : (∀ i < src.length, Writable (shapeAt s.mem r) (rangeAddr va i)) ↔ ok = true := by
    rw [stored.success]
    exact forall_rangeAddr fits fun x writable => writable.1
  have held : ok = true → Readable (shapeAt s.mem r) va src.length :=
    fun yes i inside => (stored.success.mp yes i inside).addr
  have value : ok = true → ∀ i < src.length,
      (userAddr (shapeAt s.mem r) (va + i)).map s'.mem = src[i]? := by
    intro yes i inside
    obtain ⟨x, address⟩ := Option.isSome_iff_exists.mp (held yes i inside)
    rw [address, Option.map_some, stored.bytes i inside (fun j before => stored.success.mp yes j (by omega)) x address,
      getElem?_eq_getElem inside, getD_eq_getElem?_getD, getElem?_eq_getElem inside]
    rfl
  refine ⟨ok, s', run, ?_, fun yes i inside => ?_, fun x outside => ?_, by rw [stored.machine], fun yes => ?_⟩
  · rw [all]
    refine ⟨.inr, fun either => either.elim (fun empty => all.mp ?_) id⟩
    rw [empty]
    intro i inside
    exact absurd inside (Nat.not_lt_zero i)
  · rw [userByte_eq tree]
    exact (congrArg _ (userAddr_rangeAddr (.inr (held yes i inside)))).trans (value yes i inside)
  · refine stored.others x fun i inside _ address => outside i inside ?_
    exact (userAddr_rangeAddr (.inr (Option.isSome_iff_exists.mpr ⟨x, address⟩))).trans address
  · obtain ⟨result, s2, run2, same, outcome⟩ := wp_returns (copyin_bytes tree targets va src.length)
    subst same
    rcases outcome with ⟨-, rfl⟩ | ⟨missing, -⟩
    · rw [run2]
      refine congrArg (fun bytes => Except.ok (some bytes, s2)) (ext_getElem? fun i => ?_)
      by_cases inside : i < src.length
      · rw [getElem?_userBytes inside, ← value yes i inside]
        obtain ⟨x, address⟩ := Option.isSome_iff_exists.mp (held yes i inside)
        exact (congrArg (fun o => some ((Option.map s2.mem o).getD 0)) address).trans
          (congrArg (Option.map s2.mem) address).symm
      · rw [getElem?_eq_none (by rw [length_userBytes]; omega), getElem?_eq_none (by omega)]
    · exact absurd (held yes) missing

end Bytewise

/-- The three copies do, page by page, what a byte-by-byte copy would do. -/
theorem user_copies_bytewise (s : Mach) (r va : Nat) (wf : WellFormed s.mem r)
    (distinct : DistinctTargets s.mem r) (fits : va < 2 ^ 64) :
    (∀ src, ∃ ok s', (copyout r va src).run s = .ok (ok, s') ∧ CopyoutSpec s r va src ok s') ∧
    (∀ len, ∃ result, (copyin r va len).run s = .ok (result, s) ∧ CopyinSpec s r va len result) ∧
    ∀ max, ∃ result, (copyinstr r va max).run s = .ok (result, s) ∧
      CopyinstrSpec s r va max result :=
  ⟨copyout_spec_of wf distinct fits, copyin_spec_of wf distinct fits,
    copyinstr_spec_of wf distinct fits⟩

section Small

theorem small_mapped : ∃ s own S, (mappages 4096 0 PGSIZE 16384 (PTE_R ||| PTE_W ||| PTE_U)).run small =
      .ok (true, s) ∧ PageTable Phys (fun _ => True) own s 4096 S ∧ own 16384 = .outside ∧
    ∀ v, S.leaf v = if v = 0 then some (leafOf 16384 (PTE_R ||| PTE_W ||| PTE_U)) else none := by
  have wf := wellFormed_blank small_blank (by decide)
  have pt := wf.pageTable small_supply
  obtain ⟨ok, s, run, own, S, pt', within, leaf⟩ := wp_returns
    (mappages_one pt (show PTE_R ||| PTE_W ||| PTE_U < 2 ^ 10 by decide)
      (show 16384 < 2 ^ 64 by decide) (show 0 % PGSIZE = 0 by decide) (by decide)
      (show leafAt small.mem 4096 (0 / PGSIZE) = none from leafAt_blank small_blank (0 / PGSIZE)))
  have success : ok = true := by
    have outcome : ((mappages 4096 0 PGSIZE 16384 (PTE_R ||| PTE_W ||| PTE_U)).run small).toOption.map
        Prod.fst = some true := by decide +kernel
    rw [run] at outcome
    exact Option.some.inj outcome
  subst success
  rw [if_pos rfl, Nat.zero_div] at leaf
  refine ⟨s, own, S, run, pt', ?_, fun v => ?_⟩
  · rw [within.iff (by simp [Tables])]
    refine labelling_outside (fun l n => ?_) (by decide)
    rw [tableAt_blank small_blank]
    split <;> simp
  · rw [leaf]
    split_ifs with first
    · rw [first, Function.update_self]
    · rw [Function.update_of_ne first]
      exact leafAt_blank small_blank v

theorem small_user (bytes : List UInt8) (short : bytes.length ≤ PGSIZE) : ∃ s : Mach,
    WellFormed s.mem 4096 ∧ DistinctTargets s.mem 4096 ∧
    (∀ i < bytes.length, userByte s.mem 4096 i = bytes[i]?) ∧
    (∀ va, Writable (shapeAt s.mem 4096) va ↔ va < PGSIZE) ∧
    ∀ va, PGSIZE ≤ va → userByte s.mem 4096 va = none := by
  obtain ⟨s, own, S, -, pt, outside, leaf⟩ := small_mapped
  have target : PTE2PA (leafOf 16384 (PTE_R ||| PTE_W ||| PTE_U)) = 16384 := by decide
  have leaves : ∀ v e, S.leaf v = some e → v = 0 ∧ PTE2PA e = 16384 := by
    intro v e here
    rw [leaf] at here
    split_ifs at here with first
    rw [← Option.some.inj here]
    exact ⟨first, target⟩
  let after : Mach := { s with mem := write s.mem 16384 bytes }
  have tree : Tree (fun _ => True) own after.mem 4096 S := by
    refine pt.tree.poke pt.used (fun l n => ?_) (onlyPage_write (by decide) (Nat.le_refl _) (by omega))
    rw [outside]
    simp
  have held : ∀ i < PGSIZE, userByte after.mem 4096 i = some (after.mem (16384 + i)) := by
    intro i inside
    have page : i / PGSIZE = 0 := Nat.div_eq_of_lt inside
    rw [userByte_eq tree, userAddr_eq_some.mpr
      ⟨by simp only [PGSIZE, MAXVA] at *; omega, leafOf 16384 (PTE_R ||| PTE_W ||| PTE_U), ?_, by decide, rfl⟩]
    · rw [target, Nat.mod_eq_of_lt inside]
      rfl
    · rw [page, leaf, if_pos rfl]
  refine ⟨after, tree.wellFormed pt.used ?_, ⟨?_, ?_⟩, fun i inside => ?_, fun va => ⟨?_, fun low => ?_⟩,
    fun va high => ?_⟩
  · intro v e here
    rw [(leaves v e here).2, outside]
    simp
  · intro v e here
    rw [tree.leafAt] at here
    rw [(leaves v e here).2]
    decide
  · intro v v' e e' here there _
    rw [tree.leafAt] at here there
    rw [(leaves v e here).1, (leaves v' e' there).1]
  · rw [held i (by omega)]
    simp [after, write, inside, getD_eq_getElem?_getD]
  · rintro ⟨-, e, here, -⟩
    change leafAt after.mem 4096 (va / PGSIZE) = some e at here
    rw [tree.leafAt] at here
    have page := (leaves _ e here).1
    simp only [PGSIZE] at *
    omega
  · refine ⟨by simp only [PGSIZE, MAXVA] at *; omega, leafOf 16384 (PTE_R ||| PTE_W ||| PTE_U), ?_,
      by decide, by decide⟩
    change leafAt after.mem 4096 (va / PGSIZE) = _
    rw [tree.leafAt, Nat.div_eq_of_lt low, leaf, if_pos rfl]
  · have page : va / PGSIZE ≠ 0 := by
      simp only [PGSIZE] at *
      omega
    rw [userByte, tree.leafAt, leaf, if_neg page]
    split_ifs <;> rfl

end Small

theorem user_copies_small : ∃ s : Mach, (∀ i < PGSIZE, userByte s.mem 4096 i = some 7) ∧
    (∀ src, ∃ ok s', (copyout 4096 4095 src).run s = .ok (ok, s') ∧ CopyoutSpec s 4096 4095 src ok s') ∧
    (∀ len, ∃ result, (copyin 4096 4095 len).run s = .ok (result, s) ∧
      CopyinSpec s 4096 4095 len result) ∧
    ∀ max, ∃ result, (copyinstr 4096 4095 max).run s = .ok (result, s) ∧
      CopyinstrSpec s 4096 4095 max result := by
  obtain ⟨s, wf, distinct, sevens, -, -⟩ := small_user (List.replicate PGSIZE 7) (by simp)
  refine ⟨s, fun i inside => ?_, user_copies_bytewise s 4096 4095 wf distinct (by decide)⟩
  rw [sevens i (by simpa using inside), getElem?_replicate, if_pos inside]

end Xv6Lab.Mm
