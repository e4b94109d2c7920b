import Xv6Lab.Kernel.Model
import Xv6Lab.Mm.Access

/-!
The address spaces that proc.c and exec.c build and take down.
-/

namespace Xv6Lab.Kernel
open Function (update update_idem update_of_ne update_self)

open Bytes (Mem load store write read)
open Mm
open Fs
variable {s1 : Mach}

section Labels
variable {own own' : Nat → Label} {mem mem' : Mem} {r : Nat}

def Rooted (own : Nat → Label) : Prop := ∀ x r, (own x).root = some r → own r ≠ .free

theorem Rooted.fresh (rooted : Rooted own) (free : own r = .free) (x : Nat) :
    (own x).root ≠ some r :=
  fun root => rooted x r root free

theorem Within.restored (within : Within (Mine r) own own' mem mem')
    (before : ∀ x, (own x).root ≠ some r) (after : ∀ x, (own' x).root ≠ some r) :
    own' = own ∧ Within (· = .free) own own mem mem' := by
  have free : ∀ x, Mine r (own x) → own x = .free := by
    intro x mine
    exact mine.resolve_right (before x)
  have same : own' = own := by
    funext x
    by_cases mine : Mine r (own x)
    · rw [free x mine]
      exact (within.stay x mine).resolve_right (after x)
    · exact within.label x mine
  refine ⟨same, fun _ _ => rfl, fun _ inside => inside, fun x aligned busy => ?_⟩
  exact within.bytes x aligned fun mine => busy (free x mine)

end Labels

section Tables
variable {cfg : Config} {own : Nat → Label} {s : Mach} {r tf n : Nat} {S : Shape}

theorem top_pages : TRAMPOLINE / PGSIZE = USERTOP + 1 ∧ TRAPFRAME / PGSIZE = USERTOP ∧
    TRAMPOLINE = (USERTOP + 1) * PGSIZE ∧ TRAPFRAME = USERTOP * PGSIZE ∧
    USERTOP + 2 = MAXVA / PGSIZE := by decide

theorem uvmfree_empty (pt : PageTable (IsPage cfg) Plain own s r S) (users : ∀ v x, own x ≠ .user r v)
    (empty : ∀ v, S.leaf v = none) :
    wp (uvmfree cfg r 0) (fun _ => False) (fun _ s' => ∃ own', Heap (IsPage cfg) own' s' ∧
      Within (Mine r) own own' s.mem s'.mem ∧ ∀ x, (own' x).root ≠ some r) s := by
  refine uvmfree_spec pt (fun v x => ?_) (by decide) fun v _ => empty v
  simp [users, empty]

theorem procPagetable_undo {own1 : Nat → Label} (rooted : Rooted own) (free : own r = .free)
    (pt : PageTable (IsPage cfg) Plain own1 s1 r S) (within : Within (Mine r) own own1 s.mem s1.mem)
    (users : ∀ v x, own1 x ≠ .user r v) (empty : ∀ v, S.leaf v = none) :
    wp (uvmfree cfg r 0) (fun _ => False) (fun _ s' => Heap (IsPage cfg) own s' ∧
      Within (· = .free) own own s.mem s'.mem) s1 := by
  apply wp_post (uvmfree_empty pt users empty)
  rintro _ s' ⟨own', heap, within', gone⟩
  obtain ⟨same, restored⟩ := Within.restored (within.trans within') (rooted.fresh free) gone
  exact ⟨same ▸ heap, restored⟩

def Shape.bare (r : Nat) : Shape :=
  ⟨fun l n => if l = 2 ∧ n = 0 then some r else none, fun _ => none⟩

theorem create_root (heap : Heap (IsPage cfg) own s) (rooted : Rooted own) (free : own r = .free)
    (only : OnlyPage s.mem s1.mem r) (taken : Heap (IsPage cfg) (update own r .argument) s1) :
    OnlyPage s.mem (Bytes.fill s1.mem r PGSIZE 0) r ∧
      PageTable (IsPage cfg) Plain (update own r (.table r 2 0))
        { s1 with mem := Bytes.fill s1.mem r PGSIZE 0 } r (Shape.bare r) := by
  have page := heap.used (x := r) (by simp [free])
  have relabelled := taken.relabel (x := r) (l := .table r 2 0) (by simp) (by simp) (by simp)
  rw [update_idem] at relabelled
  have zeroed : OnlyPage s1.mem (Bytes.fill s1.mem r PGSIZE 0) r := onlyPage_fill page.1
  refine ⟨only.trans zeroed, ?_, ?_, plain_interior⟩
  · exact relabelled.frame (P := fun l => l = .table r 2 0) (Within.touch (by simp) zeroed)
      (by simp) (by simp)
  · apply Tree.create
    intro x l n label
    exact rooted.fresh free x (by rw [label, Label.root])

theorem uvmcreate_spec (heap : Heap (IsPage cfg) own s) (rooted : Rooted own) :
    wp uvmcreate (fun _ => False) (fun r s' =>
      (r = 0 ∧ s'.mem = s.mem ∧ Heap (IsPage cfg) own s') ∨
      (r ≠ 0 ∧ own r = .free ∧ OnlyPage s.mem s'.mem r ∧
        PageTable (IsPage cfg) Plain (update own r (.table r 2 0)) s' r (Shape.bare r))) s := by
  unfold uvmcreate
  apply wp_seq (kalloc_spec heap .argument (by simp))
  intro r s1 taken
  rcases taken with ⟨none, same, heap1⟩ | ⟨free, nonzero, only, heap1⟩
  · rw [if_pos none]
    exact .inl ⟨rfl, same, heap1⟩
  · rw [if_neg nonzero, wp_bind, wp_memset]
    exact .inr ⟨nonzero, free, create_root heap rooted free only heap1⟩

theorem Space.empty {mem : Mem} (tree : Tree Plain own mem r S) (users : ∀ v x, own x ≠ .user r v)
    (leaf : S.leaf = update (update (fun _ => none) (USERTOP + 1)
      (some (leafOf cfg.trampoline (PTE_R ||| PTE_X)))) USERTOP (some (leafOf tf (PTE_R ||| PTE_W)))) :
    Space cfg own mem r tf 0 S := by
  have others : ∀ v, v ≠ USERTOP → v ≠ USERTOP + 1 → S.leaf v = none := by
    intro v first second
    rw [leaf, update_of_ne first, update_of_ne second]
  have trapframe : S.leaf USERTOP = some (leafOf tf (PTE_R ||| PTE_W)) := by
    rw [leaf, update_self]
  have trampoline : S.leaf (USERTOP + 1) = some (leafOf cfg.trampoline (PTE_R ||| PTE_X)) := by
    rw [leaf, update_of_ne (by omega), update_self]
  constructor
  · exact tree
  · intro v x
    simp only [users, false_iff, not_and, not_exists]
    intro below e found
    rw [others v (by omega) (by omega)] at found
    cases found
  · exact Nat.zero_le _
  · intro v below
    simp [others v (by omega) (by omega)]
  · exact trapframe
  · exact trampoline
  · intro v above
    exact others v (by omega) (by omega)
  · intro v e found
    by_cases first : v = USERTOP
    · rw [first, trapframe] at found
      rw [← Option.some.inj found, leafOf_and (by decide) (by decide)]
      decide
    · by_cases second : v = USERTOP + 1
      · rw [second, trampoline] at found
        rw [← Option.some.inj found, leafOf_and (by decide) (by decide)]
        decide
      · rw [others v first second] at found
        cases found

theorem procPagetable_spec (heap : Heap (IsPage cfg) own s) (rooted : Rooted own) (page : Phys tf) :
    wp (procPagetable cfg tf) (fun _ => False) (fun r s' =>
      (r = 0 ∧ Heap (IsPage cfg) own s' ∧ Within (· = .free) own own s.mem s'.mem) ∨
      (r ≠ 0 ∧ own r = .free ∧ ∃ own' S, Heap (IsPage cfg) own' s' ∧
        Space cfg own' s'.mem r tf 0 S ∧ Within (Mine r) own own' s.mem s'.mem)) s := by
  obtain ⟨tramp, trap, trampPage, trapPage, top⟩ := top_pages
  unfold procPagetable
  apply wp_seq (uvmcreate_spec heap rooted)
  intro r s1 created
  rcases created with ⟨none, same, heap1⟩ | ⟨nonzero, free, only, pt⟩
  · rw [if_pos none]
    exact .inl ⟨rfl, heap1, by rw [same]; exact Within.refl _ _ _⟩
  · have within1 : Within (Mine r) own (update own r (.table r 2 0)) s.mem s1.mem :=
      Within.relabel (.inl free) (.inr rfl) only
    have users1 : ∀ v x, update own r (.table r 2 0) x ≠ .user r v := by
      intro v x label
      by_cases same : x = r
      · rw [same, update_self] at label
        cases label
      · rw [update_of_ne same] at label
        exact rooted.fresh free x (by rw [label, Label.root])
    have fits : cfg.trampoline < 2 ^ 64 := by
      have text := cfg.text
      have data := cfg.data
      have bound := (heap.page r (by simp [free])).2
      have := cfg.top
      omega
    rw [if_neg nonzero]
    apply wp_seq (mappages_one pt (by decide) fits (by decide) (by decide) rfl)
    rintro ok s2 ⟨own2, S2, pt2, within2, leaf2⟩
    have users2 : ∀ v x, own2 x ≠ .user r v := fun v x label =>
      users1 v x ((within2.iff (by simp [Mm.Tables])).mp label)
    have total2 := within1.trans (within2.mono fun _ => Tables.mine)
    cases ok with
    | false =>
      apply wp_seq (procPagetable_undo rooted free pt2 total2 users2 fun v => by rw [leaf2]; rfl)
      intro _ s' restored
      exact .inl ⟨rfl, restored⟩
    | true =>
      rw [if_pos rfl] at leaf2 ⊢
      apply wp_seq (mappages_one pt2 (by decide) (lt_trans page.2 (by norm_num)) (by decide)
        (by decide) (by rw [leaf2]; rfl))
      rintro ok s3 ⟨own3, S3, pt3, within3, leaf3⟩
      have users3 : ∀ v x, own3 x ≠ .user r v := fun v x label =>
        users2 v x ((within3.iff (by simp [Mm.Tables])).mp label)
      have total3 := total2.trans (within3.mono fun _ => Tables.mine)
      cases ok with
      | false =>
        rw [if_neg (by simp)] at leaf3 ⊢
        rw [trampPage]
        apply wp_seq (uvmunmap_keep pt3 (by omega))
        rintro _ s4 ⟨S4, pt4, within4, leaf4⟩
        apply wp_seq (procPagetable_undo rooted free pt4 (total3.trans within4) users3 _)
        · intro _ s' restored
          exact .inl ⟨rfl, restored⟩
        · intro v
          rw [leaf4, Shape.cut, leaf3, leaf2, tramp]
          by_cases here : v = USERTOP + 1
          · rw [if_pos (by omega)]
          · rw [if_neg (by omega), update_of_ne here]
            rfl
      | true =>
        rw [if_pos rfl] at leaf3 ⊢
        rw [leaf2, tramp, trap] at leaf3
        exact .inr ⟨nonzero, free, own3, S3, pt3.toHeap, Space.empty pt3.tree users3 leaf3, total3⟩

theorem procFreepagetable_spec {sz : Nat} (heap : Heap (IsPage cfg) own s)
    (space : Space cfg own s.mem r tf (pagesOf sz) S) :
    wp (procFreepagetable cfg r sz) (fun _ => False) (fun _ s' => ∃ own',
      Heap (IsPage cfg) own' s' ∧ Within (Mine r) own own' s.mem s'.mem ∧
        ∀ x, (own' x).root ≠ some r) s := by
  obtain ⟨tramp, trap, trampPage, trapPage, top⟩ := top_pages
  unfold procFreepagetable
  rw [trampPage, trapPage]
  apply wp_seq (uvmunmap_keep (space.pageTable heap) (by omega))
  rintro _ s1 ⟨S1, pt1, within1, leaf1⟩
  apply wp_seq (uvmunmap_keep pt1 (by omega))
  rintro _ s2 ⟨S2, pt2, within2, leaf2⟩
  have leaf : ∀ v, S2.leaf v = if v < USERTOP then S.leaf v else none := by
    intro v
    rw [leaf2, Shape.cut, leaf1, Shape.cut]
    by_cases user : v < USERTOP
    · rw [if_neg (by omega), if_neg (by omega), if_pos user]
    · rw [if_neg user]
      by_cases high : USERTOP + 1 < v
      · rw [if_neg (by omega), if_neg (by omega), space.high v high]
      · by_cases middle : v = USERTOP
        · rw [if_pos (by omega)]
        · rw [if_neg (by omega), if_pos (by omega)]
  apply wp_post (uvmfree_spec pt2 _ space.bound _)
  · rintro _ s3 ⟨own3, heap3, within3, gone⟩
    exact ⟨own3, heap3, (within1.trans within2).trans within3, gone⟩
  · exact space.users.congr fun v below => by rw [leaf, if_pos below]
  · intro v above
    rw [leaf]
    split
    · next below => exact (space.low v below).mpr above
    · rfl

end Tables
end Xv6Lab.Kernel
