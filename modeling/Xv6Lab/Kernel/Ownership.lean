import Xv6Lab.Kernel.Reach

/-!
Every page of memory is in one place, and no process can change what another one
reads, in every state that the kernel reaches.
-/

namespace Xv6Lab.Kernel
open List
open Bytes (Mem load)
open Mm
open Fs
variable {mem : Mem}

def freeAt (mem : Mem) (head : Nat) : Nat → Option Nat
  | 0 => if head = 0 then none else some head
  | i + 1 => if head = 0 then none else freeAt mem (load mem head 8) i

/-- What a page can be: free, a table or a page of a process, a trapframe, or the kernel's. -/
inductive Place
  | free (i : Nat)
  | table (p l n : Nat)
  | user (p v : Nat)
  | trapframe (p : Nat)
  | kernelTable (l n : Nat)
  | kstack (n : Nat)
  | ring (n : Nat)
deriving DecidableEq, Repr

def At (k : State) (x : Nat) : Place → Prop
  | .free i => freeAt k.mach.mem k.mach.freelist i = some x
  | .table p l n => (k.proc p).pagetable ≠ 0 ∧ tableAt k.mach.mem (k.proc p).pagetable l n = some x
  | .user p v => (k.proc p).pagetable ≠ 0 ∧ v < TRAPFRAME / PGSIZE ∧
      ∃ e, leafAt k.mach.mem (k.proc p).pagetable v = some e ∧ PTE2PA e = x
  | .trapframe p => x ≠ 0 ∧ (k.proc p).trapframe = x
  | .kernelTable l n => tableAt k.mach.mem k.kernelPagetable l n = some x
  | .kstack n => k.kstacks[n]? = some x
  | .ring n => k.rings[n]? = some x

section Places
variable {cfg : Config} {own : Nat → Label} {k : State} {x : Nat}

theorem Chain.freeAt {head : Nat} {F : List Nat} (chain : Chain mem head F) (i : Nat) :
    freeAt mem head i = F[i]? := by
  induction F generalizing head i with
  | nil =>
    obtain rfl : head = 0 := chain
    cases i <;> simp [Kernel.freeAt]
  | cons y rest ih =>
    obtain ⟨rfl, nonzero, tail⟩ := chain
    cases i with
    | zero => simp [Kernel.freeAt, nonzero]
    | succ i => rw [Kernel.freeAt, if_neg nonzero, ih tail, getElem?_cons_succ]

def labelOf (k : State) : Place → Label
  | .free _ => .free
  | .table p l n => .table (k.proc p).pagetable l n
  | .user p v => .user (k.proc p).pagetable v
  | .trapframe p => .trapframe p
  | .kernelTable l n => .table k.kernelPagetable l n
  | .kstack n => .kstack n
  | .ring n => .ring n

section
variable (memory : Memory cfg own k)
include memory

theorem At.label {place : Place} (here : At k x place) : own x = labelOf k place := by
  cases place with
  | free i =>
    obtain ⟨F, chain, _, labels⟩ := memory.heap.list
    have found : F[i]? = some x := (Chain.freeAt chain i).symm.trans here
    exact (labels x).mp (mem_of_getElem? found)
  | table p l n =>
    obtain ⟨S, space⟩ := memory.space p here.1
    rw [At, space.tree.tableAt] at here
    exact (space.tree.labels l n x).mpr here.2
  | user p v =>
    obtain ⟨S, space⟩ := memory.space p here.1
    rw [At, space.tree.leafAt] at here
    exact (space.users v x).mpr here.2
  | trapframe p => exact (memory.trapframe p x).mpr here
  | kernelTable l n =>
    obtain ⟨S, tree⟩ := memory.kernel
    rw [At, tree.tableAt] at here
    exact (tree.labels l n x).mpr here
  | kstack n => exact (memory.kstack n x).mpr here
  | ring n => exact (memory.ring n x).mpr here

theorem place_of_pool (settled : Settled own k) (inside : x ∈ pool cfg) : ∃ place, At k x place := by
  have used := (memory.pool x).mpr inside
  cases label : own x with
  | outside => exact absurd label used
  | argument => exact absurd label (settled.arguments x)
  | free =>
    obtain ⟨F, chain, _, labels⟩ := memory.heap.list
    obtain ⟨i, found⟩ := mem_iff_getElem?.mp ((labels x).mpr label)
    exact ⟨.free i, (Chain.freeAt chain i).trans found⟩
  | table r l n =>
    rcases memory.roots x r (by rw [label]; rfl) with rfl | ⟨nonzero, p, rfl⟩
    · obtain ⟨S, tree⟩ := memory.kernel
      exact ⟨.kernelTable l n, (tree.tableAt l n).trans ((tree.labels l n x).mp label)⟩
    · obtain ⟨S, space⟩ := memory.space p nonzero
      exact ⟨.table p l n, nonzero,
        (space.tree.tableAt l n).trans ((space.tree.labels l n x).mp label)⟩
  | user r v =>
    rcases memory.roots x r (by rw [label]; rfl) with rfl | ⟨nonzero, p, rfl⟩
    · exact absurd label (memory.kernelUser x v)
    · obtain ⟨S, space⟩ := memory.space p nonzero
      obtain ⟨low, e, leaf, target⟩ := (space.users v x).mp label
      exact ⟨.user p v, nonzero, low, e, (space.tree.leafAt v).trans leaf, target⟩
  | trapframe p => exact ⟨.trapframe p, (memory.trapframe p x).mp label⟩
  | kstack n => exact ⟨.kstack n, (memory.kstack n x).mp label⟩
  | ring n => exact ⟨.ring n, (memory.ring n x).mp label⟩

theorem At.unique {place place' : Place} (here : At k x place)
    (there : At k x place') : place' = place := by
  have same : labelOf k place' = labelOf k place :=
    (At.label memory there).symm.trans (At.label memory here)
  cases place <;> cases place' <;> simp only [labelOf, Label.table.injEq, Label.user.injEq,
    Label.trapframe.injEq, Label.kstack.injEq, Label.ring.injEq, reduceCtorEq] at same
  case free.free i j =>
      obtain ⟨F, chain, nodup, _⟩ := memory.heap.list
      have first : F[i]? = some x := (Chain.freeAt chain i).symm.trans here
      have second : F[j]? = some x := (Chain.freeAt chain j).symm.trans there
      obtain ⟨low, _⟩ := List.getElem?_eq_some_iff.mp second
      rw [(getElem?_inj low nodup).mp (second.trans first.symm)]
  case table.table p l n q l' n' =>
      obtain ⟨root, rfl, rfl⟩ := same
      rw [memory.apart q p there.1 root]
  case table.kernelTable p l n l' n' => exact absurd same.1.symm (memory.kernelApart p)
  case user.user p v q v' =>
      obtain ⟨root, rfl⟩ := same
      rw [memory.apart q p there.1 root]
  case trapframe.trapframe p q => rw [same]
  case kernelTable.table l n p l' n' => exact absurd same.1 (memory.kernelApart p)
  case kernelTable.kernelTable l n l' n' => rw [same.2.1, same.2.2]
  case kstack.kstack n n' => rw [same]
  case ring.ring n n' => rw [same]

theorem At.inside {place : Place} (here : At k x place) : x ∈ pool cfg := by
  rw [← memory.pool, At.label memory here]
  cases place <;> simp [labelOf]

end

theorem length_rangePages (top n p : Nat) : (rangePages top n p).length ≤ n := by
  induction n generalizing p with
  | zero => simp [rangePages]
  | succ n ih =>
    rw [rangePages]
    split
    · simpa using ih (p + PGSIZE)
    · simp

theorem count_places (memory : Memory cfg own k) (settled : Settled own k) :
    ∃ others : List Nat, others.Nodup ∧
      (∀ x, x ∈ others ↔ ∃ place, (∀ i, place ≠ .free i) ∧ At k x place) ∧
      kfreemem cfg k.mach / PGSIZE + others.length = (pool cfg).length := by
  obtain ⟨F, chain, nodup, labels⟩ := memory.heap.list
  have part : F ⊆ pool cfg := fun x member => (memory.pool x).mp (by simp [(labels x).mp member])
  have total : ((pool cfg).filter (· ∉ F)).length + F.length = (pool cfg).length := by
    have split := length_eq_length_filter_add (l := pool cfg) (· ∈ F)
    have kept : ((pool cfg).filter (· ∈ F)).length = F.length := by
      apply List.Perm.length_eq
      rw [perm_ext_iff_of_nodup (pool_nodup.filter _) nodup]
      intro x
      simpa using fun member => part member
    simp only [decide_not] at split ⊢
    omega
  have room : F.length ≤ cfg.physTop / PGSIZE :=
    calc F.length ≤ (pool cfg).length := by omega
      _ ≤ cfg.physTop / PGSIZE := length_rangePages _ _ _
  refine ⟨(pool cfg).filter (· ∉ F), pool_nodup.filter _, fun x => ?_, ?_⟩
  · simp only [mem_filter, decide_eq_true_eq, labels]
    constructor
    · rintro ⟨inside, busy⟩
      obtain ⟨place, here⟩ := place_of_pool memory settled inside
      refine ⟨place, fun i free => busy ?_, here⟩
      rw [At.label memory here, free]
      rfl
    · rintro ⟨place, busy, here⟩
      refine ⟨At.inside memory here, fun free => ?_⟩
      rw [At.label memory here] at free
      cases place with
      | free i => exact busy i rfl
      | _ => simp [labelOf] at free
  · rw [kfreemem, chain.countFree room, Nat.mul_div_cancel _ (by decide)]
    omega

end Places

/-- Every page that freerange hands to kfree is in one place, and only those pages are. -/
theorem page_ownership (cfg : Config) (mem : Mem) (fail : List Bool) (events : List Event) :
    Ends (fun k => (∀ x, x ∈ pool cfg ↔ ∃ place, At k x place) ∧
        (∀ x ∈ pool cfg, ∃! place, At k x place) ∧
        ∃ others : List Nat, others.Nodup ∧
          (∀ x, x ∈ others ↔ ∃ place, (∀ i, place ≠ .free i) ∧ At k x place) ∧
          kfreemem cfg k.mach / PGSIZE + others.length = (pool cfg).length)
      (fun _ => True) (run cfg mem fail events) := by
  apply (run_sound mem fail events).imp _ fun _ _ => trivial
  rintro k ⟨own, memory, settled⟩
  refine ⟨fun x => ⟨place_of_pool memory settled, fun found => ?_⟩, ?_, count_places memory settled⟩
  · obtain ⟨place, here⟩ := found
    exact At.inside memory here
  · intro x inside
    obtain ⟨place, here⟩ := place_of_pool memory settled inside
    exact ⟨place, here, fun place' there => At.unique memory here there⟩

def ShapePanic (e : Panic) : Prop :=
  e = .freewalkLeaf ∨ e = .mappagesRemap ∨ e = .walk ∨ e = .uvmclear ∨ e = .loadseg

structure AddressSpace (cfg : Config) (k : State) (p : Nat) : Prop where
  size : (k.proc p).sz ≤ TRAPFRAME
  leaves : ∀ v, leafAt k.mach.mem (k.proc p).pagetable v ≠ none ↔
    v * PGSIZE < roundUp (k.proc p).sz ∨ v = TRAPFRAME / PGSIZE ∨ v = TRAMPOLINE / PGSIZE
  trampoline : ∃ e, leafAt k.mach.mem (k.proc p).pagetable (TRAMPOLINE / PGSIZE) = some e ∧
    PTE2PA e = cfg.trampoline ∧ PTE_FLAGS e = PTE_R ||| PTE_X ||| PTE_V
  trapframe : ∃ e, leafAt k.mach.mem (k.proc p).pagetable (TRAPFRAME / PGSIZE) = some e ∧
    PTE2PA e = (k.proc p).trapframe ∧ PTE_FLAGS e = PTE_R ||| PTE_W ||| PTE_V
  readable : ∀ v e, leafAt k.mach.mem (k.proc p).pagetable v = some e → e &&& PTE_R ≠ 0
  interior : ∀ l n y j e, tableAt k.mach.mem (k.proc p).pagetable (l + 1) n = some y → j < 512 →
    valid (tab k.mach.mem y j) = some e → e &&& (PTE_R ||| PTE_W ||| PTE_X) = 0

section Shape
variable {cfg : Config} {own : Nat → Label} {k : State} {p : Nat}

theorem leaf_iff {r tf n : Nat} {S : Shape} (space : Space cfg own mem r tf n S) (v : Nat) :
    S.leaf v ≠ none ↔ v < n ∨ v = TRAPFRAME / PGSIZE ∨ v = TRAMPOLINE / PGSIZE := by
  have frame : TRAPFRAME / PGSIZE = USERTOP := by decide
  have trampoline : TRAMPOLINE / PGSIZE = USERTOP + 1 := by decide
  have bound := space.bound
  rw [frame, trampoline]
  rcases lt_trichotomy v USERTOP with low | rfl | high
  · rw [Ne, space.low v low]
    omega
  · simp [space.trapframe]
  · by_cases next : v = USERTOP + 1
    · subst next
      simp [space.trampoline]
    · rw [space.high v (by omega)]
      simp only [ne_eq, not_true_eq_false, false_iff]
      omega

theorem addressSpace (memory : Memory cfg own k) (settled : Settled own k)
    (some : (k.proc p).pagetable ≠ 0) : AddressSpace cfg k p := by
  obtain ⟨S, space⟩ := memory.space p some
  have frame : (k.proc p).trapframe ≠ 0 := by rwa [Ne, ← settled.frame]
  have label := (memory.trapframe p (k.proc p).trapframe).mpr ⟨frame, rfl⟩
  have size := roundUp_eq (memory.size p)
  constructor
  · exact memory.size p
  · intro v
    rw [space.tree.leafAt, size.1, Nat.mul_lt_mul_right (by decide)]
    exact leaf_iff space v
  · refine ⟨_, (space.tree.leafAt _).trans space.trampoline, ?_, ?_⟩
    · apply PTE2PA_leafOf (by decide)
      -- the trampoline lies below the pages that kalloc hands out
      have page := memory.heap.page (k.proc p).trapframe (by simp [label])
      have top := page.phys.2
      have text := cfg.text.2
      have data := cfg.data
      have low := page.2.1
      exact ⟨cfg.trampoline_aligned, by omega⟩
    · exact PTE_FLAGS_leafOf (by decide)
  · refine ⟨_, (space.tree.leafAt _).trans space.trapframe, ?_, ?_⟩
    · exact PTE2PA_leafOf (by decide) (memory.used _ (by simp [label]))
    · exact PTE_FLAGS_leafOf (by decide)
  · intro v e leaf
    rw [space.tree.leafAt] at leaf
    exact space.readable v e leaf
  · intro l n y j e table inside entry
    rw [space.tree.tableAt] at table
    exact space.tree.form l n y j e table inside entry

end Shape

/-- Every address space is whole, and so it can be freed. -/
theorem address_space_shape (cfg : Config) (mem : Mem) (fail : List Bool) (events : List Event) :
    Ends (fun k => ∀ p, (k.proc p).pagetable ≠ 0 → AddressSpace cfg k p)
      (fun e => ShapePanic e → cfg.physTop - KERNBASE < TRAPFRAME →
        (setup cfg).run (blank mem fail) = .error e) (run cfg mem fail events) := by
  apply (run_sound mem fail events).imp
  · rintro k ⟨own, memory, settled⟩ p some
    exact addressSpace memory settled some
  · intro e stops shape small
    rcases stops with expected | boot
    · apply absurd small (expected _)
      rcases shape with rfl | rfl | rfl | rfl | rfl <;> trivial
    · exact boot

theorem later_reads {cfg : Config} {k : State} {q : Nat} {later : List Event} (sound : Sound cfg k)
    (live : Live k q) (others : ∀ e ∈ later, e.proc ≠ q) :
    Ends (fun k' => Sound cfg k' ∧ Live k' q ∧ ∀ va, Reads k' q va = Reads k q va) (fun _ => True)
      (Machine.run (step cfg) (.ok k) later) := by
  refine Machine.along_invariant (step cfg)
    (P := Ends (fun k' => Sound cfg k' ∧ Live k' q ∧ ∀ va, Reads k' q va = Reads k q va) fun _ => True)
    ?_ ?_ (Machine.along_of_forall (step cfg) others)
  · intro r e other ends
    apply ends.step
    rintro k1 ⟨sound1, live1, same⟩
    apply wp_mono (perform_spec sound1 e) _ fun _ _ => trivial
    rintro _ k2 ⟨sound2, isolated, _⟩
    obtain ⟨live2, reads⟩ := isolated q other.symm live1
    exact ⟨sound2, live2, fun va => (reads va).trans (same va)⟩
  · exact ⟨sound, live, fun _ => rfl⟩

/-- A step of one process changes nothing that another one reads, and a fork shows the child
what the parent sees. -/
theorem process_isolation (cfg : Config) (mem : Mem) (fail : List Bool) (events : List Event) :
    Ends (fun k =>
        (∀ e, Ends (fun k' => Isolated k k' e.proc ∧ (e.call = .fork → Twins k k' e.proc))
          (fun _ => True) (step cfg (.ok k) e)) ∧
        ∀ q later, Live k q → (∀ e ∈ later, e.proc ≠ q) →
          Ends (fun k' => Live k' q ∧ ∀ va, Reads k' q va = Reads k q va) (fun _ => True)
            (Machine.run (step cfg) (.ok k) later))
      (fun _ => True) (run cfg mem fail events) := by
  apply (run_sound mem fail events).imp _ fun _ _ => trivial
  intro k sound
  constructor
  · intro e
    exact ends_of_wp (wp_mono (perform_spec sound e) (fun _ _ post => post.2) fun _ _ => trivial)
  · intro q later live others
    apply (later_reads sound live others).imp (fun k' post => post.2) fun _ _ => trivial

end Xv6Lab.Kernel
