import Xv6Lab.Fs.Read
import Xv6Lab.Kernel.Spaces

/-!
The image that exec builds: segments from a file with arbitrary headers, then the stack.
-/

namespace Xv6Lab.Kernel
open List
open Function (update update_of_ne update_self)

open Bytes (Mem load store write read)
open Mm
open Fs
variable {mem : Mem} {sz va offset addr : Nat} {pages : List Nat}

section Readi
variable {σ : Type} {E : Panic → Prop} {P : σ → Prop} {image : Mem} {ip : Inode}
  {put : Nat → List UInt8 → Prog Panic σ Bool} {s : σ} {off n : Nat}

theorem readi_rule (range : E .bmap) (step : ∀ tot bytes s, tot + bytes.length ≤ n → P s →
      wp (put tot bytes) E (fun _ s' => P s') s) (start : P s) :
    wp (readi image ip put off n) E (fun _ s' => P s') s := by
  have each : ∀ tot m s, 0 < m → tot + m ≤ readCount ip off n →
      m ≤ Virtio.BSIZE - (off + tot) % Virtio.BSIZE → Backed image ip (off + tot) → P s →
      wp (put tot (fileBytes image ip (off + tot) m)) E (fun ok s' => if ok then P s' else P s') s := by
    intro tot m s _ fits _ _ holds
    have limit := readCount_le ip off n
    apply wp_post (step tot _ s (by rw [length_fileBytes]; omega) holds)
    intro ok s' after
    cases ok <;> exact after
  apply wp_post (readi_spec (P := fun _ => P) (fun _ _ e _ _ failed => bmap_error failed ▸ range) each start)
  rintro r s' (⟨c, -, -, holds, -⟩ | ⟨-, holds⟩)
  · exact holds
  · exact holds

theorem readKernel_error {e : Panic} (failed : readKernel image ip off n = .error e) : e = .bmap := by
  have safe : wp (readi image ip (fun _ bytes => do
      modify (· ++ bytes)
      return true) off n) (fun e => e = .bmap) (fun _ _ => True) ([] : List UInt8) :=
    readi_rule rfl (fun _ _ _ _ _ => trivial) trivial
  unfold wp at safe
  unfold readKernel at failed
  rwa [failed] at safe

end Readi

section Segments
variable {cfg : Config} {own : Nat → Label} {s : Mach} {r tf n : Nat} {S : Shape}
  {E : Panic → Prop}

def Open (S : Shape) (n : Nat) : Prop := ∀ v, v < n → ∃ e, S.leaf v = some e ∧ e &&& PTE_U ≠ 0

theorem Open.fresh {S' : Shape} {m xperm : Nat} (opened : Open S n) (small : xperm < 2 ^ 10)
    (fresh : Fresh S S' n m (PTE_R ||| PTE_U ||| xperm)) : Open S' m := by
  intro v below
  by_cases old : v < n
  · obtain ⟨e, leaf, user⟩ := opened v old
    exact ⟨e, by rw [fresh.1 v (.inl old), leaf], user⟩
  · obtain ⟨y, _, leaf⟩ := fresh.2 v (by omega) below
    refine ⟨_, leaf, ?_⟩
    rw [leafOf_and (Nat.or_lt_two_pow (by decide) small) (by decide), Nat.and_or_distrib_right,
      Nat.and_or_distrib_right]
    intro zero
    rw [Nat.or_eq_zero_iff, Nat.or_eq_zero_iff] at zero
    exact absurd zero.1.1 (by decide)

def Filled (cfg : Config) (own : Nat → Label) (mem : Mem) (r tf n : Nat) (S : Shape) (s' : Mach) :
    Prop :=
  Heap (IsPage cfg) own s' ∧ Space cfg own s'.mem r tf n S ∧ Within (Data r) own own mem s'.mem

theorem putPhys_spec {pa v tot : Nat} {bytes : List UInt8} (filled : Filled cfg own mem r tf n S s)
    (label : own pa = .user r v) (fits : tot + bytes.length ≤ PGSIZE) :
    wp (putPhys pa tot bytes) E (fun _ s' => Filled cfg own mem r tf n S s') s := by
  obtain ⟨heap, space, within⟩ := filled
  have page := heap.used (x := pa) (by simp [label])
  have only : OnlyPage s.mem (write s.mem (pa + tot) bytes) pa :=
    onlyPage_write page.1 (by omega) (by omega)
  have within' : Within (Data r) own own s.mem _ := Within.touch ⟨v, label⟩ only
  exact ⟨heap.frame within' (by simp [Data]) (by simp [Data]),
    space.touch (fun _ => heap.used) within' (by simp [Data]), within.trans within'⟩

theorem loadLoop_spec {ip : Inode} (k : Nat) {i : Nat} (range : E .bmap)
    (filled : Filled cfg own mem r tf n S s) (opened : Open S n) (fits : va + sz ≤ n * PGSIZE) :
    wp (loadLoop cfg r va ip offset sz k i) E (fun _ s' => Filled cfg own mem r tf n S s') s := by
  induction k generalizing i s with
  | zero => exact filled
  | succ k ih =>
    have ⟨heap, space, within⟩ := filled
    have bound := space.bound
    rw [loadLoop]
    simp only [wp_ite, wp_pure, wp_bind]
    refine ⟨fun more => ?_, fun _ => filled⟩
    have below : (va + i) % 2 ^ 64 < MAXVA ∧ (va + i) % 2 ^ 64 / PGSIZE < n := by
      simp only [USERTOP, TRAPFRAME, TRAMPOLINE, MAXVA, PGSIZE] at *
      omega
    obtain ⟨e, leaf, user⟩ := opened _ below.2
    have label := space.users.label (by omega) leaf
    have page := heap.page (PTE2PA e) (by simp [label])
    apply wp_never (walkaddr_spec space.tree)
    rintro pa s' ⟨same, value⟩
    subst same
    rw [if_pos below.1, leaf, Option.filter_some, if_pos (by simpa using user)] at value
    obtain rfl : pa = PTE2PA e := value
    refine ⟨fun zero => absurd zero page.pos, fun _ => ?_⟩
    apply wp_post (readi_rule range (fun tot bytes s1 short filled1 =>
      putPhys_spec filled1 label (by omega)) filled)
    intro count s1 filled1
    exact ⟨fun _ => filled1, fun _ => ih filled1⟩

theorem loadseg_spec {ip : Inode} (range : E .bmap)
    (filled : Filled cfg own mem r tf n S s) (opened : Open S n) (fits : va + sz ≤ n * PGSIZE) :
    wp (loadseg cfg r va ip offset sz) E (fun _ s' => Filled cfg own mem r tf n S s') s := by
  have less : sz % 2 ^ 32 ≤ sz := Nat.mod_le ..
  exact loadLoop_spec _ range filled opened (by omega)

def Loaded (cfg : Config) (own : Nat → Label) (mem : Mem) (r tf sz : Nat) (s' : Mach) : Prop :=
  sz ≤ TRAPFRAME ∧ ∃ own' S', Heap (IsPage cfg) own' s' ∧
    Space cfg own' s'.mem r tf (pagesOf sz) S' ∧ Open S' (pagesOf sz) ∧
    Within (Mine r) own own' mem s'.mem

theorem flags2perm_lt (flags : Nat) : flags2perm flags < 2 ^ 10 := by
  unfold flags2perm
  apply Nat.or_lt_two_pow
  · split <;> decide
  · split <;> decide

theorem segLoop_spec {ip : Inode} (k : Nat) {off : Nat} (range : E .bmap)
    (big : ∀ e, Big cfg e → E e) (loaded : Loaded cfg own mem r tf sz s) :
    wp (segLoop cfg r ip k off sz) E (fun result s' => Loaded cfg own mem r tf result.1 s') s := by
  induction k generalizing off sz s with
  | zero => exact loaded
  | succ k ih =>
    rw [segLoop, wp_bind, wp_lift]
    cases header : readKernel cfg.image ip off PROGHDR with
    | error e =>
      rw [readKernel_error header]
      exact range
    | ok result =>
      obtain ⟨count, ph⟩ := result
      simp only [wp_ite, wp_pure, wp_bind]
      have memBound : field ph 40 8 < 256 ^ 8 := Bytes.load_lt _ _ _
      have addrBound : field ph 16 8 < 256 ^ 8 := Bytes.load_lt _ _ _
      generalize field ph 32 8 = filesz
      generalize field ph 40 8 = memsz at memBound
      generalize field ph 16 8 = vaddr at addrBound
      refine ⟨fun _ => loaded, fun _ => ⟨fun _ => ih loaded, fun _ => ⟨fun _ => loaded,
        fun fits => ⟨fun _ => loaded, fun wraps => ⟨fun _ => loaded, fun _ => ?_⟩⟩⟩⟩⟩
      obtain ⟨small, own1, S1, heap1, space1, opened1, within1⟩ := loaded
      apply wp_mono (uvmalloc_spec heap1 small space1 (flags2perm_lt _)) _ big
      rintro sz1 s2 ⟨own2, S2, sz2, outcome, small2, heap2, space2, within2, fresh⟩
      have opened2 := opened1.fresh (flags2perm_lt _) fresh
      have loaded2 : Loaded cfg own mem r tf sz2 s2 :=
        ⟨small2, own2, S2, heap2, space2, opened2, within1.trans within2⟩
      refine ⟨fun failed => ?_, fun grown => ?_⟩
      · obtain rfl : sz2 = sz := by omega
        exact loaded2
      · rcases outcome with ⟨zero, _⟩ | ⟨size, value⟩
        · exact absurd zero grown
        · subst size
          have covers : vaddr + filesz ≤ pagesOf sz1 * PGSIZE := by
            have rounded := (roundUp_eq small2).1
            simp only [pagesOf, roundUp, pgRoundUp, TRAPFRAME, TRAMPOLINE, MAXVA, PGSIZE] at *
            omega
          apply wp_post (loadseg_spec range ⟨heap2, space2, Within.refl _ _ _⟩ opened2 covers)
          rintro ok s3 ⟨heap3, space3, within3⟩
          have loaded3 : Loaded cfg own mem r tf sz1 s3 :=
            ⟨small2, own2, S2, heap3, space3, opened2,
              (within1.trans within2).trans (within3.mono fun _ => Data.mine)⟩
          exact ⟨fun _ => ih loaded3, fun _ => loaded3⟩

end Segments

section Stack
variable {cfg : Config} {own : Nat → Label} {s : Mach} {r tf n : Nat} {S : Shape}

theorem copyout_filled {dst : Nat} {src : List UInt8} {E : Panic → Prop}
    (filled : Filled cfg own mem r tf n S s) :
    wp (copyout r dst src) E (fun _ s' => Filled cfg own mem r tf n S s') s := by
  obtain ⟨heap, space, within⟩ := filled
  apply wp_never (copyout_spec heap space)
  rintro _ s' ⟨heap', space', within'⟩
  exact ⟨heap', space', within.trans within'⟩

theorem pushArgs_spec {stackbase sp : Nat} {args : List (List UInt8)} {ustack : List Nat}
    (filled : Filled cfg own mem r tf n S s) :
    wp (pushArgs r stackbase args sp ustack) (fun _ => False)
      (fun _ s' => Filled cfg own mem r tf n S s') s := by
  induction args generalizing sp ustack s with
  | nil => exact filled
  | cons arg rest ih =>
    rw [pushArgs]
    simp only [wp_ite, wp_pure, wp_bind]
    refine ⟨fun _ => filled, fun _ => ⟨fun _ => filled, fun _ => ?_⟩⟩
    apply wp_post (copyout_filled filled)
    intro ok s' filled'
    exact ⟨fun _ => ih filled', fun _ => filled'⟩

theorem pushStack_spec {argv : List (List UInt8)} (heap : Heap (IsPage cfg) own s)
    (space : Space cfg own s.mem r tf (pagesOf sz) S) (small : sz ≤ TRAPFRAME)
    (aligned : sz % PGSIZE = 0) (room : (USERSTACK + 1) * PGSIZE ≤ sz) :
    wp (pushStack r sz argv) (fun _ => False) (fun _ s' => ∃ S', Heap (IsPage cfg) own s' ∧
      Space cfg own s'.mem r tf (pagesOf sz) S' ∧ Within (Mine r) own own s.mem s'.mem) s := by
  have guard : sz - (USERSTACK + 1) * PGSIZE = (pagesOf sz - 2) * PGSIZE ∧ 2 ≤ pagesOf sz := by
    simp only [pagesOf, roundUp, pgRoundUp, USERSTACK, TRAPFRAME, TRAMPOLINE, MAXVA, PGSIZE] at *
    omega
  unfold pushStack
  rw [guard.1]
  apply wp_seq (uvmclear_spec heap space (v := pagesOf sz - 2) (by omega))
  rintro _ s1 ⟨S1, heap1, space1, within1⟩
  have finish : ∀ {s2}, Filled cfg own s1.mem r tf (pagesOf sz) S1 s2 →
      ∃ S', Heap (IsPage cfg) own s2 ∧ Space cfg own s2.mem r tf (pagesOf sz) S' ∧
        Within (Mine r) own own s.mem s2.mem := by
    rintro s2 ⟨heap2, space2, within2⟩
    exact ⟨S1, heap2, space2, within1.trans (within2.mono fun _ => Data.mine)⟩
  apply wp_seq (pushArgs_spec ⟨heap1, space1, Within.refl _ _ _⟩)
  intro result s2 filled2
  cases result with
  | none => exact finish filled2
  | some stack =>
    simp only [wp_ite, wp_pure, wp_bind]
    refine ⟨fun _ => finish filled2, fun _ => ?_⟩
    apply wp_post (copyout_filled filled2)
    intro ok s3 filled3
    exact ⟨fun _ => finish filled3, fun _ => finish filled3⟩

end Stack

section Arguments
variable {cfg : Config} {own : Nat → Label} {s : Mach} {n : Nat} {S : Shape} {proc : Process}

def mark (own : Nat → Label) (pages : List Nat) (l : Label) : Nat → Label :=
  fun x => if x ∈ pages then l else own x

theorem mark_nil (l : Label) : mark own [] l = own := by
  funext x
  simp [mark]

theorem mark_cons {y : Nat} {l : Label} (new : y ∉ pages) :
    mark (update own y l) pages l = mark own (y :: pages) l := by
  funext x
  by_cases same : x = y
  · subst same
    simp [mark]
  · simp [mark, same]

def Scratch (l : Label) : Prop := l = .free ∨ l = .argument

theorem fetchaddr_spec {tf : Nat} (heap : Heap (IsPage cfg) own s)
    (space : Space cfg own s.mem proc.pagetable tf n S) :
    wp (fetchaddr proc addr) (fun _ => False) (fun _ s' => s' = s) s := by
  unfold fetchaddr
  simp only [wp_ite, wp_pure, wp_bind]
  refine ⟨fun _ => trivial, fun _ => ?_⟩
  apply wp_post (copyin_spec heap space)
  intro bytes s' same
  cases bytes with
  | none => exact same
  | some _ => exact same

theorem fetchstr_spec {page tf : Nat} (heap : Heap (IsPage cfg) own s)
    (space : Space cfg own s.mem proc.pagetable tf n S) (label : own page = .argument) :
    wp (fetchstr proc addr page PGSIZE) (fun _ => False) (fun _ s' => Heap (IsPage cfg) own s' ∧
      Space cfg own s'.mem proc.pagetable tf n S ∧ Within Scratch own own s.mem s'.mem) s := by
  unfold fetchstr
  rw [wp_bind]
  apply wp_post (copyinstr_spec heap space)
  rintro bytes s' ⟨same, short⟩
  subst same
  cases bytes with
  | none => exact ⟨heap, space, Within.refl _ _ _⟩
  | some bytes =>
    have phys := heap.used (x := page) (by simp [label])
    have only : OnlyPage s'.mem (write s'.mem page (bytes ++ [0])) page := by
      apply onlyPage_write phys.1 le_rfl
      have := short bytes rfl
      simp only [length_append, length_singleton]
      omega
    have within : Within (· = .argument) own own s'.mem _ := Within.touch label only
    exact ⟨heap.frame within (by simp) (by simp),
      space.frame (fun _ => heap.used) within (by simp) (by simp), within.mono fun _ => .inr⟩

theorem argLoop_spec {uargv tf : Nat} (k : Nat) (heap : Heap (IsPage cfg) own s)
    (space : Space cfg own s.mem proc.pagetable tf n S) :
    wp (argLoop proc uargv k) (fun _ => False) (fun result s' =>
      result.1.Nodup ∧ (∀ x ∈ result.1, own x = .free) ∧
        Heap (IsPage cfg) (mark own result.1 .argument) s' ∧
        Within Scratch own (mark own result.1 .argument) s.mem s'.mem) s := by
  induction k generalizing own s with
  | zero =>
    refine ⟨nodup_nil, by simp, ?_⟩
    rw [mark_nil]
    exact ⟨heap, Within.refl _ _ _⟩
  | succ k ih =>
    have still : ∀ {s' : Mach}, s'.mem = s.mem → Heap (IsPage cfg) own s' →
        ([] : List Nat).Nodup ∧ (∀ x ∈ ([] : List Nat), own x = .free) ∧
          Heap (IsPage cfg) (mark own [] .argument) s' ∧
          Within Scratch own (mark own [] .argument) s.mem s'.mem := by
      intro s' same heap'
      rw [mark_nil, same]
      exact ⟨nodup_nil, by simp, heap', Within.refl _ _ _⟩
    rw [argLoop]
    apply wp_seq (fetchaddr_spec heap space)
    intro found s' same
    subst same
    cases found with
    | none => exact still rfl heap
    | some uarg =>
      simp only [wp_ite, wp_pure, wp_bind]
      refine ⟨fun _ => still rfl heap, fun _ => ?_⟩
      apply wp_post (kalloc_spec heap .argument (by simp))
      intro y s1 taken
      rcases taken with ⟨none, same, heap1⟩ | ⟨free, nonzero, only, heap1⟩
      · exact ⟨fun _ => still same heap1, fun some => absurd none some⟩
      · refine ⟨fun zero => absurd zero nonzero, fun _ => ?_⟩
        have within1 : Within Scratch own (update own y .argument) s'.mem s1.mem :=
          Within.relabel (.inl free) (.inr rfl) only
        have space1 := space.frame (fun _ => heap.used) within1 (by simp [Scratch])
          (by simp [Scratch])
        apply wp_post (fetchstr_spec heap1 space1 (by simp))
        rintro arg s2 ⟨heap2, space2, within2⟩
        have single : [y].Nodup ∧ (∀ x ∈ [y], own x = .free) ∧
            Heap (IsPage cfg) (mark own [y] .argument) s2 ∧
            Within Scratch own (mark own [y] .argument) s'.mem s2.mem := by
          rw [← mark_cons (by simp), mark_nil]
          exact ⟨by simp, by simpa using free, heap2, within1.trans within2⟩
        cases arg with
        | none => exact single
        | some arg =>
          rw [wp_bind]
          apply wp_post (ih heap2 space2)
          rintro ⟨pages, args, ok⟩ s3 ⟨nodup, free3, heap3, within3⟩
          have new : y ∉ pages := by
            intro member
            have label := free3 y member
            rw [update_self] at label
            cases label
          rw [mark_cons new] at heap3 within3
          refine ⟨nodup_cons.mpr ⟨new, nodup⟩, ?_, heap3,
            (within1.trans within2).trans within3⟩
          intro x member
          rcases mem_cons.mp member with here | later
          · rw [here, free]
          · have other : x ≠ y := fun same => new (same ▸ later)
            have label := free3 x later
            rwa [update_of_ne other] at label

theorem freeAll_spec (heap : Heap (IsPage cfg) own s) (nodup : pages.Nodup)
    (taken : ∀ x ∈ pages, own x = .argument) :
    wp (freeAll cfg pages) (fun _ => False) (fun _ s' => Heap (IsPage cfg) (mark own pages .free) s' ∧
      Within Scratch own (mark own pages .free) s.mem s'.mem) s := by
  induction pages generalizing own s with
  | nil =>
    rw [mark_nil]
    exact ⟨heap, Within.refl _ _ _⟩
  | cons y pages ih =>
    obtain ⟨new, nodup⟩ := nodup_cons.mp nodup
    have label := taken y mem_cons_self
    rw [freeAll]
    apply wp_seq (kfree_spec heap (heap.page y (by simp [label])) (by simp [label])
      (by simp [label]))
    rintro _ s1 ⟨only, heap1⟩
    have within1 : Within Scratch own (update own y .free) s.mem s1.mem :=
      Within.relabel (.inr label) (.inl rfl) only
    apply wp_post (ih heap1 nodup _)
    · rintro _ s2 ⟨heap2, within2⟩
      rw [mark_cons new] at heap2 within2
      exact ⟨heap2, within1.trans within2⟩
    · intro x member
      have other : x ≠ y := fun same => new (same ▸ member)
      rw [update_of_ne other]
      exact taken x (mem_cons_of_mem _ member)

end Arguments
end Xv6Lab.Kernel
