import Xv6Lab.Kernel.Calls

/-!
exec: it replaces the address space of the process, or leaves everything as it was.
-/

namespace Xv6Lab.Kernel
open Function (update update_of_ne update_self)

open Bytes (Mem load store write read)
open Mm
open Fs
open Proc (ProcState)
variable {path : List UInt8} {entry : Nat} {argv : List (List UInt8)} {mach : Mach}

structure Unchanged (cfg : Config) (own : Nat → Label) (k k' : State) : Prop where
  shape : ∃ mach tables, k' = { k with mach, tables }
  heap : Heap (IsPage cfg) own k'.mach
  within : Within (· = .free) own own k.mach.mem k'.mach.mem

structure Replaced (cfg : Config) (own : Nat → Label) (k : State) (p : Nat) (own' : Nat → Label)
    (k' : State) : Prop where
  shape : ∃ mach tables name pagetable sz, pagetable ≠ 0 ∧ k' = { k with
    mach, tables
    proc := update k.proc p { k.proc p with name, pagetable, sz } }
  memory : Memory cfg own' k'
  within : Within (Private k p) own own' k.mach.mem k'.mach.mem

def Executed (cfg : Config) (own : Nat → Label) (k : State) (p : Nat) (ret : Int) (k' : State) :
    Prop :=
  ret = -1 ∧ Unchanged cfg own k k' ∨ ret ≠ -1 ∧ ∃ own', Replaced cfg own k p own' k'

section Exec
variable {cfg : Config} {own own1 : Nat → Label} {k : State} {p r sz : Nat} {s1 : Mach}
  {tables : Tables} {S : Shape}

theorem Unchanged.memory {k' : State} (same : Unchanged cfg own k k') (memory : Memory cfg own k) :
    Memory cfg own k' := by
  obtain ⟨mach, tables, rfl⟩ := same.shape
  have memory' := memory.touch same.heap same.within (by simp)
  exact memory'.same ⟨rfl, fun _ => ⟨rfl, rfl, rfl⟩, rfl, rfl, rfl⟩

structure Building (cfg : Config) (own : Nat → Label) (k : State) (p r : Nat) (own1 : Nat → Label)
    (s1 : Mach) (n : Nat) (S : Shape) : Prop where
  free : own r = .free
  heap : Heap (IsPage cfg) own1 s1
  space : Space cfg own1 s1.mem r (k.proc p).trapframe n S
  within : Within (Mine r) own own1 k.mach.mem s1.mem

theorem execBad_spec (memory : Memory cfg own k) (ip : Option Nat)
    (building : Building cfg own k p r own1 s1 (pagesOf sz) S) :
    wp (execBad cfg p r sz ip) (Expected cfg) (Executed cfg own k p)
      { k with mach := s1, tables } := by
  unfold execBad
  rw [wp_bind, wp_onMach]
  apply wp_never (procFreepagetable_spec building.heap building.space)
  rintro _ s2 ⟨own2, heap2, within2, gone⟩
  obtain ⟨same, restored⟩ := Within.restored (building.within.trans within2)
    (memory.rooted.fresh building.free) gone
  subst same
  cases ip with
  | none => exact .inl ⟨rfl, ⟨s2, tables, rfl⟩, heap2, restored⟩
  | some i =>
    simp only [wp_bind, wp_getProc]
    apply wp_fs (iunlockput_fails i)
    intro _ tables'
    exact .inl ⟨rfl, ⟨s2, tables', rfl⟩, heap2, restored⟩

theorem commit_spec {sp : Nat} {argc : Nat} (memory : Memory cfg own k)
    (runs : (k.proc p).pagetable ≠ 0) (frame : (k.proc p).trapframe ≠ 0) (small : sz ≤ TRAPFRAME)
    (building : Building cfg own k p r own1 s1 (pagesOf sz) S) :
    wp (commit cfg p r sz sp entry path argc) (Expected cfg) (Executed cfg own k p)
      { k with mach := s1, tables } := by
  have alone := memory.alone building.free
  have page := memory.heap.page r (by simp [building.free])
  have label : own1 (k.proc p).trapframe = .trapframe p := by
    rw [building.within.iff (by simp [Mine, Label.root]), memory.trapframe]
    exact ⟨frame, rfl⟩
  have aligned := (building.heap.used (x := (k.proc p).trapframe) (by simp [label])).1
  obtain ⟨S0, old⟩ := memory.space p runs
  have other : (k.proc p).pagetable ≠ r := alone.2 p
  unfold commit
  simp only [wp_bind, wp_getProc, wp_onMach, wp_writePte, wp_setProc, wp_pure]
  generalize written : store (store (store s1.mem ((k.proc p).trapframe + TF_A1) 8 sp)
    ((k.proc p).trapframe + TF_EPC) 8 entry) ((k.proc p).trapframe + TF_SP) 8 sp = mem
  have only : OnlyPage s1.mem mem (k.proc p).trapframe := by
    rw [← written]
    apply ((onlyPage_store aligned _ _).trans (onlyPage_store aligned _ _)).trans
      (onlyPage_store aligned _ _)
    all_goals simp only [TF_A1, TF_EPC, TF_SP, PGSIZE]; omega
  have frames : Within (· = .trapframe p) own1 own1 s1.mem mem := Within.touch label only
  have heap2 : Heap (IsPage cfg) own1 { s1 with mem } :=
    building.heap.frame frames (by simp) (by simp)
  have space2 := building.space.touch (fun _ => building.heap.used) frames (by simp)
  have old1 := old.frame memory.used building.within (by simp [Mine, Label.root, other])
    (by simp [Mine, Label.root, other])
  have old2 := old1.touch (fun _ => building.heap.used) frames (by simp)
  apply wp_never (procFreepagetable_spec heap2 old2)
  rintro _ s3 ⟨own3, heap3, within3, gone⟩
  have space3 := space2.frame (fun _ => heap2.used) within3 (by simp [Mine, Label.root, other.symm])
    (by simp [Mine, Label.root, other.symm])
  obtain ⟨kernel, others⟩ := memory.exclusive runs
  have within : Within (Private k p) own own3 k.mach.mem s3.mem :=
    ((building.within.mono fun l mine => private_of_mine mine alone.1 fun q _ => alone.2 q).trans
      (frames.mono fun l label => by rw [label]; rfl)).trans
      (within3.mono fun l mine => private_of_mine mine kernel others)
  refine .inr ⟨by omega, own3, ⟨s3, tables, _, r, sz, page.pos, rfl⟩, ?_, within⟩
  apply memory.update (p := p)
  · exact elsewhere_update ..
  · exact heap3
  · exact within
  · simpa using small
  · simp [page.pos]
  · simp only [update_self]
    exact fun _ => ⟨⟨alone.1, fun q _ => alone.2 q⟩, S, space3⟩
  · intro x
    simp only [update_self]
    rw [← memory.trapframe, within3.iff (by simp [Mine, Label.root]),
      building.within.iff (by simp [Mine, Label.root])]
  · intro x r' root notKernel away
    simp only [update_self]
    have notOld : r' ≠ (k.proc p).pagetable := by
      rintro rfl
      exact gone x root
    have before := (root_before within3 root).resolve_left notOld
    rw [← before] at root
    rcases root_before building.within root with same | before
    · exact ⟨same ▸ page.pos, same.symm⟩
    · rw [← before] at root
      obtain ⟨nonzero, q, table⟩ := (memory.roots x r' root).resolve_left notKernel
      by_cases here : q = p
      · exact absurd table.symm (here ▸ notOld)
      · exact absurd table (away q here)

-- Lean would compute with the addresses in it
attribute [local irreducible] pushStack

theorem execStack_spec
    (memory : Memory cfg own k) (runs : (k.proc p).pagetable ≠ 0) (frame : (k.proc p).trapframe ≠ 0)
    (free : own r = .free) (loaded : Loaded cfg own k.mach.mem r (k.proc p).trapframe sz s1) :
    wp (do
      let sz1 ← onMach
        (uvmalloc cfg r (roundUp sz) ((roundUp sz + (USERSTACK + 1) * PGSIZE) % 2 ^ 64) PTE_W)
      if sz1 = 0 then execBad cfg p r (roundUp sz) none
      else
        match ← onMach (pushStack r sz1 argv) with
        | none => execBad cfg p r sz1 none
        | some sp => commit cfg p r sz1 sp entry path argv.length)
      (Expected cfg) (Executed cfg own k p) { k with mach := s1, tables } := by
  obtain ⟨small, own1, S1, heap1, space1, _, within1⟩ := loaded
  obtain ⟨rounded, bound⟩ := roundUp_eq small
  obtain ⟨small', pages⟩ := pagesOf_pages bound
  rw [← rounded] at small' pages
  rw [← pages] at space1
  rw [wp_bind, wp_onMach]
  apply wp_mono (uvmalloc_spec heap1 small' space1 (by decide)) _ fun _ => Big.expected
  rintro sz1 s2 ⟨own2, S2, sz2, result, small2, heap2, space2, within2, _⟩
  have building : Building cfg own k p r own2 s2 (pagesOf sz2) S2 :=
    ⟨free, heap2, space2, within1.trans within2⟩
  have sizes : sz1 = 0 ∧ sz2 = roundUp sz ∨ sz1 ≠ 0 ∧ sz2 = sz1 ∧
      sz1 = roundUp sz + (USERSTACK + 1) * PGSIZE := by
    simp only [TRAPFRAME, TRAMPOLINE, MAXVA, USERSTACK, PGSIZE] at *
    omega
  rw [wp_ite]
  constructor
  · intro failed
    obtain rfl : sz2 = roundUp sz := by omega
    exact execBad_spec memory none building
  · intro done
    have value : sz2 = roundUp sz + (USERSTACK + 1) * PGSIZE := by omega
    obtain rfl : sz1 = sz2 := by omega
    have aligned : sz1 % PGSIZE = 0 := by
      rw [value, rounded]
      simp only [USERSTACK, PGSIZE]
      omega
    have room : (USERSTACK + 1) * PGSIZE ≤ sz1 := by omega
    rw [wp_bind, wp_onMach]
    apply wp_never (pushStack_spec heap2 space2 small2 aligned room)
    rintro sp s3 ⟨S3, heap3, space3, within3⟩
    have building3 : Building cfg own k p r own2 s3 (pagesOf sz1) S3 :=
      ⟨free, heap3, space3, building.within.trans within3⟩
    cases sp with
    | none => exact execBad_spec memory none building3
    | some sp => exact commit_spec memory runs frame small2 building3

theorem kexec_spec (memory : Memory cfg own k)
    (runs : (k.proc p).pagetable ≠ 0) (frame : (k.proc p).trapframe ≠ 0) :
    wp (kexec cfg p path argv) (Expected cfg) (Executed cfg own k p) k := by
  have still : ∀ tables, Unchanged cfg own k { k with tables } :=
    fun tables => ⟨⟨k.mach, tables, rfl⟩, memory.heap, Within.refl _ _ _⟩
  have page := memory.used (k.proc p).trapframe
    (by simp [(memory.trapframe p (k.proc p).trapframe).mpr ⟨frame, rfl⟩])
  unfold kexec
  rw [wp_bind, wp_getProc, wp_bind]
  apply wp_fs (namei_fails _ _)
  intro found tables1
  cases found with
  | none => exact .inl ⟨rfl, still _⟩
  | some i =>
    rw [wp_bind]
    apply wp_fs (ilock_fails i)
    intro _ tables2
    rw [wp_bind, wp_get, wp_bind, wp_lift]
    cases header : readKernel cfg.image (tables2.inode i) 0 ELFHDR with
    | error e =>
      rw [readKernel_error header]
      exact fun panic => panic.elim
    | ok result =>
      obtain ⟨count, elf⟩ := result
      simp only [wp_ite]
      constructor
      · intro bad
        rw [wp_bind]
        apply wp_fs (iunlockput_fails i)
        intro _ tables3
        exact .inl ⟨rfl, still _⟩
      · intro good
        rw [wp_bind, wp_onMach]
        apply wp_mono (procPagetable_spec memory.heap memory.rooted page) _
          fun _ never => never.elim
        intro r s1 built
        rcases built with ⟨zero, heap1, within1⟩ | ⟨some, free, own1, S1, heap1, space1, within1⟩
        · rw [if_pos zero, wp_bind]
          apply wp_fs (iunlockput_fails i)
          intro _ tables3
          exact .inl ⟨rfl, ⟨s1, tables3, rfl⟩, heap1, within1⟩
        · rw [if_neg some, wp_bind, wp_onMach]
          have start : Loaded cfg own k.mach.mem r (k.proc p).trapframe 0 s1 :=
            ⟨Nat.zero_le _, own1, S1, heap1, space1, fun v below => absurd below (by decide +revert),
              within1⟩
          apply wp_post (segLoop_spec _ (fun panic => panic.elim) (fun _ => Big.expected) start)
          rintro ⟨sz, ok⟩ s2 loaded
          cases ok with
          | true =>
            rw [if_pos rfl, wp_bind]
            apply wp_fs (iunlockput_fails i)
            intro _ tables3
            exact execStack_spec memory runs frame free loaded
          | false =>
            obtain ⟨_, own2, S2, heap2, space2, _, within2⟩ := loaded
            rw [if_neg (by simp)]
            exact execBad_spec memory (Option.some i) ⟨free, heap2, space2, within2⟩

end Exec

section SysExec
variable {cfg : Config} {own own1 own2 : Nat → Label} {k k1 k2 : State} {p : Nat} {pages : List Nat}

theorem Unchanged.outcome (same : Unchanged cfg own k k1) (memory : Memory cfg own k)
    (settled : Settled own k) (runs : (k.proc p).pagetable ≠ 0) : Outcome cfg own k p k1 := by
  apply (same.memory memory).idle settled runs
  · exact same.within.mono fun l free => by rw [free]; trivial
  · obtain ⟨mach, tables, rfl⟩ := same.shape
    exact fun _ => ⟨rfl, rfl, rfl, rfl⟩

theorem mark_restored (free : ∀ x ∈ pages, own x = .free) :
    mark (mark own pages .argument) pages .free = own := by
  funext x
  by_cases member : x ∈ pages
  · simp [mark, member, free x member]
  · simp [mark, member]

theorem Within.scratch_free {mem mem' : Mem} (within : Within Scratch own own mem mem')
    (none : ∀ x, own x ≠ .argument) : Within (· = .free) own own mem mem' :=
  ⟨fun _ _ => rfl, fun _ free => free,
    fun x aligned busy => within.bytes x aligned fun scratch => scratch.elim busy (none x)⟩

structure Fetched (cfg : Config) (own : Nat → Label) (k : State) (pages : List Nat) (mach : Mach) :
    Prop where
  nodup : pages.Nodup
  free : ∀ x ∈ pages, own x = .free
  memory : Memory cfg (mark own pages .argument) { k with mach }
  within : Within Scratch own (mark own pages .argument) k.mach.mem mach.mem

theorem Fetched.undo (fetched : Fetched cfg own k pages mach) (settled : Settled own k)
    (same : Unchanged cfg (mark own pages .argument) { k with mach } k1) :
    wp (freeAll cfg pages) (fun _ => False)
      (fun _ mach' => Unchanged cfg own k { k1 with mach := mach' }) k1.mach := by
  apply wp_post (freeAll_spec same.heap fetched.nodup fun x member => by simp [mark, member])
  rintro _ s2 ⟨heap2, within2⟩
  rw [mark_restored fetched.free] at heap2 within2
  refine ⟨?_, heap2, Within.scratch_free ?_ settled.arguments⟩
  · obtain ⟨mach1, tables, rfl⟩ := same.shape
    exact ⟨s2, tables, rfl⟩
  · exact (fetched.within.trans (same.within.mono fun _ => .inl)).trans within2

theorem Scratch.not_foreign {l : Label} (scratch : Scratch l) : ¬Foreign k p l := by
  rintro ⟨q, _, _, root⟩
  rcases scratch with label | label
  · simp [label, Label.root] at root
  · simp [label, Label.root] at root

theorem Fetched.done (fetched : Fetched cfg own k pages mach) (settled : Settled own k)
    (runs : (k.proc p).pagetable ≠ 0)
    (replaced : Replaced cfg (mark own pages .argument) { k with mach } p own1 k1) :
    wp (freeAll cfg pages) (fun _ => False)
      (fun _ mach' => Outcome cfg own k p { k1 with mach := mach' }) k1.mach := by
  have label : ∀ x, own1 x = .argument ↔ x ∈ pages := by
    intro x
    rw [Within.arguments replaced.within x]
    by_cases member : x ∈ pages
    · simp [mark, member]
    · simp [mark, member, settled.arguments x]
  apply wp_post (freeAll_spec replaced.memory.heap fetched.nodup fun x member => (label x).mpr member)
  rintro _ s2 ⟨heap2, within2⟩
  have memory2 := replaced.memory.scratch heap2 within2
  obtain ⟨mach1, tables, name, pagetable, sz, some, rfl⟩ := replaced.shape
  have frame : (k.proc p).trapframe ≠ 0 := by rwa [Ne, ← settled.frame]
  have inside : p < NPROC := by
    by_contra high
    exact runs ((settled.unused p).mp (settled.inside p (by omega)))
  have procs : ∀ q, q ≠ p →
      update k.proc p { k.proc p with name, pagetable, sz } q = k.proc q :=
    fun q other => update_of_ne other ..
  refine ⟨_, memory2, ?_, ?_, ?_, ?_⟩
  · constructor
    · intro q
      by_cases here : q = p
      · subst here
        simpa [some, settled.unused] using runs
      · simp only [procs q here]
        exact settled.unused q
    · intro q
      by_cases here : q = p
      · subst here
        simp [some, frame]
      · simp only [procs q here]
        exact settled.frame q
    · intro q high
      have other : q ≠ p := by omega
      simp only [procs q other]
      exact settled.inside q high
    · intro x argument
      by_cases member : x ∈ pages
      · simp [mark, member] at argument
      · simp only [mark, if_neg member] at argument
        exact member ((label x).mp argument)
  · simpa using some
  · apply ((fetched.within.mono fun l => Scratch.not_foreign).trans _).trans
      (within2.mono fun l => Scratch.not_foreign)
    exact replaced.within.mono fun l mine =>
      Private.not_foreign (k := k) (q := p) mine (.inl rfl)
  · intro q other _
    simp only [procs q other]
    exact ⟨trivial, rfl, rfl, rfl⟩

theorem sysExec_spec (memory : Memory cfg own k) (settled : Settled own k)
    (runs : (k.proc p).pagetable ≠ 0) (path uargv : Nat) :
    wp (sysExec cfg p path uargv) (Expected cfg) (fun ret k' =>
      ret = -1 ∧ Unchanged cfg own k k' ∨ ret ≠ -1 ∧ Outcome cfg own k p k') k := by
  have frame : (k.proc p).trapframe ≠ 0 := by rwa [Ne, ← settled.frame]
  obtain ⟨S, space⟩ := memory.space p runs
  unfold sysExec
  rw [wp_bind, wp_getProc, wp_bind, wp_onMach]
  apply wp_never (copyinstr_spec memory.heap space)
  rintro path mach ⟨same, _⟩
  subst same
  cases path with
  | none => exact .inl ⟨rfl, ⟨k.mach, k.tables, rfl⟩, memory.heap, Within.refl _ _ _⟩
  | some path =>
    rw [wp_bind, wp_onMach]
    apply wp_never (argLoop_spec MAXARG memory.heap space)
    rintro ⟨pages, argv, ok⟩ s1 ⟨nodup, free, heap1, within1⟩
    have fetched : Fetched cfg own k pages s1 :=
      ⟨nodup, free, memory.scratch heap1 within1, within1⟩
    dsimp only at *
    cases ok with
    | true =>
      rw [if_pos rfl, wp_bind]
      apply wp_post (kexec_spec fetched.memory runs frame)
      intro ret k1 executed
      rw [wp_bind, wp_onMach]
      rcases executed with ⟨failed, same⟩ | ⟨done, own1, replaced⟩
      · apply wp_never (fetched.undo settled same)
        exact fun _ mach' unchanged => .inl ⟨failed, unchanged⟩
      · apply wp_never (fetched.done settled runs replaced)
        exact fun _ mach' outcome => .inr ⟨done, outcome⟩
    | false =>
      rw [if_neg (by simp), wp_bind, wp_onMach]
      have same : Unchanged cfg (mark own pages .argument) { k with mach := s1 }
          { k with mach := s1 } := ⟨⟨s1, k.tables, rfl⟩, heap1, Within.refl _ _ _⟩
      apply wp_never (fetched.undo settled same)
      exact fun _ mach' unchanged => .inl ⟨rfl, unchanged⟩

end SysExec
end Xv6Lab.Kernel
