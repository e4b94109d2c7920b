import Xv6Lab.Kernel.Image

/-!
Which panics each part of the kernel can raise.
-/

namespace Xv6Lab.Kernel
open Bytes (Mem load store write read)
open Mm
open Fs
variable {ip : Inode}

@[grind] def MemPanic : Panic → Prop
  | .kfree | .walk | .mappagesVa | .mappagesAlign | .mappagesSize | .mappagesRemap => True
  | .uvmunmap | .freewalkLeaf | .uvmclear | .kvmmap | .kalloc | .loadseg => True
  | _ => False

@[grind] def CountPanic : Panic → Prop
  | .ilock | .iunlock | .filedup | .fileclose => True
  | _ => False

@[grind] def Sane (e : Panic) : Prop := ¬CountPanic e

@[grind] def Other (e : Panic) : Prop := ¬MemPanic e

abbrev MemFails {σ α : Type} (x : Prog Panic σ α) : Prop := Fails Sane x

abbrev FsFails {σ α : Type} (x : Prog Panic σ α) : Prop := Fails Other x

section Memory
variable {cfg : Config}

@[grind ←]
theorem memset_fails (pa : Nat) (c : UInt8) (n : Nat) : MemFails (memset pa c n) := fails_modify _

@[grind ←] theorem readPte_fails (pte : Nat) : MemFails (readPte pte) := by grind [readPte]

@[grind ←] theorem writePte_fails (pte v : Nat) : MemFails (writePte pte v) := fails_modify _

@[grind ←] theorem kalloc_fails : MemFails kalloc := by grind [kalloc]

@[grind ←]
theorem walkFrom_fails (va : Nat) (alloc : Bool) (l y : Nat) : MemFails (walkFrom va alloc l y) := by
  induction l generalizing y <;> grind [walkFrom]

@[grind ←]
theorem walk_fails (r va : Nat) (alloc : Bool) : MemFails (walk r va alloc) := by grind [walk]

@[grind ←] theorem walkaddr_fails (r va : Nat) : MemFails (walkaddr r va) := by grind [walkaddr]

@[grind ←] theorem mapLoop_fails (r perm n a pa : Nat) : MemFails (mapLoop r perm n a pa) := by
  induction n generalizing a pa <;> grind [mapLoop]

@[grind ←]
theorem mappages_fails (r va size pa perm : Nat) : MemFails (mappages r va size pa perm) := by
  grind [mappages]

@[grind ←] theorem kfree_fails (pa : Nat) : MemFails (kfree cfg pa) := by grind [kfree]

@[grind ←]
theorem unmapPage_fails (r a : Nat) (doFree : Bool) : MemFails (unmapPage cfg r a doFree) := by
  grind [unmapPage]

@[grind ←] theorem unmapLoop_fails (r stop n a : Nat) (doFree : Bool) :
    MemFails (unmapLoop cfg r stop doFree n a) := by
  induction n generalizing a <;> grind [unmapLoop]

@[grind ←]
theorem uvmunmap_fails (r va n : Nat) (doFree : Bool) : MemFails (uvmunmap cfg r va n doFree) := by
  grind [uvmunmap]

@[grind ←]
theorem uvmdealloc_fails (r oldsz newsz : Nat) : MemFails (uvmdealloc cfg r oldsz newsz) := by
  grind [uvmdealloc]

@[grind ←] theorem growLoop_fails (r oldsz newsz xperm n a : Nat) :
    MemFails (growLoop cfg r oldsz newsz xperm n a) := by
  induction n generalizing a <;> grind [growLoop]

@[grind ←]
theorem uvmalloc_fails (r oldsz newsz xperm : Nat) : MemFails (uvmalloc cfg r oldsz newsz xperm) := by
  grind [uvmalloc]

theorem freeEntries_fails {f : Nat → MM Unit} (child : ∀ y, MemFails (f y)) (y n : Nat) :
    MemFails (freeEntries f y n) := by
  induction n <;> grind [freeEntries]

@[grind ←] theorem freewalk_fails (depth y : Nat) : MemFails (freewalk cfg depth y) := by
  induction depth generalizing y with
  | zero => exact keeps_throw id
  | succ depth ih => exact keeps_bind (freeEntries_fails ih ..) fun _ => kfree_fails _

@[grind ←] theorem uvmfree_fails (r sz : Nat) : MemFails (uvmfree cfg r sz) := by grind [uvmfree]

theorem copyLoop_fails (old new sz n i : Nat) : MemFails (copyLoop cfg old new sz n i) := by
  induction n generalizing i with
  | zero => exact keeps_pure _
  | succ n ih =>
    refine keeps_ite (keeps_bind (walk_fails ..) fun pte => ?_) (keeps_pure _)
    cases pte with
    | none => exact ih _
    | some pte =>
      apply keeps_bind (readPte_fails _)
      intro e
      apply keeps_ite (ih _)
      apply keeps_bind kalloc_fails
      intro mem
      apply keeps_ite
      · exact keeps_bind (uvmunmap_fails ..) fun _ => keeps_pure _
      · refine keeps_bind (fails_modify _) fun _ => keeps_bind (mappages_fails ..) fun ok => ?_
        apply keeps_ite (ih _)
        exact keeps_bind (kfree_fails _) fun _ =>
          keeps_bind (uvmunmap_fails ..) fun _ => keeps_pure _

@[grind ←] theorem uvmclear_fails (r va : Nat) : MemFails (uvmclear r va) := by grind [uvmclear]

@[grind ←]
theorem copyout_fails (r dstva : Nat) (src : List UInt8) : MemFails (copyout r dstva src) := by
  unfold copyout
  generalize src.length / PGSIZE + 2 = n
  induction n generalizing dstva src <;> grind [copyoutLoop]

@[grind ←] theorem copyin_fails (r srcva len : Nat) : MemFails (copyin r srcva len) := by
  unfold copyin
  generalize len / PGSIZE + 2 = n
  induction n generalizing srcva len <;> grind [copyinLoop]

@[grind ←] theorem copyinstr_fails (r srcva max : Nat) : MemFails (copyinstr r srcva max) := by
  unfold copyinstr
  generalize max / PGSIZE + 2 = n
  induction n generalizing srcva max <;> grind [copyinstrLoop]

theorem procPagetable_fails (tf : Nat) : MemFails (procPagetable cfg tf) := by
  grind [procPagetable, uvmcreate]

@[grind ←]
theorem procFreepagetable_fails (r sz : Nat) : MemFails (procFreepagetable cfg r sz) := by
  grind [procFreepagetable]

theorem readi_fails {σ : Type} {image : Mem} {put : Nat → List UInt8 → Prog Panic σ Bool}
    (off n : Nat) (deliver : ∀ tot bytes, MemFails (put tot bytes)) :
    MemFails (readi image ip put off n) :=
  ⟨fun _ => readi_rule id fun tot bytes s _ => (deliver tot bytes).safe s⟩

@[grind ←] theorem readKernel_fails {image : Mem} {off n : Nat} :
    MemFails (Prog.lift (readKernel image ip off n) : MM _) := by
  apply keeps_lift
  intro e failed
  rw [readKernel_error failed]
  exact id

@[grind ←] theorem loadseg_fails (r va offset sz : Nat) (ip : Inode) :
    MemFails (loadseg cfg r va ip offset sz) := by
  have loop : ∀ sz offset n i, MemFails (loadLoop cfg r va ip offset sz n i) := by
    intro sz offset n
    induction n with
    | zero => exact fun _ => keeps_pure _
    | succ n ih =>
      intro i
      refine keeps_ite (keeps_bind (walkaddr_fails ..) fun pa => ?_) (keeps_pure _)
      apply keeps_ite (keeps_throw id)
      apply keeps_bind (readi_fails _ _ fun _ _ => keeps_bind (fails_modify _) fun _ => keeps_pure _)
      exact fun _ => keeps_ite (keeps_pure _) (ih _)
  exact loop ..

theorem segLoop_fails (r n off sz : Nat) (ip : Inode) : MemFails (segLoop cfg r ip n off sz) := by
  induction n generalizing off sz <;> grind [segLoop]

theorem pushArgs_fails (r stackbase sp : Nat) (args : List (List UInt8)) (ustack : List Nat) :
    MemFails (pushArgs r stackbase args sp ustack) := by
  induction args generalizing sp ustack with
  | nil => exact keeps_pure _
  | cons arg rest ih =>
    apply keeps_ite (keeps_pure _)
    apply keeps_ite (keeps_pure _)
    exact keeps_bind (copyout_fails ..) fun ok => keeps_ite (ih _ _) (keeps_pure _)

theorem pushStack_fails (r sz : Nat) (argv : List (List UInt8)) :
    MemFails (pushStack r sz argv) := by
  refine keeps_bind (uvmclear_fails ..) fun _ => keeps_bind (pushArgs_fails ..) fun result => ?_
  cases result with
  | none => exact keeps_pure _
  | some stack =>
    apply keeps_ite (keeps_pure _)
    exact keeps_bind (copyout_fails ..) fun ok => keeps_ite (keeps_pure _) (keeps_pure _)

theorem argLoop_fails (proc : Process) (uargv n : Nat) : MemFails (argLoop proc uargv n) := by
  have address : ∀ addr, MemFails (fetchaddr proc addr) := by grind [fetchaddr]
  have string : ∀ addr page, MemFails (fetchstr proc addr page PGSIZE) := by grind [fetchstr]
  induction n with
  | zero => exact keeps_pure _
  | succ n ih =>
    apply keeps_bind (address _)
    intro uarg
    cases uarg with
    | none => exact keeps_pure _
    | some uarg =>
      apply keeps_ite (keeps_pure _)
      apply keeps_bind kalloc_fails
      grind

theorem freeAll_fails (pages : List Nat) : MemFails (freeAll cfg pages) := by
  induction pages <;> grind [freeAll]

theorem consoleread_fails (r : Nat) (input : List UInt8) (dst : Nat) :
    MemFails (consoleread r input dst) := by
  induction input generalizing dst <;> grind [consoleread]

end Memory

section FileSystem
variable {image : Mem} {pid : BitVec 32}

@[grind ←] theorem iget_fails (dev inum : Nat) : FsFails (iget dev inum) := by grind [iget]

@[grind ←] theorem idup_fails (i : Nat) : FsFails (idup i) := by grind [idup]

@[grind ←] theorem ilock_fails (i : Nat) : FsFails (ilock image pid i) := by grind [ilock]

@[grind ←] theorem iunlock_fails (i : Nat) : FsFails (iunlock pid i) := by grind [iunlock]

@[grind ←] theorem iput_fails (i : Nat) : FsFails (iput i) := fails_modify _

@[grind ←] theorem iunlockput_fails (i : Nat) : FsFails (iunlockput pid i) := by grind [iunlockput]

theorem dirLoop_error {dp : Inode} {name : List UInt8} {e : Panic} (k off : Nat)
    (failed : dirLoop image dp name k off = .error e) : e = .bmap ∨ e = .dirlookupRead := by
  induction k generalizing off with
  | zero => cases failed
  | succ k ih =>
    rw [dirLoop] at failed
    split at failed
    · cases header : readKernel image dp off DIRENT with
      | error e' =>
        rw [header] at failed
        obtain rfl : e' = e := Except.error.inj failed
        exact .inl (readKernel_error header)
      | ok result =>
        simp only [header, bind, Except.bind] at failed
        split at failed
        · exact .inr (Except.error.inj failed).symm
        · split at failed
          · exact ih _ failed
          · split at failed
            · cases failed
            · exact ih _ failed
    · cases failed

@[grind ←]
theorem dirlookup_fails (i : Nat) (name : List UInt8) : FsFails (dirlookup image i name) := by
  have search : ∀ ip k, FsFails (Prog.lift (dirLoop image ip name k 0) : FM _) := by
    intro ip k
    apply keeps_lift
    intro e failed
    rcases dirLoop_error _ _ failed with rfl | rfl <;> exact id
  grind [dirlookup]

theorem namexLoop_fails (k i : Nat) (path : List UInt8) : FsFails (namexLoop image pid k i path) := by
  induction k generalizing i path with
  | zero => exact keeps_pure _
  | succ k ih =>
    rw [namexLoop]
    split
    · exact keeps_pure _
    · refine keeps_bind (ilock_fails _) fun _ => keeps_bind keeps_get fun t => keeps_ite ?_ ?_
      · exact keeps_bind (iunlockput_fails _) fun _ => keeps_pure _
      · apply keeps_bind (dirlookup_fails ..)
        intro next
        cases next with
        | none => exact keeps_bind (iunlockput_fails _) fun _ => keeps_pure _
        | some next => exact keeps_bind (iunlockput_fails _) fun _ => ih _ _

@[grind ←]
theorem namei_fails (cwd : Option Nat) (path : List UInt8) : FsFails (namei image pid cwd path) := by
  apply keeps_ite
  · exact keeps_bind (iget_fails ..) fun _ => namexLoop_fails ..
  · cases cwd with
    | none => exact keeps_throw id
    | some i => exact keeps_bind (idup_fails _) fun _ => namexLoop_fails ..

theorem fsinit_fails : FsFails (fsinit image) := by grind [fsinit]

@[grind ←] theorem filealloc_fails : FsFails filealloc := by grind [filealloc]

@[grind ←] theorem filedup_fails (f : Nat) : FsFails (filedup f) := by grind [filedup]

@[grind ←] theorem fileclose_fails (f : Nat) : FsFails (fileclose f) := by grind [fileclose]

end FileSystem
end Xv6Lab.Kernel
