import Xv6Lab.Kernel.Panics
import Xv6Lab.Lib.Holders

/-!
The reference counts of the inode and file tables, with the references that others
hold as a parameter.
-/

namespace Xv6Lab.Kernel
open List
open Function (update update_eq_self update_eq_self_iff update_idem update_of_ne update_self)
open Bytes (Mem)
open Mm
open Fs
variable {n : Nat} {path : List UInt8} {o : Option (BitVec 32)} {cwd : Option Nat}

/-- held says how many references there are to each inode, lock who holds its lock. -/
structure Refs (held : Nat → Nat) (lock : Nat → Option (BitVec 32)) (t : Tables) : Prop where
  ref : ∀ i, (t.inode i).ref = held i
  inside : ∀ i, held i ≠ 0 → i < NINODE
  unique : ∀ i j, held i ≠ 0 → held j ≠ 0 → (t.inode i).dev = (t.inode j).dev →
    (t.inode i).inum = (t.inode j).inum → i = j
  locked : ∀ i, (t.inode i).locked = (lock i).isSome
  owner : ∀ i pid, lock i = some pid → (t.inode i).pid = pid

def unlocked : Nat → Option (BitVec 32) := fun _ => none

section Inodes
variable {held : Nat → Nat} {lock : Nat → Option (BitVec 32)} {t : Tables} {i : Nat} {image : Mem}
  {pid : BitVec 32}

theorem Refs.update (refs : Refs held lock t) (ip : Inode)
    (ref : ip.ref = n) (inside : n ≠ 0 → i < NINODE)
    (same : n ≠ 0 → ∀ j, j ≠ i → held j ≠ 0 → ip.dev = (t.inode j).dev → ip.inum ≠ (t.inode j).inum)
    (locked : ip.locked = o.isSome) (owner : ∀ pid, o = some pid → ip.pid = pid) :
    Refs (Function.update held i n) (Function.update lock i o) (t.setInode i ip) := by
  unfold Tables.setInode
  constructor
  · intro j
    by_cases here : j = i
    · subst here
      simpa using ref
    · simpa [here] using refs.ref j
  · intro j
    by_cases here : j = i
    · subst here
      simpa using inside
    · simpa [here] using refs.inside j
  · intro j j' some some' dev inum
    by_cases here : j = i
    · by_cases there : j' = i
      · rw [here, there]
      · subst here
        simp only [update_self, update_of_ne there] at some some' dev inum
        exact absurd inum (same some j' there some' dev)
    · by_cases there : j' = i
      · subst there
        simp only [update_self, update_of_ne here] at some some' dev inum
        exact absurd inum.symm (same some' j here some dev.symm)
      · simp only [update_of_ne here, update_of_ne there] at some some' dev inum
        exact refs.unique j j' some some' dev inum
  · intro j
    by_cases here : j = i
    · subst here
      simpa using locked
    · simpa [here] using refs.locked j
  · intro j
    by_cases here : j = i
    · subst here
      simpa using owner
    · simpa [here] using refs.owner j

theorem Refs.keep (refs : Refs held lock t) (ip : Inode) (used : held i ≠ 0) (ref : ip.ref = n)
    (dev : ip.dev = (t.inode i).dev) (inum : ip.inum = (t.inode i).inum)
    (locked : ip.locked = o.isSome) (owner : ∀ pid, o = some pid → ip.pid = pid) :
    Refs (Function.update held i n) (Function.update lock i o) (t.setInode i ip) := by
  apply refs.update ip ref (fun _ => refs.inside i used) _ locked owner
  intro _ j other used' devs inums
  rw [dev] at devs
  rw [inum] at inums
  exact other (refs.unique i j used used' devs inums).symm

theorem bump_eq_update (held : Nat → Nat) (i : Nat) : bump held i = update held i (held i + 1) := by
  funext j
  by_cases here : j = i
  · subst here
    simp
  · simp [here]

theorem iget_refs {dev inum : Nat} (refs : Refs held lock t) :
    wp (iget dev inum) Sane (fun i t' => Refs (bump held i) lock t' ∧ t'.file = t.file) t := by
  unfold iget
  rw [wp_bind, wp_get]
  cases found : (List.range NINODE).find? fun i =>
      0 < (t.inode i).ref ∧ (t.inode i).dev = dev ∧ (t.inode i).inum = inum with
  | some i =>
    have match_ := find?_some found
    simp only [decide_eq_true_eq] at match_
    simp only [wp_bind, wp_set, wp_pure]
    have used : held i ≠ 0 := by
      have := refs.ref i
      omega
    refine ⟨?_, rfl⟩
    have next := refs.keep { t.inode i with ref := (t.inode i).ref + 1 } used (o := lock i)
      (n := held i + 1) (by simp [refs.ref]) rfl rfl (refs.locked i) (refs.owner i)
    rwa [update_eq_self, ← bump_eq_update] at next
  | none =>
    cases empty : (List.range NINODE).find? fun i => (t.inode i).ref = 0 with
    | none => exact id
    | some i =>
      have zero := find?_some empty
      have member := mem_of_find?_eq_some empty
      simp only [decide_eq_true_eq, mem_range] at zero member
      simp only [wp_bind, wp_set, wp_pure]
      have zero : held i = 0 := by
        have := refs.ref i
        omega
      refine ⟨?_, rfl⟩
      have next := refs.update { t.inode i with dev, inum, ref := 1, valid := false } (i := i)
        (o := lock i) (n := held i + 1) (by simp [zero]) (fun _ => member) ?_ (refs.locked i) (refs.owner i)
      · rwa [update_eq_self, ← bump_eq_update] at next
      · intro _ j _ used devs inums
        have absent := find?_eq_none.mp found j (by simpa using refs.inside j used)
        apply absent
        have := refs.ref j
        simp only [decide_eq_true_eq]
        exact ⟨by omega, devs.symm, inums.symm⟩

theorem idup_refs (refs : Refs held lock t) (used : held i ≠ 0) :
    wp (idup i) Sane (fun j t' => j = i ∧ Refs (bump held i) lock t' ∧ t'.file = t.file) t := by
  unfold idup
  simp only [wp_bind, wp_modify, wp_pure]
  refine ⟨trivial, ?_, rfl⟩
  have next := refs.keep { t.inode i with ref := (t.inode i).ref + 1 } used (o := lock i)
    (n := held i + 1) (by simp [refs.ref]) rfl rfl (refs.locked i) (refs.owner i)
  rwa [update_eq_self, ← bump_eq_update] at next

theorem iput_refs (refs : Refs (bump held i) lock t) :
    wp (iput i) Sane (fun _ t' => Refs held lock t' ∧ t'.file = t.file) t := by
  unfold iput
  rw [wp_modify]
  refine ⟨?_, rfl⟩
  have next := refs.keep { t.inode i with ref := (t.inode i).ref - 1 } (by simp) (o := lock i)
    (n := held i) (by simp [refs.ref]) rfl rfl (refs.locked i) (refs.owner i)
  rwa [update_eq_self, bump_eq_update, update_idem, update_eq_self] at next

theorem ilock_refs (refs : Refs held unlocked t) (used : held i ≠ 0) :
    wp (ilock image pid i) Sane (fun _ t' =>
      Refs held (update unlocked i (some pid)) t' ∧ t'.file = t.file) t := by
  have ref := refs.ref i
  have keep : ∀ ip : Inode, ip.ref = (t.inode i).ref → ip.dev = (t.inode i).dev →
      ip.inum = (t.inode i).inum → ip.locked = true → ip.pid = pid →
      Refs held (update unlocked i (some pid)) (t.setInode i ip) := by
    intro ip refs' dev inum locked owner
    have next := refs.keep ip (n := held i) (o := some pid) used (refs'.trans ref) dev inum locked
      fun _ same => by rw [owner, Option.some.inj same]
    rwa [update_eq_self] at next
  unfold ilock
  rw [wp_bind, wp_get]
  simp only [wp_ite, wp_throw, wp_set, wp_bind, wp_pure]
  refine ⟨fun low => by omega, fun _ => ⟨fun busy => ?_, fun _ => ⟨fun _ => ?_, fun _ => ⟨?_, ?_⟩⟩⟩⟩
  · rw [refs.locked i] at busy
    cases busy
  · exact ⟨keep { t.inode i with locked := true, pid } rfl rfl rfl rfl rfl, rfl⟩
  · exact fun _ => id
  · exact fun _ => ⟨keep (readDinode image t.sb { t.inode i with locked := true, pid }) rfl rfl rfl rfl rfl,
      rfl⟩

theorem iunlock_refs (refs : Refs held (update unlocked i (some pid)) t) (used : held i ≠ 0) :
    wp (iunlock pid i) Sane (fun _ t' => Refs held unlocked t' ∧ t'.file = t.file) t := by
  have ref := refs.ref i
  have locked : (t.inode i).locked = true := by simpa using refs.locked i
  have owner : (t.inode i).pid = pid := refs.owner i pid (by simp)
  unfold iunlock
  rw [wp_bind, wp_get]
  simp only [wp_ite, wp_throw, wp_set, locked, owner]
  refine ⟨fun bad => ?_, fun _ => ⟨?_, rfl⟩⟩
  · simp only [and_self, not_true_eq_false, false_or] at bad
    omega
  · have next := refs.keep { t.inode i with locked := false, pid := 0 } (n := held i) (o := none) used
      ref rfl rfl rfl (by simp)
    rw [update_eq_self, update_idem] at next
    have rest : update unlocked i none = unlocked := update_eq_self i unlocked
    rwa [rest] at next

theorem iunlockput_refs (refs : Refs (bump held i) (update unlocked i (some pid)) t) :
    wp (iunlockput pid i) Sane (fun _ t' => Refs held unlocked t' ∧ t'.file = t.file) t := by
  unfold iunlockput
  apply wp_seq (iunlock_refs refs (by simp))
  rintro _ t1 ⟨refs1, file1⟩
  apply wp_post (iput_refs refs1)
  rintro _ t2 ⟨refs2, file2⟩
  exact ⟨refs2, file2.trans file1⟩

theorem dirlookup_refs {name : List UInt8} (refs : Refs held lock t) :
    wp (dirlookup image i name) Sane (fun next t' =>
      Refs (next.elim held (bump held)) lock t' ∧ t'.file = t.file) t := by
  unfold dirlookup
  rw [wp_bind, wp_get]
  simp only [wp_ite, wp_throw, wp_bind, wp_lift]
  refine ⟨fun _ => id, fun _ => ?_⟩
  cases found : dirLoop image (t.inode i) name ((t.inode i).size / DIRENT + 1) 0 with
  | error e => rcases dirLoop_error _ _ found with rfl | rfl <;> exact id
  | ok inum =>
    cases inum with
    | none => exact ⟨refs, rfl⟩
    | some inum =>
      apply wp_seq (iget_refs refs)
      exact fun _ t' post => post

theorem namexLoop_refs (n : Nat) (refs : Refs (bump held i) unlocked t) :
    wp (namexLoop image pid n i path) Sane (fun r t' =>
      Refs (r.elim held (bump held)) unlocked t' ∧ t'.file = t.file) t := by
  induction n generalizing i path t with
  | zero => exact ⟨refs, rfl⟩
  | succ n ih =>
    rw [namexLoop]
    split
    · exact ⟨refs, rfl⟩
    · apply wp_seq (ilock_refs refs (by simp))
      rintro _ t1 ⟨refs1, file1⟩
      rw [wp_bind, wp_get]
      simp only [wp_ite]
      constructor
      · intro _
        apply wp_seq (iunlockput_refs refs1)
        rintro _ t2 ⟨refs2, file2⟩
        exact ⟨refs2, file2.trans file1⟩
      · intro _
        apply wp_seq (dirlookup_refs refs1)
        rintro next t2 ⟨refs2, file2⟩
        cases next with
        | none =>
          apply wp_seq (iunlockput_refs refs2)
          rintro _ t3 ⟨refs3, file3⟩
          exact ⟨refs3, file3.trans (file2.trans file1)⟩
        | some next =>
          simp only [Option.elim_some] at refs2
          rw [bump_comm] at refs2
          apply wp_seq (iunlockput_refs refs2)
          rintro _ t3 ⟨refs3, file3⟩
          apply wp_post (ih refs3)
          rintro r t4 ⟨refs4, file4⟩
          exact ⟨refs4, file4.trans (file3.trans (file2.trans file1))⟩

theorem namei_refs (refs : Refs held unlocked t)
    (used : ∀ i, cwd = some i → held i ≠ 0) : wp (namei image pid cwd path) Sane (fun r t' =>
      Refs (r.elim held (bump held)) unlocked t' ∧ t'.file = t.file) t := by
  unfold namei
  simp only [wp_ite]
  constructor
  · intro _
    apply wp_seq (iget_refs refs)
    rintro i t1 ⟨refs1, file1⟩
    apply wp_post (namexLoop_refs _ refs1)
    rintro r t2 ⟨refs2, file2⟩
    exact ⟨refs2, file2.trans file1⟩
  · intro _
    cases cwd with
    | none => exact id
    | some i =>
      apply wp_seq (idup_refs refs (used i rfl))
      rintro j t1 ⟨same, refs1, file1⟩
      subst same
      apply wp_post (namexLoop_refs _ refs1)
      rintro r t2 ⟨refs2, file2⟩
      exact ⟨refs2, file2.trans file1⟩

end Inodes

def opened (file : Nat → File) (f : Nat) : Option Nat :=
  if (file f).type = .none then none else (file f).ip

def openings (file : Nat → File) : Nat → Nat := holders (Finset.range NFILE) (opened file)

/-- users says how many references there are to each file, held how many to each inode
apart from those of files. Only the file fresh may have no type yet. -/
structure Counted (fresh : Option Nat) (users held : Nat → Nat) (lock : Nat → Option (BitVec 32))
    (t : Tables) : Prop where
  ref : ∀ f, (t.file f).ref = users f
  closed : ∀ f, users f = 0 → (t.file f).type = .none
  inside : ∀ f, users f ≠ 0 → f < NFILE
  typed : ∀ f, users f ≠ 0 → (t.file f).type = .none → fresh = some f
  node : ∀ f, (t.file f).type ≠ .none → (t.file f).ip ≠ none
  refs : Refs (fun i => openings t.file i + held i) lock t

section Files
variable {fresh : Option Nat} {users held held' : Nat → Nat} {lock lock' : Nat → Option (BitVec 32)}
  {t t' : Tables} {f i : Nat} {image : Mem} {pid : BitVec 32}

theorem Counted.inode (counted : Counted fresh users held lock t) (file : t'.file = t.file)
    (refs : Refs (fun i => openings t.file i + held' i) lock' t') :
    Counted fresh users held' lock' t' := by
  constructor
  · rw [file]
    exact counted.ref
  · rw [file]
    exact counted.closed
  · exact counted.inside
  · rw [file]
    exact counted.typed
  · rw [file]
    exact counted.node
  · rw [file]
    exact refs

theorem Refs.inodes (refs : Refs held lock t) (same : t'.inode = t.inode) : Refs held lock t' := by
  constructor
  · rw [same]
    exact refs.ref
  · exact refs.inside
  · rw [same]
    exact refs.unique
  · rw [same]
    exact refs.locked
  · rw [same]
    exact refs.owner

theorem Counted.update {fresh' : Option Nat} (counted : Counted fresh users held lock t)
    (file : File) (ref : file.ref = n) (closed : n = 0 → file.type = .none)
    (inside : n ≠ 0 → f < NFILE) (typed : n ≠ 0 → file.type = .none → fresh' = some f)
    (others : ∀ g, g ≠ f → fresh = some g → fresh' = some g) (node : file.type ≠ .none → file.ip ≠ none)
    (files : t'.file = Function.update t.file f file)
    (refs : Refs (fun i => openings t'.file i + held' i) lock' t') :
    Counted fresh' (Function.update users f n) held' lock' t' := by
  constructor
  · intro g
    rw [files]
    by_cases here : g = f
    · subst here
      simpa using ref
    · simpa [here] using counted.ref g
  · intro g
    rw [files]
    by_cases here : g = f
    · subst here
      simpa using closed
    · simpa [here] using counted.closed g
  · intro g
    by_cases here : g = f
    · subst here
      simpa using inside
    · simpa [here] using counted.inside g
  · intro g
    rw [files]
    by_cases here : g = f
    · subst here
      simpa using typed
    · simp only [update_of_ne here]
      exact fun used type => others g here (counted.typed g used type)
  · intro g
    rw [files]
    by_cases here : g = f
    · subst here
      simpa using node
    · simpa [here] using counted.node g
  · exact refs

theorem setFile_file (t : Tables) (f : Nat) (file : File) :
    (t.setFile f file).file = update t.file f file := rfl

theorem opened_update (file : Nat → File) (f : Nat) (new : File) : opened (update file f new) =
      update (opened file) f (if new.type = .none then none else new.ip) := by
  funext g
  by_cases here : g = f
  · subst here
    simp [opened]
  · simp [opened, here]

theorem openings_same {new : File} (type : new.type = (t.file f).type) (ip : new.ip = (t.file f).ip) :
    openings (update t.file f new) = openings t.file := by
  unfold openings
  rw [opened_update, type, ip]
  exact congrArg _ (update_eq_self f (opened t.file))

theorem filealloc_counted (counted : Counted none users held lock t) :
    wp filealloc Sane (fun r t' => match r with
      | none => Counted none users held lock t'
      | some f => users f = 0 ∧ (t'.file f).type = .none ∧
          Counted (some f) (bump users f) held lock t') t := by
  unfold filealloc
  rw [wp_bind, wp_get]
  cases found : (List.range NFILE).find? fun f => (t.file f).ref = 0 with
  | none => exact counted
  | some f =>
    have zero := find?_some found
    have member := mem_of_find?_eq_some found
    simp only [decide_eq_true_eq, mem_range] at zero member
    simp only [wp_bind, wp_set, wp_pure]
    have zero : users f = 0 := by
      have := counted.ref f
      omega
    have type := counted.closed f zero
    refine ⟨zero, by simpa [Tables.setFile] using type, ?_⟩
    rw [bump_eq_update, zero]
    apply counted.update { t.file f with ref := 1 } rfl (by simp) (fun _ => member) (fun _ _ => rfl)
      (by simp) (fun typed => absurd type typed) rfl
    rw [setFile_file, openings_same (by rfl) (by rfl)]
    exact counted.refs.inodes rfl

theorem filedup_counted (counted : Counted fresh users held lock t) (used : users f ≠ 0) :
    wp (filedup f) Sane (fun _ t' => Counted fresh (bump users f) held lock t') t := by
  have ref := counted.ref f
  unfold filedup
  rw [wp_bind, wp_get]
  simp only [wp_ite, wp_throw, wp_set]
  refine ⟨fun low => by omega, fun _ => ?_⟩
  rw [bump_eq_update]
  apply counted.update { t.file f with ref := (t.file f).ref + 1 } (by simp [ref]) (by simp)
    (fun _ => counted.inside f used) (fun _ => counted.typed f used) (fun _ _ same => same)
    (counted.node f) rfl
  rw [setFile_file, openings_same (by rfl) (by rfl)]
  exact counted.refs.inodes rfl

theorem Counted.touch (counted : Counted fresh users held lock t) (file : File)
    (ref : file.ref = (t.file f).ref) (type : file.type = (t.file f).type)
    (ip : file.ip = (t.file f).ip) : Counted fresh users held lock (t.setFile f file) := by
  have next : Counted fresh (Function.update users f (users f)) held lock (t.setFile f file) := by
    apply counted.update file (ref.trans (counted.ref f)) _ (counted.inside f) _ (fun _ _ same => same)
      _ rfl
    · rw [setFile_file, openings_same type ip]
      exact counted.refs.inodes rfl
    · rw [type]
      exact counted.closed f
    · rw [type]
      exact counted.typed f
    · rw [type, ip]
      exact counted.node f
  rwa [update_eq_self] at next

theorem fileclose_counted (counted : Counted fresh (bump users f) held lock t) :
    wp (fileclose f) Sane (fun _ t' => Counted fresh users held lock t') t := by
  have ref : (t.file f).ref = users f + 1 := by simpa using counted.ref f
  have inside := counted.inside f (by simp)
  have back : update (bump users f) f (users f) = users := by
    rw [bump_eq_update, update_idem, update_eq_self]
  unfold fileclose
  rw [wp_bind, wp_get]
  simp only [wp_ite, wp_throw, wp_set]
  refine ⟨fun low => by omega, fun _ => ⟨fun more => ?_, fun last => ?_⟩⟩
  · -- others still use the file
    rw [← back]
    apply counted.update { t.file f with ref := (t.file f).ref - 1 } (by simp [ref]) _
      (fun _ => inside) (fun _ => counted.typed f (by simp)) (fun _ _ same => same) (counted.node f) rfl
    · rw [setFile_file, openings_same (by rfl) (by rfl)]
      exact counted.refs.inodes rfl
    · omega
  · have zero : users f = 0 := by omega
    generalize shape : ({ t.file f with ref := 0, type := .none } : File) = file
    have count : file.ref = 0 := by rw [← shape]
    have type : file.type = .none := by rw [← shape]
    have gone : ∀ t', t'.file = update t.file f file →
        Refs (fun i => openings t'.file i + held i) lock t' → Counted fresh users held lock t' := by
      intro t' files refs
      rw [← back]
      exact counted.update file (by simp [zero, count]) (fun _ => type) (fun _ => inside)
        (fun used => absurd zero used) (fun _ _ same => same) (fun typed => absurd type typed) files refs
    have closing : opened (update t.file f file) = update (opened t.file) f none := by
      rw [opened_update, if_pos type]
    rw [wp_bind, wp_set, wp_ite]
    constructor
    · intro typed
      have type : (t.file f).type ≠ .none := by
        rintro type
        simp [type] at typed
      cases node : (t.file f).ip with
      | none => exact id
      | some i =>
        have kept : bump (openings (update t.file f file)) i = openings t.file := by
          unfold openings
          rw [closing]
          exact holders_drop (Finset.mem_range.mpr inside) (by simp [opened, type, node])
        have refs : Refs (bump (fun i => openings (update t.file f file) i + held i) i) lock
            (t.setFile f file) := by
          rw [← bump_add, kept]
          exact counted.refs.inodes rfl
        apply wp_post (iput_refs refs)
        rintro _ t' ⟨refs', files⟩
        apply gone t' files
        rw [files]
        exact refs'
    · intro untyped
      have before : (t.file f).type = .none := by
        cases type : (t.file f).type <;> simp [type] at untyped ⊢
      apply gone _ rfl
      have same : update (opened t.file) f none = opened t.file := by
        rw [update_eq_self_iff]
        simp [opened, before]
      unfold openings
      rw [setFile_file, closing, same]
      exact counted.refs.inodes rfl

theorem Counted.settle (counted : Counted (some f) users (bump held i) lock t) (used : users f ≠ 0)
    (untyped : (t.file f).type = .none) (file : File) (ref : file.ref = (t.file f).ref)
    (type : file.type ≠ .none) (ip : file.ip = some i) :
    Counted none users held lock (t.setFile f file) := by
  have inside := counted.inside f used
  have next : Counted none (Function.update users f (users f)) held lock (t.setFile f file) := by
    apply counted.update file (ref.trans (counted.ref f)) (fun zero => absurd zero used) (fun _ => inside)
      (fun _ none => absurd none type) (fun g other same => absurd (Option.some.inj same).symm other)
      (fun _ => by simp [ip]) rfl
    have taken : openings (t.setFile f file).file = bump (openings t.file) i := by
      unfold openings
      rw [setFile_file, opened_update, if_neg type, ip]
      exact holders_take (Finset.mem_range.mpr inside) (by simp [opened, untyped])
    rw [taken, bump_add, ← add_bump]
    exact counted.refs.inodes rfl
  rwa [update_eq_self] at next

theorem Counted.drop (counted : Counted (some f) users held lock t) (unused : users f = 0) :
    Counted none users held lock t :=
  { counted with
    typed := by
      intro g used type
      have same := counted.typed g used type
      rw [Option.some.inj same] at unused
      exact absurd unused used }

theorem Counted.typed_iff (counted : Counted none users held lock t) (f : Nat) :
    (t.file f).type ≠ .none ↔ 0 < (t.file f).ref := by
  have ref := counted.ref f
  constructor
  · intro typed
    by_contra low
    exact typed (counted.closed f (by omega))
  · intro positive type
    exact nomatch counted.typed f (by omega) type

theorem Counted.used (counted : Counted none users held lock t) (used : users f ≠ 0) :
    ∃ i, (t.file f).ip = some i ∧ openings t.file i + held i ≠ 0 := by
  have type : (t.file f).type ≠ .none := fun type => nomatch counted.typed f used type
  obtain ⟨i, ip⟩ := Option.ne_none_iff_exists'.mp (counted.node f type)
  have keeps := holders_pos (a := opened t.file) (Finset.mem_range.mpr (counted.inside f used))
    (x := i) (by simp [opened, type, ip])
  refine ⟨i, ip, ?_⟩
  unfold openings
  omega

theorem Counted.rule {α : Type} {x : FM α} {after : α → Nat → Nat}
    {locks : α → Nat → Option (BitVec 32)} (counted : Counted fresh users held lock t)
    (spec : wp x Sane (fun a t' => Refs (after a) (locks a) t' ∧ t'.file = t.file) t)
    {rest : α → Nat → Nat} (split : ∀ a, after a = fun i => openings t.file i + rest a i) :
    wp x Sane (fun a t' => Counted fresh users (rest a) (locks a) t' ∧ t'.file = t.file) t := by
  apply wp_post spec
  rintro a t' ⟨refs, file⟩
  rw [split] at refs
  exact ⟨counted.inode file refs, file⟩

theorem namei_counted
    (counted : Counted fresh users held unlocked t) (used : ∀ i, cwd = some i → held i ≠ 0) :
    wp (namei image pid cwd path) Sane (fun r t' =>
      Counted fresh users (r.elim held (bump held)) unlocked t' ∧ t'.file = t.file) t := by
  apply counted.rule (namei_refs counted.refs fun i cwd => by have := used i cwd; omega)
  intro r
  cases r with
  | none => rfl
  | some i => exact (add_bump ..).symm

theorem ilock_counted (counted : Counted fresh users held unlocked t)
    (used : openings t.file i + held i ≠ 0) : wp (ilock image pid i) Sane (fun _ t' =>
      Counted fresh users held (update unlocked i (some pid)) t' ∧ t'.file = t.file) t :=
  counted.rule (ilock_refs counted.refs used) fun _ => rfl

theorem iunlock_counted (counted : Counted fresh users held (update unlocked i (some pid)) t)
    (used : openings t.file i + held i ≠ 0) :
    wp (iunlock pid i) Sane (fun _ t' => Counted fresh users held unlocked t' ∧ t'.file = t.file) t :=
  counted.rule (iunlock_refs counted.refs used) fun _ => rfl

theorem iput_counted (counted : Counted fresh users (bump held i) lock t) :
    wp (iput i) Sane (fun _ t' => Counted fresh users held lock t' ∧ t'.file = t.file) t := by
  have refs := counted.refs
  rw [add_bump] at refs
  exact counted.rule (iput_refs refs) fun _ => rfl

theorem iunlockput_counted
    (counted : Counted fresh users (bump held i) (update unlocked i (some pid)) t) :
    wp (iunlockput pid i) Sane (fun _ t' => Counted fresh users held unlocked t' ∧ t'.file = t.file) t := by
  have refs := counted.refs
  rw [add_bump] at refs
  exact counted.rule (iunlockput_refs refs) fun _ => rfl

theorem idup_counted (counted : Counted fresh users held lock t) (used : held i ≠ 0) :
    wp (idup i) Sane (fun j t' => j = i ∧ Counted fresh users (bump held i) lock t') t := by
  apply wp_post (idup_refs counted.refs (by omega : openings t.file i + held i ≠ 0))
  rintro j t' ⟨same, refs, file⟩
  rw [← add_bump] at refs
  exact ⟨same, counted.inode file refs⟩

end Files
end Xv6Lab.Kernel
