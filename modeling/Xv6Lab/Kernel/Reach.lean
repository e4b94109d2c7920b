import Xv6Lab.Kernel.Boot

/-!
What holds of memory in every state that the kernel reaches.
-/

namespace Xv6Lab.Kernel
open Function (update_idem update_of_ne update_self)

open Bytes (Mem load store write read)
open Mm
open Fs
open Proc (ProcState)
variable {r : Except Panic State} {E' : Panic → Prop}

def Sound (cfg : Config) (k : State) : Prop := ∃ own, Memory cfg own k ∧ Settled own k

section Step
variable {cfg : Config} {own : Nat → Label} {k k' : State} {p : Nat} {E : Panic → Prop}

theorem Executed.outcome {r : Int} (executed : Executed cfg own k p r k') (memory : Memory cfg own k)
    (settled : Settled own k) (runs : (k.proc p).pagetable ≠ 0) : Outcome cfg own k p k' := by
  rcases executed with ⟨_, same⟩ | ⟨_, own', replaced⟩
  · exact same.outcome memory settled runs
  · have memory' := replaced.memory
    have within := replaced.within
    obtain ⟨mach, tables, name, pagetable, sz, some, rfl⟩ := replaced.shape
    apply memory'.outcome settled runs within
    · intro q other
      simp only [update_of_ne other]
      exact ⟨trivial, rfl, rfl, rfl⟩
    · simpa [settled.unused] using runs
    · simpa using some
    · simpa [← settled.frame] using runs

theorem Memory.setA0 (memory : Memory cfg own k) (settled : Settled own k)
    (runs : (k.proc p).pagetable ≠ 0) (v : Nat) :
    wp (onMach (writePte ((k.proc p).trapframe + TF_A0) v)) E (fun _ k' =>
      Memory cfg own k' ∧ Settled own k' ∧
        Within (· = .trapframe p) own own k.mach.mem k'.mach.mem ∧ k'.proc = k.proc) k := by
  have frame : (k.proc p).trapframe ≠ 0 := by rwa [Ne, ← settled.frame]
  have label := (memory.trapframe p (k.proc p).trapframe).mpr ⟨frame, rfl⟩
  have aligned := (memory.used (k.proc p).trapframe (by simp [label])).1
  rw [wp_onMach, wp_writePte]
  obtain ⟨memory', within⟩ := memory.writeFrame
    { k.mach with mem := store k.mach.mem ((k.proc p).trapframe + TF_A0) 8 v } label rfl
    (onlyPage_store aligned (by omega) (by simp [TF_A0, PGSIZE]))
  exact ⟨memory', ⟨settled.unused, settled.frame, settled.inside, settled.arguments⟩, within, rfl⟩

theorem Memory.setFail (memory : Memory cfg own k) (fail : List Bool) :
    Memory cfg own { k with mach := { k.mach with fail } } :=
  memory.touch ⟨memory.heap.list, memory.heap.page, memory.heap.phys⟩
    (Within.refl (fun _ => False) _ _) (by simp)

def Reads (k : State) (q : Nat) (va : Nat) : Option UInt8 :=
  userByte k.mach.mem (k.proc q).pagetable va

/-- Of the processes that can read memory, those other than p stay and read what they did. -/
def Isolated (k k' : State) (p : Nat) : Prop :=
  ∀ q, q ≠ p → Live k q → Live k' q ∧ ∀ va, Reads k' q va = Reads k q va

theorem Isolated.refl (k : State) (p : Nat) : Isolated k k p := fun _ _ live => ⟨live, fun _ => rfl⟩

theorem Live.pagetable (live : Live k p) (settled : Settled own k) : (k.proc p).pagetable ≠ 0 := by
  rw [Ne, ← settled.unused]
  exact live.1

theorem Outcome.isolated (outcome : Outcome cfg own k p k') (memory : Memory cfg own k)
    (settled : Settled own k) : Isolated k k' p := by
  obtain ⟨own', _, _, _, within, same⟩ := outcome
  intro q other live
  obtain ⟨state, space⟩ := same q other live
  constructor
  · unfold Live
    rw [state]
    exact live
  · intro va
    obtain ⟨S, shape⟩ := memory.space q (live.pagetable settled)
    have foreign : ∀ l, l.root = some (k.proc q).pagetable → Foreign k p l :=
      fun l root => ⟨q, other, live, root⟩
    unfold Reads
    rw [space.pagetable]
    exact shape.userByte_frame memory.used within (fun l n outside => outside (foreign _ rfl))
      fun v outside => outside (foreign _ rfl)

theorem Outcome.setA0 (outcome : Outcome cfg own k p k') (v : Nat) :
    wp (onMach (writePte ((k'.proc p).trapframe + TF_A0) v)) E (fun _ k'' =>
      Outcome cfg own k p k'' ∧ (Twins k k' p → Twins k k'' p)) k' := by
  obtain ⟨own', memory', settled', some, within, same⟩ := outcome
  apply wp_post (memory'.setA0 settled' some v)
  rintro _ k'' ⟨memory'', settled'', touched, procs⟩
  constructor
  · refine ⟨own', memory'', settled'', by rwa [procs], ?_, by rwa [procs]⟩
    apply within.trans (touched.mono _)
    rintro l label ⟨q, _, _, root⟩
    simp [label, Label.root] at root
  · intro twins c unused used va
    rw [procs] at used ⊢
    have unchanged : ∀ q, (k'.proc q).pagetable ≠ 0 → userByte k''.mach.mem (k'.proc q).pagetable va =
        userByte k'.mach.mem (k'.proc q).pagetable va := by
      intro q table
      obtain ⟨S, space⟩ := memory'.space q table
      exact space.userByte_frame memory'.used touched (by simp) (by simp)
    have table : (k'.proc c).pagetable ≠ 0 := by rwa [Ne, ← settled'.unused]
    calc userByte k''.mach.mem (k'.proc c).pagetable va
        = userByte k'.mach.mem (k'.proc c).pagetable va := unchanged c table
      _ = userByte k'.mach.mem (k'.proc p).pagetable va := twins c unused used va
      _ = userByte k''.mach.mem (k'.proc p).pagetable va := (unchanged p some).symm

theorem syscall_spec (memory : Memory cfg own k) (settled : Settled own k)
    (runs : (k.proc p).state = .runnable) (call : Call) :
    wp (syscall cfg p call) (Expected cfg) (fun _ k' =>
      Outcome cfg own k p k' ∧ (call = .fork → Twins k k' p)) k := by
  have table : (k.proc p).pagetable ≠ 0 := by
    rw [Ne, ← settled.unused, runs]
    simp
  have quiet : ∀ {k'}, Quiet cfg own k p k' → Outcome cfg own k p k' :=
    fun quiet => quiet.outcome settled table
  cases call with
  | fork =>
    apply wp_seq (kfork_spec memory settled table)
    rintro _ k' ⟨outcome, twins⟩
    exact ⟨outcome, fun _ => twins⟩
  | exit status =>
    apply wp_seq (kexit_spec memory settled table status)
    exact fun _ k' outcome => ⟨outcome, nofun⟩
  | wait addr =>
    apply wp_post (kwait_spec memory settled runs addr)
    exact fun _ k' outcome => ⟨outcome, nofun⟩
  | sbrk n =>
    apply wp_seq (sysSbrk_spec memory settled table n)
    exact fun _ k' outcome => ⟨outcome, nofun⟩
  | exec path argv =>
    apply wp_seq (sysExec_spec memory settled table path argv)
    intro r k' executed
    refine ⟨?_, nofun⟩
    rcases executed with ⟨_, same⟩ | ⟨_, outcome⟩
    · exact same.outcome memory settled table
    · exact outcome
  | «open» path omode =>
    apply wp_seq ((sysOpen_quietly table path omode).safe k memory.quiet)
    exact fun _ k' still => ⟨quiet still, nofun⟩
  | close fd =>
    apply wp_seq ((sysClose_quietly fd).safe k memory.quiet)
    exact fun _ k' still => ⟨quiet still, nofun⟩
  | dup fd =>
    apply wp_seq ((sysDup_quietly fd).safe k memory.quiet)
    exact fun _ k' still => ⟨quiet still, nofun⟩
  | read fd addr n input =>
    apply wp_seq ((sysRead_quietly table fd addr n input).safe k memory.quiet)
    exact fun _ k' still => ⟨quiet still, nofun⟩
  | fstat fd addr =>
    apply wp_seq ((sysFstat_quietly table fd addr).safe k memory.quiet)
    exact fun _ k' still => ⟨quiet still, nofun⟩
  | kill pid =>
    apply wp_seq ((kkill_quietly pid).safe k memory.quiet)
    exact fun _ k' still => ⟨quiet still, nofun⟩
  | store va byte =>
    unfold syscall
    rw [wp_bind, wp_getProc]
    apply wp_seq (memory.quiet.mach table)
    exact fun _ k' still => ⟨quiet still, nofun⟩

theorem perform_spec (sound : Sound cfg k) (e : Event) :
    wp (perform cfg e) (Expected cfg) (fun _ k' =>
      Sound cfg k' ∧ Isolated k k' e.proc ∧ (e.call = .fork → Twins k k' e.proc)) k := by
  obtain ⟨own, memory, settled⟩ := sound
  unfold perform
  simp only [wp_bind, wp_getProc, wp_ite, wp_pure, wp_modify]
  constructor
  · rintro ⟨runs, _⟩
    have memory1 := memory.setFail e.fail
    have settled1 : Settled own { k with mach := { k.mach with fail := e.fail } } :=
      ⟨settled.unused, settled.frame, settled.inside, settled.arguments⟩
    apply wp_post (syscall_spec memory1 settled1 runs e.call)
    rintro r k1 ⟨outcome, twins⟩
    cases r with
    | none =>
      obtain ⟨own', memory', settled', _⟩ := id outcome
      exact ⟨⟨own', memory', settled'⟩, outcome.isolated memory1 settled1, twins⟩
    | some r =>
      rw [wp_bind, wp_getProc]
      apply wp_post (outcome.setA0 _)
      rintro _ k2 ⟨outcome, kept⟩
      obtain ⟨own', memory', settled', _⟩ := id outcome
      exact ⟨⟨own', memory', settled'⟩, outcome.isolated memory1 settled1, fun fork => kept (twins fork)⟩
  · intro _
    exact ⟨⟨own, memory, settled⟩, Isolated.refl k e.proc, fun _ c unused used => absurd unused used⟩

end Step

section Start
variable (cfg : Config)

def setup : KM Unit := do
  onMach (freerange cfg)
  let (kernelPagetable, kstacks) ← onMach (kvmmake cfg)
  let desc ← onMach ring
  let avail ← onMach ring
  let used ← onMach ring
  modify fun k => { k with kernelPagetable, kstacks, rings := [desc, avail, used] }

theorem main_eq : main cfg = (do
    setup cfg
    userinit cfg
    forkret cfg) := by
  unfold main setup
  simp only [bind_assoc]

end Start

section Boot
variable {cfg : Config} {own : Nat → Label} {k : State}

theorem Kept.memory {s : Mach} {r : Nat} {kstacks rings : List Nat} (kept : Kept cfg own s r kstacks rings)
    (mach : k.mach = s) (table : k.kernelPagetable = r) (lists : k.kstacks = kstacks ∧ k.rings = rings)
    (none : ∀ p, (k.proc p).pagetable = 0 ∧ (k.proc p).trapframe = 0 ∧ (k.proc p).sz = 0 ∧
      (k.proc p).state = .unused) : Memory cfg own k ∧ Settled own k := by
  subst mach table
  obtain ⟨rfl, rfl⟩ := lists
  obtain ⟨S, tree⟩ := kept.tree
  have label := (tree.labels 2 0 _).mpr tree.root
  have page := kept.heap.page k.kernelPagetable (by simp [label])
  constructor
  · refine ⟨kept.heap, kept.pool, fun p => ?_, fun p _ => (none p).2.2.1, fun p some => ?_,
      fun p q some => ?_, fun p x => ?_, fun x r root => ?_, kept.tree, fun x v same => ?_, fun p => ?_,
      kept.kstack, kept.ring⟩
    · rw [(none p).2.2.1]
      exact Nat.zero_le _
    · exact absurd (none p).1 some
    · exact absurd (none p).1 some
    · rw [(none p).2.1]
      rcases kept.others x with ⟨l, n, own⟩ | ⟨n, own⟩ | ⟨n, own⟩ | own | own <;> simp [own, eq_comm]
    · rcases kept.others x with ⟨l, n, own⟩ | ⟨n, own⟩ | ⟨n, own⟩ | own | own
      · rw [own] at root
        exact .inl (Option.some.inj root).symm
      all_goals simp [own, Label.root] at root
    · rcases kept.others x with ⟨l, n, own⟩ | ⟨n, own⟩ | ⟨n, own⟩ | own | own <;> simp [own] at same
    · rw [(none p).1]
      exact page.pos.symm
  · refine ⟨fun p => ?_, fun p => ?_, fun p _ => (none p).2.2.2, fun x same => ?_⟩
    · simp [none p]
    · simp [none p]
    · rcases kept.others x with ⟨l, n, own⟩ | ⟨n, own⟩ | ⟨n, own⟩ | own | own <;> simp [own] at same

theorem setup_spec (mem : Mem) (fail : List Bool) :
    wp (setup cfg) (fun _ => True) (fun _ k => (∃ own, Memory cfg own k ∧ Settled own k) ∧
      ∀ p, (k.proc p).state = .unused) (blank mem fail) := by
  have empty : Heap (IsPage cfg) (fun _ => .outside) (blank mem fail).mach :=
    ⟨⟨[], rfl, List.nodup_nil, by simp⟩, by simp, fun _ => IsPage.phys⟩
  unfold setup
  simp only [wp_bind, wp_onMach, wp_modify]
  apply wp_mono (freeAll_boot empty (fun x => pool_page) pool_nodup fun _ _ => rfl) _
    fun _ _ => trivial
  intro _ s1 heap1
  apply wp_post (kvmmake_kept heap1)
  rintro ⟨r, kstacks⟩ s2 ⟨own2, kept⟩
  apply wp_post (ring_kept kept)
  rintro desc s3 ⟨own3, kept⟩
  apply wp_post (ring_kept kept)
  rintro avail s4 ⟨own4, kept⟩
  apply wp_post (ring_kept kept)
  rintro used s5 ⟨own5, kept⟩
  exact ⟨⟨own5, kept.memory rfl rfl ⟨rfl, rfl⟩ fun p => ⟨rfl, rfl, rfl, rfl⟩⟩, fun p => rfl⟩

theorem userinit_spec (memory : Memory cfg own k) (settled : Settled own k)
    (none : ∀ p, (k.proc p).state = .unused) :
    wp (userinit cfg) (Expected cfg) (fun _ k' => ∃ own', Memory cfg own' k' ∧ Settled own' k' ∧
      (k'.proc initproc).pagetable ≠ 0) k := by
  unfold userinit
  apply wp_seq (wp_never (allocproc_spec memory settled) fun _ _ h => h)
  intro result k1 allocated
  cases result with
  | none => exact fun panic => panic.elim
  | some p =>
    obtain ⟨inside, unused, first, mach, nextpid, pid, tf, r, own1, shape, some, frame, memory1,
      within1⟩ := allocated
    obtain rfl : p = initproc := by
      by_contra other
      exact first initproc (Nat.pos_of_ne_zero other) (none initproc)
    rw [wp_bind]
    apply wp_fs (namei_fails _ _)
    intro cwd tables
    rw [wp_setProc]
    subst shape
    simp only [update_self, update_idem]
    refine ⟨own1, ?_, ?_, ?_⟩
    · apply memory1.same
      refine ⟨rfl, fun q => ?_, rfl, rfl, rfl⟩
      by_cases here : q = initproc
      · subst here
        simp only [update_self]
        exact ⟨rfl, rfl, rfl⟩
      · simp only [update_of_ne here]
        exact ⟨rfl, rfl, rfl⟩
    · apply settled.update (p := initproc)
      · intro q other
        simp only [update_of_ne other]
        exact ⟨trivial, rfl, rfl, rfl⟩
      · simp [some]
      · simp [some, frame]
      · exact .inr inside
      · exact Within.arguments within1
    · simpa using some

theorem forkret_spec (memory : Memory cfg own k) (settled : Settled own k)
    (runs : (k.proc initproc).pagetable ≠ 0) :
    wp (forkret cfg) (Expected cfg) (fun _ k' => Sound cfg k') k := by
  have frame : (k.proc initproc).trapframe ≠ 0 := by rwa [Ne, ← settled.frame]
  unfold forkret
  rw [wp_bind]
  apply wp_fs fsinit_fails
  intro _ tables
  have memory1 : Memory cfg own { k with tables } :=
    memory.same ⟨rfl, fun _ => ⟨rfl, rfl, rfl⟩, rfl, rfl, rfl⟩
  have settled1 : Settled own { k with tables } :=
    ⟨settled.unused, settled.frame, settled.inside, settled.arguments⟩
  apply wp_seq (kexec_spec memory1 runs frame)
  intro r k2 executed
  obtain ⟨own2, memory2, settled2, some, _⟩ := executed.outcome memory1 settled1 runs
  rw [wp_bind, wp_getProc, wp_bind]
  apply wp_post (memory2.setA0 settled2 some _)
  rintro _ k3 ⟨memory3, settled3, _⟩
  simp only [wp_ite, wp_throw, wp_pure]
  exact ⟨fun _ panic => panic.elim, fun _ => ⟨own2, memory3, settled3⟩⟩

theorem main_spec (mem : Mem) (fail : List Bool) :
    wp (main cfg) (fun e => Expected cfg e ∨ (setup cfg).run (blank mem fail) = .error e)
      (fun _ k' => Sound cfg k') (blank mem fail) := by
  rw [main_eq]
  apply wp_seq (wp_mono (wp_error (setup_spec mem fail)) (fun _ _ h => h) fun e failed => .inr failed.2)
  rintro _ k1 ⟨⟨own1, memory1, settled1⟩, unused⟩
  apply wp_mono _ (fun _ _ h => h) fun e expected => .inl expected
  apply wp_seq (userinit_spec memory1 settled1 unused)
  rintro _ k2 ⟨own2, memory2, settled2, runs⟩
  exact forkret_spec memory2 settled2 runs

end Boot

section Run
variable (cfg : Config)

def Ends (P : State → Prop) (E : Panic → Prop) : Except Panic State → Prop
  | .ok k => P k
  | .error e => E e

/-- The panics that a run can end with once main has set up the kernel's own memory. -/
def Stops (mem : Mem) (fail : List Bool) (e : Panic) : Prop :=
  Expected cfg e ∨ (setup cfg).run (blank mem fail) = .error e

variable {cfg} {P P' : State → Prop} {E : Panic → Prop} {k : State}

theorem ends_of_wp {x : KM Unit} (spec : wp x E (fun _ k' => P k') k) :
    Ends P E ((x.run k).map Prod.snd) := by
  unfold wp at spec
  cases result : x.run k with
  | error e | ok pair =>
    rw [result] at spec
    exact spec

theorem Ends.imp (ends : Ends P E r)
    (post : ∀ k, P k → P' k) (failure : ∀ e, E e → E' e) : Ends P' E' r := by
  cases r with
  | error e => exact failure e ends
  | ok k => exact post k ends

theorem Ends.and (first : Ends P E r)
    (second : Ends P' E' r) : Ends (fun k => P k ∧ P' k) (fun e => E e ∧ E' e) r := by
  cases r with
  | error e => exact ⟨first, second⟩
  | ok k => exact ⟨first, second⟩

theorem Ends.step (ends : Ends P E r) {e : Event}
    (next : ∀ k, P k → wp (perform cfg e) E (fun _ k' => P' k') k) : Ends P' E (step cfg r e) := by
  cases r with
  | error e => exact ends
  | ok k => exact ends_of_wp (next k ends)

theorem run_sound (mem : Mem) (fail : List Bool) (events : List Event) :
    Ends (Sound cfg) (Stops cfg mem fail) (run cfg mem fail events) := by
  apply Machine.run_invariant (P := Ends (Sound cfg) (Stops cfg mem fail))
  · intro r e ends
    apply ends.step
    intro k sound
    exact wp_mono (perform_spec sound e) (fun _ _ post => post.1) fun _ expected => .inl expected
  · exact ends_of_wp (main_spec mem fail)

end Run
end Xv6Lab.Kernel
