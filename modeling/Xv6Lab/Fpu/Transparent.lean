import Xv6Lab.Fpu.Model

/-!
Lazy switching is transparent: it refines a machine on which every process has
floating-point registers of its own.
-/

namespace Xv6Lab.Fpu
open Function (update update_eq_self update_eq_self_iff update_of_ne update_self)
open World (setProc setHart)

def ownThread (hart : Hart) (p : Process) (own : FpuState) : Event → FpuState
  | .instr _ inst =>
    if p.place = .user ∧ hart.fs ≠ .off then (inst.run.map (· own)).getD own else own
  | _ => own

/-- A process starts with zero, kfork copies, and a floating-point instruction changes
the registers of the process that executes it. -/
def ownStep (w : World) (own : Nat → FpuState) (e : Event) : Nat → FpuState :=
  match e with
  | .instr h _ =>
    match (w.hart h).proc with
    | none => own
    | some i => update own i (ownThread (w.hart h) (w.proc i) (own i) e)
  | .fork h np =>
    match w.forks h np with
    | none => own
    | some i => update own np (own i)
  | .reap i => if (w.proc i).state = .zombie then update own i .zero else own
  | _ => own

/-- The registers of a process after fpu_handle_trap has run while a hart has newer ones. -/
def reloaded (p : Process) (word : Option (BitVec 32)) (own : FpuState) : FpuState :=
  if userFpuInstruction word ∧ p.fpuActive = true then p.fpu else own

def viewThread (hart : Hart) (p : Process) (own : FpuState) (e : Event) : FpuState :=
  match e, p.place with
  | .handle _, .illegal word => reloaded p word own
  | e, _ => ownThread hart p own e

/-- The registers that each process has, with those that fpu_handle_trap overwrites. -/
def viewStep (w : World) (own : Nat → FpuState) (e : Event) : Nat → FpuState :=
  match e with
  | .handle h =>
    match (w.hart h).proc with
    | none => own
    | some i => update own i (viewThread (w.hart h) (w.proc i) (own i) e)
  | e => ownStep w own e

def bothStep (s : World × (Nat → FpuState)) (e : Event) : World × (Nat → FpuState) :=
  (step s.1 e, ownStep s.1 s.2 e)

structure Kept (p : Process) (own : FpuState) : Prop where
  fresh : p.fpuUsed = false → own = .zero ∧ p.fpuActive = false
  saved : p.fpuUsed = true → p.fpuActive = false → p.fpu = own

structure OnHart (hart : Hart) (p : Process) (own : FpuState) : Prop extends Kept p own where
  running : p.state = .running
  loaded : p.fpuActive = true → hart.regs = own
  user : p.place = .user → (hart.fs ≠ .off ↔ p.fpuActive = true)

structure Away (p : Process) (own : FpuState) : Prop extends Kept p own where
  out : p.state ≠ .running
  idle : p.fpuActive = false
  kernel : p.place.inKernel = true

structure Inv (w : World) (own : Nat → FpuState) : Prop where
  on : ∀ h i, (w.hart h).proc = some i → OnHart (w.hart h) (w.proc i) (own i)
  away : ∀ i, (∀ h, (w.hart h).proc ≠ some i) → Away (w.proc i) (own i)
  apart : ∀ h h' i, (w.hart h).proc = some i → (w.hart h').proc = some i → h = h'

theorem inv_init (regs : Nat → FpuState) (fs : Nat → Fs) : Inv (init regs fs) fun _ => .zero where
  on h i on := nomatch on
  away i _ := by
    by_cases first : i = Proc.initproc
    · rw [first]
      simp only [init, update_self]
      exact ⟨⟨fun _ => ⟨rfl, rfl⟩, fun _ _ => rfl⟩, by simp, rfl, rfl⟩
    · simp only [init, update_of_ne first]
      exact ⟨⟨fun _ => ⟨rfl, rfl⟩, fun _ _ => rfl⟩, by simp, rfl, rfl⟩
  apart h h' i on := nomatch on

section Frame
variable {w : World} {own : Nat → FpuState} {h i : Nat} {hart : Hart} {p : Process} {v : FpuState}

section
variable (inv : Inv w own)
include inv

theorem Inv.act (on : (w.hart h).proc = some i) (stays : hart.proc = some i)
    (good : OnHart hart p v) : Inv ((w.setHart h hart).setProc i p) (update own i v) := by
  have proc : ∀ h', (update w.hart h hart h').proc = (w.hart h').proc := by
    intro h'
    by_cases here : h' = h
    · rw [here, update_self, stays, on]
    · rw [update_of_ne here]
  constructor
  · intro h' k there
    have before : (w.hart h').proc = some k := (proc h').symm.trans there
    by_cases here : h' = h
    · have same : k = i := by
        rw [here, on] at before
        exact (Option.some.inj before).symm
      simpa [setHart, setProc, here, same] using good
    · have other : k ≠ i := by
        intro same
        exact here (inv.apart h' h i (same ▸ before) on)
      simpa [setHart, setProc, here, other] using inv.on h' k before
  · intro k nowhere
    have before : ∀ h', (w.hart h').proc ≠ some k := fun h' there =>
      nowhere h' ((proc h').trans there)
    have other : k ≠ i := by
      intro same
      exact before h (same ▸ on)
    simpa [setHart, setProc, other] using inv.away k before
  · intro h' h'' k there there'
    exact inv.apart h' h'' k ((proc h').symm.trans there) ((proc h'').symm.trans there')

theorem Inv.change (nowhere : ∀ h, (w.hart h).proc ≠ some i) (good : Away p v) :
    Inv (w.setProc i p) (update own i v) := by
  constructor
  · intro h k there
    have other : k ≠ i := by
      intro same
      exact nowhere h (same ▸ there)
    simpa [setProc, other] using inv.on h k there
  · intro k away
    by_cases same : k = i
    · simpa [setProc, same] using good
    · simpa [setProc, same] using inv.away k away
  · exact inv.apart

theorem Inv.enter (idle : (w.hart h).proc = none)
    (nowhere : ∀ h, (w.hart h).proc ≠ some i) (now : hart.proc = some i)
    (good : OnHart hart p (own i)) : Inv ((w.setHart h hart).setProc i p) own := by
  have proc : ∀ h' k, (update w.hart h hart h').proc = some k →
      (h' = h ∧ k = i) ∨ (h' ≠ h ∧ k ≠ i ∧ (w.hart h').proc = some k) := by
    intro h' k there
    by_cases here : h' = h
    · rw [here, update_self, now] at there
      exact .inl ⟨here, (Option.some.inj there).symm⟩
    · rw [update_of_ne here] at there
      exact .inr ⟨here, fun same => nowhere h' (same ▸ there), there⟩
  constructor
  · intro h' k there
    rcases proc h' k there with ⟨here, same⟩ | ⟨here, other, before⟩
    · simpa [setHart, setProc, here, same] using good
    · simpa [setHart, setProc, here, other] using inv.on h' k before
  · intro k away
    have other : k ≠ i := by
      intro same
      exact away h (by simp [setHart, setProc, now, same])
    have before : ∀ h', (w.hart h').proc ≠ some k := by
      intro h' there
      have here : h' ≠ h := by
        intro same
        rw [same, idle] at there
        cases there
      exact away h' (by simpa [setHart, setProc, here] using there)
    simpa [setHart, setProc, other] using inv.away k before
  · intro h' h'' k there there'
    rcases proc h' k there with ⟨here, same⟩ | ⟨here, other, before⟩
    · rcases proc h'' k there' with ⟨here', -⟩ | ⟨-, other', -⟩
      · rw [here, here']
      · exact absurd same other'
    · rcases proc h'' k there' with ⟨-, same'⟩ | ⟨-, -, before'⟩
      · exact absurd same' other
      · exact inv.apart h' h'' k before before'

theorem Inv.leave (on : (w.hart h).proc = some i) (gone : hart.proc = none)
    (good : Away p (own i)) : Inv ((w.setHart h hart).setProc i p) own := by
  have proc : ∀ h' k, (update w.hart h hart h').proc = some k →
      h' ≠ h ∧ k ≠ i ∧ (w.hart h').proc = some k := by
    intro h' k there
    have here : h' ≠ h := by
      intro same
      rw [same, update_self, gone] at there
      cases there
    rw [update_of_ne here] at there
    exact ⟨here, fun same => here (inv.apart h' h i (same ▸ there) on), there⟩
  constructor
  · intro h' k there
    obtain ⟨here, other, before⟩ := proc h' k there
    simpa [setHart, setProc, here, other] using inv.on h' k before
  · intro k away
    by_cases same : k = i
    · simpa [setHart, setProc, same] using good
    · have before : ∀ h', (w.hart h').proc ≠ some k := by
        intro h' there
        have here : h' ≠ h := by
          intro home
          rw [home, on] at there
          exact same (Option.some.inj there).symm
        exact away h' (by simpa [setHart, setProc, here] using there)
      simpa [setHart, setProc, same] using inv.away k before
  · intro h' h'' k there there'
    exact inv.apart h' h'' k (proc h' k there).2.2 (proc h'' k there').2.2

theorem Inv.nowhere (out : (w.proc i).state ≠ .running) (h : Nat) :
    (w.hart h).proc ≠ some i := fun on => out (inv.on h i on).running

end
end Frame

section Thread
variable {hart : Hart} {p : Process} {own : FpuState}

theorem OnHart.save (good : OnHart hart p own) :
    Kept (fpuSaveProc hart p).2 own ∧ (fpuSaveProc hart p).2.fpuActive = false := by
  unfold fpuSaveProc
  dsimp only
  split_ifs with active
  · have used : p.fpuUsed ≠ false := fun unused => by simp [(good.fresh unused).2] at active
    exact ⟨⟨fun unused => absurd unused used, fun _ _ => good.loaded active⟩, rfl⟩
  · exact ⟨good.toKept, by simpa using active⟩

theorem OnHart.load (good : OnHart hart p own) (idle : p.fpuActive = false) :
    (firstUse p).fpu = own ∧ (firstUse p).fpuUsed = true := by
  unfold firstUse
  split_ifs with used
  · exact ⟨good.saved used idle, used⟩
  · exact ⟨(good.fresh (by simpa using used)).1.symm, rfl⟩

theorem firstUse_place (p : Process) (place : Place) :
    firstUse { p with place } = { firstUse p with place } := by
  unfold firstUse
  dsimp only
  split_ifs <;> rfl

theorem firstUse_state (p : Process) : (firstUse p).state = p.state := by
  unfold firstUse
  split_ifs <;> rfl

section
variable (good : OnHart hart p own)
include good

theorem OnHart.used (active : p.fpuActive = true) : p.fpuUsed = true := by
  by_contra unused
  have idle := (good.fresh (by simpa using unused)).2
  exact absurd (idle.symm.trans active) (by decide)

theorem OnHart.reload {word : Option (BitVec 32)} (known : userFpuInstruction word = true) :
    (firstUse p).fpu = reloaded p word own ∧ (firstUse p).fpuUsed = true := by
  cases active : p.fpuActive with
  | false =>
    have same : reloaded p word own = own := if_neg (by simp [active])
    rw [same]
    exact good.load active
  | true =>
    have used := good.used active
    have first : firstUse p = p := if_pos used
    have stale : reloaded p word own = p.fpu := if_pos ⟨known, active⟩
    rw [first, stale]
    exact ⟨rfl, used⟩

theorem OnHart.handle (word : Option (BitVec 32)) :
    OnHart (handle hart p word).1 (handle hart p word).2 (reloaded p word own) := by
  unfold Fpu.handle fpuHandleTrap
  split_ifs with known
  · obtain ⟨loads, used⟩ := good.reload known
    exact
      { fresh := fun unused => by simp [used] at unused
        saved := fun _ inactive => nomatch inactive
        running := (firstUse_state p).trans good.running
        loaded := fun _ => loads
        user := fun user => nomatch user }
  · have same : reloaded p word own = own := if_neg (by simp [known])
    rw [same]
    exact { good with user := fun user => nomatch user }

theorem OnHart.execute (here : p.place = .user) (inst : Inst) :
    OnHart (execute hart p inst).1 (execute hart p inst).2
      (if hart.fs ≠ .off then (inst.run.map (· own)).getD own else own) := by
  have traps : OnHart hart { p with place := .illegal inst.word } own :=
    { good with user := fun user => nomatch user }
  unfold Fpu.execute
  cases found : inst.run with
  | none =>
    rw [Option.map_none, Option.getD_none, ite_self]
    exact traps
  | some run =>
    dsimp only
    rw [Option.map_some, Option.getD_some]
    by_cases off : hart.fs = .off
    · rw [if_pos off, if_neg (not_not.mpr off)]
      exact traps
    · have active := (good.user here).mp off
      rw [if_neg off, if_pos off]
      exact
        { fresh := fun unused => nomatch active.symm.trans (good.fresh unused).2
          saved := fun _ inactive => nomatch active.symm.trans inactive
          running := good.running
          loaded := fun _ => congrArg run (good.loaded active)
          user := fun _ => by simp [active] }

theorem OnHart.threadStep (e : Event) :
    OnHart (threadStep hart p e).1 (threadStep hart p e).2 (viewThread hart p own e) := by
  have moves : ∀ place, place.inKernel = true → OnHart hart { p with place } own :=
    fun place kernel =>
      { good with
        user := fun here => by
          have here : place = .user := here
          simp [here, Place.inKernel] at kernel }
  cases e with
  | instr h inst =>
    simp only [Fpu.threadStep, viewThread, ownThread]
    by_cases user : p.place = .user
    · simpa [user] using good.execute user inst
    · simpa [user] using good
  | handle h =>
    cases here : p.place with
    | illegal word => simpa [Fpu.threadStep, viewThread, here] using good.handle word
    | user | kernel | kerneltrap fs | killed =>
      simpa [Fpu.threadStep, viewThread, ownThread, here] using good
  | trap h =>
    simp only [Fpu.threadStep, viewThread, ownThread]
    split_ifs
    · exact moves .kernel rfl
    · exact good
  | ret h =>
    simp only [Fpu.threadStep, viewThread, ownThread]
    split_ifs with kernel
    · -- FS is computed from fpu_active, whatever kerneltrap has left in it
      exact
        { good with
          user := fun _ => by cases active : p.fpuActive <;> simp [prepareReturn, active] }
    · exact good
  | interrupt h =>
    simp only [Fpu.threadStep, viewThread, ownThread]
    split_ifs
    · exact moves (.kerneltrap hart.fs) rfl
    · exact good
  | kret h =>
    simp only [Fpu.threadStep, viewThread, ownThread]
    split
    · exact { good with user := fun user => nomatch user }
    all_goals exact good
  | _ => exact good

end

theorem threadStep_proc (hart : Hart) (p : Process) (e : Event) :
    (threadStep hart p e).1.proc = hart.proc := by
  cases e with
  | instr h inst =>
    simp only [threadStep]
    split_ifs
    · unfold execute
      split
      · split_ifs <;> rfl
      · rfl
    · rfl
  | handle h =>
    simp only [threadStep]
    split
    · unfold handle
      split_ifs <;> rfl
    all_goals rfl
  | ret h =>
    simp only [threadStep]
    split_ifs <;> rfl
  | kret h =>
    simp only [threadStep]
    split <;> rfl
  | _ => rfl

end Thread

section Step
variable {w : World} {own : Nat → FpuState}

section
variable (inv : Inv w own)
include inv

theorem Inv.thread {h : Nat} {e : Event} (other : ∀ i, (w.hart h).proc = some i →
      viewStep w own e = update own i (viewThread (w.hart h) (w.proc i) (own i) e))
    (none : (w.hart h).proc = none → viewStep w own e = own) :
    Inv (w.act h e) (viewStep w own e) := by
  unfold World.act
  cases on : (w.hart h).proc with
  | none =>
    rw [none on]
    exact inv
  | some i =>
    rw [other i on]
    exact inv.act on ((threadStep_proc ..).trans on) ((inv.on h i on).threadStep e)

theorem Inv.setState {i : Nat} {state : Proc.ProcState} (out : (w.proc i).state ≠ .running)
    (next : state ≠ .running) : Inv (w.setState i state) own := by
  have away := inv.away i (inv.nowhere out)
  have changed := inv.change (v := own i) (inv.nowhere out)
    (p := { w.proc i with state }) { away with out := next }
  rwa [update_eq_self] at changed

theorem Inv.fork {h np i : Nat} (forks : w.forks h np = some i) :
    Inv (((w.setHart h (fpuSaveProc (w.hart h) (w.proc i)).1).setProc i
        (fpuSaveProc (w.hart h) (w.proc i)).2).setProc np
        (forkChild (fpuSaveProc (w.hart h) (w.proc i)).2 (w.proc np))) (update own np (own i)) := by
  obtain ⟨on, kernel, unused⟩ : (w.hart h).proc = some i ∧ (w.proc i).place = .kernel ∧
      (w.proc np).state = .unused := by
    simpa [World.forks, Option.filter_eq_some_iff] using forks
  have good := inv.on h i on
  obtain ⟨kept, idle⟩ := good.save
  have place : (fpuSaveProc (w.hart h) (w.proc i)).2.place = .kernel := by
    unfold fpuSaveProc
    dsimp only
    split_ifs <;> exact kernel
  have state : (fpuSaveProc (w.hart h) (w.proc i)).2.state = .running := by
    unfold fpuSaveProc
    dsimp only
    split_ifs <;> exact good.running
  have onHart : OnHart (fpuSaveProc (w.hart h) (w.proc i)).1 (fpuSaveProc (w.hart h) (w.proc i)).2
      (own i) :=
    { kept with
      running := state
      loaded := fun active => nomatch idle.symm.trans active
      user := fun user => nomatch place.symm.trans user }
  have stays : (fpuSaveProc (w.hart h) (w.proc i)).1.proc = some i := on
  have parent := inv.act on stays onHart
  rw [update_eq_self] at parent
  have nowhere : ∀ h', (((w.setHart h (fpuSaveProc (w.hart h) (w.proc i)).1).setProc i
      (fpuSaveProc (w.hart h) (w.proc i)).2).hart h').proc ≠ some np := by
    intro h' there
    have before : (w.hart h').proc = some np := by
      by_cases here : h' = h
      · rw [here] at there ⊢
        simpa [setHart, setProc, fpuSaveProc] using there
      · simpa [setHart, setProc, here] using there
    exact inv.nowhere (by simp [unused]) h' before
  exact parent.change nowhere
    { fresh := fun unused => ⟨(kept.fresh unused).1, rfl⟩
      saved := fun used _ => kept.saved used idle
      out := by simp [forkChild]
      idle := rfl
      kernel := rfl }

theorem Inv.step (e : Event) : Inv (step w e) (viewStep w own e) := by
  cases e with
  | instr h inst =>
    exact inv.thread (fun i on => by simp [viewStep, viewThread, ownStep, on])
      (fun on => by simp [viewStep, ownStep, on])
  | handle h =>
    exact inv.thread (fun i on => by simp [viewStep, on]) (fun on => by simp [viewStep, on])
  | trap h | ret h | interrupt h | kret h =>
    exact inv.thread (fun i _ => by simp [viewStep, viewThread, ownStep, ownThread]) (fun _ => rfl)
  | dispatch h i =>
    simp only [Fpu.step, viewStep, ownStep]
    split_ifs with ready
    · obtain ⟨idle, runnable⟩ := ready
      have out : (w.proc i).state ≠ .running := by simp [runnable]
      have away := inv.away i (inv.nowhere out)
      refine inv.enter idle (inv.nowhere out) rfl
        { fresh := away.fresh
          saved := away.saved
          running := rfl
          loaded := fun active => absurd (away.idle.symm.trans active) (by decide)
          user := fun user => ?_ }
      have user : (w.proc i).place = .user := user
      have kernel := away.kernel
      simp [user, Place.inKernel] at kernel
    · exact inv
  | sched h state =>
    simp only [Fpu.step, viewStep, ownStep]
    split
    · exact inv
    · next i on =>
        split_ifs with gives
        · obtain ⟨kernel, state⟩ := gives
          obtain ⟨kept, idle⟩ := (inv.on h i on).save
          refine inv.leave on rfl
            { fresh := kept.fresh
              saved := kept.saved
              out := ?_
              idle := idle
              kernel := ?_ }
          · intro running
            simp only at running
            simp [running] at state
          · unfold fpuSaveProc
            dsimp only
            split_ifs <;> exact kernel
        · exact inv
  | wakeup i =>
    simp only [Fpu.step, viewStep, ownStep]
    split_ifs with sleeping
    · exact inv.setState (by simp [sleeping]) (by simp)
    · exact inv
  | fork h np =>
    simp only [Fpu.step, viewStep, ownStep]
    split
    · next none => simpa [none] using inv
    · next i forks => simpa [forks] using inv.fork forks
  | start np =>
    simp only [Fpu.step, viewStep, ownStep]
    split_ifs with used
    · exact inv.setState (by simp [used]) (by simp)
    · exact inv
  | reap i =>
    simp only [Fpu.step, viewStep, ownStep]
    split_ifs with zombie
    · have out : (w.proc i).state ≠ .running := by simp [zombie]
      exact inv.change (inv.nowhere out)
        { fresh := fun _ => ⟨rfl, rfl⟩
          saved := fun used => by cases used
          out := by simp [freeproc]
          idle := rfl
          kernel := (inv.away i (inv.nowhere out)).kernel }
    · exact inv

end
end Step

def World.runsUser (w : World) (h i : Nat) : Prop :=
  (w.hart h).proc = some i ∧ (w.proc i).place = .user

/-- No illegal instruction that looks like a first use has trapped while a hart has the
registers. -/
def Process.Calm (p : Process) : Prop :=
  ∀ word, p.place = .illegal word → p.fpuActive = true → userFpuInstruction word = false

def Calm (w : World) : Prop := ∀ i, (w.proc i).Calm

/-- An instruction that is illegal although FS is on does not look like a first use. -/
def Harmless (w : World) : Event → Prop
  | .instr h inst => inst.run = none → ∀ i, w.runsUser h i → (w.proc i).fpuActive = true →
      userFpuInstruction inst.word = false
  | _ => True

section Calm
variable {w : World} {own : Nat → FpuState} {e : Event}

theorem calm_init (regs : Nat → FpuState) (fs : Nat → Fs) : Calm (init regs fs) := by
  intro i word here
  by_cases first : i = Proc.initproc
  · simp [init, first] at here
  · simp [init, first] at here

theorem calm_kernel {p : Process} (kernel : p.place.inKernel = true) : p.Calm := by
  intro word here
  rw [here] at kernel
  cases kernel

theorem calm_setProc {i k : Nat} {p : Process} (calm : (w.proc i).Calm) (good : k = i → p.Calm) :
    ((w.setProc k p).proc i).Calm := by
  by_cases same : i = k
  · simpa [setProc, same] using good same.symm
  · simpa [setProc, same] using calm

theorem calm_threadStep {hart : Hart} {p : Process} (calm : p.Calm)
    (user : p.place = .user → (hart.fs ≠ .off ↔ p.fpuActive = true))
    (harmless : ∀ h inst, e = .instr h inst → inst.run = none → p.place = .user →
      p.fpuActive = true → userFpuInstruction inst.word = false) : (threadStep hart p e).2.Calm := by
  cases e with
  | instr h inst =>
    simp only [threadStep]
    split_ifs with here
    · unfold execute
      cases found : inst.run with
      | none =>
        rintro word ⟨⟩ active
        exact harmless h inst rfl found here active
      | some run =>
        dsimp only
        split_ifs with off
        · -- FS is off, so that no hart has the registers
          rintro word ⟨⟩ active
          exact absurd off ((user here).mpr active)
        · exact calm
    · exact calm
  | handle h =>
    simp only [threadStep]
    split
    · unfold handle
      split_ifs
      · exact calm_kernel rfl
      · exact calm_kernel rfl
    all_goals exact calm
  | trap h | interrupt h =>
    simp only [threadStep]
    split_ifs
    · exact calm_kernel rfl
    · exact calm
  | ret h =>
    simp only [threadStep]
    split_ifs
    · intro word here
      cases here
    · exact calm
  | kret h =>
    simp only [threadStep]
    split
    · exact calm_kernel rfl
    all_goals exact calm
  | _ => exact calm

section One
variable {i : Nat} (calm : (w.proc i).Calm) (inv : Inv w own)
  (harmless : ∀ h inst, e = .instr h inst → inst.run = none → w.runsUser h i →
    (w.proc i).fpuActive = true → userFpuInstruction inst.word = false)
include calm inv harmless

theorem calm_act {h : Nat} (here : ∀ h' inst, e = .instr h' inst → h' = h) : ((w.act h e).proc i).Calm := by
  unfold World.act
  cases on : (w.hart h).proc with
  | none => exact calm
  | some k =>
    refine calm_setProc (w := w.setHart h _) calm fun same => ?_
    subst same
    refine calm_threadStep calm (inv.on h k on).user fun h' inst same illegal user active => ?_
    obtain rfl := here h' inst same
    exact harmless h' inst same illegal ⟨on, user⟩ active

theorem calm_step : ((step w e).proc i).Calm := by
  have quiet : ∀ {h : Nat}, (∀ h' inst, e ≠ .instr h' inst) → ((w.act h e).proc i).Calm := fun other =>
    calm_act calm inv harmless fun h' inst same => absurd same (other h' inst)
  have kept : ∀ {w' : World} {k : Nat} {p : Process}, w'.proc = w.proc → (k = i → p.Calm) →
      ((w'.setProc k p).proc i).Calm := fun same good => calm_setProc (by rwa [same]) good
  cases e with
  | instr h inst =>
    refine calm_act calm inv harmless fun h' inst' same => ?_
    cases same
    rfl
  | handle h | trap h | ret h | interrupt h | kret h => exact quiet fun _ _ same => by cases same
  | dispatch h k | wakeup k | start k =>
    simp only [Fpu.step]
    split_ifs
    · refine kept rfl ?_
      rintro rfl
      exact calm
    · exact calm
  | sched h state =>
    simp only [Fpu.step]
    split
    · exact calm
    · next k on =>
        split_ifs with gives
        · refine kept rfl fun _ => calm_kernel ?_
          unfold fpuSaveProc
          dsimp only
          split_ifs <;> exact gives.1
        · exact calm
  | fork h np =>
    simp only [Fpu.step]
    split
    · exact calm
    · next k forks =>
        have kernel : (w.proc k).place = .kernel := by
          simp only [World.forks, Option.filter_eq_some_iff, decide_eq_true_eq] at forks
          exact forks.2.1
        refine calm_setProc (kept rfl fun _ => calm_kernel ?_) fun _ => calm_kernel rfl
        unfold fpuSaveProc
        dsimp only
        split_ifs <;> simp [kernel, Place.inKernel]
  | reap k =>
    simp only [Fpu.step]
    split_ifs
    · exact kept rfl fun _ word _ active => by cases active
    · exact calm

end One

theorem Calm.step (calm : Calm w) (inv : Inv w own) (harmless : Harmless w e) : Calm (step w e) := by
  refine fun i => calm_step (calm i) inv fun h inst same illegal => ?_
  rw [same] at harmless
  exact harmless illegal i

theorem Calm.viewStep (calm : Calm w) (e : Event) : viewStep w own e = ownStep w own e := by
  cases e with
  | handle h =>
    simp only [Fpu.viewStep, ownStep]
    split
    · rfl
    · next i on =>
        rw [update_eq_self_iff]
        cases here : (w.proc i).place with
        | illegal word =>
          have same : reloaded (w.proc i) word (own i) = own i :=
            if_neg fun stale => by simp [calm i word here stale.2] at stale
          simpa [viewThread, here] using same
        | user | kernel | kerneltrap fs | killed => simp [viewThread, ownThread, here]
  | _ => rfl

theorem Inv.both {s : World × (Nat → FpuState)} (inv : Inv s.1 s.2 ∧ Calm s.1)
    (harmless : Harmless s.1 e) : Inv (bothStep s e).1 (bothStep s e).2 ∧ Calm (bothStep s e).1 := by
  refine ⟨?_, inv.2.step inv.1 harmless⟩
  have next := inv.1.step e
  rw [inv.2.viewStep] at next
  exact next

theorem harmless_of_legal (legal : e.legal = true) : Harmless w e := by
  cases e with
  | instr h inst =>
    intro illegal
    simp [Event.legal, illegal] at legal
  | _ => trivial

end Calm

theorem run_first_use {w : World} {h i : Nat} (here : w.runsUser h i) (off : (w.hart h).fs = .off)
    {inst : Inst} (legal : inst.run.isSome) (known : userFpuInstruction inst.word = true) :
    Machine.run step w [.instr h inst, .handle h, .ret h] =
      (w.setHart h { w.hart h with fs := .dirty, regs := (firstUse (w.proc i)).fpu }).setProc i
        { firstUse (w.proc i) with fpuActive := true, place := .user } := by
  obtain ⟨on, user⟩ := here
  obtain ⟨run, found⟩ := Option.isSome_iff_exists.mp legal
  have first : step w (.instr h inst) =
      w.setProc i { w.proc i with place := .illegal inst.word } := by
    simp [step, World.act, on, threadStep, user, execute, found, off, setHart]
  have used := firstUse_place (w.proc i) (.illegal inst.word)
  have second : step (w.setProc i { w.proc i with place := .illegal inst.word }) (.handle h) =
      (w.setHart h { w.hart h with fs := .dirty, regs := (firstUse (w.proc i)).fpu }).setProc i
        { firstUse (w.proc i) with fpuActive := true, place := .kernel } := by
    simp [step, World.act, setProc, setHart, on, threadStep, handle, known,
      fpuHandleTrap, used]
  rw [Machine.run_cons, first, Machine.run_cons, second, Machine.run_cons, Machine.run_nil]
  simp [step, World.act, setProc, setHart, on, threadStep, prepareReturn]

/-- What user code sees, for the registers that each process would have for itself. -/
structure Transparent (w : World) (own : Nat → FpuState) : Prop where
  /-- An instruction that does not trap sees the registers of its process. -/
  executes : ∀ h i, w.runsUser h i → (w.hart h).fs ≠ .off → (w.hart h).regs = own i
  /-- FS is on in user mode exactly if the registers are loaded. -/
  fs : ∀ h i, w.runsUser h i → ((w.hart h).fs ≠ .off ↔ (w.proc i).fpuActive = true)
  loaded : ∀ h i, (w.hart h).proc = some i → (w.proc i).fpuActive = true →
    (w.hart h).regs = own i
  /-- An instruction that traps sees them after the trap. -/
  traps : ∀ h i inst, w.runsUser h i → (w.hart h).fs = .off → inst.run.isSome →
    userFpuInstruction inst.word = true →
    let w' := Machine.run step w [.instr h inst, .handle h, .ret h]
    w'.runsUser h i ∧ (w'.hart h).fs ≠ .off ∧ (w'.hart h).regs = own i

theorem Inv.transparent {w : World} {own : Nat → FpuState} (inv : Inv w own) :
    Transparent w own where
  executes h i here on := (inv.on h i here.1).loaded (((inv.on h i here.1).user here.2).mp on)
  fs h i here := (inv.on h i here.1).user here.2
  loaded h i on := (inv.on h i on).loaded
  traps h i inst here off legal known := by
    have good := inv.on h i here.1
    have idle : (w.proc i).fpuActive = false := by
      by_contra active
      exact (good.user here.2).mpr (by simpa using active) off
    rw [run_first_use here off legal known]
    simp [World.runsUser, setHart, setProc, here.1, (good.load idle).1]

/-- Lazy switching is transparent in every run of legal instructions, whatever the harts
have in their registers and in FS at boot. -/
theorem fpu_transparent (regs : Nat → FpuState) (fs : Nat → Fs) (events : List Event)
    (legal : ∀ e ∈ events, e.legal = true) :
    Transparent (Machine.run bothStep (init regs fs, fun _ => .zero) events).1
      (Machine.run bothStep (init regs fs, fun _ => .zero) events).2 := by
  have inv := Machine.along_invariant bothStep (P := fun s => Inv s.1 s.2 ∧ Calm s.1)
    (fun _ _ ok inv => Inv.both inv (harmless_of_legal ok)) (s := (init regs fs, fun _ => .zero))
    ⟨inv_init regs fs, calm_init regs fs⟩ (Machine.along_of_forall bothStep legal)
  exact inv.1.transparent

def setF0 (n : BitVec 64) : Inst :=
  ⟨some 0x02007053, some fun s => { s with f := update s.f 0 n }⟩

def compute : List Event :=
  [.dispatch 0 0, .ret 0, .instr 0 (setF0 5), .handle 0, .ret 0, .instr 0 (setF0 5), .trap 0]

theorem fpu_transparent_fork :
    let events := compute ++ [.fork 0 1, .start 1, .interrupt 0, .sched 0 .runnable,
      .dispatch 0 1, .ret 0, .instr 0 (setF0 7), .handle 0, .ret 0, .instr 0 (setF0 7),
      .dispatch 1 0, .kret 1, .ret 1, .instr 1 (setF0 5), .handle 1, .ret 1]
    let s := Machine.run bothStep (init (fun _ => ⟨fun _ => 1, 0⟩) fun _ => .dirty,
      fun _ => .zero) events
    Transparent s.1 s.2 ∧ (s.1.hart 0).regs.f 0 = 7 ∧ (s.1.hart 1).regs.f 0 = 5 := by
  refine ⟨fpu_transparent _ _ _ (by decide +kernel), by decide +kernel, by decide +kernel⟩

/-- A timer interrupt in the system call moves the process to hart 1, where kerneltrap
turns FS on again although the registers are not loaded. -/
theorem kerneltrap_restores_fs :
    let s := Machine.run bothStep (init (fun _ => ⟨fun _ => 1, 0⟩) fun _ => .off, fun _ => .zero)
      (compute ++ [.interrupt 0, .sched 0 .runnable, .dispatch 1 0, .kret 1])
    (s.1.hart 1).proc = some 0 ∧ (s.1.hart 1).fs ≠ .off ∧ (s.1.proc 0).fpuActive = false ∧
      (s.1.hart 1).regs ≠ s.2 0 := by
  decide +kernel

end Xv6Lab.Fpu
