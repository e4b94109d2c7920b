import Xv6Lab.Fpu.Transparent

/-!
Illegal instructions of a process whose registers a hart has.
-/

namespace Xv6Lab.Fpu

/-- What usertrap does to a process that has met an illegal instruction. -/
structure IllegalKills (w : World) (own : Nat → FpuState) : Prop where
  /-- With FS on the instruction is illegal for good, and the process is killed. -/
  killed : ∀ h i word, (w.hart h).proc = some i → (w.proc i).place = .illegal word →
    (w.proc i).fpuActive = true → ((step w (.handle h)).proc i).place = .killed
  /-- fpu_handle_trap leaves the newest registers of the process on the hart. -/
  newest : ∀ h i word, (w.hart h).proc = some i → (w.proc i).place = .illegal word →
    userFpuInstruction word = true → ((step w (.handle h)).hart h).regs = own i

section Step
variable {w : World} {own : Nat → FpuState} {h i : Nat} {word : Option (BitVec 32)}

theorem step_handle (on : (w.hart h).proc = some i) (here : (w.proc i).place = .illegal word) :
    step w (.handle h) = (w.setHart h (handle (w.hart h) (w.proc i) word).1).setProc i
      (handle (w.hart h) (w.proc i) word).2 := by
  simp [step, World.act, on, threadStep, here]

theorem handle_killed_iff (on : (w.hart h).proc = some i) (here : (w.proc i).place = .illegal word) :
    ((step w (.handle h)).proc i).place = .killed ↔ userFpuInstruction word = false := by
  rw [step_handle on here]
  cases known : userFpuInstruction word with
  | false | true => simp [World.setProc, handle, known]

theorem Inv.illegalKills (inv : Inv w own) (calm : Calm w) : IllegalKills w own where
  killed h i word on here active := (handle_killed_iff on here).mpr (calm i word here active)
  newest h i word on here known := by
    have idle : (w.proc i).fpuActive = false := by
      by_contra active
      have other := calm i word here (by simpa using active)
      exact absurd (other.symm.trans known) (by decide)
    have loads := ((inv.on h i on).load idle).1
    rw [step_handle on here]
    simpa [World.setProc, World.setHart, handle, known, fpuHandleTrap] using loads

theorem not_illegalKills {e : Event} (harmful : ¬Harmless w e) :
    ¬IllegalKills (step w e) (ownStep w own e) := by
  cases e with
  | instr h inst =>
    simp only [Harmless, not_forall] at harmful
    obtain ⟨illegal, i, ⟨on, user⟩, active, known⟩ := harmful
    have next : step w (.instr h inst) = w.setProc i { w.proc i with place := .illegal inst.word } := by
      simp [step, World.act, on, threadStep, user, execute, illegal, World.setHart]
    obtain ⟨w', there⟩ : ∃ w', w' = step w (.instr h inst) := ⟨_, rfl⟩
    have on' : (w'.hart h).proc = some i := by
      rw [there, next]
      exact on
    have here : (w'.proc i).place = .illegal inst.word := by
      rw [there, next]
      simp [World.setProc]
    have loaded : (w'.proc i).fpuActive = true := by
      rw [there, next]
      simpa [World.setProc] using active
    rw [← there]
    intro kills
    exact known ((handle_killed_iff on' here).mp (kills.killed h i inst.word on' here loaded))
  | _ => exact absurd trivial harmful

end Step

/-- Illegal instructions kill exactly if no process whose registers a hart has meets one with an
opcode of user_fpu_instruction. -/
theorem illegal_kills_iff (regs : Nat → FpuState) (fs : Nat → Fs) (events : List Event) :
    (∀ n, IllegalKills (Machine.run bothStep (init regs fs, fun _ => .zero) (events.take n)).1
      (Machine.run bothStep (init regs fs, fun _ => .zero) (events.take n)).2) ↔
      Machine.Along bothStep (fun s e => Harmless s.1 e) (init regs fs, fun _ => .zero) events :=
  Machine.always_iff_along bothStep (P := fun s => IllegalKills s.1 s.2)
    (fun s (inv : Inv s.1 s.2 ∧ Calm s.1) => inv.1.illegalKills inv.2)
    (fun _ _ inv harmless => Inv.both inv harmless) (fun _ _ _ harmful => not_illegalKills harmful)
    ⟨inv_init regs fs, calm_init regs fs⟩ events

def badOp : Inst := ⟨some 0xffffffd3, none⟩

/-- The first process computes 5: each time usertrap loads the zeros of p->fpu over it, and goes
on at the same instruction. -/
theorem illegal_loops :
    let s := Machine.run bothStep (init (fun _ => .zero) fun _ => .off, fun _ => .zero)
      (compute.take 6 ++ [.instr 0 badOp])
    let s1 := Machine.run bothStep s [.handle 0]
    let s2 := Machine.run bothStep s1 [.ret 0, .instr 0 badOp, .handle 0]
    (s.1.proc 0).place = .illegal badOp.word ∧ (s.1.proc 0).fpuActive = true ∧
      (s.1.hart 0).regs.f 0 = 5 ∧
      (s1.1.proc 0).place = .kernel ∧ (s1.1.hart 0).regs.f 0 = 0 ∧ s1.2 0 ≠ (s1.1.hart 0).regs ∧
      (s2.1.proc 0).place = .kernel ∧ (s2.1.hart 0).regs = (s1.1.hart 0).regs := by
  decide +kernel

end Xv6Lab.Fpu
