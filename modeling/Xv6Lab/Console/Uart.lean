import Mathlib.Tactic
import Xv6Lab.Lib.Machine

/-!
The transmit side of uart.c, before a panic. The sections of tx_lock are atomic steps;
uartputc_sync takes no lock, and others move between its last look at LSR and its write to
THR. The FIFO drops a byte when it is full, and raises an interrupt when it has become empty.
-/

namespace Xv6Lab.Uart
open Function (update)

def NCPU : Nat := 8
def FIFO_SIZE : Nat := 16

/-- rest i is what uartwrite of process i has still to write; with asleep i it sleeps on
tx_chan. polled has the arguments of uartputc_sync on harts that are behind the loop on
LSR, and handlers counts the harts in uartintr behind the read of ISR. wire has what was
sent. log (what was written to THR, and by whose uartwrite) and asked are history. -/
structure World where
  txBusy : Bool
  fifo : List UInt8
  irq : Bool
  wire : List UInt8
  rest : Nat → List UInt8
  asleep : Nat → Bool
  polled : List UInt8
  handlers : Nat
  log : List (Option Nat × UInt8)
  asked : Nat → List UInt8

def init : World := ⟨false, [], false, [], fun _ => [], fun _ => false, [], 0, [], fun _ => []⟩

/-- WriteReg(THR, c) -/
def World.thr (w : World) (who : Option Nat) (c : UInt8) : World :=
  { w with
    fifo := if w.fifo.length < FIFO_SIZE then w.fifo ++ [c] else w.fifo
    irq := false
    log := w.log ++ [(who, c)] }

/-- From acquire, or from the return of sleep, to the next sleep or to release. -/
def uartwrite (i : Nat) (w : World) : World :=
  match w.rest i with
  | [] => w
  | c :: rest =>
    if w.txBusy then { w with asleep := update w.asleep i true }
    else
      -- tx_busy is set, so that a further byte has to wait
      { w.thr (some i) c with
        txBusy := true
        rest := update w.rest i rest
        asleep := update w.asleep i !rest.isEmpty }

/-- The section of uartintr, with wakeup(&tx_chan). -/
def uartintr (w : World) : World :=
  if w.fifo = [] then { w with txBusy := false, asleep := fun _ => false } else w

inductive Event
  | call (i : Nat) (buf : List UInt8)
  | write (i : Nat)
  | kkill (i : Nat)
  | poll (c : UInt8)  -- uartputc_sync finds LSR_TX_IDLE set
  | put (k : Nat)     -- and writes to THR
  | interrupt         -- uartintr, up to the read of ISR
  | handle
  | send              -- the device

def step (w : World) : Event → World
  | .call i buf =>
    if w.rest i ≠ [] then w
    else { w with rest := update w.rest i buf, asked := update w.asked i (w.asked i ++ buf) }
  | .write i => if w.asleep i then w else uartwrite i w
  | .kkill i => { w with asleep := update w.asleep i false }
  | .poll c =>
    -- with interrupts off, a hart is in one call at most
    if w.fifo = [] ∧ w.polled.length < NCPU then { w with polled := c :: w.polled } else w
  | .put k =>
    match w.polled[k]? with
    | some c => { w.thr none c with polled := w.polled.eraseIdx k }
    | none => w
  | .interrupt => { w with irq := false, handlers := w.handlers + 1 }
  | .handle => if w.handlers = 0 then w else uartintr { w with handlers := w.handlers - 1 }
  | .send =>
    match w.fifo with
    | [] => w
    | c :: rest => { w with fifo := rest, wire := w.wire ++ [c], irq := w.irq || rest.isEmpty }

def written (i : Nat) (log : List (Option Nat × UInt8)) : List UInt8 :=
  (log.filter fun entry => entry.1 = some i).map Prod.snd

structure Inv (w : World) : Prop where
  order : w.wire ++ w.fifo = w.log.map Prod.snd
  mine : ∀ i, written i w.log ++ w.rest i = w.asked i
  harts : w.polled.length ≤ NCPU
  room : w.fifo.length + w.polled.length ≤ NCPU + w.txBusy.toNat
  sleeps : ∀ i, w.asleep i = true → w.txBusy = true
  due : w.txBusy = true → w.fifo ≠ [] ∨ w.irq = true ∨ 0 < w.handlers

variable {w : World}

@[simp, grind =] theorem written_append (i : Nat) (log : List (Option Nat × UInt8)) (who : Option Nat)
    (c : UInt8) : written i (log ++ [(who, c)]) = written i log ++ if who = some i then [c] else [] := by
  by_cases mine : who = some i <;> simp [written, mine]

/-- The FIFO has room for a byte of every hart and one of uartwrite. -/
theorem Inv.thr (inv : Inv w) (who : Option Nat) (c : UInt8) :
    w.thr who c = { w with fifo := w.fifo ++ [c], irq := false, log := w.log ++ [(who, c)] } := by
  have room := inv.room
  have one := w.txBusy.toNat_le
  have spare : w.fifo.length < FIFO_SIZE := by
    simp only [NCPU, FIFO_SIZE] at room ⊢
    omega
  rw [World.thr, if_pos spare]

theorem Inv.uartwrite (inv : Inv w) (i : Nat) : Inv (uartwrite i w) := by
  unfold Uart.uartwrite
  cases here : w.rest i with
  | nil => exact inv
  | cons c rest =>
    dsimp only
    rw [inv.thr]
    obtain ⟨order, mine, harts, room, sleeps, due⟩ := inv
    split_ifs with busy
    · exact ⟨order, mine, harts, room, fun _ _ => busy, due⟩
    · refine ⟨?_, ?_, harts, ?_, fun _ _ => rfl, by simp⟩ <;> grind

theorem Inv.put (inv : Inv w) {k : Nat} {c : UInt8} (polled : w.polled[k]? = some c) :
    Inv { w.thr none c with polled := w.polled.eraseIdx k } := by
  have less := List.length_eraseIdx_add_one (List.getElem?_eq_some_iff.mp polled).1
  rw [inv.thr]
  obtain ⟨order, mine, harts, room, sleeps, due⟩ := inv
  refine ⟨?_, ?_, ?_, ?_, sleeps, by simp⟩ <;> grind

theorem Inv.step (inv : Inv w) (e : Event) : Inv (step w e) := by
  obtain ⟨order, mine, harts, room, sleeps, due⟩ := id inv
  cases e <;> simp only [Uart.step, uartintr]
  case call i buf =>
    split_ifs with idle
    · exact inv
    · refine ⟨order, fun j => ?_, harts, room, sleeps, due⟩
      have before := mine j
      by_cases same : j = i
      · rw [same, not_not.mp idle, List.append_nil] at before
        simp [same, ← before]
      · simpa [same] using before
  case write i =>
    split_ifs
    · exact inv
    · exact inv.uartwrite i
  case kkill i =>
    refine ⟨order, mine, harts, room, fun j asleep => sleeps j ?_, due⟩
    by_cases same : j = i <;> simp_all
  case poll c =>
    split_ifs with idle
    · have empty : w.fifo.length = 0 := by rw [idle.1, List.length_nil]
      refine ⟨order, mine, ?_, ?_, sleeps, due⟩ <;> dsimp only <;> rw [List.length_cons] <;> omega
    · exact inv
  case put k =>
    split
    · exact inv.put ‹_›
    · exact inv
  case interrupt => exact ⟨order, mine, harts, room, sleeps, fun _ => .inr (.inr (Nat.succ_pos _))⟩
  case handle =>
    split_ifs with none empty
    · exact inv
    · exact ⟨order, mine, harts, by simpa [empty] using harts, by simp, by simp⟩
    · exact ⟨order, mine, harts, room, sleeps, fun _ => .inl empty⟩
  case send =>
    cases full : w.fifo with
    | nil => exact inv
    | cons c rest =>
      rw [full, List.length_cons] at room
      refine ⟨by simpa [full] using order, mine, harts, by dsimp only; omega, sleeps, fun _ => ?_⟩
      cases rest <;> simp

/-- No byte that is written to THR is lost, although uartputc_sync heeds neither tx_lock
nor tx_busy. What uartwrite is given goes out once and in order. Who sleeps on tx_chan
waits for bytes that are being sent, or for an interrupt that is raised or being handled. -/
theorem transmits_all (events : List Event) :
    let w := Machine.run step init events
    w.wire ++ w.fifo = w.log.map Prod.snd ∧ w.fifo.length ≤ NCPU + 1 ∧
      (∀ i, written i w.log ++ w.rest i = w.asked i) ∧
      ∀ i, w.asleep i = true →
        w.txBusy = true ∧ (w.fifo ≠ [] ∨ w.irq = true ∨ 0 < w.handlers) := by
  intro w
  have start : Inv init := by constructor <;> simp [init, written]
  have inv : Inv w := Machine.run_invariant step (P := Inv) (fun _ e inv => inv.step e) start events
  have room := inv.room
  have one := w.txBusy.toNat_le
  refine ⟨inv.order, by omega, inv.mine, fun i asleep => ?_⟩
  have busy := inv.sleeps i asleep
  exact ⟨busy, inv.due busy⟩

end Xv6Lab.Uart
