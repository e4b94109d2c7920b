import Xv6Lab.Lib.Machine
import Mathlib.Data.Fintype.Card

/-!
push_off and pop_off (spinlock.c) under acquire, release, sleep, yield and the
scheduler (proc.c). A kernel thread, or the scheduler of a CPU, is a context with the
instructions it still has to execute. lk->locked and lk->cpu are one field: the CPU
that holds the lock.
-/

namespace Xv6Lab.PushOff
open Function (update update_of_ne update_self)

inductive ProcState where
  | runnable
  | running
  | sleeping
deriving DecidableEq, Repr

inductive Ctx where
  | thread (t : Nat)
  | sched (c : Nat)
deriving DecidableEq, Repr

inductive Panic where
  | acquire
  | release
  | popOffInterruptible
  | popOff
  | schedLock
  | schedLocks
  | schedRunning
  | schedInterruptible
deriving DecidableEq, Repr

/-- check and take are acquire after its push_off, unlock is release up to its pop_off.
sched st sets p->state, which p->lock guards, and is sched() up to swtch; restore is the
rest of it. -/
inductive Instr (Lock : Type) where
  | pushOff
  | check (lk : Lock)
  | take (lk : Lock)
  | unlock (lk : Lock)
  | popOff
  | sched (st : ProcState)
  | restore
  | dispatch (t : Nat)
deriving DecidableEq, Repr

/-- struct cpu and the interrupt bit of sstatus. pushes counts the push_offs that no
pop_off has matched and that are not those of a lock held. -/
structure Hart where
  noff : Nat
  intena : Bool
  intr : Bool
  current : Ctx
  pushes : Nat

/-- saved is the local intena of sched(); outer is intr_get() at the outermost push_off. -/
structure Context (Lock : Type) where
  script : List (Instr Lock)
  saved : Bool
  outer : Option Bool

structure State (Lock : Type) where
  hart : Nat → Hart
  ctx : Ctx → Context Lock
  lock : Lock → Option Nat
  proc : Nat → ProcState
  panic : Option Panic

inductive Op (Lock : Type) where
  | acquire (lk : Lock)
  | release (lk : Lock)
  | sleep (lk : Lock)
  | yield
  | pushOff
  | popOff
deriving DecidableEq, Repr

/-- intr is intr_on and intr_off outside of push_off, among them the entry of a trap and
the return from it. -/
inductive Event (Lock : Type) where
  | call (c : Nat) (op : Op Lock)
  | visit (c t : Nat)
  | intr (c : Nat) (on : Bool)
  | wake (t : Nat)
  | run (c : Nat)
deriving DecidableEq, Repr

section Model
variable {Lock : Type} [DecidableEq Lock] (plock : Nat → Lock)

def acquire (lk : Lock) : List (Instr Lock) := [.pushOff, .check lk, .take lk]

def release (lk : Lock) : List (Instr Lock) := [.unlock lk, .popOff]

/-- What the context executes. The scheduler has no process that could sleep or yield. -/
def Op.script : Ctx → Op Lock → List (Instr Lock)
  | _, acquire lk => PushOff.acquire lk
  | _, release lk => PushOff.release lk
  | .thread t, sleep lk =>
    PushOff.acquire (plock t) ++ (PushOff.release lk ++ ([.sched .sleeping, .restore] ++
      (PushOff.release (plock t) ++ PushOff.acquire lk)))
  | .thread t, yield =>
    PushOff.acquire (plock t) ++ ([.sched .runnable, .restore] ++ PushOff.release (plock t))
  | .sched _, sleep _ => []
  | .sched _, yield => []
  | _, pushOff => [.pushOff]
  | _, popOff => [.popOff]

/-- The body of the loop of scheduler() for one process. -/
def visitScript (t : Nat) : List (Instr Lock) :=
  acquire (plock t) ++ (.dispatch t :: release (plock t))

variable (s : State Lock)

def State.put (c : Nat) (h : Hart) (k : Context Lock) : State Lock :=
  { s with hart := update s.hart c h, ctx := update s.ctx (s.hart c).current k }

def State.stop (p : Panic) : State Lock := { s with panic := some p }

/-- The next instruction of the context on c, of which k is left. -/
def exec (c : Nat) (h : Hart) (k : Context Lock) : Instr Lock → State Lock
  | .pushOff =>
    s.put c { h with intr := false, noff := h.noff + 1, pushes := h.pushes + 1,
                     intena := if h.noff = 0 then h.intr else h.intena }
      { k with outer := if h.noff = 0 then some h.intr else k.outer }
  | .check lk => if s.lock lk = some c then s.stop .acquire else s.put c h k
  | .take lk =>
    -- the spin: a lock that is taken leaves the instruction where it is
    if s.lock lk = none then
      { s.put c { h with pushes := h.pushes - 1 } k with lock := update s.lock lk (some c) }
    else s
  | .unlock lk =>
    if s.lock lk ≠ some c then s.stop .release
    else { s.put c { h with pushes := h.pushes + 1 } k with lock := update s.lock lk none }
  | .popOff =>
    if h.intr then s.stop .popOffInterruptible
    else if h.noff < 1 then s.stop .popOff
    else s.put c { h with noff := h.noff - 1, pushes := h.pushes - 1,
                          intr := h.noff - 1 = 0 && h.intena } k
  | .sched st =>
    match h.current with
    | .sched _ => s
    | .thread t =>
      if s.lock (plock t) ≠ some c then s.stop .schedLock
      else if h.noff ≠ 1 then s.stop .schedLocks
      else if st = .running then s.stop .schedRunning
      else if h.intr then s.stop .schedInterruptible
      else { s.put c { h with current := .sched c } { k with saved := h.intena } with
             proc := update s.proc t st }
  | .restore => s.put c { h with intena := k.saved } k
  | .dispatch t =>
    match h.current with
    | .thread _ => s
    | .sched _ =>
      if s.proc t = .runnable then
        { s.put c { h with current := .thread t } k with proc := update s.proc t .running }
      else s.put c h k

/-- A call is made by the context that runs on the CPU when it has nothing left to do, or
by the handler of an interrupt, which comes only with noff 0. -/
def step (e : Event Lock) : State Lock :=
  if s.panic ≠ none then s
  else
    match e with
    | .call c op =>
      let k := s.ctx (s.hart c).current
      if (k.script = [] ∨ (s.hart c).noff = 0) ∧ (op = .popOff → 0 < (s.hart c).pushes) then
        s.put c (s.hart c) { k with script := op.script plock (s.hart c).current ++ k.script }
      else s
    | .visit c t =>
      let k := s.ctx (s.hart c).current
      if k.script = [] ∧ (s.hart c).current = .sched c then
        s.put c (s.hart c) { k with script := visitScript plock t }
      else s
    | .intr c on =>
      if (s.hart c).noff = 0 then s.put c { s.hart c with intr := on } (s.ctx (s.hart c).current) else s
    | .wake t => if s.proc t = .sleeping then { s with proc := update s.proc t .runnable } else s
    | .run c =>
      let k := s.ctx (s.hart c).current
      match k.script with
      | [] => s
      | i :: rest => exec plock s c (s.hart c) { k with script := rest } i

/-- Every CPU in its scheduler, every thread before the release of forkret. -/
def init (intr intena : Nat → Bool) (proc : Nat → ProcState) : State Lock where
  hart c := ⟨0, intena c, intr c, .sched c, 0⟩
  ctx
    | .thread t => ⟨release (plock t), false, none⟩
    | .sched _ => ⟨[], false, none⟩
  lock _ := none
  proc := proc
  panic := none

end Model

section Scripts
variable {Lock : Type} {i : Instr Lock} {a b : List (Instr Lock)}

/-- The instructions that come with a push_off of their own outstanding. -/
def Instr.owing : Instr Lock → Bool
  | check _ | take _ | popOff => true
  | _ => false

def Instr.leaves : Instr Lock → Bool
  | pushOff | check _ | unlock _ => true
  | _ => false

def Instr.busy : Instr Lock → Bool
  | dispatch _ | restore => true
  | i => i.owing

def Instr.holds : Instr Lock → Bool
  | take _ | sched _ => true
  | i => i.leaves

def Instr.isSched : Instr Lock → Bool
  | sched _ => true
  | _ => false

def Instr.isRestore : Instr Lock → Bool
  | restore => true
  | _ => false

def next (p : Instr Lock → Bool) (a : List (Instr Lock)) : Bool := a.head?.any p

def Shaped : List (Instr Lock) → Prop
  | [] => True
  | i :: rest =>
    (next Instr.owing rest = true → i.leaves = true) ∧ (next Instr.busy rest = true → i.holds = true) ∧
      next Instr.isRestore rest = i.isSched ∧ i ≠ .sched .running ∧ Shaped rest

@[simp] theorem next_nil (p : Instr Lock → Bool) : next p [] = false := rfl

@[simp] theorem next_cons (p : Instr Lock → Bool) : next p (i :: a) = p i := by simp [next]

theorem Instr.busy_of_owing (owing : i.owing = true) : i.busy = true := by
  cases i <;> first | rfl | cases owing

theorem Instr.busy_of_isRestore (restore : i.isRestore = true) : i.busy = true := by
  cases i <;> first | rfl | cases restore

theorem next_mono {p q : Instr Lock → Bool} (implies : ∀ i, p i = true → q i = true)
    (idle : next q a = false) : next p a = false := by
  cases a with
  | nil => rfl
  | cons i a =>
    rw [next_cons] at idle ⊢
    by_contra holds
    rw [implies i (by simpa using holds)] at idle
    cases idle

theorem next_append {p : Instr Lock → Bool} (rest : next p b = false) : next p (a ++ b) = next p a := by
  cases a with
  | nil => exact rest
  | cons i a => rw [List.cons_append, next_cons, next_cons]

theorem Shaped.append (first : Shaped a) (second : Shaped b) (idle : next Instr.busy b = false) :
    Shaped (a ++ b) := by
  have owing : next Instr.owing b = false := next_mono (fun _ => Instr.busy_of_owing) idle
  have restore : next Instr.isRestore b = false := next_mono (fun _ => Instr.busy_of_isRestore) idle
  induction a with
  | nil => exact second
  | cons i a ih =>
    obtain ⟨owed, held, paired, fine, rest⟩ := first
    simp only [List.cons_append, Shaped, next_append owing, next_append idle, next_append restore]
    exact ⟨owed, held, paired, fine, ih rest⟩

theorem script_shaped (plock : Nat → Lock) (x : Ctx) (op : Op Lock) : Shaped (op.script plock x) ∧
    next Instr.isRestore (op.script plock x) = false ∧
    (next Instr.busy (op.script plock x) = true → op = .popOff) := by
  cases op <;> cases x <;>
    simp [Op.script, acquire, release, Shaped, Instr.owing, Instr.leaves, Instr.busy, Instr.holds,
      Instr.isSched, Instr.isRestore]

theorem visit_shaped (plock : Nat → Lock) (t : Nat) :
    Shaped (visitScript plock t) ∧
    next Instr.isRestore (visitScript plock t) = false ∧ next Instr.busy (visitScript plock t) = false := by
  simp [visitScript, acquire, release, Shaped, Instr.owing, Instr.leaves, Instr.busy, Instr.holds,
    Instr.isSched, Instr.isRestore]

theorem release_shaped (lk : Lock) : Shaped (release lk) ∧ next Instr.owing (release lk) = false := by
  simp [release, Shaped, Instr.owing, Instr.leaves, Instr.busy, Instr.holds, Instr.isSched,
    Instr.isRestore]

end Scripts

section Noff
variable {Lock : Type} [DecidableEq Lock] {plock : Nat → Lock} {s : State Lock} {c : Nat}
  {k : Context Lock} {i : Instr Lock}

theorem exec_noff (d : Nat) (less : ((exec plock s c (s.hart c) k i).hart d).noff < (s.hart d).noff) :
    d = c ∧ i = .popOff := by
  by_contra other
  have same : (s.hart d).noff ≤ ((exec plock s c (s.hart c) k i).hart d).noff := by
    by_cases mine : d = c
    · subst mine
      cases i with
      | popOff => exact absurd ⟨rfl, rfl⟩ other
      | _ => simp only [exec, State.put, State.stop]; (repeat' split) <;> simp
    · cases i <;> simp only [exec, State.put, State.stop] <;> (repeat' split) <;>
        simp [update_of_ne mine]
  omega

theorem step_noff {e : Event Lock} (d : Nat) (less : ((step plock s e).hart d).noff < (s.hart d).noff) :
    s.panic = none ∧ e = .run d ∧ ∃ rest, (s.ctx (s.hart d).current).script = .popOff :: rest := by
  have same {f : Nat → Hart} {c : Nat} {h : Hart} (kept : h.noff = (f c).noff) :
      (update f c h d).noff = (f d).noff := by
    by_cases mine : d = c
    · rw [mine, update_self, kept]
    · rw [update_of_ne mine]
  unfold step at less
  split at less
  · exact absurd less (Nat.lt_irrefl _)
  · rename_i calm
    refine ⟨not_not.mp calm, ?_⟩
    cases e with
    | run c =>
      dsimp only at less
      split at less
      · exact absurd less (Nat.lt_irrefl _)
      · rename_i i rest left
        obtain ⟨rfl, rfl⟩ := exec_noff d less
        exact ⟨rfl, rest, left⟩
    | _ =>
      dsimp only at less
      split at less
      · simp [State.put, same] at less
      · exact absurd less (Nat.lt_irrefl _)

end Noff

section Invariant
variable {Lock : Type} [Fintype Lock]

/-- The locks for which holding() is true on c. -/
def heldBy (lock : Lock → Option Nat) (c : Nat) : Finset Lock := {lk | lock lk = some c}

structure Fits (lock : Lock → Option Nat) (c : Nat) (h : Hart) (k : Context Lock) : Prop where
  off : 0 < h.noff → h.intr = false
  count : h.noff = (heldBy lock c).card + h.pushes
  shaped : Shaped k.script
  owing : next Instr.owing k.script = true → 0 < h.pushes
  busy : next Instr.busy k.script = true → 0 < h.noff
  kept : ∀ t b, h.current = .thread t → 0 < h.noff → k.outer = some b →
    if next Instr.isRestore k.script then k.saved = b else h.intena = b

/-- A context that does not run. A thread is before its first push_off, or inside sched. -/
structure Waits (x : Ctx) (k : Context Lock) : Prop where
  shaped : Shaped k.script
  quiet : next Instr.owing k.script = false
  kept : ∀ t b, x = .thread t → k.outer = some b → next Instr.isRestore k.script = true ∧ k.saved = b

structure Inv (s : State Lock) : Prop where
  fits : ∀ c, Fits s.lock c (s.hart c) (s.ctx (s.hart c).current)
  waits : ∀ x, (∀ c, (s.hart c).current ≠ x) → Waits x (s.ctx x)
  own : ∀ c d, (s.hart c).current = (s.hart d).current → c = d
  home : ∀ c d, (s.hart c).current = .sched d → c = d
  runs : ∀ c t, (s.hart c).current = .thread t → s.proc t = .running
  calm : s.panic ≠ some .popOffInterruptible ∧ s.panic ≠ some .popOff

variable {s : State Lock} {lock lock' : Lock → Option Nat} {c : Nat} {h : Hart} {k : Context Lock}
  {i : Instr Lock} {rest : List (Instr Lock)}

theorem Fits.of_held (fits : Fits lock c h k) (same : heldBy lock' c = heldBy lock c) :
    Fits lock' c h k :=
  { fits with count := by rw [same]; exact fits.count }

theorem Inv.local (inv : Inv s) (same : h.current = (s.hart c).current)
    (others : ∀ d ≠ c, heldBy lock d = heldBy s.lock d) (fits : Fits lock c h k) :
    Inv { s.put c h k with lock := lock } := by
  have current (d : Nat) : (update s.hart c h d).current = (s.hart d).current := by
    by_cases mine : d = c
    · rw [mine, update_self, same]
    · rw [update_of_ne mine]
  refine ⟨?_, ?_, ?_, ?_, ?_, inv.calm⟩
  · intro d
    simp only [State.put]
    by_cases mine : d = c
    · subst mine
      rw [update_self, same, update_self]
      exact fits
    · rw [update_of_ne mine, update_of_ne fun same => mine (inv.own d c same)]
      exact (inv.fits d).of_held (others d mine)
  · intro x absent
    simp only [State.put, current] at absent ⊢
    rw [update_of_ne (absent c).symm]
    exact inv.waits x absent
  · simpa only [State.put, current] using inv.own
  · simpa only [State.put, current] using inv.home
  · simpa only [State.put, current] using inv.runs

theorem Inv.switch (inv : Inv s) {y : Ctx} {proc : Nat → ProcState}
    (positive : 0 < (s.hart c).noff) (absent : ∀ d, (s.hart d).current ≠ y)
    (home : ∀ d, y = .sched d → c = d)
    (waits : Waits (s.hart c).current k)
    (runs : ∀ t, y = .thread t ∨ (∃ d, d ≠ c ∧ (s.hart d).current = .thread t) → proc t = .running) :
    Inv { s.put c { s.hart c with current := y } k with proc := proc } := by
  have fits := inv.fits c
  have arriving := inv.waits y absent
  have current (d : Nat) : (update s.hart c { s.hart c with current := y } d).current =
      if d = c then y else (s.hart d).current := by
    by_cases mine : d = c <;> simp [mine]
  refine ⟨?_, ?_, ?_, ?_, ?_, inv.calm⟩
  · intro d
    simp only [State.put]
    by_cases mine : d = c
    · subst mine
      rw [update_self, update_of_ne (absent d).symm]
      refine ⟨fits.off, fits.count, arriving.shaped, ?_, fun _ => positive, ?_⟩
      · intro owing
        rw [arriving.quiet] at owing
        cases owing
      · intro t b thread _ outer
        obtain ⟨restore, saved⟩ := arriving.kept t b thread outer
        rw [if_pos restore]
        exact saved
    · rw [update_of_ne mine, update_of_ne fun same => mine (inv.own d c same)]
      exact inv.fits d
  · intro x elsewhere
    simp only [State.put, current] at elsewhere ⊢
    by_cases left : x = (s.hart c).current
    · rw [left, update_self]
      exact waits
    · rw [update_of_ne left]
      refine inv.waits x fun d same => elsewhere d ?_
      rw [if_neg (by rintro rfl; exact left same.symm), same]
  · intro d d' same
    simp only [State.put, current] at same
    split_ifs at same with mine mine' mine'
    · rw [mine, mine']
    · exact absurd same.symm (absent d')
    · exact absurd same (absent d)
    · exact inv.own d d' same
  · intro d d' same
    simp only [State.put, current] at same
    split_ifs at same with mine
    · exact mine.trans (home d' same)
    · exact inv.home d d' same
  · intro d t same
    simp only [State.put, current] at same
    split_ifs at same with mine
    · exact runs t (.inl same)
    · exact runs t (.inr ⟨d, mine, same⟩)

theorem Inv.put (inv : Inv s) (same : h.current = (s.hart c).current) (fits : Fits s.lock c h k) :
    Inv (s.put c h k) :=
  inv.local same (fun _ _ => rfl) fits

theorem Inv.stop (inv : Inv s) {p : Panic} (other : p ≠ .popOffInterruptible ∧ p ≠ .popOff) :
    Inv (s.stop p) :=
  { inv with calm := by simpa [State.stop] using other }

theorem Fits.tail {pushes : Nat} (fits : Fits lock c h { k with script := i :: rest })
    (plain : i.isRestore = false ∧ i.isSched = false)
    (count : h.noff = (heldBy lock' c).card + pushes) (owed : i.leaves = true → 0 < pushes)
    (held : i.holds = true → 0 < h.noff) :
    Fits lock' c { h with pushes } { k with script := rest } := by
  obtain ⟨owing, busy, paired, -, shaped⟩ := fits.shaped
  refine ⟨fits.off, count, shaped, fun next => owed (owing next), fun next => held (busy next), ?_⟩
  intro t b thread positive outer
  have kept := fits.kept t b thread positive outer
  simp only [next_cons, plain.1, paired, plain.2] at kept ⊢
  exact kept

theorem Inv.take_up (inv : Inv s) (c : Nat) {script : List (Instr Lock)} (shaped : Shaped script)
    (plain : next Instr.isRestore script = false)
    (owed : next Instr.busy script = true → 0 < (s.hart c).pushes)
    (free : (s.ctx (s.hart c).current).script = [] ∨ (s.hart c).noff = 0) :
    Inv (s.put c (s.hart c) { s.ctx (s.hart c).current with
      script := script ++ (s.ctx (s.hart c).current).script }) := by
  have fits := inv.fits c
  have count := fits.count
  have idle : next Instr.busy (s.ctx (s.hart c).current).script = false := by
    rcases free with empty | zero
    · rw [empty, next_nil]
    · by_contra busy
      have := fits.busy (by simpa using busy)
      omega
  refine inv.put rfl ⟨fits.off, count, shaped.append fits.shaped idle, ?_, ?_, ?_⟩
  · intro owing
    rw [next_append (next_mono (fun _ => Instr.busy_of_owing) idle)] at owing
    apply owed
    by_contra calm
    rw [next_mono (fun _ => Instr.busy_of_owing) (by simpa using calm)] at owing
    cases owing
  · intro busy
    rw [next_append idle] at busy
    have := owed busy
    omega
  · intro t b thread positive outer
    have kept := fits.kept t b thread positive outer
    have empty : (s.ctx (s.hart c).current).script = [] := free.resolve_right (by omega)
    rw [empty, next_nil] at kept
    simpa [empty, plain] using kept

theorem init_inv (plock : Nat → Lock) (intr intena : Nat → Bool) (proc : Nat → ProcState) :
    Inv (init plock intr intena proc) where
  fits c := ⟨fun positive => absurd positive (Nat.lt_irrefl 0), by simp [init, heldBy], trivial,
    fun owing => by simp [init] at owing, fun busy => by simp [init] at busy,
    fun _ _ thread => by simp [init] at thread⟩
  waits x absent := by
    cases x with
    | thread t =>
      exact ⟨(release_shaped _).1, (release_shaped _).2, fun _ _ _ outer => by simp [init] at outer⟩
    | sched d => exact absurd rfl (absent d)
  own c d same := by simpa [init] using same
  home c d same := by simpa [init] using same
  runs c t there := by simp [init] at there
  calm := by simp [init]

end Invariant

section Steps
variable {Lock : Type} [DecidableEq Lock] [Fintype Lock] {plock : Nat → Lock} {s : State Lock}
  {lock : Lock → Option Nat} {c : Nat} {k : Context Lock} {i : Instr Lock} {rest : List (Instr Lock)}

theorem heldBy_take {lk : Lock} (free : lock lk = none) :
    (heldBy (update lock lk (some c)) c).card = (heldBy lock c).card + 1 := by
  have grown : heldBy (update lock lk (some c)) c = insert lk (heldBy lock c) := by
    ext m
    by_cases here : m = lk <;> simp [heldBy, here]
  rw [grown, Finset.card_insert_of_notMem (by simp [heldBy, free])]

theorem heldBy_drop {lk : Lock} (mine : lock lk = some c) :
    (heldBy (update lock lk none) c).card + 1 = (heldBy lock c).card := by
  have shrunk : heldBy (update lock lk none) c = (heldBy lock c).erase lk := by
    ext m
    by_cases here : m = lk <;> simp [heldBy, here]
  rw [shrunk, Finset.card_erase_add_one (by simp [heldBy, mine])]

theorem heldBy_other {lk : Lock} {o : Option Nat} {d : Nat} (before : lock lk ≠ some d)
    (after : o ≠ some d) : heldBy (update lock lk o) d = heldBy lock d := by
  ext m
  by_cases here : m = lk
  · subst here
    simp [heldBy, before, after]
  · simp [heldBy, here]

theorem exec_inv (inv : Inv s) (left : s.ctx (s.hart c).current = { k with script := i :: rest }) :
    Inv (exec plock s c (s.hart c) { k with script := rest } i) := by
  have fits := inv.fits c
  rw [left] at fits
  obtain ⟨owing, busy, paired, fine, shaped⟩ := fits.shaped
  cases i with
  | pushOff =>
    refine inv.put rfl ⟨fun _ => rfl, ?_, shaped, fun _ => Nat.succ_pos _, fun _ => Nat.succ_pos _, ?_⟩
    · have := fits.count
      dsimp only
      omega
    · intro t b thread _ outer
      simp only [paired, Instr.isSched, Bool.false_eq_true, if_false] at outer ⊢
      split at outer
      · rename_i zero
        rw [if_pos zero]
        exact Option.some_inj.mp outer
      · rename_i positive
        rw [if_neg positive]
        simpa [Instr.isRestore] using fits.kept t b thread (by omega) outer
  | check lk =>
    simp only [exec]
    split
    · exact inv.stop ⟨by decide, by decide⟩
    · exact inv.put rfl (fits.tail ⟨rfl, rfl⟩ fits.count (fun _ => fits.owing (by simp [Instr.owing]))
        fun _ => fits.busy (by simp [Instr.busy, Instr.owing]))
  | take lk =>
    have pushes : 0 < (s.hart c).pushes := fits.owing (by simp [Instr.owing])
    simp only [exec]
    split
    · rename_i free
      have count := heldBy_take (c := c) free
      refine inv.local rfl (fun d other => heldBy_other (by simp [free]) (by simpa using other.symm))
        (fits.tail ⟨rfl, rfl⟩ ?_ (fun leaves => by simp [Instr.leaves] at leaves)
          fun _ => fits.busy (by simp [Instr.busy, Instr.owing]))
      have := fits.count
      omega
    · exact inv
  | unlock lk =>
    simp only [exec]
    split
    · exact inv.stop ⟨by decide, by decide⟩
    · rename_i holding
      rw [not_not] at holding
      have count := heldBy_drop holding
      refine inv.local rfl (fun d other => heldBy_other (by simpa [holding] using other.symm) (by simp))
        (fits.tail ⟨rfl, rfl⟩ ?_ (fun _ => Nat.succ_pos _) fun _ => ?_) <;>
      · have := fits.count
        omega
  | popOff =>
    have pushes : 0 < (s.hart c).pushes := fits.owing (by simp [Instr.owing])
    have count := fits.count
    simp only [exec]
    rw [if_neg (by simp [fits.off (by omega)]), if_neg (by omega)]
    refine inv.put rfl ⟨?_, ?_, shaped, fun next => by simpa [Instr.leaves] using owing next,
      fun next => by simpa [Instr.holds, Instr.leaves] using busy next, ?_⟩
    · intro positive
      simp [Nat.ne_of_gt positive]
    · dsimp only
      omega
    · intro t b thread positive outer
      have kept := fits.kept t b thread (by dsimp only at positive; omega) outer
      simpa [paired, Instr.isSched, Instr.isRestore] using kept
  | restore =>
    refine inv.put rfl ⟨fits.off, fits.count, shaped, fun next => by simpa [Instr.leaves] using owing next,
      fun next => by simpa [Instr.holds, Instr.leaves] using busy next, ?_⟩
    intro t b thread positive outer
    have kept := fits.kept t b thread positive outer
    simpa [paired, Instr.isSched, Instr.isRestore] using kept
  | sched st =>
    simp only [exec]
    split
    · exact inv
    · rename_i t thread
      split_ifs with unheld several
      · exact inv.stop ⟨by decide, by decide⟩
      · exact inv.stop ⟨by decide, by decide⟩
      · exact inv.stop ⟨by decide, by decide⟩
      · exact inv.stop ⟨by decide, by decide⟩
      refine inv.switch (by omega) ?_ ?_ ⟨shaped, ?_, ?_⟩ ?_
      · intro d there
        have := inv.home d c there
        subst this
        rw [thread] at there
        cases there
      · rintro d ⟨⟩
        rfl
      · by_contra owed
        simpa [Instr.leaves] using owing (by simpa using owed)
      · intro u b _ outer
        have kept := fits.kept t b thread (by omega) outer
        simpa [paired, Instr.isSched, Instr.isRestore] using kept
      · rintro u (same | ⟨d, other, there⟩)
        · cases same
        · rw [update_of_ne]
          · exact inv.runs d u there
          · rintro rfl
            exact other (inv.own d c (there.trans thread.symm))
  | dispatch t =>
    simp only [exec]
    split
    · exact inv
    · rename_i d scheduler
      split
      · rename_i runnable
        refine inv.switch (fits.busy (by simp [Instr.busy])) ?_ ?_ ⟨shaped, ?_, ?_⟩ ?_
        · intro d there
          rw [inv.runs d t there] at runnable
          cases runnable
        · rintro d ⟨⟩
        · by_contra owed
          simpa [Instr.leaves] using owing (by simpa using owed)
        · intro u b thread
          rw [scheduler] at thread
          cases thread
        · rintro u (same | ⟨d, -, there⟩)
          · cases same
            exact update_self ..
          · by_cases same : u = t
            · rw [same, update_self]
            · rw [update_of_ne same]
              exact inv.runs d u there
      · exact inv.put rfl (fits.tail ⟨rfl, rfl⟩ fits.count (fun leaves => by simp [Instr.leaves] at leaves)
          fun holds => by simp [Instr.holds, Instr.leaves] at holds)

theorem step_inv (inv : Inv s) (e : Event Lock) : Inv (step plock s e) := by
  unfold step
  split
  · exact inv
  · cases e with
    | call c op =>
      dsimp only
      split
      · rename_i may
        obtain ⟨shaped, plain, only⟩ := script_shaped plock (s.hart c).current op
        exact inv.take_up c shaped plain (fun busy => may.2 (only busy)) may.1
      · exact inv
    | visit c t =>
      dsimp only
      split
      · rename_i may
        obtain ⟨shaped, plain, idle⟩ := visit_shaped plock t
        have visited := inv.take_up c shaped plain (fun busy => by rw [idle] at busy; cases busy)
          (.inl may.1)
        simpa [may.1] using visited
      · exact inv
    | intr c on =>
      dsimp only
      split
      · rename_i zero
        have fits := inv.fits c
        exact inv.put rfl { fits with off := fun positive => absurd zero (Nat.ne_of_gt positive) }
      · exact inv
    | wake t =>
      dsimp only
      split
      · rename_i sleeping
        refine { inv with runs := fun c u there => ?_ }
        have running := inv.runs c u there
        refine (update_of_ne ?_ _ _).trans running
        rintro rfl
        rw [sleeping] at running
        cases running
      · exact inv
    | run c =>
      dsimp only
      split
      · exact inv
      · rename_i i rest left
        exact exec_inv inv (by rw [← left])

/-- p->lock is the only lock that the thread on c holds, and it has no push_off of its own. -/
def OnlyPlock (plock : Nat → Lock) (s : State Lock) (c t : Nat) : Prop :=
  (s.hart c).current = .thread t ∧ heldBy s.lock c = {plock t} ∧ (s.hart c).pushes = 0

theorem exec_panics {p : Panic} (inv : Inv s)
    (left : s.ctx (s.hart c).current = { k with script := i :: rest }) (calm : s.panic = none)
    (panics : (exec plock s c (s.hart c) { k with script := rest } i).panic = some p) :
    p = .acquire ∨ p = .release ∨ ∃ st, i = .sched st ∧ ∀ t, ¬OnlyPlock plock s c t := by
  have fits := inv.fits c
  rw [left] at fits
  cases i with
  | check lk =>
    simp only [exec] at panics
    split at panics
    · exact .inl (Option.some_inj.mp panics).symm
    · simp [State.put, calm] at panics
  | unlock lk =>
    simp only [exec] at panics
    split at panics
    · exact .inr (.inl (Option.some_inj.mp panics).symm)
    · simp [State.put, calm] at panics
  | popOff =>
    have pushes : 0 < (s.hart c).pushes := fits.owing (by simp [Instr.owing])
    have count := fits.count
    simp only [exec] at panics
    rw [if_neg (by simp [fits.off (by omega)]), if_neg (by omega)] at panics
    simp [State.put, calm] at panics
  | sched st =>
    refine .inr (.inr ⟨st, rfl, ?_⟩)
    rintro t ⟨thread, only, none⟩
    have holding : s.lock (plock t) = some c := by
      have member : plock t ∈ heldBy s.lock c := by simp [only]
      simpa [heldBy] using member
    have count := fits.count
    rw [only, Finset.card_singleton, none] at count
    obtain ⟨-, -, -, fine, -⟩ := fits.shaped
    simp only [exec, thread] at panics
    rw [if_neg (by simp [holding]), if_neg (by omega), if_neg (by rintro rfl; exact fine rfl),
      if_neg (by simp [fits.off (by omega)])] at panics
    simp [State.put, calm] at panics
  | _ =>
    simp only [exec, State.put] at panics
    repeat' split at panics
    all_goals simp [calm] at panics

theorem step_panics {p : Panic} {e : Event Lock} (inv : Inv s) (calm : s.panic = none)
    (panics : (step plock s e).panic = some p) :
    p = .acquire ∨ p = .release ∨ ∃ c st rest, e = .run c ∧
      (s.ctx (s.hart c).current).script = .sched st :: rest ∧ ∀ t, ¬OnlyPlock plock s c t := by
  unfold step at panics
  rw [if_neg (by simp [calm])] at panics
  cases e with
  | run c =>
    dsimp only at panics
    split at panics
    · rw [calm] at panics
      cases panics
    · rename_i i rest left
      rcases exec_panics inv (by rw [← left]) calm panics with acquire | release | ⟨st, rfl, other⟩
      · exact .inl acquire
      · exact .inr (.inl release)
      · exact .inr (.inr ⟨c, st, rest, rfl, left, other⟩)
  | _ =>
    dsimp only at panics
    split at panics <;> simp [State.put, calm] at panics

theorem outermost_pop_off (inv : Inv s) {e : Event Lock} {t : Nat} {b : Bool}
    (thread : (s.hart c).current = .thread t) (positive : 0 < (s.hart c).noff)
    (outer : (s.ctx (.thread t)).outer = some b) (zero : ((step plock s e).hart c).noff = 0) :
    ((step plock s e).hart c).intr = b := by
  obtain ⟨calm, rfl, rest, left⟩ := step_noff c (zero.trans_lt positive)
  have fits := inv.fits c
  have pushes : 0 < (s.hart c).pushes := fits.owing (by simp [left, Instr.owing])
  have intena := fits.kept t b thread positive (by rw [thread]; exact outer)
  simp only [left, next_cons, Instr.isRestore, Bool.false_eq_true, if_false] at intena
  have executed : step plock s (.run c) = s.put c
      { s.hart c with noff := (s.hart c).noff - 1, pushes := (s.hart c).pushes - 1,
                      intr := (s.hart c).noff - 1 = 0 && (s.hart c).intena }
      { s.ctx (s.hart c).current with script := rest } := by
    simp only [step, calm, left, exec]
    rw [if_neg (by simp), if_neg (by simp [fits.off positive]), if_neg (by omega)]
  rw [executed] at zero ⊢
  simp only [State.put, update_self] at zero ⊢
  simp [zero, intena]

end Steps

/-- Interrupts are off while noff is positive; the pop_off that brings a thread's noff back to 0
restores what was at its outermost push_off, wherever the thread has been in between; pop_off
does not panic. -/
theorem interrupts_nest {Lock : Type} [DecidableEq Lock] [Fintype Lock] (plock : Nat → Lock)
    (intr intena : Nat → Bool) (proc : Nat → ProcState) (events : List (Event Lock)) :
    let s := Machine.run (step plock) (init plock intr intena proc) events
    (∀ c, 0 < (s.hart c).noff → (s.hart c).intr = false) ∧
    (∀ c, (s.hart c).noff = (heldBy s.lock c).card + (s.hart c).pushes) ∧
    (∀ e c t b, (s.hart c).current = .thread t → 0 < (s.hart c).noff →
      (s.ctx (.thread t)).outer = some b → ((step plock s e).hart c).noff = 0 →
      ((step plock s e).hart c).intr = b) ∧
    (s.panic ≠ some .popOffInterruptible ∧ s.panic ≠ some .popOff) ∧
    ∀ e p, s.panic = none → (step plock s e).panic = some p → p = .acquire ∨ p = .release ∨
      ∃ c st rest, e = .run c ∧ (s.ctx (s.hart c).current).script = .sched st :: rest ∧
        ∀ t, ¬OnlyPlock plock s c t := by
  intro s
  have inv : Inv s := Machine.run_invariant (P := Inv) (step plock) (fun _ e inv => step_inv inv e)
    (init_inv plock intr intena proc) events
  exact ⟨fun c => (inv.fits c).off, fun c => (inv.fits c).count,
    fun _ _ _ _ => outermost_pop_off inv, inv.calm, fun _ _ => step_panics inv⟩

/-- A thread that yields with interrupts on, on CPU 0, and comes back on CPU 1. -/
def migration : List (Event Unit) :=
  [.visit 0 0] ++ List.replicate 6 (.run 0) ++ [.intr 0 true, .call 0 .yield] ++ List.replicate 6 (.run 0) ++
    [.visit 1 0] ++ List.replicate 7 (.run 1)

example : let s := Machine.run (step fun _ => ()) (init (fun _ => ()) (fun _ => false) (fun _ => false)
      fun _ => .runnable) migration
    (s.hart 1).current = .thread 0 ∧ (s.hart 1).noff = 0 ∧ (s.hart 1).intr = true := by
  decide +kernel

end Xv6Lab.PushOff
