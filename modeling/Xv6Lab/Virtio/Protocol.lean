import Xv6Lab.Lib.Machine
import Xv6Lab.Virtio.Driver

/-!
Every step of a caller, a handler or the device keeps the invariant.
-/

namespace Xv6Lab.Virtio
open Function (update update_apply update_eq_self update_of_ne)

attribute [local grind cases] Wire Written AvailRing UsedRing Tickets Served Chains Formatted Locks Inv
attribute [local grind =] update_apply

variable {w w' : World} {c t : Nat} {call : Call} {chan : Chan} {idx : Chain}

theorem req_eq (here : w.callers c = some call) : w.req c = some call.toRequest := by
  simp [World.req, here]

theorem callers_of_req {r : Request} (here : w.req c = some r) :
    ∃ call, w.callers c = some call ∧ call.toRequest = r := by
  simpa [World.req] using here

theorem setCall_req (w : World) (c : Nat) (call : Call) :
    (w.setCall c call).req = update w.req c (some call.toRequest) := by
  funext c'
  by_cases same : c' = c
  · subst same
    simp [World.req, World.setCall]
  · simp [World.req, World.setCall, same]

section
variable (locks : Locks w)
include locks

theorem Locks.alone (held : w.lock = some (.caller c)) {c' : Nat} {r' : Request}
    (here : w.req c' = some r') (critical : r'.phase.critical) : c' = c := by
  obtain ⟨call', here', rfl⟩ := callers_of_req here
  have mine := (locks.holds c' call' here').mp (locks.critical c' call' here' critical)
  rw [held] at mine
  exact (Holder.caller.inj (Option.some.inj mine)).symm

theorem Locks.wakeup (chan : Chan) (d : Disk) (bufs : Nat → Buf)
    (waits : ∀ c call other, other ≠ chan → w.callers c = some call → Waits w call other →
      Waits { w with disk := d, bufs := bufs } call other) :
    Locks (wakeup chan { w with disk := d, bufs := bufs }) := by
  have back : ∀ {c call}, (Virtio.wakeup chan { w with disk := d, bufs := bufs }).callers c =
      some call → ∃ before, w.callers c = some before ∧ call = before.wake chan := by
    intro c call here
    obtain ⟨before, found, rfl⟩ := Option.map_eq_some_iff.mp here
    exact ⟨before, found, rfl⟩
  refine ⟨?_, ?_, ?_, ?_, locks.loops, ?_⟩
  · intro c call here
    obtain ⟨before, found, rfl⟩ := back here
    rw [wake_toRequest]
    exact locks.sleeplock c before found
  · intro c call here
    obtain ⟨before, found, rfl⟩ := back here
    refine Iff.trans ?_ (locks.holds c before found)
    unfold Call.wake
    split_ifs with asleep <;> simp [asleep]
  · intro c held
    simpa [Virtio.wakeup] using locks.holder c held
  · intro c call here critical
    obtain ⟨before, found, rfl⟩ := back here
    rw [wake_toRequest] at critical
    have holds := locks.critical c before found critical
    simp [Call.wake, holds]
  · intro c call other here asleep
    obtain ⟨before, found, rfl⟩ := back here
    -- a caller still asleep was asleep on another channel
    have still : before.wake chan = before ∧ before.mode ≠ .asleep chan := by
      unfold Call.wake at asleep ⊢
      split_ifs at asleep ⊢ with woken
      exact ⟨rfl, woken⟩
    rw [still.1] at asleep ⊢
    have different : other ≠ chan := by
      rintro rfl
      exact still.2 asleep
    cases waits c before other different found (locks.waits c before other found asleep) with
    | free phase count => exact .free phase count
    | buf idx t phase flag => exact .buf idx t phase flag

/-- One caller moves; the others see no change of what they hold and wait for. -/
theorem Locks.set {call' : Call} (callers : w'.callers = update w.callers c (some call'))
    (lock : ∀ c' ≠ c, w'.lock = some (.caller c') ↔ w.lock = some (.caller c'))
    (loops : ∀ i, w'.handlers i = .loops ↔ w'.lock = some (.handler i))
    (others : ∀ c' call, c' ≠ c → w.callers c' = some call → w'.sleeplock call.b = w.sleeplock call.b ∧
      ∀ chan, Waits w call chan → Waits w' call chan)
    (sleeplock : w'.sleeplock call'.b = some c) (holds : call'.mode = .holds ↔ w'.lock = some (.caller c))
    (critical : call'.phase.critical → call'.mode = .holds)
    (waits : ∀ chan, call'.mode = .asleep chan → Waits w' call' chan) : Locks w' := by
  have back : ∀ {c' call}, w'.callers c' = some call →
      (c' = c ∧ call = call') ∨ (c' ≠ c ∧ w.callers c' = some call) :=
    fun found => update_cases (callers ▸ found)
  refine ⟨fun c' call found => ?_, fun c' call found => ?_, fun c' held => ?_, fun c' call found => ?_,
    loops, fun c' call chan found => ?_⟩
  · rcases back found with ⟨rfl, rfl⟩ | ⟨other, old⟩
    · exact sleeplock
    · rw [(others c' call other old).1, locks.sleeplock c' call old]
  · rcases back found with ⟨rfl, rfl⟩ | ⟨other, old⟩
    · exact holds
    · rw [lock c' other, locks.holds c' call old]
  · rw [callers, update_apply]
    split_ifs with same
    · rfl
    · exact locks.holder c' ((lock c' same).mp held)
  · rcases back found with ⟨rfl, rfl⟩ | ⟨-, old⟩
    · exact critical
    · exact locks.critical c' call old
  · rcases back found with ⟨rfl, rfl⟩ | ⟨other, old⟩
    · exact waits chan
    · exact fun asleep => (others c' call other old).2 chan (locks.waits c' call chan old asleep)

theorem Locks.advance (here : w.callers c = some call) (holds : call.mode = .holds) {phase : Phase}
    (callers : w'.callers = update w.callers c (some { call with phase := phase }))
    (lock : w'.lock = w.lock) (sleeplock : w'.sleeplock = w.sleeplock)
    (handlers : w'.handlers = w.handlers)
    (waits : ∀ c' call' chan, c' ≠ c → w.callers c' = some call' → Waits w call' chan →
      Waits w' call' chan) : Locks w' := by
  refine locks.set callers (fun _ _ => by rw [lock]) (by rw [handlers, lock]; exact locks.loops)
    (fun c' call' other old => ⟨by rw [sleeplock], fun chan => waits c' call' chan other old⟩)
    (by rw [sleeplock]; exact locks.sleeplock c call here) (by rw [lock]; exact locks.holds c call here)
    (fun _ => holds) fun chan asleep => ?_
  rw [holds] at asleep
  cases asleep

/-- The caller that holds the lock gives it up. -/
theorem Locks.others_idle (held : w.lock = some (.caller c)) :
    (∀ c' ≠ c, w.lock ≠ some (.caller c')) ∧ ∀ i, w.handlers i ≠ .loops := by
  refine ⟨fun c' other same => other ?_, fun i loops => ?_⟩
  · exact (Holder.caller.inj (Option.some.inj (held.symm.trans same))).symm
  · cases held.symm.trans ((locks.loops i).mp loops)

theorem Locks.sleep (here : w.callers c = some call)
    (holds : call.mode = .holds) (calm : call.phase.critical = false)
    (reason : Waits w { call with mode := .asleep chan } chan) : Locks (sleep c call chan w) := by
  obtain ⟨callers, handlers⟩ := locks.others_idle ((locks.holds c call here).mp holds)
  have same : ∀ {call' chan'}, Waits w call' chan' → Waits (Virtio.sleep c call chan w) call' chan' := by
    intro call' chan' waits
    cases waits with
    | free phase count => exact .free phase count
    | buf idx t phase flag => exact .buf idx t phase flag
  refine locks.set rfl (fun c' other => ?_) (fun i => ?_) (fun _ _ _ _ => ⟨rfl, fun _ => same⟩)
    (locks.sleeplock c call here) (by simp [Virtio.sleep]) (fun critical => ?_) fun chan' asleep => ?_
  · simp [Virtio.sleep, callers c' other]
  · simpa [Virtio.sleep, World.setCall] using handlers i
  · rw [calm] at critical
    cases critical
  · obtain rfl : chan = chan' := Mode.asleep.inj asleep
    exact same reason

theorem Locks.release (here : w.callers c = some call)
    (held : w.lock = some (.caller c)) : Locks (release c call.b w) := by
  have back : ∀ {c' call'}, (Virtio.release c call.b w).callers c' = some call' →
      c' ≠ c ∧ w.callers c' = some call' := by
    intro c' call' found
    simp only [Virtio.release] at found
    by_cases same : c' = c
    · subst same
      simp at found
    · exact ⟨same, by simpa [same] using found⟩
  obtain ⟨callers, handlers⟩ := locks.others_idle held
  refine ⟨?_, ?_, fun _ => nofun, ?_, ?_, ?_⟩
  · intro c' call' found
    obtain ⟨other, old⟩ := back found
    have mine := locks.sleeplock c' call' old
    have apart : call'.b ≠ call.b := by grind
    simp only [Virtio.release, update_of_ne apart, mine]
  · intro c' call' found
    obtain ⟨other, old⟩ := back found
    simp [locks.holds c' call' old, callers c' other, Virtio.release]
  · intro c' call' found
    exact locks.critical c' call' (back found).2
  · intro i
    simpa [Virtio.release] using handlers i
  · intro c' call' chan found asleep
    cases locks.waits c' call' chan (back found).2 asleep with
    | free phase count => exact .free phase count
    | buf idx t phase flag => exact .buf idx t phase flag

end

theorem setCall_req_same (here : w.callers c = some call) {call' : Call}
    (same : call'.toRequest = call.toRequest) : (w.setCall c call').req = w.req := by
  rw [setCall_req, same, ← req_eq here, update_eq_self]

theorem Inv.sleep (inv : Inv w) (here : w.callers c = some call) (holds : call.mode = .holds)
    (calm : call.phase.critical = false) (reason : Waits w { call with mode := .asleep chan } chan) :
    Inv (sleep c call chan w) := by
  refine ⟨?_, inv.locks.sleep here holds calm reason, inv.running⟩
  have same : (Virtio.sleep c call chan w).req = w.req := setCall_req_same here rfl
  rw [same]
  exact inv.wire

theorem Inv.undone (inv : Inv w) (undone : Undone w w') : Inv w' ∧ w'.disk.free = w.disk.free ∧
      ∀ c call, w.callers c = some call → call.mode = .holds → w'.callers c = some call := by
  cases undone with
  | untouched => exact ⟨inv, rfl, fun _ _ here _ => here⟩
  | woken desc same =>
    refine ⟨⟨?_, ?_, inv.running⟩, rfl, ?_⟩
    · rw [wakeup_req]
      exact inv.wire.undo fun i _ => same i
    · refine inv.locks.wakeup .free { w.disk with desc := desc } w.bufs ?_
      intro c call other different here waits
      cases waits with
      | free => exact absurd rfl different
      | buf idx t phase flag => exact .buf idx t phase flag
    · intro c call here holds
      simp [wakeup, World.setDesc, here, Call.wake, holds]

theorem Inv.allocates (inv : Inv w) (here : w.callers c = some call) (holds : call.mode = .holds)
    (phase : call.phase = .alloc) : ∃ w', rwStep c call w = .ok w' ∧ Inv w' := by
  rcases alloc3Desc_spec w with
    ⟨idx, free, result, nodup, inside, unused, freed, fewer⟩ | ⟨w', result, undone, few⟩
  · refine ⟨(w.setFree free).setCall c { call with phase := .format idx }, ?_, ?_, ?_, inv.running⟩
    · simp only [rwStep, phase, result, bind, Except.bind, pure, Except.pure]
    · rw [setCall_req]
      exact inv.wire.allocate (req_eq here) phase nodup inside unused freed
    · refine inv.locks.advance here holds rfl rfl rfl rfl ?_
      intro c' call' chan _ _ waits
      cases waits with
      | free phase count => exact .free phase (lt_of_le_of_lt fewer count)
      | buf idx t phase flag => exact .buf idx t phase flag
  · refine ⟨Virtio.sleep c call .free w', ?_, ?_⟩
    · simp only [rwStep, phase, result, bind, Except.bind, pure, Except.pure]
    · obtain ⟨inv', free, callers⟩ := inv.undone undone
      exact inv'.sleep (callers c call here holds) holds (by rw [phase]; rfl)
        (.free phase (by rw [free]; exact few))

theorem Inv.finishes (inv : Inv w) (here : w.callers c = some call) (holds : call.mode = .holds)
    (phase : call.phase = .finish idx t) : ∃ w', rwStep c call w = .ok w' ∧ Inv w' := by
  have chain : chainOf w.req c = some idx := by rw [chainOf_eq (req_eq here), phase]; rfl
  have formatted := inv.wire.written.formatted c call.toRequest idx (req_eq here)
    (by rw [phase]; rfl)
  have owned : ∀ i ∈ idx.toList, Owns (chainOf w.req) c i := fun i member => ⟨idx, chain, member⟩
  have inside : ∀ i ∈ idx.toList, i < NUM := fun i member =>
    inv.wire.chains.inside c i (owned i member)
  obtain ⟨desc, free, result, freed, sameDesc⟩ := freeChain_spec (w := clearInfo idx w)
    (inv.wire.chains.nodup c idx chain) inside
    (fun i member => (inv.wire.chains.busy_iff i (inside i member)).mpr ⟨c, owned i member⟩)
    formatted.head formatted.data formatted.status
  refine ⟨release c call.b (wakeup .free (((clearInfo idx w).setFree free).setDesc desc)),
    ?_, ?_, ?_, inv.running⟩
  · simp only [rwStep, phase, result, bind, Except.bind, pure, Except.pure]
  · have req : (release c call.b (wakeup .free (((clearInfo idx w).setFree free).setDesc desc))).req
        = update w.req c none := by
      funext c'
      by_cases same : c' = c
      · subst same
        simp [World.req, release]
      · have other := congrFun (wakeup_req .free (((clearInfo idx w).setFree free).setDesc desc)) c'
        simp only [World.req] at other
        simp only [World.req, release, update_of_ne same, other]
        rfl
    rw [req]
    refine inv.wire.retire (req_eq here) phase freed sameDesc ?_ ?_
    · intro i other
      simp [clearInfo, World.setFree, other]
    · intro i
      by_cases same : i = idx.head
      · subst same
        simp [clearInfo, World.setFree]
      · simp [clearInfo, World.setFree, same]
  · refine Locks.release (w := wakeup .free (((clearInfo idx w).setFree free).setDesc desc)) ?_ ?_
      ((inv.locks.holds c call here).mp holds)
    · refine inv.locks.wakeup .free _ w.bufs ?_
      intro c' call' other different _ waits
      cases waits with
      | free => exact absurd rfl different
      | buf idx t phase flag => exact .buf idx t phase flag
    · simp [wakeup, clearInfo, World.setFree, World.setDesc, here, Call.wake, holds]

theorem Waits.frame (waits : Waits w call chan)
    (free : w'.disk.free = w.disk.free) (flag : (w.bufs call.b).disk = 1 →
      (w'.bufs call.b).disk = 1) : Waits w' call chan := by
  cases waits with
  | free phase count => exact .free phase (by rw [free]; exact count)
  | buf idx t phase set => exact .buf idx t phase (flag set)

theorem Inv.rwStep (inv : Inv w) (here : w.callers c = some call) (holds : call.mode = .holds) :
    ∃ w', rwStep c call w = .ok w' ∧ Inv w' := by
  have held := (inv.locks.holds c call here).mp holds
  have alone : ∀ c' r', w.req c' = some r' → r'.phase.critical → c' = c :=
    fun c' r' => inv.locks.alone held
  cases phase : call.phase with
  | alloc => exact inv.allocates here holds phase
  | format idx =>
    refine ⟨(formatDesc call.toRequest idx w).setCall c { call with phase := .post idx },
      by simp only [Virtio.rwStep, phase], ?_, ?_, inv.running⟩
    · rw [setCall_req]
      exact inv.wire.format (req_eq here) phase
    · refine inv.locks.advance here holds rfl rfl rfl rfl ?_
      intro c' call' chan _ _ waits
      refine waits.frame rfl fun set => ?_
      simp only [World.setCall, formatDesc, update_apply]
      split_ifs
      · rfl
      · exact set
  | post idx =>
    refine ⟨(postHead idx w).setCall c { call with phase := .bump idx },
      by simp only [Virtio.rwStep, phase], ?_, ?_, inv.running⟩
    · rw [setCall_req]
      exact inv.wire.post (req_eq here) phase alone
    · exact inv.locks.advance here holds rfl rfl rfl rfl
        fun c' call' chan _ _ waits => waits.frame rfl id
  | bump idx =>
    refine ⟨(submit idx w).setCall c { call with phase := .poll idx w.submitted.length },
      by simp only [Virtio.rwStep, phase], ?_, ?_, inv.running⟩
    · rw [setCall_req]
      exact inv.wire.bump (req_eq here) phase alone
    · exact inv.locks.advance here holds rfl rfl rfl rfl
        fun c' call' chan _ _ waits => waits.frame rfl id
  | poll idx t =>
    by_cases set : (w.bufs call.b).disk = 1
    · refine ⟨Virtio.sleep c call (.buf call.b) w, by simp only [Virtio.rwStep, phase, if_pos set],
        inv.sleep here holds (by rw [phase]; rfl) (.buf idx t phase set)⟩
    · refine ⟨w.setCall c { call with phase := .finish idx t },
        by simp only [Virtio.rwStep, phase, if_neg set], ?_, ?_, inv.running⟩
      · rw [setCall_req]
        exact inv.wire.leave (req_eq here) phase set
      · exact inv.locks.advance here holds rfl rfl rfl rfl
          fun c' call' chan _ _ waits => waits.frame rfl id
  | finish idx t => exact inv.finishes here holds phase

theorem Inv.acquires (inv : Inv w) (here : w.callers c = some call) (free : w.lock = none) :
    Inv { w.setCall c { call with mode := .holds } with lock := some (.caller c) } := by
  have idle := inv.locks.loops
  rw [free] at idle
  refine ⟨?_, inv.locks.set rfl (fun c' other => ?_) (fun i => ?_) (fun _ _ _ _ => ⟨rfl, fun _ waits =>
    waits.frame rfl id⟩) (inv.locks.sleeplock c call here) (by simp) (fun _ => rfl) nofun, inv.running⟩
  · have same : (w.setCall c { call with mode := .holds }).req = w.req := setCall_req_same here rfl
    exact same ▸ inv.wire
  · simpa [free] using Ne.symm other
  · simp only [World.setCall, idle i, reduceCtorEq, Option.some.injEq]

theorem Inv.callerStep (inv : Inv w) (c : Nat) : ∃ w', callerStep c w = .ok w' ∧ Inv w' := by
  unfold Virtio.callerStep
  cases here : w.callers c with
  | none => exact ⟨w, rfl, inv⟩
  | some call =>
    cases mode : call.mode with
    | asleep chan => exact ⟨w, by simp [mode], inv⟩
    | holds => simpa [mode] using inv.rwStep here mode
    | wants =>
      by_cases free : w.lock = none
      · exact ⟨_, by simp only [mode, if_pos free], inv.acquires here free⟩
      · exact ⟨w, by simp [mode, free], inv⟩

theorem Inv.intrLoop (inv : Inv w) (more : w.disk.usedIdx ≠ w.disk.used.idx) :
    ∃ transfer c call idx, w.device.completed[w.consumed]? = some transfer ∧
      w.callers c = some call ∧ call.phase = .poll idx transfer.ticket ∧
      w.disk.used.ring (w.disk.usedIdx % NUM) = idx.head ∧ (w.bufs call.b).disk = 1 ∧
      ∃ w', intrLoop w = .ok w' ∧ Inv w' ∧
        w'.bufs = update w.bufs call.b { w.bufs call.b with disk := 0 } ∧
        w'.consumed = w.consumed + 1 := by
  obtain ⟨transfer, found, ring, status, c, r, idx, here, polls, flag, head, info⟩ :=
    inv.wire.next_used more
  obtain ⟨call, caller, rfl⟩ := callers_of_req here
  refine ⟨transfer, c, call, idx, found, caller, polls, by rw [ring, head], flag,
    bumpUsed (wakeup (.buf call.b) (clearFlag call.b w)), ?_, ⟨?_, ?_, inv.running⟩, rfl, rfl⟩
  · simp only [Virtio.intrLoop, ring, status, info, ne_eq, not_true_eq_false, if_false]
  · have req := wakeup_req (.buf call.b) (clearFlag call.b w)
    exact req ▸ inv.wire.consume found here polls
  · have woken := inv.locks.wakeup (.buf call.b)
      { w.disk with usedIdx := (w.disk.usedIdx + 1) % 2 ^ 16 } (clearFlag call.b w).bufs ?_
    · exact ⟨woken.sleeplock, woken.holds, woken.holder, woken.critical, woken.loops,
        fun c' call' chan found asleep => (woken.waits c' call' chan found asleep).frame rfl id⟩
    · intro c' call' chan different _ waits
      cases waits with
      | free phase count => exact .free phase count
      | buf idx t phase set =>
        refine .buf idx t phase ?_
        have apart : call'.b ≠ call.b := fun same => different (by rw [same])
        simpa [clearFlag, apart] using set

theorem Locks.handler (locks : Locks w) {i : Nat} {lock : Option Holder} {handler : Handler}
    (before : w.lock = none ∨ w.lock = some (.handler i))
    (after : (lock = none ∧ handler ≠ .loops) ∨ (lock = some (.handler i) ∧ handler = .loops)) :
    Locks { w with lock := lock, handlers := update w.handlers i handler } := by
  refine ⟨locks.sleeplock, ?_, ?_, locks.critical, ?_, fun c call chan here asleep =>
    (locks.waits c call chan here asleep).frame rfl id⟩
  · grind
  · intro c held
    rcases after with ⟨after, -⟩ | ⟨after, -⟩ <;> simp [after] at held
  · grind

theorem Inv.handlerStep (inv : Inv w) (i : Nat) : ∃ w', handlerStep i w = .ok w' ∧ Inv w' := by
  unfold Virtio.handlerStep
  cases handler : w.handlers i with
  | idle => exact ⟨w, rfl, inv⟩
  | wants =>
    by_cases free : w.lock = none
    · refine ⟨{ w with
          lock := some (.handler i)
          handlers := update w.handlers i .loops },
        by simp only [if_pos free], inv.wire, ?_, inv.running⟩
      exact inv.locks.handler (.inl free) (.inr ⟨rfl, rfl⟩)
    · exact ⟨w, by simp [free], inv⟩
  | loops =>
    by_cases more : w.disk.usedIdx ≠ w.disk.used.idx
    · obtain ⟨-, -, -, -, -, -, -, -, -, w', result, inv', -⟩ := inv.intrLoop more
      exact ⟨w', by simp only [if_pos more, result], inv'⟩
    · refine ⟨{ w with lock := none, handlers := update w.handlers i .idle },
        by simp only [if_neg more], inv.wire, ?_, inv.running⟩
      exact inv.locks.handler (.inr ((inv.locks.loops i).mp handler)) (.inl ⟨rfl, nofun⟩)

theorem Locks.device (locks : Locks w) (d : Disk) (dev : Device) (free : d.free = w.disk.free) :
    Locks { w with disk := d, device := dev } :=
  ⟨locks.sleeplock, locks.holds, locks.holder, locks.critical, locks.loops,
    fun c call chan here asleep => (locks.waits c call chan here asleep).frame free id⟩

theorem Inv.take (inv : Inv w) : Inv (take w) := by
  unfold Virtio.take
  split_ifs with more
  · exact ⟨inv.wire.take more, inv.locks.device w.disk _ rfl, inv.running⟩
  · exact inv

theorem Inv.serve (inv : Inv w) (ticket : Nat) : Inv (serve ticket w) := by
  unfold Virtio.serve
  split
  · exact inv
  · rename_i entry found
    split
    · exact inv
    · rename_i transfer j read
      exact ⟨inv.wire.serve (List.mem_of_find?_eq_some found) read, inv.locks.device _ _ rfl,
        inv.running⟩

theorem Inv.complete (inv : Inv w) (ticket : Nat) : Inv (complete ticket w) := by
  unfold Virtio.complete
  split
  · exact inv
  · rename_i transfer found
    exact ⟨inv.wire.complete (List.mem_of_find?_eq_some found), inv.locks.device _ _ rfl,
      inv.running⟩

theorem Inv.arrives (inv : Inv w) {b : Nat} (idle : w.callers c = none)
    (free : w.sleeplock b = none) (blockno : Nat) (write : Bool) :
    Inv { w.setCall c ⟨⟨b, write, .alloc⟩, .wants⟩ with
      bufs := update w.bufs b { w.bufs b with blockno := blockno }
      sleeplock := update w.sleeplock b (some c) } := by
  have fresh : ∀ c' call, w.callers c' = some call → call.b ≠ b := by grind
  refine ⟨?_, inv.locks.set rfl (fun _ _ => Iff.rfl) inv.locks.loops (fun c' call _ old => ?_) (by simp) ?_
    nofun nofun, inv.running⟩
  · have req := setCall_req w c ⟨⟨b, write, .alloc⟩, .wants⟩
    refine req ▸ inv.wire.arrive (by simp [World.req, idle]) ?_ blockno write
    intro c' r here
    obtain ⟨call, found, rfl⟩ := callers_of_req here
    exact fresh c' call found
  · refine ⟨update_of_ne (fresh c' call old) _ _, fun chan waits => waits.frame rfl fun set => ?_⟩
    simpa only [update_of_ne (fresh c' call old)] using set
  · simp only [World.setCall, reduceCtorEq, false_iff]
    intro held
    simpa [idle] using inv.locks.holder c held

theorem Locks.killed (locks : Locks w) (here : w.callers c = some call)
    (asleep : call.mode = .asleep chan) : Locks (w.setCall c { call with mode := .wants }) := by
  have free := locks.holds c call here
  have calm := locks.critical c call here
  rw [asleep] at free calm
  exact locks.set rfl (fun _ _ => Iff.rfl) locks.loops (fun _ _ _ _ => ⟨rfl, fun _ waits => waits.frame rfl id⟩)
    (locks.sleeplock c call here) (by simpa [World.setCall] using free)
    (fun critical => by cases calm critical) nofun

theorem Inv.killed (inv : Inv w) (c : Nat) :
    Inv { w with callers := update w.callers c ((w.callers c).map Call.interrupted) } := by
  cases here : w.callers c with
  | none =>
    rw [Option.map_none, ← here, update_eq_self]
    exact inv
  | some call =>
    rw [Option.map_some]
    cases mode : call.mode with
    | asleep chan =>
      have woken : call.interrupted = { call with mode := .wants } := by
        simp [Call.interrupted, mode]
      have req : (w.setCall c { call with mode := .wants }).req = w.req :=
        setCall_req_same here rfl
      rw [woken]
      exact ⟨req ▸ inv.wire, inv.locks.killed here mode, inv.running⟩
    | _ =>
      have same : call.interrupted = call := by simp [Call.interrupted, mode]
      rw [same, ← here, update_eq_self]
      exact inv

theorem Inv.apply (inv : Inv w) (e : Event) : ∃ w', apply w e = .ok w' ∧ Inv w' := by
  cases e with
  | call c b blockno write =>
    simp only [Virtio.apply]
    split_ifs with may
    · exact ⟨_, rfl, inv.arrives may.1 may.2 blockno write⟩
    · exact ⟨w, rfl, inv⟩
  | run c => exact inv.callerStep c
  | kill c => exact ⟨_, rfl, inv.killed c⟩
  | interrupt i =>
    simp only [Virtio.apply]
    split_ifs with idle
    · refine ⟨_, rfl, inv.wire, ⟨inv.locks.sleeplock, inv.locks.holds, inv.locks.holder,
        inv.locks.critical, ?_, fun c call chan here asleep =>
          (inv.locks.waits c call chan here asleep).frame rfl id⟩, inv.running⟩
      intro j
      rw [← inv.locks.loops j]
      by_cases same : j = i
      · subst same
        simp [idle]
      · simp [same]
    · exact ⟨w, rfl, inv⟩
  | handle i => exact inv.handlerStep i
  | take => exact ⟨_, rfl, inv.take⟩
  | serve ticket => exact ⟨_, rfl, inv.serve ticket⟩
  | complete ticket => exact ⟨_, rfl, inv.complete ticket⟩

theorem Inv.step (inv : Inv w) (e : Event) : Inv (step w e) := by
  obtain ⟨w', result, inv'⟩ := inv.apply e
  simp only [Virtio.step, inv.running, Option.isSome_none, Bool.false_eq_true, if_false, result]
  exact inv'

theorem inv_init : Inv init := by
  have idle : chainOf init.req = fun _ => none := rfl
  have live : liveOf init.req = fun _ => none := rfl
  refine ⟨⟨?_, ⟨nofun, nofun, nofun⟩, ⟨rfl, le_rfl, nofun, nofun⟩, ⟨rfl, rfl, le_rfl, nofun⟩, ?_, ?_⟩,
    ⟨nofun, nofun, nofun, nofun, ?_, nofun⟩, rfl⟩
  · rw [idle]
    refine ⟨nofun, ?_, ?_, ?_⟩
    · rintro c i ⟨idx, chain, -⟩
      cases chain
    · rintro c c' i ⟨idx, chain, -⟩
      cases chain
    · intro i inside
      simp only [init, Bool.true_eq_false, false_iff, not_exists]
      rintro c ⟨idx, chain, -⟩
      cases chain
  · rw [live]
    refine ⟨nofun, nofun, ?_, nofun, nofun, List.nodup_nil, nofun, nofun, ?_⟩
    · rintro t (⟨-, short⟩ | member | member | member)
      · cases short
      all_goals cases member
    · rintro transfer (member | member) <;> cases member
  · rw [live]
    refine ⟨?_, nofun⟩
    rintro transfer (member | member) <;> cases member
  · intro i
    simp [init]

def InChain (w : World) (c i : Nat) : Prop :=
  ∃ call idx, w.callers c = some call ∧ call.phase.chain = some idx ∧ i ∈ idx.toList

structure Protocol (w : World) : Prop where
  running : w.panicked = none
  chain : ∀ c call idx, w.callers c = some call → call.phase.chain = some idx →
    idx.toList.Nodup ∧ ∀ i ∈ idx.toList, i < NUM
  linked : ∀ c call idx, w.callers c = some call → call.phase.formatted = some idx →
    (w.disk.desc idx.head).next = idx.data ∧ (w.disk.desc idx.data).next = idx.status
  partition : ∀ i, i < NUM →
    (w.disk.free i = true ∧ ∀ c, ¬ InChain w c i) ∨
    (w.disk.free i = false ∧ ∃! c, InChain w c i)
  /-- The slot about to be written holds no entry the device has yet to take. -/
  slot : ∀ c call idx, w.callers c = some call → call.phase = .post idx →
    ∀ t, w.device.taken ≤ t → t < w.submitted.length → t % NUM ≠ w.disk.avail.idx % NUM
  /-- The next iteration of a handler clears the flag of the buf whose request
  is next in the order of completion, and of no other. -/
  cleared : ∀ i, w.handlers i = .loops → w.disk.usedIdx ≠ w.disk.used.idx →
    ∃ transfer c call idx, w.device.completed[w.consumed]? = some transfer ∧
      w.callers c = some call ∧ call.phase = .poll idx transfer.ticket ∧
      w.disk.used.ring (w.disk.usedIdx % NUM) = idx.head ∧ (w.bufs call.b).disk = 1 ∧
      (step w (.handle i)).bufs =
        update w.bufs call.b { w.bufs call.b with disk := 0 } ∧
      (step w (.handle i)).consumed = w.consumed + 1
  /-- A caller about to return has had its own request carried out. -/
  returns : ∀ c call idx t, w.callers c = some call → call.phase = .finish idx t →
    ∃ transfer ∈ w.device.completed, transfer.ticket = t ∧
      transfer.For call.toRequest (w.bufs call.b).blockno
  asleep_buf : ∀ c call b, w.callers c = some call → call.mode = .asleep (.buf b) →
    (w.bufs b).disk = 1
  asleep_free : ∀ c call, w.callers c = some call → call.mode = .asleep .free →
    freeCount w.disk.free < 3

theorem owns_iff_inChain (w : World) (c i : Nat) : Owns (chainOf w.req) c i ↔ InChain w c i := by
  constructor
  · rintro ⟨idx, chain, member⟩
    obtain ⟨r, here, phase⟩ := Option.bind_eq_some_iff.mp chain
    obtain ⟨call, found, rfl⟩ := callers_of_req here
    exact ⟨call, idx, found, phase, member⟩
  · rintro ⟨call, idx, here, phase, member⟩
    exact ⟨idx, by rw [chainOf_eq (req_eq here), phase], member⟩

section
variable (inv : Inv w)
include inv

theorem Inv.partition (i : Nat) (inside : i < NUM) : (w.disk.free i = true ∧ ∀ c, ¬ InChain w c i) ∨
      (w.disk.free i = false ∧ ∃! c, InChain w c i) := by
  have busy := inv.wire.chains.busy_iff i inside
  simp only [owns_iff_inChain] at busy
  cases free : w.disk.free i with
  | true => grind
  | false =>
    obtain ⟨c, owned⟩ := busy.mp free
    refine .inr ⟨rfl, c, owned, fun c' owned' => ?_⟩
    exact inv.wire.chains.unique c' c i ((owns_iff_inChain w c' i).mpr owned')
      ((owns_iff_inChain w c i).mpr owned)

theorem Inv.cleared {i : Nat} (loops : w.handlers i = .loops)
    (more : w.disk.usedIdx ≠ w.disk.used.idx) :
    ∃ transfer c call idx, w.device.completed[w.consumed]? = some transfer ∧
      w.callers c = some call ∧ call.phase = .poll idx transfer.ticket ∧
      w.disk.used.ring (w.disk.usedIdx % NUM) = idx.head ∧ (w.bufs call.b).disk = 1 ∧
      (Virtio.step w (.handle i)).bufs =
        update w.bufs call.b { w.bufs call.b with disk := 0 } ∧
      (Virtio.step w (.handle i)).consumed = w.consumed + 1 := by
  obtain ⟨transfer, c, call, idx, found, here, polls, ring, set, w', result, -, bufs, consumed⟩ :=
    inv.intrLoop more
  have next : Virtio.step w (.handle i) = w' := by
    simp only [Virtio.step, inv.running, Option.isSome_none, Bool.false_eq_true, if_false,
      Virtio.apply, Virtio.handlerStep, loops, if_pos more, result]
  exact ⟨transfer, c, call, idx, found, here, polls, ring, set, by rw [next, bufs],
    by rw [next, consumed]⟩

theorem Inv.returns (here : w.callers c = some call)
    (phase : call.phase = .finish idx t) : ∃ transfer ∈ w.device.completed, transfer.ticket = t ∧
      transfer.For call.toRequest (w.bufs call.b).blockno := by
  have ticket : call.phase.ticket = some (idx, t) := by rw [phase]; rfl
  have live := liveOf_some (req_eq here) ticket
  obtain ⟨transfer, member, rfl⟩ := List.mem_map.mp
    (inv.wire.tickets.finished c call.toRequest idx t live phase)
  exact ⟨transfer, member, rfl,
    inv.wire.served.carried transfer (.inr member) c call.toRequest idx live ticket⟩

theorem Inv.slot (here : w.callers c = some call)
    (phase : call.phase = .post idx) (untaken : w.device.taken ≤ t)
    (submitted : t < w.submitted.length) : t % NUM ≠ w.disk.avail.idx % NUM := by
  have chain : call.phase.chain = some idx := by rw [phase]; rfl
  have spare := inv.wire.avail_spare (req_eq here) chain (by rw [phase]; rfl)
  rw [inv.wire.avail.idx]
  simp only [NUM] at spare ⊢
  omega

theorem Inv.protocol : Protocol w where
  running := inv.running
  chain c call idx here phase := by
    have chain : chainOf w.req c = some idx := by rw [chainOf_eq (req_eq here), phase]
    exact ⟨inv.wire.chains.nodup c idx chain,
      fun i member => inv.wire.chains.inside c i ⟨idx, chain, member⟩⟩
  linked c call idx here phase := by
    have formatted := inv.wire.written.formatted c call.toRequest idx (req_eq here) phase
    exact ⟨by rw [formatted.head]; rfl, by rw [formatted.data]; rfl⟩
  partition := inv.partition
  slot c call idx here phase t untaken submitted := inv.slot here phase untaken submitted
  cleared i loops more := inv.cleared loops more
  returns c call idx t here phase := inv.returns here phase
  asleep_buf c call b here asleep := by
    cases inv.locks.waits c call (.buf b) here asleep with
    | buf idx t phase set => exact set
  asleep_free c call here asleep := by
    cases inv.locks.waits c call .free here asleep with
    | free phase few => exact few

end

/-- However callers, handlers and the device interleave, and for however long,
the driver keeps its protocol. -/
theorem virtio_protocol (events : List Event) : Protocol (Machine.run step init events) :=
  (Machine.run_invariant step (fun _ e inv => inv.step e) inv_init events).protocol

/-- One write of block 7 from the call to the end of its waiting loop. -/
example :
    let w := Machine.run step init [.call 0 3 7 true, .run 0, .run 0, .run 0, .run 0, .run 0,
      .run 0, .take, .serve 0, .complete 0, .interrupt 0, .handle 0, .handle 0, .handle 0,
      .run 0, .run 0]
    (w.callers 0).map (·.phase) = some (.finish ⟨0, 1, 2⟩ 0) ∧
      w.device.completed = [⟨0, 0, VIRTIO_BLK_T_OUT, 14, 3⟩] ∧ w.lock = some (.caller 0) := by
  decide

end Xv6Lab.Virtio
