import ApexStorm.Hook.Wrappers
import ApexStorm.Timer.SetInvariant

/-!
# Calls that wait for an event

The fibers inside `do_io` or `connect_with_timeout`, the timers they arm and the
threads that run the callbacks of these timers take their steps in any order; a step
is one access to what they share. A call is a number and `spec` says what it waits
for. Its `timer_info` lives until it returns, and longer while a callback holds it.
The events of a descriptor are registered by these calls only.
-/

namespace ApexStorm.Waiting
open Lib TimerManager
open IOManager (Event)
open Hook (EINTR EAGAIN EINPROGRESS)

def ETIMEDOUT : ℤ := 110

inductive Kind
  | io | connect
  deriving DecidableEq, Repr

structure Spec where
  kind : Kind
  fd : ℤ
  event : Event
  timeout : UInt64

def Spec.key (p : Spec) : ℤ × Event := (p.fd, p.event)

inductive Cb
  | ofCall (c : ℕ)
  | other (k : ℕ)
  deriving DecidableEq, Repr

/-- A running callback of a waiting call has locked `timer_info`, then found `cancelled` to be 0,
then set it. -/
inductive Stage
  | held | unmarked | marked
  deriving DecidableEq, Repr

/-- `timer` is the pointer of the source, which is null when there is no timeout. -/
inductive Pc
  | idle | calling | arming
  | adding (timer : Option Addr)
  | parked (timer : Option Addr) (woken : Bool)
  | unwinding (timer : Option Addr) (errno : ℤ)
  | resumed (timer : Option Addr)
  | checking | probing
  | done (rt errno : ℤ)
  deriving DecidableEq, Repr

/-- What a call meets: results of the original function and of `addEvent`, whether its own timer
has fired when it goes on after the wait, the result of `getsockopt` with the error it stores and
whether the connection attempt is over by then. -/
inductive Happening
  | result (n errno : ℤ)
  | added (rt errno : ℤ)
  | resumed (fired : Bool)
  | probed (rt errno error : ℤ) (settled : Bool)
  deriving DecidableEq, Repr

/-- `cancelled` is the field of `timer_info`. The last three fields record what happened. -/
structure Frame where
  pc : Pc
  cancelled : ℤ
  history : List Happening
  fired : Bool
  settled : Bool
  deriving DecidableEq, Repr

/-- The steps of a call that touch nothing but the call. -/
inductive Move
  | start
  | original (n errno : ℤ)
  | resume
  | check
  | probe (rt errno error : ℤ)
  | settle

namespace Pc

def timer : Pc → Option Addr
  | .adding timer | .parked timer _ | .unwinding timer _ | .resumed timer => timer
  | _ => none

/-- In `YieldToHold` and not yet scheduled again. -/
def waits : Pc → Bool
  | .parked _ false => true
  | _ => false

def finished : Pc → Bool
  | .done _ _ => true
  | _ => false

end Pc

namespace Frame

def new : Frame := ⟨.idle, 0, [], false, false⟩

def goto (f : Frame) (pc : Pc) : Frame := { f with pc := pc }

def note (f : Frame) (h : Happening) (pc : Pc) : Frame :=
  { f with history := f.history ++ [h], pc := pc }

def afterResult (n errno : ℤ) : Kind → Pc
  | .io =>
    if n = -1 ∧ errno = EINTR then .calling
    else if n = -1 ∧ errno = EAGAIN then .arming
    else .done n errno
  | .connect =>
    if n = 0 then .done 0 errno
    else if n ≠ -1 ∨ errno ≠ EINPROGRESS then .done n errno
    else .arming

def afterCheck (cancelled : ℤ) : Kind → Pc
  | .io => if cancelled ≠ 0 then .done (-1) cancelled else .calling
  | .connect => if cancelled ≠ 0 then .done (-1) cancelled else .probing

def afterProbe (rt errno error : ℤ) : Pc :=
  if rt = -1 then .done (-1) errno
  else if error = 0 then .done 0 errno
  else .done (-1) error

def move (kind : Kind) (f : Frame) : Move → Option Frame
  | .start => if f.pc = .idle then some (f.goto .calling) else none
  | .original n errno =>
    if f.pc = .calling then some (f.note (.result n errno) (afterResult n errno kind)) else none
  | .resume =>
    match f.pc with
    | .parked timer true => some (f.goto (.resumed timer))
    | _ => none
  | .check =>
    if f.pc = .checking then some (f.note (.resumed f.fired) (afterCheck f.cancelled kind))
    else none
  | .probe rt errno error =>
    if f.pc = .probing then
      some (f.note (.probed rt errno error f.settled) (afterProbe rt errno error))
    else none
  | .settle => some { f with settled := true }

def add (f : Frame) (timer : Option Addr) (rt errno : ℤ) : Frame :=
  f.note (.added rt errno) (if rt = 0 then .parked timer false else .unwinding timer errno)

def afterFailure (errno : ℤ) : Kind → Pc
  | .io => .done (-1) errno
  | .connect => .probing

def unwind (kind : Kind) (f : Frame) : Option Frame :=
  match f.pc with
  | .resumed _ => some (f.goto .checking)
  | .unwinding _ errno => some (f.goto (afterFailure errno kind))
  | _ => none

/-- `triggerEvent` schedules the fiber. -/
def wake (f : Frame) : Frame :=
  match f.pc with
  | .parked timer _ => f.goto (.parked timer true)
  | _ => f

def mark (f : Frame) : Frame := { f with cancelled := ETIMEDOUT, fired := true }

end Frame

/-- `queue` holds the callbacks that `listExpiredCb` returned and no thread has started, `running`
those of waiting calls that a thread is in. -/
structure System where
  manager : TimerManager Cb
  queue : List Cb
  running : List (ℕ × Stage)
  registry : ℤ × Event → Option ℕ
  frame : ℕ → Frame

def initial (start : UInt64) : System := ⟨.new start, [], [], fun _ => none, fun _ => .new⟩

/-- `op` is a timer operation of another thread, `ready` an event that `epoll_wait` reports and
`cancelEvent` a call of another thread. `start`, `look`, `mark` and `cancel` are the steps of a
callback. -/
inductive Act
  | move (c : ℕ) (m : Move)
  | arm (c : ℕ) (a : Addr) (now : UInt64)
  | add (c : ℕ) (rt errno : ℤ)
  | cancelTimer (c : ℕ)
  | ready (key : ℤ × Event)
  | cancelEvent (key : ℤ × Event)
  | op (op : Op Cb)
  | expire (now : UInt64) (x : Addr)
  | start (cb : Cb)
  | look (c : ℕ)
  | mark (c : ℕ)
  | cancel (c : ℕ) (ok : Bool)

namespace System

def put (s : System) (c : ℕ) (f : Frame) : System :=
  { s with frame := Function.update s.frame c f }

def trigger (s : System) (key : ℤ × Event) : System :=
  match s.registry key with
  | none => s
  | some c => { s with registry := Function.update s.registry key none }.put c (s.frame c).wake

/-- `weak_ptr::lock` finds the `timer_info` of the call. -/
def alive (s : System) (c : ℕ) : Bool :=
  !(s.frame c).pc.finished || s.running.any fun r => r.1 == c

def enter (s : System) : Cb → System
  | .ofCall c => if s.alive c then { s with running := (c, .held) :: s.running } else s
  | .other _ => s

/-- A second registration of an event fails the assertion in `addEvent`. -/
def step (spec : ℕ → Spec) (s : System) : Act → Option System
  | .move c m => ((s.frame c).move (spec c).kind m).map (s.put c)
  | .arm c a now =>
    if (s.frame c).pc ≠ .arming then none
    else if (spec c).timeout = ~~~0 then some (s.put c ((s.frame c).goto (.adding none)))
    else (exec s.manager (.addTimer a now (spec c).timeout (some (.ofCall c)) false)).map fun r =>
      { s with manager := r.2 }.put c ((s.frame c).goto (.adding (some a)))
  | .add c rt errno =>
    match (s.frame c).pc with
    | .adding timer =>
      if s.registry (spec c).key ≠ none then none
      else if rt ≠ 0 then some (s.put c ((s.frame c).add timer rt errno))
      else some ({ s with registry := Function.update s.registry (spec c).key (some c) }.put c
        ((s.frame c).add timer rt errno))
    | _ => none
  | .cancelTimer c =>
    ((s.frame c).unwind (spec c).kind).bind fun f =>
      match (s.frame c).pc.timer with
      | none => some (s.put c f)
      | some a => (exec s.manager (.cancel a)).map fun r => { s with manager := r.2 }.put c f
  | .ready key =>
    match s.registry key with
    | none => none
    | some c =>
      if (spec c).kind = .connect ∧ (s.frame c).settled = false then none
      else some (s.trigger key)
  | .cancelEvent key => some (s.trigger key)
  | .op op => (exec s.manager op).map fun r => { s with manager := r.2 }
  | .expire now x => (s.manager.listExpiredCb now x).map fun r =>
      { s with manager := r.2, queue := s.queue ++ r.1.filterMap id }
  | .start cb =>
    if cb ∈ s.queue then some ({ s with queue := s.queue.erase cb }.enter cb) else none
  | .look c =>
    if (c, .held) ∉ s.running then none
    else if (s.frame c).cancelled ≠ 0 then
      some { s with running := s.running.erase (c, .held) }
    else some { s with running := (c, .unmarked) :: s.running.erase (c, .held) }
  | .mark c =>
    if (c, .unmarked) ∉ s.running then none
    else some ({ s with running := (c, .marked) :: s.running.erase (c, .unmarked) }.put c
      (s.frame c).mark)
  | .cancel c ok =>
    if (c, .marked) ∉ s.running then none
    else
      let s' := { s with running := s.running.erase (c, .marked) }
      some (if ok then s'.trigger (spec c).key else s')

/-- The call is marked as timed out and none of its callbacks is on the way to `cancelEvent`. A
callback that starts later finds the mark and returns. -/
def spent (s : System) (c : ℕ) : Bool :=
  (s.frame c).cancelled ≠ 0 ∧ (c, .unmarked) ∉ s.running ∧ (c, .marked) ∉ s.running

/-- Other threads have no pointer to the timer of a waiting call and no copy of its callback. -/
def Foreign (s : System) : Op Cb → Prop
  | .addTimer _ _ _ cb _ => ∀ c, cb ≠ some (.ofCall c)
  | .cancel a | .refresh a _ | .reset a _ _ _ | .release a => ∀ c, (s.frame c).pc.timer ≠ some a
  | .listExpiredCb _ _ => False

/-- `new` returns a free address, and `SO_ERROR` is 0 until the connection attempt is over. -/
def Enabled (spec : ℕ → Spec) (s : System) : Act → Prop
  | .arm c a _ => (spec c).timeout ≠ ~~~0 → s.manager.heap a = none
  | .op op => op.Enabled s.manager ∧ s.Foreign op
  | .expire _ x => s.manager.heap x = none
  | .move c (.probe _ _ error) => (s.frame c).settled = false → error = 0
  | _ => True

def Step (spec : ℕ → Spec) (s : System) (a : Act) (s' : System) : Prop :=
  s.Enabled spec a ∧ s.step spec a = some s'

end System

/-! ## The steps of one call -/

namespace Frame
variable {kind : Kind} {f f' : Frame}

inductive Moves (kind : Kind) (f : Frame) : Frame → Prop
  | start (h : f.pc = .idle) : Moves kind f (f.goto .calling)
  | original (n errno : ℤ) (h : f.pc = .calling) :
      Moves kind f (f.note (.result n errno) (afterResult n errno kind))
  | resume (timer : Option Addr) (h : f.pc = .parked timer true) :
      Moves kind f (f.goto (.resumed timer))
  | check (h : f.pc = .checking) :
      Moves kind f (f.note (.resumed f.fired) (afterCheck f.cancelled kind))
  | probe (rt errno error : ℤ) (h : f.pc = .probing) :
      Moves kind f (f.note (.probed rt errno error f.settled) (afterProbe rt errno error))
  | settle : Moves kind f { f with settled := true }

inductive Changes (kind : Kind) (f : Frame) : Frame → Prop
  | move {f' : Frame} (h : f.Moves kind f') : Changes kind f f'
  | arm (timer : Option Addr) (h : f.pc = .arming) : Changes kind f (f.goto (.adding timer))
  | add (timer : Option Addr) (rt errno : ℤ) (h : f.pc = .adding timer) :
      Changes kind f (f.add timer rt errno)
  | wake (timer : Option Addr) (woken : Bool) (h : f.pc = .parked timer woken) :
      Changes kind f (f.goto (.parked timer true))
  | cancelled (timer : Option Addr) (h : f.pc = .resumed timer) : Changes kind f (f.goto .checking)
  | failed (timer : Option Addr) (errno : ℤ) (h : f.pc = .unwinding timer errno) :
      Changes kind f (f.goto (afterFailure errno kind))

theorem Moves.of_move {m : Move} (h : f.move kind m = some f') : f.Moves kind f' := by
  cases m with
  | start =>
    obtain ⟨hpc, he⟩ := Option.ite_none_right_eq_some.mp h
    cases he
    exact .start hpc
  | original n errno =>
    obtain ⟨hpc, he⟩ := Option.ite_none_right_eq_some.mp h
    cases he
    exact .original n errno hpc
  | resume =>
    rw [move] at h
    split at h
    next timer hpc =>
      cases h
      exact .resume timer hpc
    · cases h
  | check =>
    obtain ⟨hpc, he⟩ := Option.ite_none_right_eq_some.mp h
    cases he
    exact .check hpc
  | probe rt errno error =>
    obtain ⟨hpc, he⟩ := Option.ite_none_right_eq_some.mp h
    cases he
    exact .probe rt errno error hpc
  | settle =>
    cases h
    exact .settle

theorem afterResult_keeps (n errno : ℤ) (kind : Kind) :
    (afterResult n errno kind).timer = none ∧ (afterResult n errno kind).waits = false := by
  cases kind <;> simp only [afterResult] <;> split_ifs <;> exact ⟨rfl, rfl⟩

theorem afterCheck_keeps (cancelled : ℤ) (kind : Kind) :
    (afterCheck cancelled kind).timer = none ∧ (afterCheck cancelled kind).waits = false := by
  cases kind <;> simp only [afterCheck] <;> split_ifs <;> exact ⟨rfl, rfl⟩

theorem afterProbe_keeps (rt errno error : ℤ) :
    (afterProbe rt errno error).timer = none ∧ (afterProbe rt errno error).waits = false := by
  simp only [afterProbe]
  split_ifs <;> exact ⟨rfl, rfl⟩

theorem Moves.keeps (h : f.Moves kind f') :
    f'.pc.timer = f.pc.timer ∧ f'.pc.waits = f.pc.waits := by
  cases h with
  | start hpc => rw [hpc]; exact ⟨rfl, rfl⟩
  | original n errno hpc => rw [hpc]; exact afterResult_keeps n errno kind
  | resume timer hpc => rw [hpc]; exact ⟨rfl, rfl⟩
  | check hpc => rw [hpc]; exact afterCheck_keeps f.cancelled kind
  | probe rt errno error hpc => rw [hpc]; exact afterProbe_keeps rt errno error
  | settle => exact ⟨rfl, rfl⟩

theorem wake_changes (kind : Kind) (f : Frame) : f.wake = f ∨ f.Changes kind f.wake := by
  rw [wake]
  split
  next timer woken hpc => exact .inr (.wake timer woken hpc)
  · exact .inl rfl

theorem wake_keeps (f : Frame) : f.wake.pc.timer = f.pc.timer ∧ f.wake.cancelled = f.cancelled := by
  rw [wake]
  split
  next timer woken hpc =>
    rw [hpc]
    exact ⟨rfl, rfl⟩
  · exact ⟨rfl, rfl⟩

theorem Changes.of_unwind (h : f.unwind kind = some f') : f.Changes kind f' := by
  rw [unwind] at h
  split at h
  next timer hpc =>
    cases h
    exact .cancelled timer hpc
  next timer errno hpc =>
    cases h
    exact .failed timer errno hpc
  · cases h

theorem unwind_keeps (h : f.unwind kind = some f') :
    f'.pc.timer = none ∧ f'.pc.waits = false ∧ f.pc.waits = false := by
  rw [unwind] at h
  split at h
  next timer hpc =>
    cases h
    rw [hpc]
    exact ⟨rfl, rfl, rfl⟩
  next timer errno hpc =>
    cases h
    rw [hpc]
    cases kind <;> exact ⟨rfl, rfl, rfl⟩
  · cases h

end Frame

namespace System
variable {spec : ℕ → Spec} {s s' : System} {a : Act}

@[simp] theorem put_frame_self (s : System) (c : ℕ) (f : Frame) : (s.put c f).frame c = f :=
  Function.update_self ..

theorem put_frame_of_ne (s : System) (f : Frame) {c d : ℕ} (h : d ≠ c) :
    (s.put c f).frame d = s.frame d := Function.update_of_ne h ..

def Same (s s' : System) : Prop :=
  s'.manager = s.manager ∧ s'.registry = s.registry ∧ s'.frame = s.frame

inductive Steps (spec : ℕ → Spec) (s : System) : Act → System → Prop
  | move (c : ℕ) (m : Move) {f : Frame} (hmoves : (s.frame c).Moves (spec c).kind f) :
      Steps spec s (.move c m) (s.put c f)
  | untimed (c : ℕ) (a : Addr) (now : UInt64) (hpc : (s.frame c).pc = .arming) :
      Steps spec s (.arm c a now) (s.put c ((s.frame c).goto (.adding none)))
  | arm (c : ℕ) (a : Addr) (now : UInt64) {r : Result Cb × TimerManager Cb}
      (hpc : (s.frame c).pc = .arming) (htimeout : (spec c).timeout ≠ ~~~0)
      (hexec : exec s.manager (.addTimer a now (spec c).timeout (some (.ofCall c)) false) =
        some r) :
      Steps spec s (.arm c a now)
        ({ s with manager := r.2 }.put c ((s.frame c).goto (.adding (some a))))
  | fail (c : ℕ) (rt errno : ℤ) {timer : Option Addr} (hpc : (s.frame c).pc = .adding timer)
      (hrt : rt ≠ 0) : Steps spec s (.add c rt errno) (s.put c ((s.frame c).add timer rt errno))
  | register (c : ℕ) (errno : ℤ) {timer : Option Addr} (hpc : (s.frame c).pc = .adding timer)
      (hfree : s.registry (spec c).key = none) : Steps spec s (.add c 0 errno)
        ({ s with registry := Function.update s.registry (spec c).key (some c) }.put c
          ((s.frame c).add timer 0 errno))
  | unwind (c : ℕ) {f : Frame} (hf : (s.frame c).unwind (spec c).kind = some f)
      (htimer : (s.frame c).pc.timer = none) : Steps spec s (.cancelTimer c) (s.put c f)
  | cancelTimer (c : ℕ) {f : Frame} {a : Addr} {r : Result Cb × TimerManager Cb}
      (hf : (s.frame c).unwind (spec c).kind = some f) (htimer : (s.frame c).pc.timer = some a)
      (hexec : exec s.manager (.cancel a) = some r) :
      Steps spec s (.cancelTimer c) ({ s with manager := r.2 }.put c f)
  | op (op : Op Cb) {r : Result Cb × TimerManager Cb} (hexec : exec s.manager op = some r) :
      Steps spec s (.op op) { s with manager := r.2 }
  | expire (now : UInt64) (x : Addr) {r : List (Option Cb) × TimerManager Cb}
      (hexec : s.manager.listExpiredCb now x = some r) : Steps spec s (.expire now x)
        { s with manager := r.2, queue := s.queue ++ r.1.filterMap id }
  | start (cb : Cb) (hqueue : cb ∈ s.queue) :
      Steps spec s (.start cb) ({ s with queue := s.queue.erase cb }.enter cb)
  | giveUp (c : ℕ) (hrunning : (c, .held) ∈ s.running) (hcancelled : (s.frame c).cancelled ≠ 0) :
      Steps spec s (.look c) { s with running := s.running.erase (c, .held) }
  | look (c : ℕ) (hrunning : (c, .held) ∈ s.running) (hcancelled : (s.frame c).cancelled = 0) :
      Steps spec s (.look c)
        { s with running := (c, .unmarked) :: s.running.erase (c, .held) }
  | mark (c : ℕ) (hrunning : (c, .unmarked) ∈ s.running) : Steps spec s (.mark c)
      ({ s with running := (c, .marked) :: s.running.erase (c, .unmarked) }.put c
        (s.frame c).mark)
  | cancel (c : ℕ) (hrunning : (c, .marked) ∈ s.running) : Steps spec s (.cancel c true)
      (System.trigger { s with running := s.running.erase (c, .marked) } (spec c).key)
  | refuse (c : ℕ) (hrunning : (c, .marked) ∈ s.running) : Steps spec s (.cancel c false)
      { s with running := s.running.erase (c, .marked) }
  | ready (key : ℤ × Event) : Steps spec s (.ready key) (s.trigger key)
  | cancelEvent (key : ℤ × Event) : Steps spec s (.cancelEvent key) (s.trigger key)

theorem same_enter (s : System) (cb : Cb) (queue : List Cb) :
    Same s ({ s with queue := queue }.enter cb) := by
  cases cb with
  | ofCall c =>
    rw [enter]
    split_ifs <;> exact ⟨rfl, rfl, rfl⟩
  | other k => exact ⟨rfl, rfl, rfl⟩

theorem Steps.of_step (h : s.step spec a = some s') : Steps spec s a s' := by
  cases a with
  | move c m =>
    obtain ⟨f, hf, rfl⟩ := Option.map_eq_some_iff.mp h
    exact .move c m (.of_move hf)
  | arm c a now =>
    simp only [step] at h
    split_ifs at h with hpc htimeout
    · cases h
      exact .untimed c a now (not_not.mp hpc)
    · obtain ⟨r, hr, rfl⟩ := Option.map_eq_some_iff.mp h
      exact .arm c a now (not_not.mp hpc) htimeout hr
  | add c rt errno =>
    simp only [step] at h
    split at h
    next timer hpc =>
      split_ifs at h with hfree hrt
      · cases h
        exact .fail c rt errno hpc hrt
      · cases h
        rw [not_not] at hrt
        subst hrt
        exact .register c errno hpc (not_not.mp hfree)
    · cases h
  | cancelTimer c =>
    obtain ⟨f, hf, h⟩ := Option.bind_eq_some_iff.mp h
    split at h
    next htimer =>
      cases h
      exact .unwind c hf htimer
    next a htimer =>
      obtain ⟨r, hr, rfl⟩ := Option.map_eq_some_iff.mp h
      exact .cancelTimer c hf htimer hr
  | ready key =>
    simp only [step] at h
    split at h
    · cases h
    · split_ifs at h
      cases h
      exact .ready key
  | cancelEvent key =>
    cases h
    exact .cancelEvent key
  | op op =>
    obtain ⟨r, hr, rfl⟩ := Option.map_eq_some_iff.mp h
    exact .op op hr
  | expire now x =>
    obtain ⟨r, hr, rfl⟩ := Option.map_eq_some_iff.mp h
    exact .expire now x hr
  | start cb =>
    obtain ⟨hqueue, he⟩ := Option.ite_none_right_eq_some.mp h
    cases he
    exact .start cb hqueue
  | look c =>
    simp only [step] at h
    split_ifs at h with hrunning hcancelled
    · cases h
      exact .giveUp c hrunning hcancelled
    · cases h
      exact .look c hrunning (not_not.mp hcancelled)
  | mark c =>
    obtain ⟨hrunning, he⟩ := Option.ite_none_left_eq_some.mp h
    cases he
    exact .mark c (not_not.mp hrunning)
  | cancel c ok =>
    obtain ⟨hrunning, he⟩ := Option.ite_none_left_eq_some.mp h
    cases ok with
    | true =>
      cases he
      exact .cancel c (not_not.mp hrunning)
    | false =>
      cases he
      exact .refuse c (not_not.mp hrunning)

def Evolves (spec : ℕ → Spec) (s : System) (a : Act) (s' : System) : Prop :=
  ∀ c, s'.frame c = s.frame c ∨ (s.frame c).Changes (spec c).kind (s'.frame c) ∨
    a = .mark c ∧ (c, .unmarked) ∈ s.running ∧ s'.frame c = (s.frame c).mark

theorem Evolves.put {c : ℕ} {f : Frame} (hframe : s'.frame = s.frame)
    (h : (s.frame c).Changes (spec c).kind f) : Evolves spec s a (s'.put c f) := by
  intro d
  by_cases hd : d = c
  · subst hd
    rw [put_frame_self]
    exact .inr (.inl h)
  · rw [put_frame_of_ne _ _ hd, hframe]
    exact .inl rfl

theorem Evolves.trigger (hframe : s'.frame = s.frame) (key : ℤ × Event) :
    Evolves spec s a (s'.trigger key) := by
  intro d
  rw [System.trigger]
  split
  · exact .inl (congrFun hframe d)
  next c hc =>
    rw [hframe]
    by_cases hd : d = c
    · subst hd
      rw [put_frame_self]
      exact ((s.frame d).wake_changes (spec d).kind).imp_right .inl
    · rw [put_frame_of_ne _ _ hd]
      exact .inl rfl

theorem Evolves.of_step (h : s.step spec a = some s') : Evolves spec s a s' := by
  cases Steps.of_step h with
  | move c m hmoves => exact .put rfl (.move hmoves)
  | untimed c a now hpc => exact .put rfl (.arm none hpc)
  | arm c a now hpc htimeout hexec => exact .put rfl (.arm (some a) hpc)
  | fail c rt errno hpc hrt => exact .put rfl (.add _ rt errno hpc)
  | register c errno hpc hfree => exact .put rfl (.add _ 0 errno hpc)
  | unwind c hf htimer => exact .put rfl (.of_unwind hf)
  | cancelTimer c hf htimer hexec => exact .put rfl (.of_unwind hf)
  | op op hexec => exact fun c => .inl rfl
  | expire now x hexec => exact fun c => .inl rfl
  | start cb hqueue => exact fun c => .inl (congrFun (s.same_enter cb _).2.2 c)
  | giveUp c hrunning hcancelled => exact fun c => .inl rfl
  | look c hrunning hcancelled => exact fun c => .inl rfl
  | mark c hrunning =>
    intro d
    by_cases hd : d = c
    · subst hd
      exact .inr (.inr ⟨rfl, hrunning, put_frame_self ..⟩)
    · rw [put_frame_of_ne _ _ hd]
      exact .inl rfl
  | cancel c hrunning =>
    have hframe : System.frame { s with running := s.running.erase (c, .marked) } = s.frame := rfl
    exact .trigger hframe (spec c).key
  | refuse c hrunning => exact fun c => .inl rfl
  | ready key => exact .trigger rfl key
  | cancelEvent key => exact .trigger rfl key

theorem frame_of_run {P : Kind → Frame → Prop} {start : UInt64} {es : List Act}
    (hrun : Run (Step spec) (initial start) es s) (hnew : ∀ kind, P kind .new)
    (hchange : ∀ kind f f', P kind f → f.Changes kind f' → P kind f')
    (hmark : ∀ kind f, P kind f → P kind f.mark) (c : ℕ) : P (spec c).kind (s.frame c) := by
  refine hrun.invariant (P := fun s => ∀ c, P (spec c).kind (s.frame c)) ?_ ?_ c
  · intro s a s' hs hstep d
    rcases Evolves.of_step hstep.2 d with hsame | hchanged | ⟨-, -, hmarked⟩
    · rw [hsame]
      exact hs d
    · exact hchange _ _ _ (hs d) hchanged
    · rw [hmarked]
      exact hmark _ _ (hs d)
  · exact fun c => hnew _

end System

end ApexStorm.Waiting
