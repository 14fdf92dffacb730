import ApexStorm.Lib.Run
import ApexStorm.Scheduler.Basic

/-!
# Event registrations of `IOManager`

Each call runs atomically under the lock of its descriptor. The result of every
`epoll_ctl` is an argument of the call, and so is the word `epevent.events` where
the source leaves it uninitialised. `epoll` is the kernel's interest map, changed by
the calls of `epoll_ctl` that succeed, and `scheduled` lists what `schedule` was
given. A call returns `none` when an assertion fails, an access is out of range or
a null scheduler is called.
-/

namespace ApexStorm
open Scheduler (Task)

namespace IOManager

inductive Event
  | read | write
  deriving DecidableEq, Repr

def Event.mask : Event → UInt32
  | .read => 0x1
  | .write => 0x4

def EPOLLIN : UInt32 := 0x1
def EPOLLOUT : UInt32 := 0x4
def EPOLLERR : UInt32 := 0x8
def EPOLLHUP : UInt32 := 0x10
def EPOLLET : UInt32 := 0x80000000

structure EventContext where
  scheduler : Option ℕ
  fiber : Option ℕ
  cb : Option ℕ
  deriving DecidableEq, Repr

def EventContext.empty : EventContext := ⟨none, none, none⟩

structure FdContext where
  read : EventContext
  write : EventContext
  fd : ℤ
  events : UInt32
  deriving DecidableEq, Repr

def toInt (n : ℕ) : ℤ := Int.bmod n (2 ^ 32)

theorem toInt_of_lt {n : ℕ} (h : n < 2 ^ 31) : toInt n = n := by
  apply Int.bmod_eq_of_le
  · omega
  · omega

theorem toInt_of_ge {n : ℕ} (hge : 2 ^ 31 ≤ n) (hlt : n < 2 ^ 32) : toInt n = n - 2 ^ 32 := by
  have hsub : toInt n = Int.bmod ((n : ℤ) - (2 ^ 32 : ℕ)) (2 ^ 32) :=
    (Int.sub_bmod_right _ _).symm
  rw [hsub]
  apply Int.bmod_eq_of_le
  · omega
  · omega

namespace FdContext

def new (i : ℕ) : FdContext := ⟨.empty, .empty, toInt i, 0⟩

def getContext (c : FdContext) : Event → EventContext
  | .read => c.read
  | .write => c.write

def setContext (c : FdContext) (event : Event) (x : EventContext) : FdContext :=
  match event with
  | .read => { c with read := x }
  | .write => { c with write := x }

def resetContext (c : FdContext) (event : Event) : FdContext := c.setContext event .empty

/-- `schedule(&ctx.cb)` and `schedule(&ctx.fiber)` swap the task out of the context. -/
def triggerEvent (c : FdContext) (event : Event) : Option (FdContext × List (ℕ × Task)) :=
  if c.events &&& event.mask = 0 then none
  else
    let c := { c with events := c.events &&& ~~~event.mask }
    let ctx := c.getContext event
    match ctx.scheduler, ctx.cb, ctx.fiber with
    | none, _, _ => none
    | some s, some f, _ =>
      some (c.setContext event { ctx with scheduler := none, cb := none }, [(s, .cb f)])
    | some s, none, some f =>
      some (c.setContext event { ctx with scheduler := none, fiber := none }, [(s, .fiber f)])
    | some _, none, none => some (c.setContext event { ctx with scheduler := none }, [])

end FdContext

inductive CtlOp
  | add | mod | del
  deriving DecidableEq, Repr

end IOManager

open IOManager in
structure IOManager where
  fdContexts : List FdContext
  pendingEventCount : UInt64
  epoll : ℤ → Option UInt32
  scheduled : List (ℕ × Task)

namespace IOManager

def contextResize (contexts : List FdContext) (size : ℕ) : List FdContext :=
  contexts.take size ++ (List.range' contexts.length (size - contexts.length)).map FdContext.new

/-- The manager's own pipe is the only entry of the interest map at the start. -/
def initial (tickleFd : ℤ) : IOManager where
  fdContexts := contextResize [] 32
  pendingEventCount := 0
  epoll := Function.update (fun _ => none) tickleFd (some (EPOLLIN ||| EPOLLET))
  scheduled := []

def epollCtl (m : IOManager) (op : CtlOp) (fd : ℤ) (events : UInt32) : IOManager :=
  match op with
  | .add | .mod => { m with epoll := Function.update m.epoll fd (some events) }
  | .del => { m with epoll := Function.update m.epoll fd none }

def setFdContext (m : IOManager) (i : ℕ) (c : FdContext) : IOManager :=
  { m with fdContexts := m.fdContexts.set i c }

/-- What `addEvent` finds out about its caller: `Scheduler::GetThis()`, `Fiber::GetThis()` and
whether that fiber is in state `EXEC`. -/
structure Caller where
  scheduler : Option ℕ
  fiber : ℕ
  exec : Bool
  deriving DecidableEq, Repr

def register (ctx : EventContext) (caller : Caller) (cb : Option ℕ) : Option EventContext :=
  match cb with
  | some f => some { ctx with scheduler := caller.scheduler, cb := some f }
  | none =>
    if caller.exec then
      some { ctx with scheduler := caller.scheduler, fiber := some caller.fiber }
    else none

def reserve (m : IOManager) (fd : ℕ) : IOManager :=
  if toInt m.fdContexts.length > fd then m
  else { m with fdContexts := contextResize m.fdContexts (fd * 3 / 2) }

def addEvent (m : IOManager) (fd : ℕ) (event : Event) (cb : Option ℕ) (caller : Caller)
    (ok : Bool) : Option (ℤ × IOManager) := do
  let m := m.reserve fd
  let c ← m.fdContexts[fd]?
  if c.events &&& event.mask ≠ 0 then none
  else
    let op := if c.events ≠ 0 then CtlOp.mod else .add
    if ok = false then return (-1, m)
    else
      let m := m.epollCtl op fd (EPOLLET ||| c.events ||| event.mask)
      let m := { m with pendingEventCount := m.pendingEventCount + 1 }
      let c := { c with events := c.events ||| event.mask }
      let ctx := c.getContext event
      if ctx ≠ .empty then none
      else
        let ctx ← register ctx caller cb
        return (0, m.setFdContext fd (c.setContext event ctx))

/-- The prologue that `delEvent` and `cancelEvent` share: the context and the remaining events,
or the answer `false`. -/
def removal (m : IOManager) (fd : ℕ) (event : Event) : Option (Option (FdContext × UInt32)) :=
  if toInt m.fdContexts.length ≤ fd then some none
  else
    match m.fdContexts[fd]? with
    | none => none
    | some c =>
      if c.events &&& event.mask = 0 then some none
      else some (some (c, c.events &&& ~~~event.mask))

def delEvent (m : IOManager) (fd : ℕ) (event : Event) (garbage : UInt32) (ok : Bool) :
    Option (Bool × IOManager) := do
  match ← m.removal fd event with
  | none => return (false, m)
  | some (c, new_events) =>
    let op := if new_events ≠ 0 then CtlOp.mod else .del
    if ok = false then return (false, m)
    else
      let m := m.epollCtl op fd garbage
      let m := { m with pendingEventCount := m.pendingEventCount - 1 }
      return (true, m.setFdContext fd ({ c with events := new_events }.resetContext event))

def trigger (m : IOManager) (fd : ℕ) (event : Event) : Option IOManager := do
  let c ← m.fdContexts[fd]?
  let (c, tasks) ← c.triggerEvent event
  return { m.setFdContext fd c with
    scheduled := m.scheduled ++ tasks
    pendingEventCount := m.pendingEventCount - 1 }

def cancelEvent (m : IOManager) (fd : ℕ) (event : Event) (garbage : UInt32) (ok : Bool) :
    Option (Bool × IOManager) := do
  match ← m.removal fd event with
  | none => return (false, m)
  | some (_, new_events) =>
    let op := if new_events ≠ 0 then CtlOp.mod else .del
    if ok = false then return (false, m)
    else
      let m ← (m.epollCtl op fd garbage).trigger fd event
      return (true, m)

def triggerIf (m : IOManager) (fd : ℕ) (event : Event) (events : UInt32) : Option IOManager :=
  if events &&& event.mask ≠ 0 then m.trigger fd event else some m

def cancelAll (m : IOManager) (fd : ℕ) (ok : Bool) : Option (Bool × IOManager) := do
  if toInt m.fdContexts.length ≤ fd then return (false, m)
  else
    let c ← m.fdContexts[fd]?
    if c.events = 0 then return (false, m)
    else if ok = false then return (false, m)
    else
      let m := m.epollCtl .del fd 0
      let m ← m.triggerIf fd .read c.events
      let c ← m.fdContexts[fd]?
      let m ← m.triggerIf fd .write c.events
      let c ← m.fdContexts[fd]?
      if c.events ≠ 0 then none else return (true, m)

/-- The pointer stored in `epoll_event::data`, or the descriptor of the manager's own pipe. -/
inductive EpollData
  | tickle
  | ptr (fd : ℕ)
  deriving DecidableEq, Repr

structure EpollEvent where
  events : UInt32
  data : EpollData
  deriving DecidableEq, Repr

def realEvents (flags : UInt32) : UInt32 :=
  (if flags &&& EPOLLIN ≠ 0 then Event.read.mask else 0) |||
    (if flags &&& EPOLLOUT ≠ 0 then Event.write.mask else 0)

/-- The part of the loop of `idle` from the comparison with `real_events` on. The first component
is what `event.events` is set to, if it is. -/
def handle (m : IOManager) (fd : ℕ) (real_events : UInt32) (ok : Bool) :
    Option (Option UInt32 × IOManager) := do
  let c ← m.fdContexts[fd]?
  if c.events &&& real_events = 0 then return (none, m)
  else
    let rest_events := c.events &&& ~~~real_events
    let op := if rest_events ≠ 0 then CtlOp.mod else .del
    let flags := EPOLLET ||| rest_events
    if ok = false then return (some flags, m)
    else
      let m := m.epollCtl op c.fd flags
      let m ← m.triggerIf fd .read real_events
      let m ← m.triggerIf fd .write real_events
      return (some flags, m)

/-- One round of the loop of `idle`: entry `i` of the array filled by `epoll_wait`. The source
reads `events->events`, which is the entry of index `0`. -/
def dispatchEntry (m : IOManager) (events : List EpollEvent) (i : ℕ) (ok : Bool) :
    Option (List EpollEvent × IOManager) := do
  let event ← events[i]?
  match event.data with
  | .tickle => return (events, m)
  | .ptr fd =>
    let c ← m.fdContexts[fd]?
    let event := if event.events &&& (EPOLLERR ||| EPOLLHUP) ≠ 0 then
      { event with events := event.events ||| (EPOLLIN ||| EPOLLOUT) &&& c.events } else event
    let events := events.set i event
    let first ← events[0]?
    match ← m.handle fd (realEvents first.events) ok with
    | (none, m) => return (events, m)
    | (some flags, m) => return (events.set i { event with events := flags }, m)

/-- The loop of `idle` from index `i` on. For each round the state of the manager at the moment the
descriptor's lock is taken is given, since other threads run between the rounds. -/
def dispatch (events : List EpollEvent) (i : ℕ) : List (IOManager × Bool) → Option (List IOManager)
  | [] => some []
  | (m, ok) :: rounds => do
    let (events, m') ← m.dispatchEntry events i ok
    let ms ← dispatch events (i + 1) rounds
    return m' :: ms

end IOManager
end ApexStorm
