import ApexStorm.Scheduler.Basic
import ApexStorm.Lib.Coroutine

/-!
# Fibers as saved contexts

One thread with its fibers, at the level of `fiber.cpp`: a `ucontext_t` holds where
its fiber continues, `swapcontext` stores the running continuation in one fiber and
loads that of another, and `t_fiber`, `t_threadFiber` and the scheduler's main fiber
decide which two fibers these are. User code is given by the instruction at each of
its positions.
-/

namespace ApexStorm.Context
open Scheduler (FiberId State)
open Lib.Coroutine (Label)

variable {κ ε : Type}

/-- The root fiber of the thread; `++s_fiber_id` starts with 1. -/
abbrev rootId : FiberId := 0

inductive Instr (κ ε : Type)
  | act (e : ε) (k : κ)
  | yieldToReady (k : κ)
  | yieldToHold (k : κ)
  | swapIn (f : FiberId) (k : κ)
  | call (f : FiberId) (k : κ)
  | reset (f : FiberId) (cb : Option κ) (k : κ)
  | ret
  | throw

/-- Where a context continues. `useCaller` tells `CallerMainFunc` from `MainFunc`. -/
inductive Ctx (κ : Type)
  -- the thread's own code, below every fiber
  | routine (k : κ)
  -- as `makecontext` leaves it
  | entry (useCaller : Bool)
  -- inside `cur->m_cb()`
  | callback (cur : FiberId) (useCaller : Bool) (k : κ)
  -- behind the last switch, before the assertion that fails
  | neverReach

structure Fiber (κ : Type) where
  state : State
  ctx : Ctx κ
  cb : Option κ
  stack : Bool

def Fiber.root (pc : Ctx κ) : Fiber κ := ⟨.exec, pc, none, false⟩

def Fiber.new (cb : Option κ) (useCaller : Bool) : Fiber κ := ⟨.init, .entry useCaller, cb, true⟩

structure Thread (κ : Type) where
  fibers : FiberId → Fiber κ
  tFiber : Option FiberId
  threadFiber : Option FiberId
  -- `Scheduler::GetMainFiber()`
  mainFiber : Option FiberId
  pc : Ctx κ

namespace Thread
variable (s : Thread κ)

def modify (f : FiberId) (u : Fiber κ → Fiber κ) : Thread κ :=
  { s with fibers := Function.update s.fibers f (u (s.fibers f)) }

def setState (f : FiberId) (st : State) : Thread κ := s.modify f ({ · with state := st })

def setThis (f : FiberId) : Thread κ := { s with tFiber := some f }

def getThis : FiberId × Thread κ :=
  match s.tFiber with
  | some f => (f, s)
  | none =>
    (rootId,
      { s with
        fibers := Function.update s.fibers rootId (.root s.pc)
        tFiber := some rootId
        threadFiber := some rootId })

def getFiberId : FiberId := s.tFiber.getD 0

/-- `swapcontext(&save->m_ctx, &load->m_ctx)`, called where `k` is what follows. -/
def swapcontext (save load : FiberId) (k : Ctx κ) : Thread κ :=
  let s := s.modify save ({ · with ctx := k })
  { s with pc := (s.fibers load).ctx }

-- `none` is a failed assertion or a null pointer that is followed.

def call (f : FiberId) (k : Ctx κ) : Option (Thread κ) := do
  let s := (s.setThis f).setState f .exec
  let thread ← s.threadFiber
  return s.swapcontext thread f k

def back (f : FiberId) (k : Ctx κ) : Option (Thread κ) := do
  let thread ← s.threadFiber
  return (s.setThis thread).swapcontext f thread k

def swapIn (f : FiberId) (k : Ctx κ) : Option (Thread κ) :=
  let s := s.setThis f
  if (s.fibers f).state = .exec then none
  else do
    let s := s.setState f .exec
    let main ← s.mainFiber
    return s.swapcontext main f k

def swapOut (f : FiberId) (k : Ctx κ) : Option (Thread κ) := do
  let main ← s.mainFiber
  return (s.setThis main).swapcontext f main k

def yieldTo (st : State) (k : Ctx κ) : Option (Thread κ) :=
  let (cur, s) := s.getThis
  let s := s.setState cur st
  if s.mainFiber.isSome then s.swapOut cur k else s.back cur k

def yieldToReady : Ctx κ → Option (Thread κ) := s.yieldTo .ready

def yieldToHold : Ctx κ → Option (Thread κ) := s.yieldTo .hold

/-- `reset` prepares `MainFunc` whatever the fiber was constructed for. -/
def reset (f : FiberId) (cb : Option κ) : Option (Thread κ) :=
  let fiber := s.fibers f
  if fiber.stack ∧ (fiber.state = .term ∨ fiber.state = .init ∨ fiber.state = .except) then
    some (s.modify f fun fiber => { fiber with cb, ctx := .entry false, state := .init })
  else none

/-- The tail of `MainFunc` and `CallerMainFunc`, once the callback has returned or thrown. -/
def leave (cur : FiberId) (useCaller : Bool) : Option (Thread κ) :=
  if useCaller then s.back cur .neverReach
  else if s.mainFiber.isSome then s.swapOut cur .neverReach
  else if s.threadFiber.isSome then s.back cur .neverReach
  else none

def returned (cur : FiberId) (useCaller : Bool) : Option (Thread κ) :=
  (s.modify cur fun fiber => { fiber with cb := none, state := .term }).leave cur useCaller

def thrown (cur : FiberId) (useCaller : Bool) : Option (Thread κ) :=
  (s.setState cur .except).leave cur useCaller

/-- `MainFunc` up to its callback. Calling an empty `std::function` throws. -/
def enter (useCaller : Bool) : Option (Thread κ) :=
  let (cur, s) := s.getThis
  match (s.fibers cur).cb with
  | some k => some { s with pc := .callback cur useCaller k }
  | none => s.thrown cur useCaller

def exec (go : κ → Ctx κ) : Instr κ ε → Option (Label FiberId κ ε × Thread κ)
  | .act e k => some (.event s.getFiberId e, { s with pc := go k })
  | .yieldToReady k => (s.yieldToReady (go k)).map (.tau, ·)
  | .yieldToHold k => (s.yieldToHold (go k)).map (.tau, ·)
  | .swapIn f k => (s.swapIn f (go k)).map (.tau, ·)
  | .call f k => (s.call f (go k)).map (.tau, ·)
  | .reset f cb k => (s.reset f cb).map fun s => (.restart f cb, { s with pc := go k })
  | .ret | .throw => none

def step (next : κ → Instr κ ε) : Option (Label FiberId κ ε × Thread κ) :=
  match s.pc with
  | .routine k => s.exec .routine (next k)
  | .entry useCaller => (s.enter useCaller).map (.tau, ·)
  | .callback cur useCaller k =>
    match next k with
    | .ret => (s.returned cur useCaller).map (.tau, ·)
    | .throw => (s.thrown cur useCaller).map (.tau, ·)
    | i => s.exec (.callback cur useCaller) i
  | .neverReach => none

/-- A thread at position `k` of its code that has called `GetThis`, where `cbs` are the
callbacks of the fibers and `main` is the scheduler's main fiber. Only a main fiber
other than the root fiber is constructed with `use_caller`. -/
def start (main : Option FiberId) (cbs : FiberId → Option κ) (k : κ) : Thread κ :=
  (getThis
    { fibers := fun f => .new (cbs f) (decide (main = some f))
      tFiber := none
      threadFiber := none
      mainFiber := main
      pc := .routine k }).2

end Thread

end ApexStorm.Context
