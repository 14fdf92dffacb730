import ApexStorm.Lib.Run

/-!
# The scheduler as a step relation

`n` workers execute `Scheduler::run` on one queue. A step is the locked search of
the queue, a call of `schedule`, one read or write of `Fiber::m_state` or one
context switch, so a worker's program counter stands between two of these. The
code of a fiber is not fixed: it may register itself with an event or a timer, and
yields, returns or throws at any moment. Each event fires at most once, at any
moment after the registration, and schedules the fiber it holds.
-/

namespace ApexStorm.Scheduler

abbrev FiberId := ℕ

inductive State
  | init | hold | exec | term | ready | except
  deriving DecidableEq, Repr

inductive Task
  | fiber (f : FiberId)
  | cb (c : ℕ)
  deriving DecidableEq, Repr

structure FiberAndThread where
  task : Task
  thread : Option ℕ
  deriving DecidableEq, Repr

/-- The branch of `run` that switched to the fiber. -/
inductive Role
  | task | callback | idle
  deriving DecidableEq, Repr

inductive ResetPoint
  | isTerm | isInit | isExcept | write
  deriving DecidableEq, Repr

inductive Point
  | checkTerm | checkExcept
  | prepare (p : ResetPoint)
  | assertNotExec | writeExec | switchIn
  | user (registered : Bool)
  | switchOut
  | decrement | readReady | reschedule | readTerm | readExcept | writeHold
  | clear (p : ResetPoint)
  deriving DecidableEq, Repr

inductive Pc
  | scan
  | dropped
  | setup (c : ℕ)
  | idleCheck
  | inside (f : FiberId) (r : Role) (p : Point)
  | exited
  deriving DecidableEq, Repr

structure System (n : ℕ) where
  queue : List FiberAndThread
  state : FiberId → State
  pc : Fin n → Pc
  cbFiber : Fin n → Option FiberId
  armed : List FiberId
  fresh : FiberId
  activeThreadCount : ℕ
  idleThreadCount : ℕ
  autoStop : Bool
  stopFlag : Bool
  aborted : Bool

namespace System
variable {n : ℕ}

def idleFiber (w : Fin n) : FiberId := w

def initial (n : ℕ) : System n where
  queue := []
  state := fun _ => .init
  pc := fun _ => .scan
  cbFiber := fun _ => none
  armed := []
  fresh := n
  activeThreadCount := 0
  idleThreadCount := 0
  autoStop := false
  stopFlag := false
  aborted := false

def goto (s : System n) (w : Fin n) (p : Pc) : System n :=
  { s with pc := Function.update s.pc w p }

def write (s : System n) (f : FiberId) (x : State) : System n :=
  { s with state := Function.update s.state f x }

def setCbFiber (s : System n) (w : Fin n) (c : Option FiberId) : System n :=
  { s with cbFiber := Function.update s.cbFiber w c }

def schedule (s : System n) (task : Option Task) (thread : Option ℕ) : System n :=
  match task with
  | none => s
  | some t => { s with queue := s.queue ++ [⟨t, thread⟩] }

def stopping (s : System n) : Bool :=
  s.autoStop && s.stopFlag && s.queue.isEmpty && s.activeThreadCount == 0

/-- The entries that worker `w` passes over in its search. -/
def skips (s : System n) (w : Fin n) (e : FiberAndThread) : Bool :=
  (match e.thread with
    | none => false
    | some t => t != w) ||
  match e.task with
  | .fiber f => s.state f == .exec
  | .cb _ => false

def takeFirst (skip : FiberAndThread → Bool) :
    List FiberAndThread → Option (FiberAndThread × List FiberAndThread)
  | [] => none
  | e :: q =>
    if skip e then (takeFirst skip q).map fun r => (r.1, e :: r.2) else some (e, q)

def dequeue (s : System n) (w : Fin n) : Option (FiberAndThread × List FiberAndThread) :=
  takeFirst (s.skips w) s.queue

/-- The state check and the write of `Fiber::reset`, which goes on to `next`. -/
def workReset (s : System n) (w : Fin n) (f : FiberId) (here : ResetPoint → Pc) (next : Pc) :
    ResetPoint → System n
  | .isTerm => s.goto w (here (if s.state f = .term then .write else .isInit))
  | .isInit => s.goto w (here (if s.state f = .init then .write else .isExcept))
  | .isExcept =>
    if s.state f = .except then s.goto w (here .write) else { s with aborted := true }
  | .write => (s.write f .init).goto w next

def workInside (s : System n) (w : Fin n) (f : FiberId) (r : Role) : Point → Option (System n)
  | .checkTerm =>
    some (s.goto w (if s.state f = .term then .dropped else .inside f r .checkExcept))
  | .checkExcept =>
    some (s.goto w (if s.state f = .except then .dropped else .inside f r .assertNotExec))
  | .prepare p =>
    some (s.workReset w f (fun p => .inside f r (.prepare p)) (.inside f r .assertNotExec) p)
  | .assertNotExec =>
    if s.state f = .exec then some { s with aborted := true }
    else some (s.goto w (.inside f r .writeExec))
  | .writeExec => some ((s.write f .exec).goto w (.inside f r .switchIn))
  | .switchIn => some (s.goto w (.inside f r (.user false)))
  | .user _ => none
  | .switchOut => some (s.goto w (.inside f r .decrement))
  | .decrement =>
    match r with
    | .idle =>
      some ({ s with idleThreadCount := s.idleThreadCount - 1 }.goto w (.inside f r .readTerm))
    | _ =>
      some ({ s with activeThreadCount := s.activeThreadCount - 1 }.goto w
        (.inside f r .readReady))
  | .readReady =>
    let next := if r = .callback then Point.readExcept else .readTerm
    some (s.goto w (.inside f r (if s.state f = .ready then .reschedule else next)))
  | .reschedule =>
    match r with
    | .task => some ((s.schedule (some (.fiber f)) none).goto w .scan)
    | .callback => some (((s.schedule (some (.fiber f)) none).setCbFiber w none).goto w .scan)
    | .idle => none
  | .readTerm =>
    match r with
    | .callback =>
      some (s.goto w (.inside f r (if s.state f = .term then .clear .isTerm else .writeHold)))
    | _ => some (s.goto w (if s.state f = .term then .scan else .inside f r .readExcept))
  | .readExcept =>
    match r with
    | .callback =>
      some (s.goto w (.inside f r (if s.state f = .except then .clear .isTerm else .readTerm)))
    | _ => some (s.goto w (if s.state f = .except then .scan else .inside f r .writeHold))
  | .writeHold =>
    match r with
    | .callback => some (((s.write f .hold).setCbFiber w none).goto w .scan)
    | _ => some ((s.write f .hold).goto w .scan)
  | .clear p => some (s.workReset w f (fun p => .inside f r (.clear p)) .scan p)

def work (s : System n) (w : Fin n) : Option (System n) :=
  match s.pc w with
  | .scan =>
    match s.dequeue w with
    | none => some (s.goto w .idleCheck)
    | some (⟨.fiber f, _⟩, rest) =>
      some ({ s with queue := rest, activeThreadCount := s.activeThreadCount + 1 }.goto w
        (.inside f .task .checkTerm))
    | some (⟨.cb c, _⟩, rest) =>
      some ({ s with queue := rest, activeThreadCount := s.activeThreadCount + 1 }.goto w
        (.setup c))
  | .dropped => some ({ s with activeThreadCount := s.activeThreadCount - 1 }.goto w .scan)
  | .setup _ =>
    match s.cbFiber w with
    | some g => some (s.goto w (.inside g .callback (.prepare .isTerm)))
    | none =>
      some ((({ s with fresh := s.fresh + 1 }.write s.fresh .init).setCbFiber w
        (some s.fresh)).goto w (.inside s.fresh .callback .assertNotExec))
  | .idleCheck =>
    if s.state (idleFiber w) = .term then some (s.goto w .exited)
    else
      some ({ s with idleThreadCount := s.idleThreadCount + 1 }.goto w
        (.inside (idleFiber w) .idle .assertNotExec))
  | .inside f r p => s.workInside w f r p
  | .exited => none

inductive UserAct
  | register | yieldToHold | yieldToReady | finish | throw | swapOut
  deriving DecidableEq, Repr

/-- What the code of the fiber running on `w` does next. A fiber that has registered yields to
hold; the idle fiber yields, or leaves with its state unchanged as in `IOManager::idle`, and
returns once the scheduler may stop. -/
def user (s : System n) (w : Fin n) (a : UserAct) : Option (System n) :=
  match s.pc w with
  | .inside f r (.user registered) =>
    let out := Pc.inside f r .switchOut
    match a, r, registered with
    | .yieldToHold, _, _ => some ((s.write f .hold).goto w out)
    | .swapOut, .idle, _ => some (s.goto w out)
    | .finish, .idle, false =>
      if s.stopping then some ((s.write f .term).goto w out) else none
    | _, .idle, _ => none
    | .register, _, false =>
      some ({ s with armed := s.armed ++ [f] }.goto w (.inside f r (.user true)))
    | .yieldToReady, _, false => some ((s.write f .ready).goto w out)
    | .finish, _, false => some ((s.write f .term).goto w out)
    | .throw, _, false => some ((s.write f .except).goto w out)
    | _, _, _ => none
  | _ => none

/-- An event or a timer that holds fiber `f` fires. -/
def trigger (s : System n) (f : FiberId) : Option (System n) :=
  if f ∈ s.armed then some ({ s with armed := s.armed.erase f }.schedule (some (.fiber f)) none)
  else none

inductive Job
  | nothing
  | callback (c : ℕ)
  | newFiber
  deriving DecidableEq, Repr

def submit (s : System n) (job : Job) (thread : Option ℕ) : System n :=
  match job with
  | .nothing => s.schedule none thread
  | .callback c => s.schedule (some (.cb c)) thread
  | .newFiber =>
    ({ s with fresh := s.fresh + 1 }.write s.fresh .init).schedule (some (.fiber s.fresh)) thread

end System

inductive Action (n : ℕ)
  | work (w : Fin n)
  | user (w : Fin n) (a : System.UserAct)
  | trigger (f : FiberId)
  | submit (job : System.Job) (thread : Option ℕ)
  | stop
  deriving DecidableEq, Repr

def step {n : ℕ} (s : System n) (a : Action n) : Option (System n) :=
  if s.aborted then none
  else
    match a with
    | .work w => s.work w
    | .user w a => s.user w a
    | .trigger f => s.trigger f
    | .submit job thread => some (s.submit job thread)
    | .stop => some { s with autoStop := true, stopFlag := true }

/-- The context of `f` is the one that executes on worker `w`. -/
def Active {n : ℕ} (s : System n) (w : Fin n) (f : FiberId) : Prop :=
  ∃ r, s.pc w = .inside f r .switchOut ∨ ∃ b, s.pc w = .inside f r (.user b)

end ApexStorm.Scheduler
