import ApexStorm.Scheduler.Exclusion

/-!
# One worker and the callbacks of its fibers

The worker is that of the scheduler's step relation. Beside it stand what
`Fiber::MainFunc` runs on: `m_cb`, where `m_ctx` continues, and the callback in the
worker's local `ft`. Any thread may schedule any fiber that exists, as often as it
likes and at any moment, so a handle of the callback fiber can outlive the callback
it was made for: resumed through such a handle the fiber has no `m_cb` and throws.
The log is a history variable.
-/

namespace ApexStorm.Scheduler
open Lib

/-- Where `m_ctx` continues: before `MainFunc` calls `m_cb`, inside that call, or at the
assertion behind its last `swapOut`. -/
inductive Context
  | entry | inside | left
  deriving DecidableEq, Repr

inductive Note
  | scheduled (task : Task)
  | created (c : ℕ)
  | started (c : ℕ)
  | swapIn (f : FiberId) (r : Role) (x : State)
  | yieldToReady (f : FiberId)
  | requeued (f : FiberId)
  deriving DecidableEq, Repr

structure Machine where
  sys : System 1
  cb : FiberId → Option ℕ
  ctx : FiberId → Context
  ft : Option ℕ
  log : List Note

inductive MachineAct
  | work
  | call
  | user (a : System.UserAct)
  | schedule (task : Task) (thread : Option ℕ)
  | create (cb : Option ℕ)
  | stop
  deriving DecidableEq, Repr

namespace Machine

def initial : Machine where
  sys := System.initial 1
  cb := fun _ => none
  ctx := fun _ => .entry
  ft := none
  log := []

def pc (s : Machine) : Pc := s.sys.pc 0

def state (s : Machine) (f : FiberId) : State := s.sys.state f

def cbFiber (s : Machine) : Option FiberId := s.sys.cbFiber 0

def note (s : Machine) (n : Note) : Machine := { s with log := s.log ++ [n] }

/-- `m_cb = cb` and `makecontext`, in the constructor and in `reset`. -/
def makeContext (s : Machine) (f : FiberId) (cb : Option ℕ) : Machine :=
  { s with cb := Function.update s.cb f cb, ctx := Function.update s.ctx f .entry }

def setContext (s : Machine) (f : FiberId) (k : Context) : Machine :=
  { s with ctx := Function.update s.ctx f k }

def follow (s : Machine) (sys : System 1) : Machine :=
  let t := { s with sys := sys }
  match s.pc with
  | .setup c =>
    match s.cbFiber with
    | some _ => { t with ft := some c }
    | none => t.makeContext s.sys.fresh (some c)
  | .inside f _ (.prepare .write) => { t.makeContext f s.ft with ft := none }
  | .inside f r .writeExec => t.note (.swapIn f r (s.state f))
  | .inside f _ .reschedule => t.note (.requeued f)
  | .inside f _ (.clear .write) => t.makeContext f none
  | _ => t

def work (s : Machine) : Option Machine := (s.sys.work 0).map s.follow

/-- `MainFunc` of fiber `f` after a context switch to its start or behind its end. -/
def mainFunc (s : Machine) (f : FiberId) : Option Machine :=
  match s.ctx f, s.cb f with
  | .entry, some c => some ((s.setContext f .inside).note (.started c))
  | .entry, none =>
    (s.sys.user 0 .throw).map fun sys => { s with sys := sys }.setContext f .left
  | .inside, _ => none
  | .left, _ => some { s with sys := { s.sys with aborted := true } }

def call (s : Machine) : Option Machine :=
  match s.pc with
  | .inside f .task (.user _) | .inside f .callback (.user _) => s.mainFunc f
  | _ => none

def user (s : Machine) (a : System.UserAct) : Option Machine :=
  match s.pc with
  | .inside _ .idle (.user _) => (s.sys.user 0 a).map fun sys => { s with sys := sys }
  | .inside f _ (.user _) =>
    if s.ctx f = .inside then
      match a with
      | .yieldToHold => (s.sys.user 0 a).map fun sys => { s with sys := sys }
      | .yieldToReady =>
        (s.sys.user 0 a).map fun sys => { s with sys := sys }.note (.yieldToReady f)
      | .finish =>
        (s.sys.user 0 a).map fun sys =>
          { s with sys := sys, cb := Function.update s.cb f none }.setContext f .left
      | .throw => (s.sys.user 0 a).map fun sys => { s with sys := sys }.setContext f .left
      | .register | .swapOut => none
    else none
  | _ => none

def idleFiber : FiberId := System.idleFiber (0 : Fin 1)

def known (s : Machine) : Task → Bool
  | .fiber f => f != idleFiber && f < s.sys.fresh
  | .cb _ => true

def schedule (s : Machine) (task : Task) (thread : Option ℕ) : Option Machine :=
  if s.known task then
    some ({ s with sys := s.sys.schedule (some task) thread }.note (.scheduled task))
  else none

def create (s : Machine) (cb : Option ℕ) : Machine :=
  let t := { s with
    sys := { s.sys with fresh := s.sys.fresh + 1 }.write s.sys.fresh .init }
  let t := t.makeContext s.sys.fresh cb
  match cb with
  | some c => t.note (.created c)
  | none => t

def step (s : Machine) (a : MachineAct) : Option Machine :=
  if s.sys.aborted then none
  else
    match a with
    | .work => s.work
    | .call => s.call
    | .user a => s.user a
    | .schedule task thread => s.schedule task thread
    | .create cb => some (s.create cb)
    | .stop => some { s with sys := { s.sys with autoStop := true, stopFlag := true } }

end Machine

def Role.expected : Role → Point → List State
  | .task, .checkTerm => [.init, .hold, .ready, .term, .except]
  | .task, .checkExcept => [.init, .hold, .ready, .except]
  | .task, .assertNotExec | .task, .writeExec => [.init, .hold, .ready]
  | .task, .readTerm => [.hold, .term, .except]
  | .task, .readExcept => [.hold, .except]
  | .callback, .prepare .isExcept => [.except]
  | .callback, .prepare _ => [.init, .except]
  | .callback, .assertNotExec | .callback, .writeExec => [.init]
  | .callback, .readExcept => [.hold, .term, .except]
  | .callback, .readTerm => [.hold, .term]
  | .callback, .clear .isTerm | .callback, .clear .write => [.term, .except]
  | .callback, .clear _ => [.except]
  | .idle, .assertNotExec | .idle, .writeExec => [.init, .hold]
  | .idle, .switchOut | .idle, .decrement | .idle, .readTerm => [.exec, .hold, .term]
  | .idle, .readExcept | .idle, .writeHold => [.exec, .hold]
  | .idle, .readReady | .idle, .reschedule => []
  | _, .switchIn | _, .user _ => [.exec]
  | _, .switchOut | _, .decrement | _, .readReady => [.hold, .ready, .term, .except]
  | _, .reschedule => [.ready]
  | _, .writeHold => [.hold]
  | _, _ => []

def Point.before : Point → Bool
  | .checkTerm | .checkExcept | .prepare _ | .assertNotExec | .writeExec => true
  | _ => false

/-- Between the state write of the fiber and the worker's answer to `READY`. -/
def Point.answering : Point → Bool
  | .switchOut | .decrement | .readReady | .reschedule => true
  | _ => false

def Pc.carriesEntry (f : FiberId) : Pc → Bool
  | .inside g .task p => g == f && p.before
  | _ => false

def Pc.answers (f : FiberId) : Pc → Bool
  | .inside g _ p => g == f && p.answering
  | _ => false

def Pc.fiber? : Pc → Option FiberId
  | .inside f _ _ => some f
  | _ => none

def State.fits : State → Context → Bool
  | .init, .entry | .hold, .inside | .ready, .inside | .term, .left | .except, .left => true
  | .exec, k => k != .left
  | _, _ => false

/-- The moves of the state of a fiber; the last one is that of `reset`. -/
inductive Moves (resets : Prop) : State → State → Prop
  | stay (x : State) : Moves resets x x
  | enter {x : State} (hx : x ∈ [.init, .hold, .ready]) : Moves resets x .exec
  | leave {x : State} (hx : x ∈ [.hold, .ready, .term, .except]) : Moves resets .exec x
  | reset {x : State} (h : resets) (hx : x ∈ [.term, .except]) : Moves resets x .init

namespace Note

def resumes (f : FiberId) : Note → Bool
  | .swapIn g .task _ => g == f
  | _ => false

def enqueues (f : FiberId) : Note → Bool
  | .scheduled (.fiber g) | .requeued g => g == f
  | _ => false

end Note

namespace Machine

def Resets (s : Machine) (f : FiberId) : Prop :=
  s.pc = .inside f .callback (.prepare .write) ∨ s.pc = .inside f .callback (.clear .write)

def due (s : Machine) (f : FiberId) : ℕ :=
  (s.sys.queue.map FiberAndThread.task).count (.fiber f) + if s.pc.carriesEntry f then 1 else 0

def owed (s : Machine) (f : FiberId) : ℕ :=
  if s.pc.answers f ∧ s.state f = .ready then 1 else 0

def uncalled (s : Machine) (c : ℕ) (f : FiberId) : ℕ :=
  if s.cb f = some c ∧ s.ctx f = .entry then 1 else 0

def uncalledAll (s : Machine) (c : ℕ) : ℕ :=
  (s.sys.queue.map FiberAndThread.task).count (.cb c) + (if s.pc = .setup c then 1 else 0) +
    (if s.ft = some c then 1 else 0) + ∑ f ∈ Finset.range s.sys.fresh, s.uncalled c f

structure Rest (s : Machine) (f : FiberId) : Prop where
  idle : f = idleFiber → s.state f ∈ [.init, .hold, .term]
  fits : f ≠ idleFiber → s.state f ≠ .exec ∧ (s.state f).fits (s.ctx f)
  spare : s.cbFiber = some f → s.cb f = none ∧ s.state f ∈ [.init, .except]
  unmade : s.sys.fresh ≤ f → s.state f = .init

structure Held (s : Machine) (f : FiberId) (r : Role) (p : Point) : Prop where
  state : s.state f ∈ r.expected p
  idle : r = .idle ↔ f = idleFiber
  made : f < s.sys.fresh
  fits : f ≠ idleFiber → (s.state f).fits (s.ctx f)
  own : r = .callback → s.cbFiber = some f
  stale : r ≠ .callback → s.cbFiber = some f →
    s.cb f = none ∧ (s.state f ∈ [.init, .except] ∨ s.state f = .exec ∧ s.ctx f = .entry)

structure Inv (s : Machine) : Prop where
  safe : s.sys.aborted = false
  fresh : idleFiber < s.sys.fresh
  kept : ∀ f, s.cbFiber = some f → f ≠ idleFiber ∧ f < s.sys.fresh
  queue : ∀ e ∈ s.sys.queue, s.known e.task
  rest : ∀ f, s.pc.fiber? ≠ some f → s.Rest f
  held : ∀ {f r p}, s.pc = .inside f r p → s.Held f r p

structure Change (s t : Machine) (f : FiberId) : Prop where
  state : ∀ g, g ≠ f → t.state g = s.state g
  cb : ∀ g, g ≠ f → t.cb g = s.cb g
  ctx : ∀ g, g ≠ f → t.ctx g = s.ctx g
  kept : ∀ g, g ≠ f → t.cbFiber = some g → s.cbFiber = some g
  fresh : s.sys.fresh ≤ t.sys.fresh
  safe : t.sys.aborted = s.sys.aborted

variable {s t : Machine} {f g : FiberId}

theorem Rest.of_change (h : s.Rest g) (hc : Change s t f) (hg : g ≠ f) : t.Rest g := by
  have hstate := hc.state g hg
  refine ⟨?_, ?_, ?_, ?_⟩
  · rw [hstate]
    exact h.idle
  · rw [hstate, hc.ctx g hg]
    exact h.fits
  · intro hkept
    rw [hstate, hc.cb g hg]
    exact h.spare (hc.kept g hg hkept)
  · intro hle
    rw [hstate]
    exact h.unmade (hc.fresh.trans hle)

theorem known_mono (hle : s.sys.fresh ≤ t.sys.fresh) {x : Task} (h : s.known x) : t.known x := by
  cases x with
  | fiber f =>
    simp only [known, Bool.and_eq_true, decide_eq_true_eq] at h ⊢
    exact ⟨h.1, h.2.trans_le hle⟩
  | cb c => rfl

theorem Inv.of_change (h : s.Inv) (hc : Change s t f) (hs : ∀ g, s.pc.fiber? = some g → g = f)
    (ht : ∀ g, t.pc.fiber? = some g → g = f)
    (hkept : t.cbFiber = some f → f ≠ idleFiber ∧ f < t.sys.fresh)
    (hqueue : ∀ e ∈ t.sys.queue, t.known e.task) (hrest : t.pc.fiber? ≠ some f → t.Rest f)
    (hheld : ∀ {r p}, t.pc = .inside f r p → t.Held f r p) : t.Inv := by
  refine ⟨hc.safe.trans h.safe, h.fresh.trans_le hc.fresh, ?_, hqueue, ?_, ?_⟩
  · intro g hg
    by_cases hgf : g = f
    · subst hgf
      exact hkept hg
    · obtain ⟨hne, hlt⟩ := h.kept g (hc.kept g hgf hg)
      exact ⟨hne, hlt.trans_le hc.fresh⟩
  · intro g hg
    by_cases hgf : g = f
    · subst hgf
      exact hrest hg
    · exact (h.rest g fun hsg => hgf (hs g hsg)).of_change hc hgf
  · intro g r p hp
    have hg : g = f := ht g (by rw [hp]; rfl)
    subst hg
    exact hheld hp

structure Books (s : Machine) : Prop where
  alive : ∀ f r x, .swapIn f r x ∈ s.log → x ∈ r.expected .writeExec
  entries : ∀ f, s.log.countP (Note.resumes f) + s.due f ≤ s.log.countP (Note.enqueues f)
  ready : ∀ f, s.log.count (.yieldToReady f) = s.log.count (.requeued f) + s.owed f
  started : ∀ c, s.log.count (.started c) + s.uncalledAll c ≤
    s.log.count (.scheduled (.cb c)) + s.log.count (.created c)

structure Advance (s t : Machine) (ns : List Note) : Prop where
  inv : t.Inv
  moves : ∀ f, f ≠ idleFiber → Moves (s.Resets f) (s.state f) (t.state f)
  log : t.log = s.log ++ ns
  alive : ∀ f r x, .swapIn f r x ∈ ns → x ∈ r.expected .writeExec
  entries : ∀ f, ns.countP (Note.resumes f) + t.due f ≤ s.due f + ns.countP (Note.enqueues f)
  ready : ∀ f, ns.count (.yieldToReady f) + s.owed f = ns.count (.requeued f) + t.owed f
  started : ∀ c, ns.count (.started c) + t.uncalledAll c ≤
    s.uncalledAll c + ns.count (.scheduled (.cb c)) + ns.count (.created c)

end Machine

end ApexStorm.Scheduler
