import ApexStorm.Lib.Resize
import ApexStorm.IOManager.Basic

/-!
# Calls behind the hook and the table of descriptor contexts

A wrapper of `hook.cpp` is a program over the state of its thread and of the table
`FdManager`. What it does outside is noted in a trace: calls of the original
functions, `fstat`, timers, events and yields. The environment answers each of them
from the trace so far, so that every behaviour of the kernel and of the other fibers
occurs. A program has no result when it reads outside the table or through a bad
pointer, calls a null `IOManager`, overflows a `long`, or does not return within its
fuel.
-/

namespace ApexStorm.Hook
open IOManager (Event toInt)

/-- The functions of `HOOK_FUN` with their arguments. Pointers are addresses, and the optional
argument of `fcntl` and `ioctl` is a register. -/
inductive Call
  | sleep (seconds : ℕ)
  | usleep (usec : ℕ)
  | nanosleep (req rem : ℕ)
  | socket (domain type protocol : ℤ)
  | connect (sockfd : ℤ) (addr addrlen : ℕ)
  | accept (sockfd : ℤ) (addr addrlen : ℕ)
  | read (fd : ℤ) (buf count : ℕ)
  | readv (fd : ℤ) (iov : ℕ) (iovcnt : ℤ)
  | recv (sockfd : ℤ) (buf len : ℕ) (flags : ℤ)
  | recvfrom (sockfd : ℤ) (buf len : ℕ) (flags : ℤ) (srcAddr addrlen : ℕ)
  | recvmsg (sockfd : ℤ) (msg : ℕ) (flags : ℤ)
  | write (fd : ℤ) (buf count : ℕ)
  | writev (fd : ℤ) (iov : ℕ) (iovcnt : ℤ)
  | send (sockfd : ℤ) (buf len : ℕ) (flags : ℤ)
  | sendto (sockfd : ℤ) (buf len : ℕ) (flags : ℤ) (destAddr addrlen : ℕ)
  | sendmsg (sockfd : ℤ) (msg : ℕ) (flags : ℤ)
  | close (fd : ℤ)
  | fcntl (fd cmd : ℤ) (arg : Option (BitVec 64))
  | ioctl (fd : ℤ) (request : ℕ) (arg : Option (BitVec 64))
  | getsockopt (sockfd level optname : ℤ) (optval optlen : ℕ)
  | setsockopt (sockfd level optname : ℤ) (optval optlen : ℕ)
  deriving DecidableEq

inductive Effect
  | original (call : Call)
  | fstat (fd : ℤ)
  | addTimer (ms : ℕ)
  | addConditionTimer (ms : ℕ) (fd : ℤ) (event : Event)
  | cancelTimer
  | addEvent (fd : ℤ) (event : Event)
  | cancelAll (fd : ℤ)
  | yieldToHold
  deriving DecidableEq

structure FdCtx where
  isInit : Bool
  isSocket : Bool
  sysNonblock : Bool
  userNonblock : Bool
  isClosed : Bool
  fd : ℤ
  recvTimeout : ℕ
  sendTimeout : ℕ
  deriving DecidableEq, Repr

/-- `reply` gives the result of an original function and the `errno` it sets if that is -1, and
`cancelled` the field of `timer_info` when the fiber is resumed. `vararg` is what `va_arg` finds
where the caller passed nothing. -/
structure Env where
  reply : List Effect → Call → ℤ × ℤ
  isSock : List Effect → ℤ → Option Bool
  addEvent : List Effect → ℤ
  cancelled : List Effect → ℤ
  sockError : List Effect → ℤ
  hasIOManager : Bool
  connectTimeout : ℕ
  int : ℕ → Option ℤ
  timespec : ℕ → Option (ℤ × ℤ)
  timeval : ℕ → Option (ℤ × ℤ)
  vararg : BitVec 64

structure World where
  hookEnable : Bool
  errno : ℤ
  datas : List (Option FdCtx)
  trace : List Effect

abbrev Hooked (α : Type) := StateT World Option α

section Apply
variable {α β : Type} (w : World)

@[simp] theorem bind_apply (m : Hooked α) (k : α → Hooked β) :
    (m >>= k) w = (m w).bind fun r => k r.1 r.2 := rfl

@[simp] theorem map_apply (f : α → β) (m : Hooked α) :
    (f <$> m) w = (m w).map fun r => (f r.1, r.2) := by
  cases h : m w <;> simp [Functor.map, StateT.map, h]

@[simp] theorem ite_run (P : Prop) [Decidable P] (m m' : Hooked α) :
    (if P then m else m') w = if P then m w else m' w := by
  split <;> rfl

@[simp] theorem pure_apply (a : α) : (pure a : Hooked α) w = some (a, w) := rfl

@[simp] theorem get_apply : (get : Hooked World) w = some (w, w) := rfl

@[simp] theorem set_apply (w' : World) : (set w' : Hooked PUnit) w = some (⟨⟩, w') := rfl

@[simp] theorem modify_apply (f : World → World) :
    (modify f : Hooked PUnit) w = some (⟨⟩, f w) := rfl

@[simp] theorem lift_apply (o : Option α) : (liftM o : Hooked α) w = o.map (·, w) := by
  cases o <;> rfl

end Apply

def perform (env : Env) (call : Call) (w : World) : ℤ × World :=
  let (ret, errno) := env.reply w.trace call
  (ret, { w with
    trace := w.trace ++ [.original call]
    errno := if ret = -1 then errno else w.errno })

def original (env : Env) (call : Call) : Hooked ℤ := fun w => some (perform env call w)

def emit (e : Effect) : Hooked Unit := modify fun w => { w with trace := w.trace ++ [e] }

def setErrno (errno : ℤ) : Hooked Unit := modify fun w => { w with errno := errno }

def F_GETFL : ℤ := 3
def F_SETFL : ℤ := 4
def O_NONBLOCK : BitVec 32 := 0x800

namespace FdCtx

def new (env : Env) (fd : ℤ) : Hooked FdCtx := do
  let isSock := env.isSock (← get).trace fd
  emit (.fstat fd)
  if isSock = some true then
    let flags := BitVec.ofInt 32 (← original env (.fcntl fd F_GETFL (some 0)))
    if flags &&& O_NONBLOCK = 0 then
      let _ ← original env (.fcntl fd F_SETFL (some ((flags ||| O_NONBLOCK).signExtend 64)))
    return ⟨true, true, true, false, false, fd, 2 ^ 64 - 1, 2 ^ 64 - 1⟩
  else
    return ⟨isSock.isSome, false, false, false, false, fd, 2 ^ 64 - 1, 2 ^ 64 - 1⟩

def SO_RCVTIMEO : ℤ := 20
def SO_SNDTIMEO : ℤ := 21

def setTimeout (c : FdCtx) (type : ℤ) (v : ℕ) : FdCtx :=
  if type = SO_RCVTIMEO then { c with recvTimeout := v } else { c with sendTimeout := v }

def getTimeout (c : FdCtx) (type : ℤ) : ℕ :=
  if type = SO_RCVTIMEO then c.recvTimeout else c.sendTimeout

end FdCtx

namespace FdManager

def initial : List (Option FdCtx) := List.replicate 64 none

def index (datas : List (Option FdCtx)) (fd : ℤ) : Option ℕ :=
  if 0 ≤ fd ∧ fd.toNat < datas.length then some fd.toNat else none

def slot (fd : ℤ) : Hooked (Option FdCtx) := do
  let w ← get
  let i ← index w.datas fd
  return (w.datas[i]?).join

def setSlot (fd : ℤ) (ctx : Option FdCtx) : Hooked Unit := do
  let w ← get
  let i ← index w.datas fd
  set { w with datas := w.datas.set i ctx }

def resize (datas : List (Option FdCtx)) (size : ℕ) : List (Option FdCtx) :=
  datas.take size ++ List.replicate (size - datas.length) none

def create (env : Env) (fd : ℤ) : Hooked (Option FdCtx) := do
  let ctx ← FdCtx.new env fd
  modify fun w =>
    if fd ≥ toInt w.datas.length then { w with datas := resize w.datas (3 * fd.toNat / 2) } else w
  setSlot fd (some ctx)
  return some ctx

def get (env : Env) (fd : ℤ) (autoCreate : Bool) : Hooked (Option FdCtx) := do
  if fd = -1 then return none
  else if toInt (← MonadState.get).datas.length < fd then
    if autoCreate then create env fd else return none
  else
    let ctx ← slot fd
    if ctx.isSome || !autoCreate then return ctx else create env fd

def del (fd : ℤ) : Hooked Unit := do
  if toInt (← MonadState.get).datas.length ≤ fd then return ()
  else setSlot fd none

end FdManager

theorem FdManager.resize_eq (datas : List (Option FdCtx)) (size : ℕ) :
    FdManager.resize datas size = Lib.resize (fun _ => none) datas size := by
  simp [FdManager.resize, Lib.resize]

section Lookup
variable {env : Env} {fd : ℤ} {w : World}

theorem slot_apply (w : World) : FdManager.slot fd w =
    (FdManager.index w.datas fd).map fun i => ((w.datas[i]?).join, w) := by
  cases hi : FdManager.index w.datas fd <;> simp [FdManager.slot, hi]

theorem setSlot_apply (ctx : Option FdCtx) (w : World) : FdManager.setSlot fd ctx w =
    (FdManager.index w.datas fd).map fun i => (⟨⟩, { w with datas := w.datas.set i ctx }) := by
  cases hi : FdManager.index w.datas fd <;> simp [FdManager.setSlot, hi]

theorem get_run (autoCreate : Bool) (w : World) : FdManager.get env fd autoCreate w =
    if fd = -1 then some (none, w)
    else if toInt w.datas.length < fd then
      if autoCreate then FdManager.create env fd w else some (none, w)
    else (FdManager.slot fd w).bind fun r =>
      if r.1.isSome || !autoCreate then some r else FdManager.create env fd r.2 := by
  simp only [FdManager.get, ite_run, pure_apply, bind_apply, get_apply, Option.bind_some]

theorem create_run (w : World) : FdManager.create env fd w =
    (FdCtx.new env fd w).bind fun r =>
      (FdManager.setSlot fd (some r.1)
        (if fd ≥ toInt r.2.datas.length then
          { r.2 with datas := FdManager.resize r.2.datas (3 * fd.toNat / 2) } else r.2)).bind
        fun q => some (some r.1, q.2) := by
  simp only [FdManager.create, bind_apply, modify_apply, pure_apply, Option.bind_some]

theorem del_run (w : World) : FdManager.del fd w =
    if toInt w.datas.length ≤ fd then some (⟨⟩, w) else FdManager.setSlot fd none w := by
  simp only [FdManager.del, ite_run, pure_apply, bind_apply, get_apply, Option.bind_some]

theorem new_datas (env : Env) (fd : ℤ) (w : World) :
    ∃ ctx w', FdCtx.new env fd w = some (ctx, w') ∧ w'.datas = w.datas := by
  simp only [FdCtx.new, emit, original, bind_apply, get_apply, modify_apply, ite_run, pure_apply,
    Option.bind_some]
  split_ifs <;> exact ⟨_, _, rfl, rfl⟩

end Lookup
end ApexStorm.Hook
