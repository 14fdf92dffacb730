import ApexStorm.Hook.FdManager

/-!
# The hooked functions

Each function of `HOOK_FUN` under its own name. `nanosleep` and `fcntl` call
themselves and the I/O functions retry, so these take fuel.
-/

namespace ApexStorm.Hook
open IOManager (Event)
open FdCtx (SO_RCVTIMEO SO_SNDTIMEO)

def EINTR : ℤ := 4
def EBADF : ℤ := 9
def EAGAIN : ℤ := 11
def EINPROGRESS : ℤ := 115
def SOL_SOCKET : ℤ := 1
def SO_ERROR : ℤ := 4
def FIONBIO : ℕ := 0x5421

def noTimeout : ℕ := 2 ^ 64 - 1

def isHookEnable : Hooked Bool := return (← get).hookEnable

def iom (env : Env) (e : Effect) : Hooked Unit := do
  guard env.hasIOManager
  emit e

/-- Arms the timer of a call that waits for `event`, registers the event and yields. The results are
that of `addEvent` and the field `cancelled` of `timer_info` as the call finds it when it goes
on. -/
def await (env : Env) (fd : ℤ) (event : Event) (timeout : ℕ) : Hooked (ℤ × ℤ) := do
  if timeout ≠ noTimeout then iom env (.addConditionTimer timeout fd event)
  let rt := env.addEvent (← get).trace
  iom env (.addEvent fd event)
  if rt = 0 then emit .yieldToHold
  if timeout ≠ noTimeout then emit .cancelTimer
  return (rt, env.cancelled (← get).trace)

def doIoLoop (env : Env) (call : Call) (fd : ℤ) (event : Event) (timeout : ℕ) : ℕ → Hooked ℤ
  | 0 => failure
  | fuel + 1 => do
    let n ← original env call
    let errno := (← get).errno
    if n = -1 ∧ errno = EINTR then doIoLoop env call fd event timeout fuel
    else if n = -1 ∧ errno = EAGAIN then
      let (rt, cancelled) ← await env fd event timeout
      if rt ≠ 0 then return -1
      else if cancelled ≠ 0 then
        setErrno cancelled
        return -1
      else doIoLoop env call fd event timeout fuel
    else return n

inductive Round (env : Env) (fd : ℤ) (event : Event) (timeout : ℕ)
    (loop : World → Option (ℤ × World)) (ret : ℤ) (v : World) : ℤ × World → Prop
  | interrupted {r : ℤ × World} (hret : ret = -1) (herrno : v.errno = EINTR)
      (h : loop v = some r) : Round env fd event timeout loop ret v r
  | unregistered {rt cancelled : ℤ} {v' : World} (hret : ret = -1) (herrno : v.errno = EAGAIN)
      (hawait : await env fd event timeout v = some ((rt, cancelled), v')) (hrt : rt ≠ 0) :
      Round env fd event timeout loop ret v (-1, v')
  | cancelled {rt cancelled : ℤ} {v' : World} (hret : ret = -1) (herrno : v.errno = EAGAIN)
      (hawait : await env fd event timeout v = some ((rt, cancelled), v')) (hrt : rt = 0)
      (hcancelled : cancelled ≠ 0) :
      Round env fd event timeout loop ret v (-1, { v' with errno := cancelled })
  | woken {rt cancelled : ℤ} {v' : World} {r : ℤ × World} (hret : ret = -1)
      (herrno : v.errno = EAGAIN)
      (hawait : await env fd event timeout v = some ((rt, cancelled), v')) (hrt : rt = 0)
      (hcancelled : cancelled = 0) (h : loop v' = some r) : Round env fd event timeout loop ret v r
  | returned (hret : ¬(ret = -1 ∧ (v.errno = EINTR ∨ v.errno = EAGAIN))) :
      Round env fd event timeout loop ret v (ret, v)

theorem doIoLoop_round {env : Env} {call : Call} {fd : ℤ} {event : Event} {timeout fuel : ℕ}
    {w : World} {r : ℤ × World} (h : doIoLoop env call fd event timeout (fuel + 1) w = some r) :
    Round env fd event timeout (doIoLoop env call fd event timeout fuel) (perform env call w).1
      (perform env call w).2 r := by
  rw [doIoLoop, bind_apply, Option.bind_eq_some_iff] at h
  obtain ⟨⟨ret, v⟩, hv, h⟩ := h
  rw [Option.some.inj hv]
  simp only [bind_apply, get_apply, Option.bind_some, ite_run, pure_apply] at h
  split_ifs at h with hintr hagain
  · exact .interrupted hintr.1 hintr.2 h
  · obtain ⟨⟨⟨rt, cancelled⟩, v'⟩, hawait, h⟩ := Option.bind_eq_some_iff.mp h
    simp only [setErrno, modify_apply, Option.bind_some] at h
    split_ifs at h with hrt hcancelled
    · cases h
      exact .unregistered hagain.1 hagain.2 hawait hrt
    · cases h
      exact .cancelled hagain.1 hagain.2 hawait (not_not.mp hrt) hcancelled
    · exact .woken hagain.1 hagain.2 hawait (not_not.mp hrt) (not_not.mp hcancelled) h
  · cases h
    refine .returned ?_
    rintro ⟨hret, herrno | herrno⟩
    · exact hintr ⟨hret, herrno⟩
    · exact hagain ⟨hret, herrno⟩

def doIo (env : Env) (fuel : ℕ) (call : Call) (fd : ℤ) (event : Event) (timeoutSo : ℤ) :
    Hooked ℤ := do
  if !(← isHookEnable) then original env call
  else
    match ← FdManager.get env fd false with
    | none => original env call
    | some ctx =>
      if ctx.isClosed then
        setErrno EBADF
        return -1
      else if !ctx.isSocket || ctx.userNonblock then original env call
      else doIoLoop env call fd event (ctx.getTimeout timeoutSo) fuel

/-- The part of the three sleeping functions behind the flag. -/
def sleepFor (env : Env) (ms : ℕ) : Hooked ℤ := do
  iom env (.addTimer ms)
  emit .yieldToHold
  return 0

def sleep (env : Env) (seconds : ℕ) : Hooked ℤ := do
  if !(← isHookEnable) then original env (.sleep seconds)
  else sleepFor env (seconds * 1000 % 2 ^ 32)

def usleep (env : Env) (usec : ℕ) : Hooked ℤ := do
  if !(← isHookEnable) then original env (.usleep usec)
  else sleepFor env (usec / 1000)

/-- The result of an operation on `long`, undefined when it overflows. -/
def long (x : ℤ) : Option ℤ := if -2 ^ 63 ≤ x ∧ x < 2 ^ 63 then some x else none

/-- Without the hook `nanosleep` calls itself. -/
def nanosleep (env : Env) (req rem : ℕ) : ℕ → Hooked ℤ
  | 0 => failure
  | fuel + 1 => do
    if !(← isHookEnable) then nanosleep env req rem fuel
    else
      let (sec, nsec) ← (env.timespec req : Option (ℤ × ℤ))
      let ms ← (long (sec * 1000) : Option ℤ)
      let ms ← (long (ms + (nsec.tdiv 1000).tdiv 1000) : Option ℤ)
      let timeoutMs := ms.bmod (2 ^ 32)
      sleepFor env (timeoutMs % 2 ^ 64).toNat

def socket (env : Env) (domain type protocol : ℤ) : Hooked ℤ := do
  if !(← isHookEnable) then original env (.socket domain type protocol)
  else
    let fd ← original env (.socket domain type protocol)
    if fd = -1 then return fd
    else
      let _ ← FdManager.get env fd true
      return fd

def connectWithTimeout (env : Env) (fd : ℤ) (addr addrlen timeoutMs : ℕ) : Hooked ℤ := do
  let call := Call.connect fd addr addrlen
  if !(← isHookEnable) then original env call
  else
    match ← FdManager.get env fd false with
    | none =>
      setErrno EBADF
      return -1
    | some ctx =>
      if ctx.isClosed then
        setErrno EBADF
        return -1
      else if !ctx.isSocket || ctx.userNonblock then original env call
      else
        let n ← original env call
        if n = 0 then return 0
        else if n ≠ -1 ∨ (← get).errno ≠ EINPROGRESS then return n
        else
          let (rt, cancelled) ← await env fd .write timeoutMs
          if rt = 0 ∧ cancelled ≠ 0 then
            setErrno cancelled
            return -1
          else
            let error := env.sockError (← get).trace
            let rt ← original env (.getsockopt fd SOL_SOCKET SO_ERROR 0 0)
            if rt = -1 then return -1
            else if error = 0 then return 0
            else
              setErrno error
              return -1

def connect (env : Env) (sockfd : ℤ) (addr addrlen : ℕ) : Hooked ℤ :=
  connectWithTimeout env sockfd addr addrlen env.connectTimeout

def accept (env : Env) (fuel : ℕ) (sockfd : ℤ) (addr addrlen : ℕ) : Hooked ℤ := do
  let fd ← doIo env fuel (.accept sockfd addr addrlen) sockfd .read SO_RCVTIMEO
  if fd ≥ 0 then
    let _ ← FdManager.get env fd true
  return fd

def read (env : Env) (fuel : ℕ) (fd : ℤ) (buf count : ℕ) : Hooked ℤ :=
  doIo env fuel (.read fd buf count) fd .read SO_RCVTIMEO

def readv (env : Env) (fuel : ℕ) (fd : ℤ) (iov : ℕ) (iovcnt : ℤ) : Hooked ℤ :=
  doIo env fuel (.readv fd iov iovcnt) fd .read SO_RCVTIMEO

def recv (env : Env) (fuel : ℕ) (sockfd : ℤ) (buf len : ℕ) (flags : ℤ) : Hooked ℤ :=
  doIo env fuel (.recv sockfd buf len flags) sockfd .read SO_RCVTIMEO

def recvfrom (env : Env) (fuel : ℕ) (sockfd : ℤ) (buf len : ℕ) (flags : ℤ)
    (srcAddr addrlen : ℕ) : Hooked ℤ :=
  doIo env fuel (.recvfrom sockfd buf len flags srcAddr addrlen) sockfd .read SO_RCVTIMEO

def recvmsg (env : Env) (fuel : ℕ) (sockfd : ℤ) (msg : ℕ) (flags : ℤ) : Hooked ℤ :=
  doIo env fuel (.recvmsg sockfd msg flags) sockfd .read SO_RCVTIMEO

def write (env : Env) (fuel : ℕ) (fd : ℤ) (buf count : ℕ) : Hooked ℤ :=
  doIo env fuel (.write fd buf count) fd .write SO_SNDTIMEO

def writev (env : Env) (fuel : ℕ) (fd : ℤ) (iov : ℕ) (iovcnt : ℤ) : Hooked ℤ :=
  doIo env fuel (.writev fd iov iovcnt) fd .write SO_SNDTIMEO

def send (env : Env) (fuel : ℕ) (sockfd : ℤ) (buf len : ℕ) (flags : ℤ) : Hooked ℤ :=
  doIo env fuel (.send sockfd buf len flags) sockfd .write SO_SNDTIMEO

def sendto (env : Env) (fuel : ℕ) (sockfd : ℤ) (buf len : ℕ) (flags : ℤ)
    (destAddr addrlen : ℕ) : Hooked ℤ :=
  doIo env fuel (.sendto sockfd buf len flags destAddr addrlen) sockfd .write SO_SNDTIMEO

def sendmsg (env : Env) (fuel : ℕ) (sockfd : ℤ) (msg : ℕ) (flags : ℤ) : Hooked ℤ :=
  doIo env fuel (.sendmsg sockfd msg flags) sockfd .write SO_SNDTIMEO

def close (env : Env) (fd : ℤ) : Hooked ℤ := do
  if !(← isHookEnable) then original env (.close fd)
  else
    let ctx ← FdManager.get env fd false
    if ctx.isSome then
      if env.hasIOManager then emit (.cancelAll fd)
      FdManager.del fd
    original env (.close fd)

inductive Command
  | setfl | getfl | withInt | withNothing | withLock | withOwner | other
  deriving DecidableEq, Repr

/-- In the order of the switch: `F_SETFL`; `F_GETFL`; `F_DUPFD`, `F_DUPFD_CLOEXEC`, `F_SETFD`,
`F_SETOWN`, `F_SETSIG`, `F_SETLEASE`, `F_NOTIFY`, `F_SETPIPE_SZ`; `F_GETFD`, `F_GETOWN`, `F_GETSIG`,
`F_GETLEASE`, `F_GETPIPE_SZ`; `F_SETLK`, `F_SETLKW`, `F_GETLK`; `F_GETOWN_EX`, `F_SETOWN_EX`. -/
def command (cmd : ℤ) : Command :=
  if cmd = F_SETFL then .setfl
  else if cmd = F_GETFL then .getfl
  else if cmd ∈ [0, 1030, 2, 8, 10, 1024, 1026, 1031] then .withInt
  else if cmd ∈ [1, 9, 11, 1025, 1032] then .withNothing
  else if cmd ∈ [6, 7, 5] then .withLock
  else if cmd ∈ [16, 15] then .withOwner
  else .other

def Env.vaInt (env : Env) (arg : Option (BitVec 64)) : BitVec 32 :=
  (arg.getD env.vararg).truncate 32

def Env.vaPtr (env : Env) (arg : Option (BitVec 64)) : BitVec 64 := arg.getD env.vararg

/-- The context of a descriptor whose flags are managed: open and a socket. -/
def managed (ctx : Option FdCtx) : Option FdCtx := ctx.filter fun c => !c.isClosed && c.isSocket

def fcntl (env : Env) (fd cmd : ℤ) : ℕ → Option (BitVec 64) → Hooked ℤ
  | 0, _ => failure
  | fuel + 1, arg =>
    match command cmd with
    | .setfl => do
      let arg := env.vaInt arg
      match managed (← FdManager.get env fd false) with
      | none => original env (.fcntl fd cmd (some (arg.signExtend 64)))
      | some c =>
        FdManager.setSlot fd (some { c with userNonblock := decide (arg &&& O_NONBLOCK ≠ 0) })
        let arg := if c.sysNonblock then arg ||| O_NONBLOCK else arg &&& ~~~O_NONBLOCK
        original env (.fcntl fd cmd (some (arg.signExtend 64)))
    | .getfl => do
      let arg ← original env (.fcntl fd cmd none)
      match managed (← FdManager.get env fd false) with
      | none => return arg
      | some c =>
        let flags := BitVec.ofInt 32 arg
        return (if c.userNonblock then flags ||| O_NONBLOCK else flags &&& ~~~O_NONBLOCK).toInt
    | .withInt => original env (.fcntl fd cmd (some ((env.vaInt arg).signExtend 64)))
    | .withNothing => fcntl env fd cmd fuel none
    | .withLock | .withOwner => original env (.fcntl fd cmd (some (env.vaPtr arg)))
    | .other => original env (.fcntl fd cmd none)

def ioctl (env : Env) (fd : ℤ) (request : ℕ) (arg : Option (BitVec 64)) : Hooked ℤ := do
  let arg := env.vaPtr arg
  if request = FIONBIO then
    let value ← (env.int arg.toNat : Option ℤ)
    match managed (← FdManager.get env fd false) with
    | none => original env (.ioctl fd request (some arg))
    | some c =>
      FdManager.setSlot fd (some { c with userNonblock := decide (value ≠ 0) })
      original env (.ioctl fd request (some arg))
  else original env (.ioctl fd request (some arg))

def getsockopt (env : Env) (sockfd level optname : ℤ) (optval optlen : ℕ) : Hooked ℤ :=
  original env (.getsockopt sockfd level optname optval optlen)

def setsockopt (env : Env) (sockfd level optname : ℤ) (optval optlen : ℕ) : Hooked ℤ := do
  if !(← isHookEnable) then original env (.setsockopt sockfd level optname optval optlen)
  else
    if level = SOL_SOCKET ∧ (optname = SO_RCVTIMEO ∨ optname = SO_SNDTIMEO) then
      if let some c ← FdManager.get env sockfd false then
        let (sec, usec) ← (env.timeval optval : Option (ℤ × ℤ))
        let ms ← (long (sec * 1000) : Option ℤ)
        let ms ← (long (ms + usec.tdiv 1000) : Option ℤ)
        FdManager.setSlot sockfd (some (c.setTimeout optname (ms % 2 ^ 64).toNat))
    original env (.setsockopt sockfd level optname optval optlen)

def hooked (env : Env) (fuel : ℕ) : Call → Hooked ℤ
  | .sleep seconds => sleep env seconds
  | .usleep usec => usleep env usec
  | .nanosleep req rem => nanosleep env req rem fuel
  | .socket domain type protocol => socket env domain type protocol
  | .connect sockfd addr addrlen => connect env sockfd addr addrlen
  | .accept sockfd addr addrlen => accept env fuel sockfd addr addrlen
  | .read fd buf count => read env fuel fd buf count
  | .readv fd iov iovcnt => readv env fuel fd iov iovcnt
  | .recv sockfd buf len flags => recv env fuel sockfd buf len flags
  | .recvfrom sockfd buf len flags srcAddr addrlen =>
    recvfrom env fuel sockfd buf len flags srcAddr addrlen
  | .recvmsg sockfd msg flags => recvmsg env fuel sockfd msg flags
  | .write fd buf count => write env fuel fd buf count
  | .writev fd iov iovcnt => writev env fuel fd iov iovcnt
  | .send sockfd buf len flags => send env fuel sockfd buf len flags
  | .sendto sockfd buf len flags destAddr addrlen =>
    sendto env fuel sockfd buf len flags destAddr addrlen
  | .sendmsg sockfd msg flags => sendmsg env fuel sockfd msg flags
  | .close fd => close env fd
  | .fcntl fd cmd arg => fcntl env fd cmd fuel arg
  | .ioctl fd request arg => ioctl env fd request arg
  | .getsockopt sockfd level optname optval optlen =>
    getsockopt env sockfd level optname optval optlen
  | .setsockopt sockfd level optname optval optlen =>
    setsockopt env sockfd level optname optval optlen

end ApexStorm.Hook
