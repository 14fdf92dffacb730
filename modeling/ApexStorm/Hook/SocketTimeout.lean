import ApexStorm.Hook.Sleep

/-!
# The timeouts of a socket

`Socket::setRecvTimeout` and `setSendTimeout` narrow the timeout to an `int` number of
seconds and go through the hooked `setsockopt`, which records the milliseconds in the
context of the descriptor before it makes the system call. `do_io` takes the recorded
number as the delay of its timer unless it is all ones.
-/

namespace ApexStorm.Socket
open Hook
open IOManager (toInt Event)
open FdCtx (SO_RCVTIMEO SO_SNDTIMEO)

def timevalOf (timeout : ℤ) : ℤ × ℤ :=
  ((timeout.tdiv 1000).bmod (2 ^ 32), (timeout.tmod 1000 * 1000).bmod (2 ^ 32))

def setOption (env : Env) (sock level option : ℤ) (value len : ℕ) : Hooked Bool := do
  let rt ← setsockopt env sock level option value len
  return decide (rt = 0)

/-- Both setters; `tv` is the address of the local `timeval`. -/
def setTimeout (type : ℤ) (env : Env) (sock : ℤ) (tv : ℕ) (timeout : ℤ) : Hooked Bool :=
  setOption { env with timeval := Function.update env.timeval tv (some (timevalOf timeout)) }
    sock SOL_SOCKET type tv 16

def setSendTimeout (env : Env) (sock : ℤ) (tv : ℕ) (timeout : ℤ) : Hooked Bool :=
  setTimeout SO_SNDTIMEO env sock tv timeout

def setRecvTimeout (env : Env) (sock : ℤ) (tv : ℕ) (timeout : ℤ) : Hooked Bool :=
  setTimeout SO_RCVTIMEO env sock tv timeout

/-- Both getters convert the recorded `uint64_t` to `int64_t`. -/
def getTimeout (type : ℤ) (env : Env) (sock : ℤ) : Hooked ℤ := do
  match ← FdManager.get env sock false with
  | some ctx => return (ctx.getTimeout type : ℤ).bmod (2 ^ 64)
  | none => return -1

def getSendTimeout (env : Env) (sock : ℤ) : Hooked ℤ := getTimeout SO_SNDTIMEO env sock

def getRecvTimeout (env : Env) (sock : ℤ) : Hooked ℤ := getTimeout SO_RCVTIMEO env sock

section Known
variable {env : Env} {w w' : World} {fd : ℤ} {c : FdCtx}

def Known (datas : List (Option FdCtx)) (fd : ℤ) (c : FdCtx) : Prop :=
  0 ≤ fd ∧ ¬toInt datas.length < fd ∧ datas[fd.toNat]? = some (some c)

theorem Known.index {datas : List (Option FdCtx)} (h : Known datas fd c) :
    FdManager.index datas fd = some fd.toNat := by
  have hlt := (List.getElem?_eq_some_iff.mp h.2.2).1
  exact if_pos ⟨h.1, hlt⟩

theorem Known.get (h : Known w.datas fd c) : FdManager.get env fd false w = some (some c, w) := by
  have hne : fd ≠ -1 := by
    have := h.1
    omega
  rw [get_run, if_neg hne, if_neg h.2.1, slot_apply, h.index, Option.map_some, Option.bind_some,
    h.2.2]
  rfl

theorem known_of_get (h : FdManager.get env fd false w = some (some c, w')) :
    Known w.datas fd c := by
  rw [get_run, slot_apply] at h
  simp only [Bool.false_eq_true, if_false, Bool.not_false, Bool.or_true, if_true] at h
  split_ifs at h with hnone hlarge
  · cases h
  · cases h
  · obtain ⟨r, hr, heq⟩ := Option.bind_eq_some_iff.mp h
    obtain ⟨i, hi, rfl⟩ := Option.map_eq_some_iff.mp hr
    rw [FdManager.index] at hi
    split_ifs at hi with hin
    obtain rfl := Option.some.inj hi
    have hjoin := (Prod.mk.inj (Option.some.inj heq)).1
    exact ⟨hin.1, hlarge, Option.join_eq_some_iff.mp hjoin⟩

theorem Known.setSlot (h : Known w.datas fd c) (c' : FdCtx) :
    FdManager.setSlot fd (some c') w =
      some (⟨⟩, { w with datas := w.datas.set fd.toNat (some c') }) := by
  rw [setSlot_apply, h.index]
  rfl

theorem Known.set {datas : List (Option FdCtx)} (h : Known datas fd c) (c' : FdCtx) :
    Known (datas.set fd.toNat (some c')) fd c' := by
  have hlt := (List.getElem?_eq_some_iff.mp h.2.2).1
  refine ⟨h.1, ?_, ?_⟩
  · rw [List.length_set]
    exact h.2.1
  · rw [List.getElem?_set_self hlt]

end Known

def recordedMs (timeout : ℤ) : ℤ := (timeout / 1000).bmod (2 ^ 32) * 1000 + timeout % 1000

theorem bmod_bounds (x : ℤ) : -2 ^ 31 ≤ x.bmod (2 ^ 32) ∧ x.bmod (2 ^ 32) < 2 ^ 31 := by
  rw [Int.bmod_def]
  norm_num
  split_ifs <;> omega

theorem timevalOf_eq {timeout : ℤ} (ht : 0 ≤ timeout) :
    timevalOf timeout = ((timeout / 1000).bmod (2 ^ 32), timeout % 1000 * 1000) := by
  have husec : (timeout % 1000 * 1000).bmod (2 ^ 32) = timeout % 1000 * 1000 := by
    apply Int.bmod_eq_of_le
    · omega
    · omega
  rw [timevalOf, Int.tdiv_eq_ediv_of_nonneg ht, Int.tmod_eq_emod_of_nonneg ht, husec]

section Set
variable {env : Env} {w : World} {fd type timeout : ℤ} {tv : ℕ} {c : FdCtx}

def recorded (type timeout : ℤ) (c : FdCtx) : FdCtx :=
  c.setTimeout type (recordedMs timeout % 2 ^ 64).toNat

def World.put (w : World) (fd : ℤ) (c : FdCtx) : World :=
  { w with datas := w.datas.set fd.toNat (some c) }

theorem setsockopt_known (hon : w.hookEnable = true) (hknown : Known w.datas fd c)
    (htype : type = SO_RCVTIMEO ∨ type = SO_SNDTIMEO) {optval optlen : ℕ} {sec usec ms : ℤ}
    (htv : env.timeval optval = some (sec, usec)) (hsec : long (sec * 1000) = some (sec * 1000))
    (hms : long (sec * 1000 + usec.tdiv 1000) = some ms) :
    setsockopt env fd SOL_SOCKET type optval optlen w =
      some (perform env (.setsockopt fd SOL_SOCKET type optval optlen)
        (World.put w fd (c.setTimeout type (ms % 2 ^ 64).toNat))) := by
  rw [setsockopt, on_eq hon, if_pos ⟨rfl, htype⟩]
  simp only [bind_apply, hknown.get, Option.bind_some, lift_apply, htv, Option.map_some, hsec, hms,
    hknown.setSlot, original]
  rfl

theorem long_eq_some {x : ℤ} (hlow : -2 ^ 63 ≤ x) (hhigh : x < 2 ^ 63) : long x = some x :=
  if_pos ⟨hlow, hhigh⟩

theorem setTimeout_eq (hon : w.hookEnable = true) (hknown : Known w.datas fd c)
    (htype : type = SO_RCVTIMEO ∨ type = SO_SNDTIMEO) (ht : 0 ≤ timeout) :
    setTimeout type env fd tv timeout w =
      let r := perform env (.setsockopt fd SOL_SOCKET type tv 16)
        (World.put w fd (recorded type timeout c))
      some (decide (r.1 = 0), r.2) := by
  have hsec := bmod_bounds (timeout / 1000)
  have hms : (timeout % 1000 * 1000).tdiv 1000 = timeout % 1000 := by
    rw [Int.tdiv_eq_ediv_of_nonneg (by omega)]
    omega
  have htv : Function.update env.timeval tv (some (timevalOf timeout)) tv =
      some ((timeout / 1000).bmod (2 ^ 32), timeout % 1000 * 1000) := by
    rw [Function.update_self, timevalOf_eq ht]
  have hproduct : long ((timeout / 1000).bmod (2 ^ 32) * 1000) =
      some ((timeout / 1000).bmod (2 ^ 32) * 1000) := long_eq_some (by omega) (by omega)
  have hsum : long ((timeout / 1000).bmod (2 ^ 32) * 1000 + (timeout % 1000 * 1000).tdiv 1000) =
      some (recordedMs timeout) := by
    rw [hms]
    exact long_eq_some (by omega) (by omega)
  rw [setTimeout, setOption, bind_apply, setsockopt_known hon hknown htype htv hproduct hsum]
  rfl

theorem getTimeout_eq (hknown : Known w.datas fd c) :
    getTimeout type env fd w = some ((c.getTimeout type : ℤ).bmod (2 ^ 64), w) := by
  rw [getTimeout, bind_apply, hknown.get]
  rfl

theorem known_perform (h : Known w.datas fd c) (c' : FdCtx) (call : Call) :
    Known (perform env call (World.put w fd c')).2.datas fd c' :=
  h.set c'

theorem bmod_recordedMs (timeout : ℤ) :
    ((recordedMs timeout % 2 ^ 64).toNat : ℤ).bmod (2 ^ 64) = recordedMs timeout := by
  have hsec := bmod_bounds (timeout / 1000)
  have hms : recordedMs timeout = (timeout / 1000).bmod (2 ^ 32) * 1000 + timeout % 1000 := rfl
  have hnonneg : 0 ≤ recordedMs timeout % 2 ^ 64 := Int.emod_nonneg _ (by decide)
  rw [Int.toNat_of_nonneg hnonneg, Int.bmod_def]
  norm_num
  split_ifs <;> omega

theorem recordedMs_eq_iff (ht : 0 ≤ timeout) :
    recordedMs timeout = timeout ↔ timeout / 1000 < 2 ^ 31 := by
  rw [recordedMs, Int.bmod_def]
  norm_num
  split_ifs <;> omega

end Set

section Wait
variable {env : Env} {w w' : World} {fd : ℤ} {event : Event} {timeout : ℕ}

def Waits (w w' : World) : Prop := ∃ fd event, .addEvent fd event ∈ w'.trace.drop w.trace.length

def Timed (w w' : World) : Prop :=
  ∃ ms fd event, .addConditionTimer ms fd event ∈ w'.trace.drop w.trace.length

def arming (fd : ℤ) (event : Event) (timeout : ℕ) : List Effect :=
  if timeout ≠ noTimeout then [.addConditionTimer timeout fd event] else []

def disarming (timeout : ℕ) : List Effect := if timeout ≠ noTimeout then [.cancelTimer] else []

def awaiting (env : Env) (trace : List Effect) (fd : ℤ) (event : Event) (timeout : ℕ) :
    List Effect :=
  arming fd event timeout ++ .addEvent fd event ::
    ((if env.addEvent (trace ++ arming fd event timeout) = 0 then [.yieldToHold] else []) ++
      disarming timeout)

theorem iom_eq_some {e : Effect} {u : Unit} (h : iom env e w = some (u, w')) :
    w' = { w with trace := w.trace ++ [e] } := by
  by_cases hiom : env.hasIOManager
  · simp [iom, emit, hiom] at h
    exact h.symm
  · simp only [iom, hiom] at h
    cases h

theorem await_eq_some {r : ℤ × ℤ} (h : await env fd event timeout w = some (r, w')) :
    w' = { w with trace := w.trace ++ awaiting env w.trace fd event timeout } ∧
      r.1 = env.addEvent (w.trace ++ arming fd event timeout) ∧
      r.2 = env.cancelled (w.trace ++ awaiting env w.trace fd event timeout) := by
  rw [awaiting, arming, disarming]
  by_cases ht : timeout ≠ noTimeout
  · rw [await, if_pos ht, bind_apply] at h
    obtain ⟨⟨u, v⟩, hv, h⟩ := Option.bind_eq_some_iff.mp h
    rw [iom_eq_some hv] at h
    simp only [bind_apply, get_apply, Option.bind_some] at h
    obtain ⟨⟨u', v'⟩, hv', h⟩ := Option.bind_eq_some_iff.mp h
    rw [iom_eq_some hv'] at h
    simp only [emit, ite_run, bind_apply, get_apply, modify_apply, pure_apply, Option.bind_some,
      if_pos ht] at h
    rw [if_pos ht, if_pos ht]
    split_ifs at h ⊢ <;> cases h <;> simp
  · rw [await, if_neg ht] at h
    simp only [bind_apply, get_apply, Option.bind_some] at h
    obtain ⟨⟨u', v'⟩, hv', h⟩ := Option.bind_eq_some_iff.mp h
    rw [iom_eq_some hv'] at h
    simp only [emit, ite_run, bind_apply, get_apply, modify_apply, pure_apply, Option.bind_some,
      if_neg ht] at h
    rw [if_neg ht, if_neg ht, List.append_nil w.trace]
    split_ifs at h ⊢ <;> cases h <;> simp

theorem await_trace (ht : timeout ≠ noTimeout) {r : ℤ × ℤ}
    (h : await env fd event timeout w = some (r, w')) :
    ∃ rest, w'.trace = w.trace ++ .addConditionTimer timeout fd event :: rest := by
  rw [(await_eq_some h).1, awaiting, arming, if_pos ht]
  exact ⟨_, rfl⟩

theorem doIoLoop_trace (ht : timeout ≠ noTimeout) {call : Call} {fuel : ℕ} {n : ℤ}
    (h : doIoLoop env call fd event timeout fuel w = some (n, w')) :
    ∃ new, w'.trace = w.trace ++ new ∧
      ((∃ fd event, .addEvent fd event ∈ new) → .addConditionTimer timeout fd event ∈ new) := by
  induction fuel generalizing w with
  | zero => cases h
  | succ fuel ih =>
    have hfirst : (perform env call w).2.trace = w.trace ++ [.original call] := rfl
    have hwait : ∀ {r v'}, await env fd event timeout (perform env call w).2 = some (r, v') →
        ∃ rest, v'.trace =
          w.trace ++ .original call :: .addConditionTimer timeout fd event :: rest := by
      intro r v' hawait
      obtain ⟨rest, hrest⟩ := await_trace ht hawait
      exact ⟨rest, by rw [hrest, hfirst]; simp⟩
    cases doIoLoop_round h with
    | interrupted hret herrno h =>
      obtain ⟨new, hnew, himp⟩ := ih h
      refine ⟨.original call :: new, by rw [hnew, hfirst]; simp, ?_⟩
      rintro ⟨fd', event', hmem⟩
      exact List.mem_cons_of_mem _ (himp ⟨fd', event', by simpa using hmem⟩)
    | unregistered hret herrno hawait hrt =>
      obtain ⟨rest, hrest⟩ := hwait hawait
      exact ⟨_, hrest, fun _ => by simp⟩
    | cancelled hret herrno hawait hrt hcancelled =>
      obtain ⟨rest, hrest⟩ := hwait hawait
      exact ⟨_, hrest, fun _ => by simp⟩
    | woken hret herrno hawait hrt hcancelled h =>
      obtain ⟨rest, hrest⟩ := hwait hawait
      obtain ⟨new, hnew, -⟩ := ih h
      exact ⟨.original call :: .addConditionTimer timeout fd event :: rest ++ new,
        by rw [hnew, hrest]; simp, fun _ => by simp⟩
    | returned hret => exact ⟨[.original call], hfirst, by simp⟩

theorem doIo_trace {c : FdCtx} {type : ℤ} (hon : w.hookEnable = true) (hknown : Known w.datas fd c)
    (ht : c.getTimeout type ≠ noTimeout) {call : Call} {fuel : ℕ} {n : ℤ}
    (h : doIo env fuel call fd event type w = some (n, w')) :
    ∃ new, w'.trace = w.trace ++ new ∧ ((∃ fd event, .addEvent fd event ∈ new) →
      .addConditionTimer (c.getTimeout type) fd event ∈ new) := by
  rw [doIo, on_eq hon, bind_apply, hknown.get, Option.bind_some] at h
  simp only [ite_run, bind_apply, setErrno, modify_apply, pure_apply, Option.bind_some] at h
  split_ifs at h
  · cases h
    exact ⟨[], by simp, by simp⟩
  · cases h
    exact ⟨[.original call], rfl, by simp⟩
  · exact doIoLoop_trace ht h

theorem doIo_timed {c : FdCtx} {type : ℤ} (hon : w.hookEnable = true) (hknown : Known w.datas fd c)
    (ht : c.getTimeout type ≠ noTimeout) {call : Call} {fuel : ℕ} {n : ℤ}
    (h : doIo env fuel call fd event type w = some (n, w')) :
    (Waits w w' → ¬Timed w w') ↔ ¬Waits w w' := by
  obtain ⟨new, hnew, htimed⟩ := doIo_trace hon hknown ht h
  have hdrop : w'.trace.drop w.trace.length = new := by rw [hnew, List.drop_left]
  rw [Waits, Timed, hdrop]
  constructor
  · intro himp hwaits
    exact himp hwaits ⟨_, _, _, htimed hwaits⟩
  · intro hnot hwaits
    exact absurd hwaits hnot

end Wait

/-- A set timeout is returned if its seconds are an `int`; a failed call has recorded it all the
same; and after a timeout of zero every wait has a timer. -/
theorem setTimeout_iff (env : Env) (w : World) (fd : ℤ) (c : FdCtx) (hon : w.hookEnable = true)
    (hget : FdManager.get env fd false w = some (some c, w)) (type other : ℤ)
    (htype : type = SO_RCVTIMEO ∧ other = SO_SNDTIMEO ∨ type = SO_SNDTIMEO ∧ other = SO_RCVTIMEO)
    (tv : ℕ) (timeout : ℤ) (ht : 0 ≤ timeout) :
    ∃ ok w' c', setTimeout type env fd tv timeout w = some (ok, w') ∧
      (ok = true ↔ (env.reply w.trace (.setsockopt fd SOL_SOCKET type tv 16)).1 = 0) ∧
      FdManager.get env fd false w' = some (some c', w') ∧
      c'.getTimeout other = c.getTimeout other ∧
      (ok = true →
        (getTimeout type env fd w' = some (timeout, w') ↔ timeout / 1000 < 2 ^ 31)) ∧
      (ok = false → (c'.getTimeout type = c.getTimeout type ↔
        c.getTimeout type = (recordedMs timeout % 2 ^ 64).toNat)) ∧
      (ok = true → timeout = 0 → ∀ env' fuel call event n w'',
        doIo env' fuel call fd event type w' = some (n, w'') →
          ((Waits w' w'' → ¬Timed w' w'') ↔ ¬Waits w' w'')) := by
  have hknown := known_of_get hget
  have hset : type = SO_RCVTIMEO ∨ type = SO_SNDTIMEO := by
    rcases htype with h | h
    · exact .inl h.1
    · exact .inr h.1
  have hknown' : Known (perform env (.setsockopt fd SOL_SOCKET type tv 16)
      (World.put w fd (recorded type timeout c))).2.datas fd (recorded type timeout c) :=
    known_perform hknown _ _
  have hown : (recorded type timeout c).getTimeout type = (recordedMs timeout % 2 ^ 64).toNat := by
    rcases htype with ⟨rfl, rfl⟩ | ⟨rfl, rfl⟩ <;> rfl
  have hother : (recorded type timeout c).getTimeout other = c.getTimeout other := by
    rcases htype with ⟨rfl, rfl⟩ | ⟨rfl, rfl⟩ <;> rfl
  refine ⟨_, _, _, setTimeout_eq hon hknown hset ht, decide_eq_true_iff, hknown'.get, hother,
    fun _ => ?_, fun _ => ?_, fun _ hzero env' fuel call event n w'' hrun => ?_⟩
  · rw [getTimeout_eq hknown', hown, bmod_recordedMs, ← recordedMs_eq_iff ht]
    simp
  · rw [hown, eq_comm]
  · refine doIo_timed hon hknown' ?_ hrun
    rw [hown, hzero]
    decide

def World.blocking : World :=
  World.put .hooking 3 ⟨true, true, true, false, false, 3, noTimeout, noTimeout⟩

def Env.busy (ret : ℤ) : Env :=
  { Env.requesting 0 0 with
    reply := fun _ call => match call with
      | .setsockopt .. => (ret, 22)
      | _ => (-1, EAGAIN)
    cancelled := fun _ => 110 }

theorem setTimeout_five_seconds :
    ∃ w', setRecvTimeout (Env.busy 0) 3 0 5000 World.blocking = some (true, w') ∧
      getRecvTimeout (Env.busy 0) 3 w' = some (5000, w') := by
  have hknown : Known World.blocking.datas 3
      ⟨true, true, true, false, false, 3, noTimeout, noTimeout⟩ := by
    refine ⟨by decide, by decide +kernel, rfl⟩
  obtain ⟨ok, w', c', hrun, hok, -, -, hreturned, -⟩ := setTimeout_iff (Env.busy 0) World.blocking 3
    _ rfl hknown.get SO_RCVTIMEO SO_SNDTIMEO (.inl ⟨rfl, rfl⟩) 0 5000 (by decide)
  obtain rfl : ok = true := hok.mpr rfl
  exact ⟨w', hrun, (hreturned rfl).mpr (by decide)⟩

/-- A timeout of 2^31 seconds is returned negative, a failed call is recorded, and a timeout of
zero makes `recv` fail at once. -/
theorem setTimeout_wrong :
    ((do
        let _ ← setRecvTimeout (Env.busy 0) 3 0 2147483648000
        getRecvTimeout (Env.busy 0) 3 : Hooked ℤ) World.blocking).map Prod.fst =
      some (-2147483648000) ∧
    ((do
        let ok ← setRecvTimeout (Env.busy (-1)) 3 0 5000
        return (ok, ← getRecvTimeout (Env.busy (-1)) 3) : Hooked (Bool × ℤ)) World.blocking).map
          Prod.fst = some (false, 5000) ∧
    ((do
        let _ ← setRecvTimeout (Env.busy 0) 3 0 0
        recv (Env.busy 0) 1 3 0 1 0 : Hooked ℤ) World.blocking).map
          (fun r => (r.1, r.2.errno, r.2.trace.contains (.addConditionTimer 0 3 .read))) =
      some (-1, 110, true) := by
  decide +kernel

end ApexStorm.Socket
