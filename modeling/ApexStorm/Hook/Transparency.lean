import ApexStorm.Hook.Wrappers

/-!
# The hook when it is off

On a thread that has not enabled the hook a wrapper should be the original function:
one call with the same arguments and nothing else. `Plain` is the condition under
which that is so.
-/

namespace ApexStorm.Hook
open IOManager (toInt)

/-- The wrapper returns and does just what the original function does. -/
def Transparent (env : Env) (call : Call) (w : World) : Prop :=
  ∃ fuel, hooked env fuel call w = some (perform env call w)

def registered (datas : List (Option FdCtx)) (fd : ℤ) : Option FdCtx :=
  (FdManager.index datas fd).bind fun i => (datas[i]?).join

def InBounds (datas : List (Option FdCtx)) (fd : ℤ) : Prop :=
  fd = -1 ∨ toInt datas.length < fd ∨ (FdManager.index datas fd).isSome

def IsInt (arg : Option (BitVec 64)) : Prop := ∃ v : BitVec 32, arg = some (v.signExtend 64)

/-- `fcntl` and `ioctl` do not test the flag but look the descriptor up. -/
def Unmanaged (w : World) : Call → Prop
  | .fcntl fd _ _ | .ioctl fd _ _ => registered w.datas fd = none
  | _ => True

def Plain (env : Env) (w : World) : Call → Prop
  | .nanosleep _ _ => False
  | .accept sockfd addr addrlen =>
    let fd := (env.reply w.trace (.accept sockfd addr addrlen)).1
    fd < 0 ∨ fd ≤ toInt w.datas.length ∧ (registered w.datas fd).isSome
  | .fcntl fd cmd arg =>
    match command cmd with
    | .setfl => IsInt arg ∧ InBounds w.datas fd
    | .getfl => arg = none ∧ InBounds w.datas fd
    | .withInt => IsInt arg
    | .withNothing => False
    | .withLock | .withOwner => arg.isSome
    | .other => arg = none
  | .ioctl fd request arg =>
    arg.isSome ∧
      (request = FIONBIO → (env.int (env.vaPtr arg).toNat).isSome ∧ InBounds w.datas fd)
  | _ => True

section Off
variable {env : Env} {w w' : World} {call call' : Call} {fd : ℤ}

theorem off_eq {p rest : Hooked ℤ} (hoff : w.hookEnable = false) :
    (do if !(← isHookEnable) then p else rest : Hooked ℤ) w = p w := by
  have hflag : isHookEnable w = some (false, w) := by rw [← hoff]; rfl
  rw [bind_apply, hflag]
  rfl

theorem doIo_off {fuel : ℕ} {event : IOManager.Event} {timeoutSo : ℤ}
    (hoff : w.hookEnable = false) :
    doIo env fuel call fd event timeoutSo w = some (perform env call w) :=
  off_eq hoff

theorem perform_trace (env : Env) (call : Call) (w : World) :
    (perform env call w).2.trace = w.trace ++ [.original call] := rfl

theorem original_iff : original env call' w = some (perform env call w) ↔ call' = call := by
  constructor
  · intro h
    have htrace := congrArg (fun r => r.2.trace) (Option.some.inj h)
    simpa [perform_trace] using htrace
  · rintro rfl
    rfl

theorem nanosleep_off {req rem : ℕ} (hoff : w.hookEnable = false) (fuel : ℕ) :
    nanosleep env req rem fuel w = none := by
  induction fuel with
  | zero => rfl
  | succ fuel ih =>
    rw [nanosleep, off_eq hoff]
    exact ih

theorem fcntl_withNothing {cmd : ℤ} (hcmd : command cmd = .withNothing) (fuel : ℕ)
    (arg : Option (BitVec 64)) : fcntl env fd cmd fuel arg w = none := by
  induction fuel generalizing arg with
  | zero => rfl
  | succ fuel ih =>
    rw [fcntl, hcmd]
    exact ih none

theorem get_inBounds (hfree : registered w.datas fd = none) (h : InBounds w.datas fd) :
    FdManager.get env fd false w = some (none, w) := by
  simp only [get_run, Bool.false_eq_true, if_false]
  split_ifs with hnone hlarge
  · rfl
  · rfl
  · have hindex := (h.resolve_left hnone).resolve_left hlarge
    obtain ⟨i, hi⟩ := Option.isSome_iff_exists.mp hindex
    rw [registered, hi, Option.bind_some] at hfree
    simp [slot_apply, hi, hfree]

theorem get_outside (h : ¬InBounds w.datas fd) : FdManager.get env fd false w = none := by
  simp only [InBounds, not_or, Option.not_isSome_iff_eq_none] at h
  obtain ⟨hnone, hlarge, hindex⟩ := h
  rw [get_run, if_neg hnone, if_neg hlarge, slot_apply, hindex]
  rfl

theorem new_trace {ctx : FdCtx} (h : FdCtx.new env fd w = some (ctx, w')) :
    w.trace.length < w'.trace.length := by
  simp only [FdCtx.new, emit, original, bind_apply, get_apply, modify_apply, ite_run, pure_apply,
    Option.bind_some] at h
  split_ifs at h <;> cases h <;> simp [perform_trace]

theorem setSlot_trace {ctx : Option FdCtx} {u : Unit}
    (h : FdManager.setSlot fd ctx w = some (u, w')) : w'.trace = w.trace := by
  rw [setSlot_apply, Option.map_eq_some_iff] at h
  obtain ⟨i, -, h⟩ := h
  cases h
  rfl

theorem create_trace {ctx : Option FdCtx} (h : FdManager.create env fd w = some (ctx, w')) :
    w.trace.length < w'.trace.length := by
  simp only [FdManager.create, bind_apply, modify_apply, pure_apply, Option.bind_some,
    Option.bind_eq_some_iff] at h
  obtain ⟨⟨c, w₁⟩, hnew, ⟨u, w₂⟩, hset, h⟩ := h
  cases h
  rw [setSlot_trace hset]
  have hlt := new_trace hnew
  split_ifs <;> exact hlt

theorem create_ne (ctx : Option FdCtx) : FdManager.create env fd w ≠ some (ctx, w) :=
  fun h => (create_trace h).false

theorem get_create_iff (hfd : 0 ≤ fd) : (∃ ctx, FdManager.get env fd true w = some (ctx, w)) ↔
    fd ≤ toInt w.datas.length ∧ (registered w.datas fd).isSome := by
  rw [get_run, if_neg (by omega), if_pos rfl]
  by_cases hlarge : toInt w.datas.length < fd
  · simp [hlarge, create_ne, not_le.mpr hlarge]
  · rw [if_neg hlarge, slot_apply, registered]
    cases hi : FdManager.index w.datas fd with
    | none => simp
    | some i =>
      cases hslot : (w.datas[i]?).join with
      | none => simp [hslot, create_ne]
      | some c => simp [hslot, not_lt.mp hlarge]

theorem accept_iff {fuel sockfd addr addrlen} (hoff : w.hookEnable = false) :
    accept env fuel sockfd addr addrlen w = some (perform env (.accept sockfd addr addrlen) w) ↔
      Plain env w (.accept sockfd addr addrlen) := by
  obtain ⟨fd, v, hv⟩ : ∃ fd v, perform env (.accept sockfd addr addrlen) w = (fd, v) := ⟨_, _, rfl⟩
  have hfd : (env.reply w.trace (.accept sockfd addr addrlen)).1 = fd := congrArg Prod.fst hv
  have hdatas : v.datas = w.datas := (congrArg (fun r => r.2.datas) hv).symm
  have hrun : accept env fuel sockfd addr addrlen w =
      if fd ≥ 0 then (FdManager.get env fd true v).map fun r => (fd, r.2) else some (fd, v) := by
    simp only [accept, bind_apply, doIo_off hoff, hv, Option.bind_some]
    by_cases hpos : fd ≥ 0
    · simp [hpos, Option.map_eq_bind]
    · simp [hpos]
  rw [hrun, hv, Plain, hfd]
  split_ifs with hpos
  · have hlt : ¬fd < 0 := not_lt.mpr hpos
    rw [← hdatas, ← @get_create_iff env v fd hpos, Option.map_eq_some_iff]
    simp [hlt]
  · simp [not_le.mp hpos]

theorem exists_fuel {γ : Type} {f : ℕ → Option γ} {x : Option γ} {r : γ} (hzero : f 0 = none)
    (hsucc : ∀ n, f (n + 1) = x) : (∃ n, f n = some r) ↔ x = some r := by
  constructor
  · rintro ⟨n, hn⟩
    cases n with
    | zero =>
      rw [hzero] at hn
      cases hn
    | succ n => rw [← hn, hsucc]
  · intro h
    exact ⟨1, (hsucc 0).trans h⟩

theorem truncate_signExtend (v : BitVec 32) : (v.signExtend 64).truncate 32 = v := by
  ext i hi
  simp [BitVec.getLsbD_signExtend, hi]
  omega

theorem vaInt_iff {arg : Option (BitVec 64)} :
    some ((env.vaInt arg).signExtend 64) = arg ↔ IsInt arg := by
  constructor
  · intro h
    exact ⟨_, h.symm⟩
  · rintro ⟨v, rfl⟩
    rw [Env.vaInt, Option.getD_some, truncate_signExtend]

theorem vaPtr_iff {arg : Option (BitVec 64)} : some (env.vaPtr arg) = arg ↔ arg.isSome := by
  cases arg <;> simp [Env.vaPtr]

theorem fcntl_original_iff {cmd : ℤ} {arg arg' : Option (BitVec 64)} :
    original env (.fcntl fd cmd arg') w = some (perform env (.fcntl fd cmd arg) w) ↔
      arg' = arg := by
  simp [original_iff]

theorem fcntl_iff {cmd : ℤ} {arg : Option (BitVec 64)} (hfree : registered w.datas fd = none) :
    (∃ fuel, fcntl env fd cmd fuel arg w = some (perform env (.fcntl fd cmd arg) w)) ↔
      Plain env w (.fcntl fd cmd arg) := by
  rw [Plain]
  cases hcmd : command cmd with
  | setfl =>
    by_cases h : InBounds w.datas fd
    · rw [exists_fuel rfl fun n => by rw [fcntl, hcmd]]
      simp [get_inBounds hfree h, managed, fcntl_original_iff, vaInt_iff, h]
    · rw [exists_fuel rfl fun n => by rw [fcntl, hcmd]]
      simp [get_outside h, h]
  | getfl =>
    obtain ⟨x, v, hv⟩ : ∃ x v, perform env (.fcntl fd cmd none) w = (x, v) := ⟨_, _, rfl⟩
    have hdatas : v.datas = w.datas := (congrArg (fun r => r.2.datas) hv).symm
    have horiginal : original env (.fcntl fd cmd none) w = some (x, v) := congrArg some hv
    have hsame := @fcntl_original_iff env w fd cmd arg none
    rw [horiginal, @eq_comm _ none] at hsame
    rw [exists_fuel rfl fun n => by rw [fcntl, hcmd], ← hdatas]
    rw [← hdatas] at hfree
    by_cases h : InBounds v.datas fd
    · simp [horiginal, get_inBounds hfree h, managed, h, ← hsame]
    · simp [horiginal, get_outside h, h]
  | withInt =>
    rw [exists_fuel rfl fun n => by rw [fcntl, hcmd]]
    exact fcntl_original_iff.trans vaInt_iff
  | withNothing => simp [fcntl_withNothing hcmd]
  | withLock | withOwner =>
    rw [exists_fuel rfl fun n => by rw [fcntl, hcmd]]
    exact fcntl_original_iff.trans vaPtr_iff
  | other =>
    rw [exists_fuel rfl fun n => by rw [fcntl, hcmd]]
    exact fcntl_original_iff.trans eq_comm

theorem ioctl_iff {request : ℕ} {arg : Option (BitVec 64)} (hfree : registered w.datas fd = none) :
    ioctl env fd request arg w = some (perform env (.ioctl fd request arg) w) ↔
      Plain env w (.ioctl fd request arg) := by
  have horiginal : original env (.ioctl fd request (some (env.vaPtr arg))) w =
      some (perform env (.ioctl fd request arg) w) ↔ arg.isSome := by
    simp [original_iff, vaPtr_iff]
  rw [ioctl, Plain]
  by_cases hrequest : request = FIONBIO
  · subst hrequest
    cases hint : env.int (env.vaPtr arg).toNat with
    | none => simp
    | some value =>
      by_cases h : InBounds w.datas fd
      · simpa [get_inBounds hfree h, managed, h] using horiginal
      · simp [get_outside h, h]
  · simp [hrequest, horiginal]

end Off

/-- With the hook off a wrapper is the original function exactly under `Plain`. -/
theorem transparent_iff_plain (env : Env) (call : Call) (w : World) (hoff : w.hookEnable = false)
    (hfree : Unmanaged w call) : Transparent env call w ↔ Plain env w call := by
  cases call with
  | nanosleep req rem => simp [Transparent, hooked, nanosleep_off hoff, Plain]
  | accept sockfd addr addrlen => simp [Transparent, hooked, accept_iff hoff]
  | fcntl fd cmd arg => exact fcntl_iff hfree
  | ioctl fd request arg => simp [Transparent, hooked, ioctl_iff hfree]
  | getsockopt sockfd level optname optval optlen => exact ⟨fun _ => trivial, fun _ => ⟨0, rfl⟩⟩
  | _ => exact ⟨fun _ => trivial, fun _ => ⟨0, off_eq hoff⟩⟩

def Env.answering (ret : ℤ) : Env where
  reply := fun _ _ => (ret, 0)
  isSock := fun _ _ => none
  addEvent := fun _ => 0
  cancelled := fun _ => 0
  sockError := fun _ => 0
  hasIOManager := false
  connectTimeout := 5000
  int := fun _ => none
  timespec := fun _ => none
  timeval := fun _ => none
  vararg := 0

def World.unhooked : World := ⟨false, 0, FdManager.initial, []⟩

theorem transparent_iff_plain_dupfd :
    Transparent (.answering 7) (.fcntl 3 0 (some 9)) .unhooked :=
  (transparent_iff_plain (.answering 7) (.fcntl 3 0 (some 9)) .unhooked rfl rfl).mpr ⟨9, rfl⟩

theorem nanosleep_never_returns :
    World.unhooked.hookEnable = false ∧
    ∀ fuel, hooked (.answering 0) fuel (.nanosleep 0 0) .unhooked = none :=
  ⟨rfl, nanosleep_off rfl⟩

end ApexStorm.Hook
