import ApexStorm.Lib.Run
import ApexStorm.Hook.Kernel

/-!
# Sockets that are non-blocking in the kernel but not for the user

A registered socket has `O_NONBLOCK` set in the kernel, and `fcntl(F_GETFL)` shows the
user what they asked for last. This is kept by the calls that open and close
descriptors and change the flag, except by `ioctl(FIONBIO)` with value 0, which is
passed to the kernel as it is, and where the kernel hands out a number again whose
context was not removed by a `close` without the hook.
-/

namespace ApexStorm.Hook
open Lib
open IOManager (toInt toInt_of_lt toInt_of_ge)

section Table
variable {env : Env} {w w' : World} {datas : List (Option FdCtx)} {fd : ℤ}

theorem registered_eq (datas : List (Option FdCtx)) (fd : ℤ) :
    registered datas fd = if 0 ≤ fd then (datas[fd.toNat]?).join else none := by
  rw [registered, FdManager.index]
  by_cases hfd : 0 ≤ fd
  · by_cases hlt : fd.toNat < datas.length
    · simp [hfd, hlt]
    · simp [hlt]
  · simp [hfd]

theorem registered_of_ge (h : (datas.length : ℤ) ≤ fd) : registered datas fd = none := by
  rw [registered_eq, if_pos (by omega), List.getElem?_eq_none (by omega)]
  rfl

theorem registered_lt {c : FdCtx} (h : registered datas fd = some c) :
    0 ≤ fd ∧ fd.toNat < datas.length := by
  have hfd : 0 ≤ fd := by
    by_contra hneg
    rw [registered_eq, if_neg hneg] at h
    cases h
  refine ⟨hfd, ?_⟩
  by_contra hge
  rw [registered_of_ge (by omega)] at h
  cases h

theorem index_of_lt (hfd : 0 ≤ fd) (hlt : fd.toNat < datas.length) :
    FdManager.index datas fd = some fd.toNat :=
  if_pos ⟨hfd, hlt⟩

theorem registered_set (hfd : 0 ≤ fd) (hlt : fd.toNat < datas.length) (ctx : Option FdCtx)
    (fd' : ℤ) : registered (datas.set fd.toNat ctx) fd' =
      if fd' = fd then ctx else registered datas fd' := by
  simp only [registered_eq]
  by_cases hfd' : 0 ≤ fd'
  · rw [if_pos hfd', if_pos hfd', join_getElem?_set hlt]
    by_cases heq : fd' = fd
    · simp [heq]
    · rw [if_neg heq, if_neg (by omega)]
  · rw [if_neg hfd', if_neg hfd', if_neg (by omega)]

theorem setSlot_registered {ctx : Option FdCtx} {u : Unit}
    (h : FdManager.setSlot fd ctx w = some (u, w')) :
    w'.trace = w.trace ∧ w'.datas.length = w.datas.length ∧
      ∀ fd', registered w'.datas fd' = if fd' = fd then ctx else registered w.datas fd' := by
  rw [setSlot_apply, Option.map_eq_some_iff] at h
  obtain ⟨i, hi, h⟩ := h
  cases h
  rw [FdManager.index] at hi
  split_ifs at hi with hin
  cases hi
  exact ⟨rfl, List.length_set, registered_set hin.1 hin.2 ctx⟩

theorem get_find (hlt : w.datas.length < 2 ^ 31) {ctx : Option FdCtx}
    (h : FdManager.get env fd false w = some (ctx, w')) :
    ctx = registered w.datas fd ∧ w' = w := by
  refine ⟨?_, get_false h⟩
  rw [get_run, slot_apply, toInt_of_lt hlt] at h
  simp only [Bool.false_eq_true, if_false, Bool.not_false, Bool.or_true, if_true] at h
  split_ifs at h with hnone hlarge
  · cases h
    rw [registered_eq, if_neg (by omega)]
  · cases h
    rw [registered_of_ge hlarge.le]
  · obtain ⟨r, hr, h⟩ := Option.bind_eq_some_iff.mp h
    obtain ⟨i, hi, rfl⟩ := Option.map_eq_some_iff.mp hr
    cases h
    rw [registered, hi, Option.bind_some]

theorem get_registered (hlt : w.datas.length < 2 ^ 31) {c : FdCtx}
    (h : registered w.datas fd = some c) (autoCreate : Bool) :
    FdManager.get env fd autoCreate w = some (some c, w) := by
  obtain ⟨hfd, hin⟩ := registered_lt h
  rw [get_run, if_neg (by omega), toInt_of_lt hlt, if_neg (by omega), slot_apply,
    index_of_lt hfd hin, Option.map_some, Option.bind_some]
  rw [registered, index_of_lt hfd hin, Option.bind_some] at h
  simp [h]

end Table

structure Turn where
  hookEnable : Bool
  errno : ℤ
  call : Call
  ret : ℤ

def Call.onFlag : Call → Bool
  | .socket _ _ _ | .accept _ _ _ | .close _ => true
  | .fcntl _ cmd _ => cmd = F_SETFL ∨ cmd = F_GETFL
  | .ioctl _ request _ => request = FIONBIO
  | _ => false

def World.enter (w : World) (e : Turn) : World :=
  { w with hookEnable := e.hookEnable, errno := e.errno }

def Turns (env : Env) (w : World) (e : Turn) (w' : World) : Prop :=
  e.call.onFlag = true ∧ ∃ fuel, hooked env fuel e.call (w.enter e) = some (e.ret, w')

def request (env : Env) (asked : ℤ → Bool) (e : Turn) : ℤ → Bool :=
  match e.call with
  | .socket _ _ _ | .accept _ _ _ => if 0 ≤ e.ret then Function.update asked e.ret false else asked
  | .fcntl fd cmd arg =>
    if cmd = F_SETFL then Function.update asked fd (isNonblock (env.vaInt arg)) else asked
  | .ioctl fd _ arg =>
    Function.update asked fd (decide (env.int (env.vaPtr arg).toNat ≠ some 0))
  | _ => asked

/-- Whether the latest `F_SETFL` or `FIONBIO` on an open descriptor asked for `O_NONBLOCK`. -/
def asked (env : Env) (turns : List Turn) : ℤ → Bool := turns.foldl (request env) fun _ => false

theorem asked_concat (env : Env) (turns : List Turn) (e : Turn) :
    asked env (turns ++ [e]) = request env (asked env turns) e := by
  simp [asked]

/-- Open descriptors with `m_sysNonblock` are non-blocking in the kernel, and `F_GETFL` on a
registered open socket returns the flag that was asked for. -/
structure Consistent (env : Env) (k : Kernel) (turns : List Turn) (w : World) : Prop where
  nonblock : ∀ fd c f, registered w.datas fd = some c → c.sysNonblock = true →
    kernel env k w.trace fd = some f → isNonblock f.flags = true
  reports : ∀ fd c f arg, registered w.datas fd = some c → kernel env k w.trace fd = some f →
    f.isSocket = true → ∃ ret w', hooked env 1 (.fcntl fd F_GETFL arg) w = some (ret, w') ∧
      isNonblock (BitVec.ofInt 32 ret) = asked env turns fd

def hasRoom (datas : List (Option FdCtx)) (fd : ℤ) : Bool :=
  fd < datas.length ∨ 3 * fd.toNat / 2 < 2 ^ 31

/-- A new socket can take the number `fd`: an old context happens to fit it, or there is none and
room for one if the call creates it. -/
def admits (datas : List (Option FdCtx)) (fd : ℤ) (creates nonblock : Bool) : Bool :=
  match registered datas fd with
  | none => !creates || hasRoom datas fd
  | some c => nonblock && !c.userNonblock

/-- New descriptors are admitted, and `FIONBIO` on a registered open one has not the value 0. -/
def tame (env : Env) (k : Kernel) (w : World) (e : Turn) : Bool :=
  match e.call with
  | .socket _ type _ =>
    e.ret < 0 || admits w.datas e.ret e.hookEnable (isNonblock (BitVec.ofInt 32 type))
  | .accept _ _ _ => e.ret < 0 || admits w.datas e.ret true false
  | .ioctl fd _ arg =>
    registered w.datas fd = none ∨ kernel env k w.trace fd = none ∨
      env.int (env.vaPtr arg).toNat ≠ some 0
  | _ => true

structure Inv (env : Env) (k : Kernel) (turns : List Turn) (w : World) : Prop where
  size_ge : 64 ≤ w.datas.length
  size_lt : w.datas.length < 2 ^ 31
  ctx : ∀ fd c, registered w.datas fd = some c →
    c.isSocket = true ∧ c.sysNonblock = true ∧ c.isClosed = false
  sync : ∀ fd c f, registered w.datas fd = some c → kernel env k w.trace fd = some f →
    isNonblock f.flags = true ∧ c.userNonblock = asked env turns fd

section Lookups
variable {env : Env} {k : Kernel} {turns : List Turn} {w w' v : World} {e : Turn} {fd : ℤ}

theorem getfl_run (env : Env) (fd : ℤ) (arg : Option (BitVec 64)) (w : World) :
    hooked env 1 (.fcntl fd F_GETFL arg) w =
      (FdManager.get env fd false (perform env (.fcntl fd F_GETFL none) w).2).bind fun r =>
        some (match managed r.1 with
          | none => (perform env (.fcntl fd F_GETFL none) w).1
          | some c =>
            (setNonblock (BitVec.ofInt 32 (perform env (.fcntl fd F_GETFL none) w).1)
              c.userNonblock).toInt, r.2) := by
  have hcmd : command F_GETFL = .getfl := by decide
  rw [hooked, fcntl, hcmd]
  simp only [bind_apply, original, Option.bind_some]
  congr 1
  funext r
  cases managed r.1 <;> rfl

theorem getfl_reports (env : Env) (hlt : w.datas.length < 2 ^ 31) {c : FdCtx}
    (hc : registered w.datas fd = some c) (hmanaged : managed (some c) = some c)
    (arg : Option (BitVec 64)) :
    ∃ ret w', hooked env 1 (.fcntl fd F_GETFL arg) w = some (ret, w') ∧
      isNonblock (BitVec.ofInt 32 ret) = c.userNonblock := by
  have hget : FdManager.get env fd false (perform env (.fcntl fd F_GETFL none) w).2 =
      some (some c, (perform env (.fcntl fd F_GETFL none) w).2) :=
    get_registered (w := (perform env (.fcntl fd F_GETFL none) w).2) hlt hc false
  rw [getfl_run, hget, Option.bind_some, hmanaged]
  exact ⟨_, _, rfl, by rw [BitVec.ofInt_toInt, isNonblock_setNonblock]⟩

theorem getfl_lost (hlinux : Linux env k) (hfd : fd ≠ -1)
    (hlost : toInt w.datas.length < fd) {f : OpenFile}
    (hf : kernel env k w.trace fd = some f) (arg : Option (BitVec 64)) {ret : ℤ}
    (h : hooked env 1 (.fcntl fd F_GETFL arg) w = some (ret, w')) :
    isNonblock (BitVec.ofInt 32 ret) = isNonblock f.flags := by
  have hget : FdManager.get env fd false (perform env (.fcntl fd F_GETFL none) w).2 =
      some (none, (perform env (.fcntl fd F_GETFL none) w).2) := by
    rw [get_run, if_neg hfd]
    exact if_pos hlost
  rw [getfl_run, hget, Option.bind_some] at h
  obtain ⟨hret, -⟩ := Prod.mk.inj (Option.some.inj h)
  have hreply := hlinux.getfl w.trace fd none f hf
  rw [← hret]
  change isNonblock (BitVec.ofInt 32 (env.reply w.trace (.fcntl fd F_GETFL none)).1) = _
  rw [hreply, BitVec.ofInt_toInt]

theorem create_new (hlinux : Linux env k) (hge : 64 ≤ v.datas.length)
    (hlt : v.datas.length < 2 ^ 31) (hfd : 0 ≤ fd) {flags : BitVec 32}
    (hopen : kernel env k v.trace fd = some ⟨true, flags⟩) {ctx : Option FdCtx}
    (h : FdManager.create env fd v = some (ctx, w')) :
    (∃ flags', isNonblock flags' = true ∧
      kernel env k w'.trace = Function.update (kernel env k v.trace) fd (some ⟨true, flags'⟩)) ∧
    w'.datas.length =
      (if fd.toNat < v.datas.length then v.datas.length else 3 * fd.toNat / 2) ∧
    ∀ fd', registered w'.datas fd' =
      if fd' = fd then some (.ofSocket fd) else registered v.datas fd' := by
  obtain ⟨u, hnew, hdatas, hkernel⟩ := new_linux hlinux hopen rfl
  rw [create_run, hnew, Option.bind_some, Option.bind_eq_some_iff] at h
  obtain ⟨⟨x, u'⟩, hset, h⟩ := h
  cases h
  obtain ⟨htrace, hlen, hreg⟩ := setSlot_registered hset
  rw [hdatas, toInt_of_lt hlt] at htrace hlen hreg
  by_cases hin : fd.toNat < v.datas.length
  · rw [if_neg (by omega)] at htrace hlen hreg
    rw [hdatas] at hlen hreg
    rw [htrace, if_pos hin]
    exact ⟨hkernel, hlen, hreg⟩
  · rw [if_pos (by omega)] at htrace hlen hreg
    rw [FdManager.resize_eq] at hlen hreg
    rw [htrace, if_neg hin]
    refine ⟨hkernel, by rw [hlen, length_resize], fun fd' => ?_⟩
    rw [hreg, registered_eq, join_getElem?_resize (by omega), ← registered_eq]

theorem get_new (hlinux : Linux env k) (hge : 64 ≤ v.datas.length)
    (hlt : v.datas.length < 2 ^ 31) (hfd : 0 ≤ fd) {flags : BitVec 32}
    (hopen : kernel env k v.trace fd = some ⟨true, flags⟩)
    (hnone : registered v.datas fd = none) {ctx : Option FdCtx}
    (h : FdManager.get env fd true v = some (ctx, w')) :
    (∃ flags', isNonblock flags' = true ∧
      kernel env k w'.trace = Function.update (kernel env k v.trace) fd (some ⟨true, flags'⟩)) ∧
    w'.datas.length =
      (if fd.toNat < v.datas.length then v.datas.length else 3 * fd.toNat / 2) ∧
    ∀ fd', registered w'.datas fd' =
      if fd' = fd then some (.ofSocket fd) else registered v.datas fd' := by
  rw [get_run, if_neg (by omega), if_pos rfl] at h
  have hcreate : FdManager.create env fd v = some (ctx, w') := by
    split_ifs at h with hlarge
    · exact h
    · rw [slot_apply] at h
      obtain ⟨r, hr, h⟩ := Option.bind_eq_some_iff.mp h
      obtain ⟨i, hi, rfl⟩ := Option.map_eq_some_iff.mp hr
      rw [registered, hi, Option.bind_some] at hnone
      simpa [hnone] using h
  exact create_new hlinux hge hlt hfd hopen hcreate

theorem register_registered {c : FdCtx} {creates : Bool} (hlt : v.datas.length < 2 ^ 31)
    (hc : registered v.datas fd = some c)
    (hregister : if creates then ∃ ctx, FdManager.get env fd true v = some (ctx, w')
      else w' = v) : w' = v := by
  cases creates with
  | false => exact hregister
  | true =>
    obtain ⟨ctx, hget⟩ := hregister
    rw [get_registered hlt hc true] at hget
    cases hget
    rfl

end Lookups

inductive Outcome (env : Env) (k : Kernel) (w : World) (e : Turn) (w' : World) : Prop
  | still (hrequest : ∀ asked, request env asked e = asked) (htame : tame env k w e = true)
      (h : Still env k w w')
  | opened (flags : BitVec 32) (creates : Bool) (v : World) (hfd : 0 ≤ e.ret)
      (hlt : e.ret < 2 ^ 31)
      (hrequest : ∀ asked, request env asked e = Function.update asked e.ret false)
      (htame : tame env k w e = admits w.datas e.ret creates (isNonblock flags))
      (hdatas : v.datas = w.datas)
      (hkernel : kernel env k v.trace =
        Function.update (kernel env k w.trace) e.ret (some ⟨true, flags⟩))
      (hregister : if creates then ∃ ctx, FdManager.get env e.ret true v = some (ctx, w')
        else w' = v)
  | closed (fd : ℤ) (hrequest : ∀ asked, request env asked e = asked)
      (htame : tame env k w e = true) (hsize : w'.datas.length = w.datas.length)
      (hkernel : kernel env k w'.trace = Function.update (kernel env k w.trace) fd none)
      (hother : ∀ fd' ≠ fd, registered w'.datas fd' = registered w.datas fd')
      (hctx : registered w'.datas fd = none ∨ registered w'.datas fd = registered w.datas fd)
  | flagged (fd : ℤ) (on : Bool)
      (hrequest : ∀ asked, request env asked e = Function.update asked fd on)
      (hsize : w'.datas.length = w.datas.length)
      (hregistered : ∀ fd', registered w'.datas fd' =
        if fd' = fd then (registered w.datas fd).map fun c => { c with userNonblock := on }
        else registered w.datas fd')
      (hother : ∀ fd' ≠ fd, kernel env k w'.trace fd' = kernel env k w.trace fd')
      (htame : tame env k w e = true ↔ ∀ c f, registered w.datas fd = some c →
        kernel env k w'.trace fd = some f → isNonblock f.flags = true)

section Steps
variable {env : Env} {k : Kernel} {turns : List Turn} {w w' v : World} {e : Turn} {fd : ℤ}

namespace Inv

theorem initial (env : Env) (k : Kernel) (hookEnable : Bool) (errno : ℤ) :
    Inv env k [] ⟨hookEnable, errno, FdManager.initial, []⟩ := by
  have hnone (fd : ℤ) : registered FdManager.initial fd = none := by
    have hget : FdManager.initial[fd.toNat]? = if fd.toNat < 64 then some none else none :=
      List.getElem?_replicate
    rw [registered_eq, hget]
    split_ifs <;> rfl
  refine ⟨?_, ?_, fun fd c hc => ?_, fun fd c f hc => ?_⟩
  · simp [FdManager.initial]
  · simp [FdManager.initial]
  · rw [hnone] at hc
    cases hc
  · rw [hnone] at hc
    cases hc

theorem managed (h : Inv env k turns w) {c : FdCtx} (hc : registered w.datas fd = some c) :
    Hook.managed (some c) = some c := by
  obtain ⟨hsocket, -, hclosed⟩ := h.ctx fd c hc
  simp [Hook.managed, hsocket, hclosed]

theorem consistent (h : Inv env k turns w) : Consistent env k turns w where
  nonblock fd c f hc _ hf := (h.sync fd c f hc hf).1
  reports fd c f arg hc hf _ := by
    obtain ⟨ret, w', hrun, hret⟩ := getfl_reports env h.size_lt hc (h.managed hc) arg
    exact ⟨ret, w', hrun, hret.trans (h.sync fd c f hc hf).2⟩

theorem change (h : Inv env k turns w) (fd : ℤ) {turns' : List Turn} (hge : 64 ≤ w'.datas.length)
    (hlt : w'.datas.length < 2 ^ 31)
    (hregistered : ∀ fd' ≠ fd, registered w'.datas fd' = registered w.datas fd')
    (hkernel : ∀ fd' ≠ fd, kernel env k w'.trace fd' = kernel env k w.trace fd')
    (hasked : ∀ fd' ≠ fd, asked env turns' fd' = asked env turns fd')
    (hctx : ∀ c, registered w'.datas fd = some c →
      c.isSocket = true ∧ c.sysNonblock = true ∧ c.isClosed = false)
    (hsync : ∀ c f, registered w'.datas fd = some c → kernel env k w'.trace fd = some f →
      isNonblock f.flags = true ∧ c.userNonblock = asked env turns' fd) :
    Inv env k turns' w' := by
  refine ⟨hge, hlt, fun fd' c hc => ?_, fun fd' c f hc hf => ?_⟩
  · by_cases heq : fd' = fd
    · rw [heq] at hc
      exact hctx c hc
    · rw [hregistered fd' heq] at hc
      exact h.ctx fd' c hc
  · by_cases heq : fd' = fd
    · rw [heq] at hc hf ⊢
      exact hsync c f hc hf
    · rw [hregistered fd' heq] at hc
      rw [hkernel fd' heq] at hf
      rw [hasked fd' heq]
      exact h.sync fd' c f hc hf

theorem opened (h : Inv env k turns w) {flags : BitVec 32}
    (hrequest : ∀ asked, request env asked e = Function.update asked e.ret false)
    (hdatas : v.datas = w.datas)
    (hkernel : kernel env k v.trace =
      Function.update (kernel env k w.trace) e.ret (some ⟨true, flags⟩))
    (hold : ∀ c, registered w.datas e.ret = some c →
      isNonblock flags = true ∧ c.userNonblock = false) : Inv env k (turns ++ [e]) v := by
  have hasked := asked_concat env turns e
  rw [hrequest] at hasked
  refine h.change e.ret (by rw [hdatas]; exact h.size_ge) (by rw [hdatas]; exact h.size_lt)
    (fun fd' _ => by rw [hdatas]) (fun fd' hne => ?_) (fun fd' hne => ?_) (fun c hc => ?_)
    (fun c f hc hf => ?_)
  · rw [hkernel, Function.update_of_ne hne]
  · rw [hasked, Function.update_of_ne hne]
  · rw [hdatas] at hc
    exact h.ctx e.ret c hc
  · rw [hdatas] at hc
    rw [hkernel, Function.update_self] at hf
    cases hf
    rw [hasked, Function.update_self]
    exact hold c hc

theorem registers (hlinux : Linux env k) (h : Inv env k turns v) (hfd : 0 ≤ fd)
    {flags : BitVec 32} (hopen : kernel env k v.trace fd = some ⟨true, flags⟩)
    (hnone : registered v.datas fd = none) (hroom : hasRoom v.datas fd = true)
    (hasked : asked env turns fd = false) {ctx : Option FdCtx}
    (hget : FdManager.get env fd true v = some (ctx, w')) : Inv env k turns w' := by
  obtain ⟨⟨flags', hnonblock, hkernel⟩, hsize, hregistered⟩ :=
    get_new hlinux h.size_ge h.size_lt hfd hopen hnone hget
  have hge := h.size_ge
  have hlt := h.size_lt
  simp only [hasRoom, decide_eq_true_eq] at hroom
  refine h.change fd ?_ ?_ (fun fd' hne => ?_) (fun fd' hne => ?_) (fun _ _ => rfl)
    (fun c hc => ?_) (fun c f hc hf => ?_)
  · rw [hsize]
    split_ifs <;> omega
  · rw [hsize]
    split_ifs <;> omega
  · rw [hregistered, if_neg hne]
  · rw [hkernel, Function.update_of_ne hne]
  · rw [hregistered, if_pos rfl] at hc
    cases hc
    exact ⟨rfl, rfl, rfl⟩
  · rw [hregistered, if_pos rfl] at hc
    rw [hkernel, Function.update_self] at hf
    cases hc
    cases hf
    exact ⟨hnonblock, hasked.symm⟩

/-- A table that grows past the range of `int` loses the context it has just stored. -/
theorem hasRoom_of_consistent (hlinux : Linux env k) (h : Inv env k turns v) (hfd : 0 ≤ fd)
    (hlt : fd < 2 ^ 31) {flags : BitVec 32}
    (hopen : kernel env k v.trace fd = some ⟨true, flags⟩)
    (hnone : registered v.datas fd = none) (hasked : asked env turns fd = false)
    {ctx : Option FdCtx} (hget : FdManager.get env fd true v = some (ctx, w'))
    (hconsistent : Consistent env k turns w') : hasRoom v.datas fd = true := by
  obtain ⟨⟨flags', hnonblock, hkernel⟩, hsize, hregistered⟩ :=
    get_new hlinux h.size_ge h.size_lt hfd hopen hnone hget
  by_contra hroom
  simp only [hasRoom, decide_eq_true_eq, not_or, not_lt] at hroom
  have hc : registered w'.datas fd = some (.ofSocket fd) := by rw [hregistered, if_pos rfl]
  have hf : kernel env k w'.trace fd = some ⟨true, flags'⟩ := by
    rw [hkernel, Function.update_self]
  have hlost : toInt w'.datas.length < fd := by
    rw [hsize, if_neg (by omega), toInt_of_ge (by omega) (by omega)]
    omega
  obtain ⟨ret, u, hrun, hret⟩ := hconsistent.reports fd _ _ none hc hf rfl
  have hshown := getfl_lost hlinux (by omega) hlost hf none hrun
  rw [hret, hasked, hnonblock] at hshown
  cases hshown

theorem admitted (hlinux : Linux env k) (h : Inv env k turns w) {flags : BitVec 32}
    {creates : Bool} (hfd : 0 ≤ e.ret)
    (hrequest : ∀ asked, request env asked e = Function.update asked e.ret false)
    (hdatas : v.datas = w.datas)
    (hkernel : kernel env k v.trace =
      Function.update (kernel env k w.trace) e.ret (some ⟨true, flags⟩))
    (hregister : if creates then ∃ ctx, FdManager.get env e.ret true v = some (ctx, w')
      else w' = v)
    (hadmits : admits w.datas e.ret creates (isNonblock flags) = true) :
    Inv env k (turns ++ [e]) w' := by
  rw [admits] at hadmits
  cases hc : registered w.datas e.ret with
  | none =>
    have hv : Inv env k (turns ++ [e]) v :=
      h.opened hrequest hdatas hkernel fun c hc' => by rw [hc] at hc'; cases hc'
    cases creates with
    | false =>
      rw [show w' = v from hregister]
      exact hv
    | true =>
      obtain ⟨ctx, hget⟩ := hregister
      have hopen : kernel env k v.trace e.ret = some ⟨true, flags⟩ := by
        rw [hkernel, Function.update_self]
      have hasked : asked env (turns ++ [e]) e.ret = false := by
        rw [asked_concat, hrequest, Function.update_self]
      rw [hc, ← hdatas] at hadmits
      exact registers hlinux hv hfd hopen (by rw [hdatas, hc]) (by simpa using hadmits) hasked hget
  | some c =>
    simp only [hc, Bool.and_eq_true, Bool.not_eq_true'] at hadmits
    have hv : Inv env k (turns ++ [e]) v :=
      h.opened hrequest hdatas hkernel fun c' hc' => by
        rw [hc] at hc'
        cases hc'
        exact hadmits
    rw [register_registered hv.size_lt (by rw [hdatas, hc]) hregister]
    exact hv

theorem admits_of_consistent (hlinux : Linux env k) (h : Inv env k turns w) {flags : BitVec 32}
    {creates : Bool} (hfd : 0 ≤ e.ret) (hlt : e.ret < 2 ^ 31)
    (hrequest : ∀ asked, request env asked e = Function.update asked e.ret false)
    (hdatas : v.datas = w.datas)
    (hkernel : kernel env k v.trace =
      Function.update (kernel env k w.trace) e.ret (some ⟨true, flags⟩))
    (hregister : if creates then ∃ ctx, FdManager.get env e.ret true v = some (ctx, w')
      else w' = v)
    (hconsistent : Consistent env k (turns ++ [e]) w') :
    admits w.datas e.ret creates (isNonblock flags) = true := by
  have hopen : kernel env k v.trace e.ret = some ⟨true, flags⟩ := by
    rw [hkernel, Function.update_self]
  have hasked : asked env (turns ++ [e]) e.ret = false := by
    rw [asked_concat, hrequest, Function.update_self]
  rw [admits]
  cases hc : registered w.datas e.ret with
  | none =>
    cases creates with
    | false => rfl
    | true =>
      obtain ⟨ctx, hget⟩ := hregister
      have hv : Inv env k (turns ++ [e]) v :=
        h.opened hrequest hdatas hkernel fun c hc' => by rw [hc] at hc'; cases hc'
      have hroom := hasRoom_of_consistent hlinux hv hfd hlt hopen (by rw [hdatas, hc]) hasked
        hget hconsistent
      rw [hdatas] at hroom
      simpa using hroom
  | some c =>
    have hsize : v.datas.length < 2 ^ 31 := by rw [hdatas]; exact h.size_lt
    have hcv : registered v.datas e.ret = some c := by rw [hdatas, hc]
    obtain rfl : w' = v := register_registered hsize hcv hregister
    have hnonblock := hconsistent.nonblock e.ret c _ hcv (h.ctx e.ret c hc).2.1 hopen
    obtain ⟨ret, u, hrun, hret⟩ := hconsistent.reports e.ret c _ none hcv hopen rfl
    obtain ⟨ret', u', hrun', hret'⟩ := getfl_reports env hsize hcv (h.managed hc) none
    rw [hrun] at hrun'
    cases hrun'
    rw [hret, hasked] at hret'
    simp [show isNonblock flags = true from hnonblock, ← hret']

theorem outcome (hlinux : Linux env k) (h : Inv env k turns w) (hout : Outcome env k w e w') :
    (tame env k w e = true → Inv env k (turns ++ [e]) w') ∧
      (Consistent env k (turns ++ [e]) w' → tame env k w e = true) := by
  have hasked := asked_concat env turns e
  cases hout with
  | still hrequest htame hstill =>
    refine ⟨fun _ => ?_, fun _ => htame⟩
    rw [hrequest] at hasked
    refine ⟨?_, ?_, ?_, ?_⟩
    · rw [hstill.datas]
      exact h.size_ge
    · rw [hstill.datas]
      exact h.size_lt
    · rw [hstill.datas]
      exact h.ctx
    · rw [hstill.datas, hstill.kernel, hasked]
      exact h.sync
  | opened flags creates v hfd hlt hrequest htame hdatas hkernel hregister =>
    rw [htame]
    exact ⟨h.admitted hlinux hfd hrequest hdatas hkernel hregister,
      h.admits_of_consistent hlinux hfd hlt hrequest hdatas hkernel hregister⟩
  | closed fd hrequest htame hsize hkernel hother hctx =>
    refine ⟨fun _ => ?_, fun _ => htame⟩
    rw [hrequest] at hasked
    refine h.change fd (by rw [hsize]; exact h.size_ge) (by rw [hsize]; exact h.size_lt) hother
      (fun fd' hne => ?_) (fun fd' _ => by rw [hasked]) (fun c hc => ?_) (fun c f _ hf => ?_)
    · rw [hkernel, Function.update_of_ne hne]
    · rcases hctx with hnone | hsame
      · rw [hnone] at hc
        cases hc
      · rw [hsame] at hc
        exact h.ctx fd c hc
    · rw [hkernel, Function.update_self] at hf
      cases hf
  | flagged fd on hrequest hsize hregistered hother htame =>
    rw [hrequest] at hasked
    constructor
    · intro ht
      refine h.change fd (by rw [hsize]; exact h.size_ge) (by rw [hsize]; exact h.size_lt)
        (fun fd' hne => by rw [hregistered, if_neg hne]) hother (fun fd' hne => ?_)
        (fun c hc => ?_) (fun c f hc hf => ?_)
      · rw [hasked, Function.update_of_ne hne]
      · rw [hregistered, if_pos rfl, Option.map_eq_some_iff] at hc
        obtain ⟨c, hc, rfl⟩ := hc
        exact h.ctx fd c hc
      · rw [hregistered, if_pos rfl, Option.map_eq_some_iff] at hc
        obtain ⟨c, hc, rfl⟩ := hc
        rw [hasked, Function.update_self]
        exact ⟨htame.mp ht c f hc hf, rfl⟩
    · intro hconsistent
      refine htame.mpr fun c f hc hf => ?_
      have hc' : registered w'.datas fd = some { c with userNonblock := on } := by
        rw [hregistered, if_pos rfl, hc]
        rfl
      exact hconsistent.nonblock fd _ f hc' (h.ctx fd c hc).2.1 hf

end Inv

theorem Still.enter (w : World) (e : Turn) : Still env k w (w.enter e) := ⟨rfl, rfl⟩

theorem tame_of_neg (hcall : e.call.opens = true) (hret : e.ret < 0) :
    tame env k w e = true := by
  rw [tame]
  cases hcall' : e.call with
  | socket domain type protocol => simp [hret]
  | accept sockfd addr addrlen => simp [hret]
  | _ => simp [hcall', Call.opens] at hcall

theorem request_opens (hcall : e.call.opens = true) (asked : ℤ → Bool) :
    request env asked e = if 0 ≤ e.ret then Function.update asked e.ret false else asked := by
  rw [request]
  cases hcall' : e.call with
  | socket domain type protocol => rfl
  | accept sockfd addr addrlen => rfl
  | _ => simp [hcall', Call.opens] at hcall

theorem outcome_opens (hcall : e.call.opens = true) {flags : BitVec 32} {creates : Bool}
    (htame : 0 ≤ e.ret →
      tame env k w e = admits w.datas e.ret creates (isNonblock flags))
    (hopens : Opens env k flags (w.enter e) e.ret v)
    (hfailed : e.ret = -1 → w' = v)
    (hregister : 0 ≤ e.ret →
      if creates then ∃ ctx, FdManager.get env e.ret true v = some (ctx, w') else w' = v) :
    Outcome env k w e w' := by
  cases hopens with
  | failed hn hstill =>
    refine .still (fun asked => ?_) (tame_of_neg hcall (by omega)) ?_
    · rw [request_opens hcall, if_neg (by omega)]
    · rw [hfailed hn]
      exact ⟨hstill.datas, hstill.kernel⟩
  | opened hn hlt hdatas hkernel =>
    refine .opened flags creates v hn hlt (fun asked => ?_) (htame hn) hdatas hkernel
      (hregister hn)
    rw [request_opens hcall, if_pos hn]

theorem outcome_socket (hlinux : Linux env k) {domain type protocol : ℤ}
    (hcall : e.call = .socket domain type protocol)
    (h : socket env domain type protocol (w.enter e) = some (e.ret, w')) :
    Outcome env k w e w' := by
  have hopens : e.call.opens = true := by rw [hcall]; rfl
  have hflags : isNonblock (Call.socket domain type protocol).newFlags =
      isNonblock (BitVec.ofInt 32 type) := isNonblock_setNonblock _ _
  have htame (hn : 0 ≤ e.ret) : tame env k w e = admits w.datas e.ret e.hookEnable
      (isNonblock (Call.socket domain type protocol).newFlags) := by
    rw [tame, hcall, hflags]
    simp [not_lt.mpr hn]
  cases hook : e.hookEnable with
  | false =>
    rw [hook] at htame
    have hrun : original env (.socket domain type protocol) (w.enter e) = some (e.ret, w') := by
      rw [← h, socket, off_eq hook]
    exact outcome_opens hopens htame (original_opens hlinux rfl hrun) (fun _ => rfl) fun _ => rfl
  | true =>
    rw [hook] at htame
    have hflag : isHookEnable (w.enter e) = some (true, w.enter e) := by rw [← hook]; rfl
    simp only [socket, bind_apply, hflag, Option.bind_some, Bool.not_true, Bool.false_eq_true,
      if_false, Option.bind_eq_some_iff, ite_run, pure_apply] at h
    obtain ⟨⟨n, v⟩, hv, h⟩ := h
    dsimp only at h
    split_ifs at h with hn
    · cases h
      exact outcome_opens hopens htame (original_opens hlinux rfl hv) (fun _ => rfl)
        fun hpos => by omega
    · obtain ⟨⟨ctx, u⟩, hget, h⟩ := Option.bind_eq_some_iff.mp h
      cases h
      exact outcome_opens hopens htame (original_opens hlinux rfl hv) (fun hneg => absurd hneg hn)
        fun _ => ⟨ctx, hget⟩

theorem outcome_accept (hlinux : Linux env k) {fuel : ℕ} {sockfd : ℤ} {addr addrlen : ℕ}
    (hcall : e.call = .accept sockfd addr addrlen)
    (h : accept env fuel sockfd addr addrlen (w.enter e) = some (e.ret, w')) :
    Outcome env k w e w' := by
  have hopens : e.call.opens = true := by rw [hcall]; rfl
  have htame (hn : 0 ≤ e.ret) :
      tame env k w e = admits w.datas e.ret true (isNonblock O_RDWR) := by
    have hflags : isNonblock O_RDWR = false := by decide
    rw [tame, hcall, hflags]
    simp [not_lt.mpr hn]
  simp only [accept, bind_apply, Option.bind_eq_some_iff, ite_run, pure_apply] at h
  obtain ⟨⟨n, v⟩, hv, h⟩ := h
  dsimp only at h
  split_ifs at h with hn
  · obtain ⟨⟨ctx, u⟩, hget, h⟩ := Option.bind_eq_some_iff.mp h
    cases h
    exact outcome_opens hopens htame (doIo_accept hlinux hv) (fun hneg => by omega)
      fun _ => ⟨ctx, hget⟩
  · cases h
    exact outcome_opens hopens htame (doIo_accept hlinux hv) (fun _ => rfl)
      fun hpos => absurd hpos hn

theorem del_registered {u : Unit} (hlt : w.datas.length < 2 ^ 31)
    (h : FdManager.del fd w = some (u, w')) :
    w'.trace = w.trace ∧ w'.datas.length = w.datas.length ∧
      ∀ fd', registered w'.datas fd' = if fd' = fd then none else registered w.datas fd' := by
  rw [del_run, toInt_of_lt hlt] at h
  split_ifs at h with hge
  · cases h
    refine ⟨rfl, rfl, fun fd' => ?_⟩
    split_ifs with heq
    · rw [heq, registered_of_ge hge]
    · rfl
  · exact setSlot_registered h

theorem outcome_close (h : Inv env k turns w) (hcall : e.call = .close fd)
    (hrun : close env fd (w.enter e) = some (e.ret, w')) : Outcome env k w e w' := by
  have hrequest (asked : ℤ → Bool) : request env asked e = asked := by rw [request, hcall]
  have htame : tame env k w e = true := by rw [tame, hcall]
  have hclose {v : World} {n : ℤ} (hv : original env (.close fd) v = some (n, w'))
      (htrace : kernel env k v.trace = kernel env k w.trace) :
      w'.datas = v.datas ∧
        kernel env k w'.trace = Function.update (kernel env k w.trace) fd none := by
    obtain rfl : (perform env (.close fd) v).2 = w' := congrArg Prod.snd (Option.some.inj hv)
    exact ⟨rfl, by rw [kernel_perform, htrace]; rfl⟩
  have hplain {v : World} (hstill : Still env k w v)
      (hv : original env (.close fd) v = some (e.ret, w')) : Outcome env k w e w' := by
    obtain ⟨hdatas, hkernel⟩ := hclose hv hstill.kernel
    rw [hstill.datas] at hdatas
    refine .closed fd hrequest htame ?_ hkernel (fun fd' _ => ?_) (.inr ?_)
    all_goals rw [hdatas]
  have hdel {v : World} (hstill : Still env k w v)
      (hv : ((FdManager.del fd v).bind fun r => original env (.close fd) r.2) =
        some (e.ret, w')) : Outcome env k w e w' := by
    obtain ⟨⟨x, u⟩, hu, hv⟩ := Option.bind_eq_some_iff.mp hv
    have hlt : v.datas.length < 2 ^ 31 := by rw [hstill.datas]; exact h.size_lt
    obtain ⟨htrace, hsize, hregistered⟩ := del_registered hlt hu
    obtain ⟨hdatas, hkernel⟩ := hclose hv (by rw [htrace, hstill.kernel])
    rw [hstill.datas] at hsize hregistered
    refine .closed fd hrequest htame (by rw [hdatas, hsize]) hkernel (fun fd' hne => ?_) (.inl ?_)
    · rw [hdatas, hregistered, if_neg hne]
    · rw [hdatas, hregistered, if_pos rfl]
  cases hook : e.hookEnable with
  | false =>
    rw [close, off_eq hook] at hrun
    exact hplain (.enter w e) hrun
  | true =>
    have hflag : isHookEnable (w.enter e) = some (true, w.enter e) := by rw [← hook]; rfl
    simp only [close, bind_apply, hflag, Option.bind_some, Bool.not_true, Bool.false_eq_true,
      if_false, Option.bind_eq_some_iff, ite_run] at hrun
    obtain ⟨⟨ctx, v⟩, hget, hrun⟩ := hrun
    obtain rfl := get_false hget
    dsimp only at hrun
    split_ifs at hrun with hsome hiom
    · obtain ⟨⟨x, v⟩, hv, hrun⟩ := Option.bind_eq_some_iff.mp hrun
      exact hdel ((Still.enter w e).trans (Quiet.emit rfl _ x v hv)) hrun
    · exact hdel (.enter w e) hrun
    · exact hplain (.enter w e) hrun

theorem kernel_setfl (env : Env) (k : Kernel) (fd : ℤ) (arg : BitVec 32) (w : World) :
    kernel env k (perform env (.fcntl fd F_SETFL (some (arg.signExtend 64))) w).2.trace =
      if (perform env (.fcntl fd F_SETFL (some (arg.signExtend 64))) w).1 = 0 then
        Function.update (kernel env k w.trace) fd
          ((kernel env k w.trace fd).map fun f => { f with flags := setfl f.flags arg })
      else kernel env k w.trace := by
  rw [kernel_perform, Kernel.apply, truncate_signExtend]
  simp

theorem kernel_setfl_of_ne {fd' : ℤ} (hne : fd' ≠ fd) (arg : BitVec 32) (w : World) :
    kernel env k (perform env (.fcntl fd F_SETFL (some (arg.signExtend 64))) w).2.trace fd' =
      kernel env k w.trace fd' := by
  rw [kernel_setfl]
  split_ifs
  · rw [Function.update_of_ne hne]
  · rfl

theorem kernel_fionbio (env : Env) (k : Kernel) (fd : ℤ) (arg : BitVec 64) {value : ℤ}
    (hvalue : env.int arg.toNat = some value) (w : World) :
    kernel env k (perform env (.ioctl fd FIONBIO (some arg)) w).2.trace =
      if (perform env (.ioctl fd FIONBIO (some arg)) w).1 = 0 then
        Function.update (kernel env k w.trace) fd ((kernel env k w.trace fd).map fun f =>
          { f with flags := setNonblock f.flags (decide (value ≠ 0)) })
      else kernel env k w.trace := by
  rw [kernel_perform, Kernel.apply, hvalue]
  simp

theorem kernel_fionbio_of_ne {fd' : ℤ} (hne : fd' ≠ fd) {arg : BitVec 64} {value : ℤ}
    (hvalue : env.int arg.toNat = some value) (w : World) :
    kernel env k (perform env (.ioctl fd FIONBIO (some arg)) w).2.trace fd' =
      kernel env k w.trace fd' := by
  rw [kernel_fionbio env k fd arg hvalue]
  split_ifs
  · rw [Function.update_of_ne hne]
  · rfl

theorem outcome_unregistered {on : Bool}
    (hrequest : ∀ asked, request env asked e = Function.update asked fd on)
    (htame : tame env k w e = true) (hnone : registered w.datas fd = none)
    (hdatas : w'.datas = w.datas)
    (hother : ∀ fd' ≠ fd, kernel env k w'.trace fd' = kernel env k w.trace fd') :
    Outcome env k w e w' := by
  refine .flagged fd on hrequest (by rw [hdatas]) (fun fd' => ?_) hother ?_
  · rw [hdatas, hnone]
    split_ifs with heq
    · rw [heq, hnone]
      rfl
    · rfl
  · refine ⟨fun _ c f hc => ?_, fun _ => htame⟩
    rw [hnone] at hc
    cases hc

theorem outcome_registered {on : Bool} {c : FdCtx} {u : Unit}
    (hrequest : ∀ asked, request env asked e = Function.update asked fd on)
    (hc : registered w.datas fd = some c)
    (hset : FdManager.setSlot fd (some { c with userNonblock := on }) (w.enter e) = some (u, v))
    (hdatas : w'.datas = v.datas)
    (hother : ∀ fd' ≠ fd, kernel env k w'.trace fd' = kernel env k v.trace fd')
    (htame : tame env k w e = true ↔
      ∀ f, kernel env k w'.trace fd = some f → isNonblock f.flags = true) :
    Outcome env k w e w' := by
  obtain ⟨htrace, hsize, hregistered⟩ := setSlot_registered hset
  refine .flagged fd on hrequest (by rw [hdatas, hsize]; rfl) (fun fd' => ?_) (fun fd' hne => ?_) ?_
  · rw [hdatas, hregistered, hc]
    rfl
  · rw [hother fd' hne, htrace]
    rfl
  · rw [htame]
    exact ⟨fun hf _ f _ => hf f, fun hf f => hf c f hc⟩

theorem outcome_setfl (h : Inv env k turns w) {fuel : ℕ} {arg : Option (BitVec 64)}
    (hcall : e.call = .fcntl fd F_SETFL arg)
    (hrun : fcntl env fd F_SETFL fuel arg (w.enter e) = some (e.ret, w')) :
    Outcome env k w e w' := by
  have hrequest (asked : ℤ → Bool) :
      request env asked e = Function.update asked fd (isNonblock (env.vaInt arg)) := by
    rw [request, hcall]
    exact if_pos rfl
  have htame : tame env k w e = true := by rw [tame, hcall]
  have hcmd : command F_SETFL = .setfl := by decide
  cases fuel with
  | zero => cases hrun
  | succ fuel =>
    simp only [fcntl, hcmd, bind_apply, Option.bind_eq_some_iff] at hrun
    obtain ⟨⟨ctx, v⟩, hget, hrun⟩ := hrun
    obtain ⟨rfl, rfl⟩ := get_find (w := w.enter e) h.size_lt hget
    cases hc : registered w.datas fd with
    | none =>
      rw [show registered (w.enter e).datas fd = none from hc] at hrun
      obtain rfl := congrArg Prod.snd (Option.some.inj hrun)
      exact outcome_unregistered hrequest htame hc rfl fun fd' hne =>
        kernel_setfl_of_ne hne _ (w.enter e)
    | some c =>
      rw [show registered (w.enter e).datas fd = some c from hc, h.managed hc] at hrun
      have hsys := (h.ctx fd c hc).2.1
      simp only [bind_apply, Option.bind_eq_some_iff] at hrun
      obtain ⟨⟨u, v⟩, hset, hrun⟩ := hrun
      rw [if_pos hsys] at hrun
      obtain rfl := congrArg Prod.snd (Option.some.inj hrun)
      have hon : decide (env.vaInt arg &&& O_NONBLOCK ≠ 0) = isNonblock (env.vaInt arg) := by
        rw [decide_eq_decide.mpr (and_nonblock_ne (env.vaInt arg)), Bool.decide_coe]
      rw [hon] at hset
      have htrace : v.trace = w.trace := (setSlot_registered hset).1
      refine outcome_registered hrequest hc hset rfl
        (fun fd' hne => kernel_setfl_of_ne hne _ v) ⟨fun _ f hf => ?_, fun _ => htame⟩
      rw [kernel_setfl] at hf
      split_ifs at hf
      · rw [Function.update_self, Option.map_eq_some_iff] at hf
        obtain ⟨f, -, rfl⟩ := hf
        rw [isNonblock_setfl, isNonblock_or]
      · rw [htrace] at hf
        exact (h.sync fd c f hc hf).1

theorem outcome_getfl {fuel : ℕ} {arg : Option (BitVec 64)}
    (hcall : e.call = .fcntl fd F_GETFL arg)
    (hrun : fcntl env fd F_GETFL fuel arg (w.enter e) = some (e.ret, w')) :
    Outcome env k w e w' := by
  have hrequest (asked : ℤ → Bool) : request env asked e = asked := by
    rw [request, hcall]
    exact if_neg (by decide)
  have hcmd : command F_GETFL = .getfl := by decide
  refine .still hrequest (by rw [tame, hcall]) ?_
  cases fuel with
  | zero => cases hrun
  | succ fuel =>
    simp only [fcntl, hcmd, bind_apply, Option.bind_eq_some_iff] at hrun
    obtain ⟨⟨n, v⟩, hv, ⟨ctx, u⟩, hget, hrun⟩ := hrun
    obtain rfl := get_false hget
    obtain rfl := congrArg Prod.snd (Option.some.inj hv)
    have hworld : w' = (perform env (.fcntl fd F_GETFL none) (w.enter e)).2 := by
      cases hm : managed ctx with
      | none =>
        rw [hm] at hrun
        exact (congrArg Prod.snd (Option.some.inj hrun)).symm
      | some c =>
        rw [hm] at hrun
        exact (congrArg Prod.snd (Option.some.inj hrun)).symm
    rw [hworld]
    exact ⟨rfl, kernel_getfl env k fd none (w.enter e)⟩

theorem outcome_fionbio (hlinux : Linux env k) (h : Inv env k turns w) {arg : Option (BitVec 64)}
    (hcall : e.call = .ioctl fd FIONBIO arg)
    (hrun : ioctl env fd FIONBIO arg (w.enter e) = some (e.ret, w')) :
    Outcome env k w e w' := by
  simp only [ioctl, if_true, bind_apply, lift_apply, Option.bind_eq_some_iff,
    Option.map_eq_some_iff] at hrun
  obtain ⟨_, ⟨value, hvalue, rfl⟩, ⟨ctx, v⟩, hget, hrun⟩ := hrun
  obtain ⟨rfl, rfl⟩ := get_find (w := w.enter e) h.size_lt hget
  have hrequest (asked : ℤ → Bool) :
      request env asked e = Function.update asked fd (decide (value ≠ 0)) := by
    rw [request, hcall]
    simp [hvalue]
  have htame : tame env k w e = true ↔
      registered w.datas fd = none ∨ kernel env k w.trace fd = none ∨ value ≠ 0 := by
    rw [tame, hcall]
    simp [hvalue]
  cases hc : registered w.datas fd with
  | none =>
    rw [show registered (w.enter e).datas fd = none from hc] at hrun
    obtain rfl := congrArg Prod.snd (Option.some.inj hrun)
    exact outcome_unregistered hrequest (htame.mpr (.inl hc)) hc rfl fun fd' hne =>
      kernel_fionbio_of_ne hne hvalue (w.enter e)
  | some c =>
    rw [show registered (w.enter e).datas fd = some c from hc, h.managed hc] at hrun
    simp only [bind_apply, Option.bind_eq_some_iff] at hrun
    obtain ⟨⟨u, v⟩, hset, hrun⟩ := hrun
    obtain rfl := congrArg Prod.snd (Option.some.inj hrun)
    have htrace : v.trace = w.trace := (setSlot_registered hset).1
    refine outcome_registered hrequest hc hset rfl
      (fun fd' hne => kernel_fionbio_of_ne hne hvalue v) ?_
    rw [htame, hc, kernel_fionbio env k fd _ hvalue, htrace]
    cases hf : kernel env k w.trace fd with
    | none =>
      split_ifs <;> simp [hf]
    | some f =>
      have hreply : (perform env (.ioctl fd FIONBIO (some (env.vaPtr arg))) v).1 = 0 :=
        hlinux.fionbio v.trace fd f _ (by rw [htrace, hf]) (by rw [hvalue]; rfl)
      rw [if_pos hreply, Function.update_self]
      simp

theorem outcome_of_turns (hlinux : Linux env k) (h : Inv env k turns w)
    (hturns : Turns env w e w') : Outcome env k w e w' := by
  obtain ⟨hcall, fuel, hrun⟩ := hturns
  cases hcall' : e.call with
  | socket domain type protocol =>
    rw [hcall'] at hrun
    exact outcome_socket hlinux hcall' hrun
  | accept sockfd addr addrlen =>
    rw [hcall'] at hrun
    exact outcome_accept hlinux hcall' hrun
  | close fd =>
    rw [hcall'] at hrun
    exact outcome_close h hcall' hrun
  | fcntl fd cmd arg =>
    rw [hcall'] at hrun
    have hcmd : cmd = F_SETFL ∨ cmd = F_GETFL := by simpa [hcall', Call.onFlag] using hcall
    rcases hcmd with rfl | rfl
    · exact outcome_setfl h hcall' hrun
    · exact outcome_getfl hcall' hrun
  | ioctl fd request arg =>
    rw [hcall'] at hrun
    obtain rfl : request = FIONBIO := by simpa [hcall', Call.onFlag] using hcall
    exact outcome_fionbio hlinux h hcall' hrun
  | _ => simp [hcall', Call.onFlag] at hcall

end Steps

/-- In every run of tame calls, sockets with `m_sysNonblock` are non-blocking in the kernel and
`F_GETFL` reports what the user asked for last, and a call breaks this exactly if it is not tame. -/
theorem nonblock_consistent_iff_tame (env : Env) (k : Kernel) (hlinux : Linux env k)
    (hookEnable : Bool) (errno : ℤ) (turns : List Turn) (w : World)
    (hrun : Run (fun w e w' => tame env k w e = true ∧ Turns env w e w')
      ⟨hookEnable, errno, FdManager.initial, []⟩ turns w) :
    Consistent env k turns w ∧ ∀ e w', Turns env w e w' →
      (Consistent env k (turns ++ [e]) w' ↔ tame env k w e = true) := by
  have h : Inv env k turns w := by
    refine hrun.history (P := Inv env k) (fun ds s e t hs hstep => ?_)
      (.initial env k hookEnable errno)
    exact (hs.outcome hlinux (outcome_of_turns hlinux hs hstep.2)).1 hstep.1
  refine ⟨h.consistent, fun e w' hturns => ?_⟩
  obtain ⟨hkeeps, htame⟩ := h.outcome hlinux (outcome_of_turns hlinux h hturns)
  exact ⟨htame, fun ht => (hkeeps ht).consistent⟩

def World.turn (env : Env) (w : World) (e : Turn) : Option World :=
  if e.call.onFlag then
    (hooked env 1 e.call (w.enter e)).bind fun r => if r.1 = e.ret then some r.2 else none
  else none

theorem turns_of_turn {env : Env} {w w' : World} {e : Turn} (h : w.turn env e = some w') :
    Turns env w e w' := by
  rw [World.turn] at h
  split_ifs at h with hcall
  obtain ⟨⟨ret, v⟩, hv, h⟩ := Option.bind_eq_some_iff.mp h
  dsimp only at h
  split_ifs at h with hret
  cases h
  exact ⟨hcall, 1, by rw [hv, hret]⟩

def Env.empty : Env := Env.linux { Env.answering 0 with int := fun p => some p } fun _ => none

-- With the hook a socket is opened, then without it `F_SETFL` asks for `O_NONBLOCK`.
theorem nonblock_consistent_iff_tame_setfl :
    ∃ w, Run (fun w e w' => tame .empty (fun _ => none) w e = true ∧ Turns .empty w e w')
        ⟨true, 0, FdManager.initial, []⟩
        [⟨true, 0, .socket 2 1 0, 3⟩, ⟨false, 0, .fcntl 3 F_SETFL (some 0x800), 0⟩] w ∧
      (registered w.datas 3).map (·.userNonblock) = some true ∧
      Consistent .empty (fun _ => none)
        [⟨true, 0, .socket 2 1 0, 3⟩, ⟨false, 0, .fcntl 3 F_SETFL (some 0x800), 0⟩] w := by
  have hexec : (iterate (guarded (tame .empty fun _ => none) (World.turn .empty))
      ⟨true, 0, FdManager.initial, []⟩
      [⟨true, 0, .socket 2 1 0, 3⟩, ⟨false, 0, .fcntl 3 F_SETFL (some 0x800), 0⟩]).map
        (fun w => (registered w.datas 3).map (·.userNonblock)) = some (some true) := by
    decide +kernel
  obtain ⟨w, hw, hobs⟩ := Option.map_eq_some_iff.mp hexec
  have hrun := (Run.of_guarded hw).mono fun _ _ _ h => And.intro h.1 (turns_of_turn h.2)
  exact ⟨w, hrun, hobs,
    (nonblock_consistent_iff_tame .empty (fun _ => none) (linux_linux _ _) true 0 _ w hrun).1⟩

/-- `FIONBIO` with value 0 makes a managed socket block in the kernel. So does a socket that gets
the number of one that was closed without the hook. -/
theorem managed_socket_blocks :
    Linux .empty (fun _ => none) ∧
    (∃ w, Run (Turns .empty) ⟨true, 0, FdManager.initial, []⟩
        [⟨true, 0, .socket 2 1 0, 3⟩, ⟨true, 0, .ioctl 3 FIONBIO (some 0), 0⟩] w ∧
      (registered w.datas 3).map (·.sysNonblock) = some true ∧
      (kernel .empty (fun _ => none) w.trace 3).map (isNonblock ·.flags) = some false) ∧
    ∃ w, Run (Turns .empty) ⟨true, 0, FdManager.initial, []⟩
        [⟨true, 0, .socket 2 1 0, 3⟩, ⟨false, 0, .close 3, 0⟩, ⟨true, 0, .socket 2 1 0, 3⟩] w ∧
      (registered w.datas 3).map (·.sysNonblock) = some true ∧
      (kernel .empty (fun _ => none) w.trace 3).map (isNonblock ·.flags) = some false := by
  have hioctl : (iterate (World.turn .empty) ⟨true, 0, FdManager.initial, []⟩
      [⟨true, 0, .socket 2 1 0, 3⟩, ⟨true, 0, .ioctl 3 FIONBIO (some 0), 0⟩]).map
        (fun w => ((registered w.datas 3).map (·.sysNonblock),
          (kernel .empty (fun _ => none) w.trace 3).map (isNonblock ·.flags))) =
      some (some true, some false) := by decide +kernel
  have hclose : (iterate (World.turn .empty) ⟨true, 0, FdManager.initial, []⟩
      [⟨true, 0, .socket 2 1 0, 3⟩, ⟨false, 0, .close 3, 0⟩, ⟨true, 0, .socket 2 1 0, 3⟩]).map
        (fun w => ((registered w.datas 3).map (·.sysNonblock),
          (kernel .empty (fun _ => none) w.trace 3).map (isNonblock ·.flags))) =
      some (some true, some false) := by decide +kernel
  obtain ⟨w, hw, hobs⟩ := Option.map_eq_some_iff.mp hioctl
  obtain ⟨v, hv, hobs'⟩ := Option.map_eq_some_iff.mp hclose
  have hfirst := (Run.of_iterate hw).mono fun _ _ _ => turns_of_turn
  have hsecond := (Run.of_iterate hv).mono fun _ _ _ => turns_of_turn
  exact ⟨linux_linux _ _, ⟨w, hfirst, Prod.mk.inj hobs⟩, v, hsecond, Prod.mk.inj hobs'⟩

end ApexStorm.Hook
