import ApexStorm.Hook.Transparency

/-!
# The descriptors of the kernel

Which descriptors are open and with which status flags follows from the trace: each
original function changes the kernel according to its arguments and result. `Linux`
says that the results in turn are those of a kernel in that state, which hands out any
number that is not open, and so closed ones again.
-/

namespace ApexStorm.Hook

structure OpenFile where
  isSocket : Bool
  flags : BitVec 32
  deriving DecidableEq, Repr

abbrev Kernel := ℤ → Option OpenFile

def isNonblock (flags : BitVec 32) : Bool := flags.getLsbD 11

def O_RDWR : BitVec 32 := 2

/-- The flags `F_SETFL` changes: `O_APPEND`, `O_NONBLOCK`, `O_ASYNC`, `O_DIRECT` and `O_NOATIME`. -/
def SETFL_MASK : BitVec 32 := 0x46c00

def setfl (flags arg : BitVec 32) : BitVec 32 :=
  flags &&& ~~~SETFL_MASK ||| arg &&& SETFL_MASK

def setNonblock (flags : BitVec 32) (on : Bool) : BitVec 32 :=
  if on then flags ||| O_NONBLOCK else flags &&& ~~~O_NONBLOCK

section Flags
variable (flags arg : BitVec 32)

theorem and_nonblock : flags &&& O_NONBLOCK = if isNonblock flags then O_NONBLOCK else 0 :=
  BitVec.and_twoPow flags 11

theorem and_nonblock_ne : flags &&& O_NONBLOCK ≠ 0 ↔ isNonblock flags = true := by
  rw [and_nonblock]
  cases isNonblock flags <;> decide

@[simp] theorem isNonblock_or : isNonblock (flags ||| O_NONBLOCK) = true := by
  simp [isNonblock, O_NONBLOCK]

@[simp] theorem isNonblock_and_not : isNonblock (flags &&& ~~~O_NONBLOCK) = false := by
  simp [isNonblock, O_NONBLOCK]

@[simp] theorem isNonblock_setfl : isNonblock (setfl flags arg) = isNonblock arg := by
  simp [isNonblock, setfl, SETFL_MASK]

@[simp] theorem isNonblock_setNonblock (on : Bool) :
    isNonblock (setNonblock flags on) = on := by
  cases on <;> simp [setNonblock]

theorem setfl_or_nonblock : setfl flags (flags ||| O_NONBLOCK) = flags ||| O_NONBLOCK := by
  ext i hi
  simp only [setfl, BitVec.getElem_or, BitVec.getElem_and, BitVec.getElem_not]
  have hmask : O_NONBLOCK[i] = true → SETFL_MASK[i] = true := by
    revert i
    decide
  cases hflag : flags[i] <;> cases hmask' : SETFL_MASK[i] <;> simp_all

end Flags

def Call.opens : Call → Bool
  | .socket _ _ _ | .accept _ _ _ => true
  | _ => false

/-- The status flags of a new socket: the type may hold `SOCK_NONBLOCK`, which is `O_NONBLOCK`. -/
def Call.newFlags : Call → BitVec 32
  | .socket _ type _ => setNonblock O_RDWR (isNonblock (BitVec.ofInt 32 type))
  | _ => O_RDWR

def Kernel.apply (env : Env) (k : Kernel) (ret : ℤ) : Call → Kernel
  | .socket domain type protocol =>
    if 0 ≤ ret then
      Function.update k ret (some ⟨true, (Call.socket domain type protocol).newFlags⟩)
    else k
  | .accept sockfd addr addrlen =>
    if 0 ≤ ret then
      Function.update k ret (some ⟨true, (Call.accept sockfd addr addrlen).newFlags⟩)
    else k
  | .close fd => Function.update k fd none
  | .fcntl fd cmd (some arg) =>
    if cmd = F_SETFL ∧ ret = 0 then
      Function.update k fd ((k fd).map fun f => { f with flags := setfl f.flags (arg.truncate 32) })
    else k
  | .ioctl fd request (some arg) =>
    if request = FIONBIO ∧ ret = 0 then
      match env.int arg.toNat with
      | some v =>
        Function.update k fd
          ((k fd).map fun f => { f with flags := setNonblock f.flags (decide (v ≠ 0)) })
      | none => k
    else k
  | _ => k

def Kernel.effect (env : Env) (k : Kernel) (past : List Effect) : Effect → Kernel
  | .original call => k.apply env (env.reply past call).1 call
  | _ => k

def kernelAfter (env : Env) : Kernel → List Effect → List Effect → Kernel
  | k, _, [] => k
  | k, past, e :: es => kernelAfter env (k.effect env past e) (past ++ [e]) es

def kernel (env : Env) (k : Kernel) (trace : List Effect) : Kernel := kernelAfter env k [] trace

theorem kernelAfter_concat (env : Env) (k : Kernel) (past es : List Effect) (e : Effect) :
    kernelAfter env k past (es ++ [e]) =
      (kernelAfter env k past es).effect env (past ++ es) e := by
  induction es generalizing k past with
  | nil => simp [kernelAfter]
  | cons d es ih => simp [kernelAfter, ih]

theorem kernel_concat (env : Env) (k : Kernel) (trace : List Effect) (e : Effect) :
    kernel env k (trace ++ [e]) = (kernel env k trace).effect env trace e :=
  kernelAfter_concat env k [] trace e

theorem Kernel.apply_opens (env : Env) (k : Kernel) (ret : ℤ) {call : Call}
    (hcall : call.opens = true) : k.apply env ret call =
      if 0 ≤ ret then Function.update k ret (some ⟨true, call.newFlags⟩) else k := by
  cases call with
  | socket domain type protocol => rfl
  | accept sockfd addr addrlen => rfl
  | _ => cases hcall

/-- The answers of a kernel that began with the descriptors `k`. `F_SETFL` may fail unless it only
adds `O_NONBLOCK`. -/
structure Linux (env : Env) (k : Kernel) : Prop where
  opens : ∀ trace call, call.opens → (env.reply trace call).1 = -1 ∨
    0 ≤ (env.reply trace call).1 ∧ (env.reply trace call).1 < 2 ^ 31 ∧
      kernel env k trace (env.reply trace call).1 = none
  getfl : ∀ trace fd arg f, kernel env k trace fd = some f →
    (env.reply trace (.fcntl fd F_GETFL arg)).1 = f.flags.toInt
  setfl : ∀ trace fd f, kernel env k trace fd = some f → (env.reply trace
    (.fcntl fd F_SETFL (some ((f.flags ||| O_NONBLOCK).signExtend 64)))).1 = 0
  fionbio : ∀ trace fd f arg, kernel env k trace fd = some f → (env.int arg.toNat).isSome →
    (env.reply trace (.ioctl fd FIONBIO (some arg))).1 = 0
  isSock : ∀ trace fd, env.isSock trace fd = (kernel env k trace fd).map (·.isSocket)

section Worlds
variable {env : Env} {k : Kernel} {w w' : World} {fd n : ℤ} {call : Call}

theorem kernel_perform (env : Env) (k : Kernel) (call : Call) (w : World) :
    kernel env k (perform env call w).2.trace =
      (kernel env k w.trace).apply env (perform env call w).1 call :=
  kernel_concat env k w.trace (.original call)

def Effect.isOriginal : Effect → Bool
  | .original _ => true
  | _ => false

theorem kernel_emit {e : Effect} (he : e.isOriginal = false) (w : World) :
    kernel env k (w.trace ++ [e]) = kernel env k w.trace := by
  rw [kernel_concat]
  cases e with
  | original call => cases he
  | _ => rfl

theorem kernel_getfl (env : Env) (k : Kernel) (fd : ℤ) (arg : Option (BitVec 64)) (w : World) :
    kernel env k (perform env (.fcntl fd F_GETFL arg) w).2.trace = kernel env k w.trace := by
  rw [kernel_perform]
  cases arg with
  | none => rfl
  | some arg =>
    have hcmd : ¬(F_GETFL = F_SETFL ∧ (perform env (.fcntl fd F_GETFL (some arg)) w).1 = 0) :=
      fun h => absurd h.1 (by decide)
    rw [Kernel.apply, if_neg hcmd]

def FdCtx.ofSocket (fd : ℤ) : FdCtx :=
  ⟨true, true, true, false, false, fd, 2 ^ 64 - 1, 2 ^ 64 - 1⟩

theorem new_linux (hlinux : Linux env k) {f : OpenFile} (hf : kernel env k w.trace fd = some f)
    (hsocket : f.isSocket = true) :
    ∃ w', FdCtx.new env fd w = some (.ofSocket fd, w') ∧ w'.datas = w.datas ∧
      ∃ flags, isNonblock flags = true ∧
        kernel env k w'.trace = Function.update (kernel env k w.trace) fd (some ⟨true, flags⟩) := by
  obtain ⟨isSocket, flags⟩ := f
  obtain rfl : isSocket = true := hsocket
  obtain ⟨w₁, hw₁⟩ : ∃ w₁ : World, w₁ = { w with trace := w.trace ++ [.fstat fd] } := ⟨_, rfl⟩
  obtain ⟨ret, w₂, hw₂⟩ : ∃ ret w₂, perform env (.fcntl fd F_GETFL (some 0)) w₁ = (ret, w₂) :=
    ⟨_, _, rfl⟩
  have hk₁ : kernel env k w₁.trace = kernel env k w.trace := by rw [hw₁, kernel_emit rfl]
  have hk₂ : kernel env k w₂.trace = kernel env k w.trace := by
    rw [← hk₁, ← kernel_getfl env k fd (some 0) w₁, hw₂]
  have hflags : BitVec.ofInt 32 ret = flags := by
    have hret : ret = flags.toInt := by
      rw [← hlinux.getfl w₁.trace fd (some 0) ⟨true, flags⟩ (by rw [hk₁, hf])]
      exact (congrArg Prod.fst hw₂).symm
    rw [hret, BitVec.ofInt_toInt]
  have hdatas : w₂.datas = w.datas := by
    have heq : w₂.datas = w₁.datas := (congrArg (fun r => r.2.datas) hw₂).symm
    rw [heq, hw₁]
  have hsock : env.isSock w.trace fd = some true := by rw [hlinux.isSock, hf]; rfl
  have hrun : FdCtx.new env fd w =
      if flags &&& O_NONBLOCK = 0 then
        some (.ofSocket fd,
          (perform env (.fcntl fd F_SETFL (some ((flags ||| O_NONBLOCK).signExtend 64))) w₂).2)
      else some (.ofSocket fd, w₂) := by
    simp only [FdCtx.new, FdCtx.ofSocket, emit, original, bind_apply, get_apply, modify_apply,
      ite_run, pure_apply, Option.bind_some, hsock, if_true, ← hw₁, hw₂, hflags]
  rw [hrun]
  split_ifs with hblock
  · have hreply := hlinux.setfl w₂.trace fd ⟨true, flags⟩ (by rw [hk₂, hf])
    refine ⟨_, rfl, hdatas, flags ||| O_NONBLOCK, isNonblock_or flags, ?_⟩
    rw [kernel_perform, Kernel.apply, if_pos ⟨rfl, hreply⟩, hk₂, hf, truncate_signExtend]
    simp [setfl_or_nonblock]
  · refine ⟨w₂, rfl, hdatas, flags, (and_nonblock_ne flags).mp hblock, ?_⟩
    rw [hk₂, ← hf, Function.update_eq_self]

structure Still (env : Env) (k : Kernel) (w w' : World) : Prop where
  datas : w'.datas = w.datas
  kernel : kernel env k w'.trace = kernel env k w.trace

def Quiet (env : Env) (k : Kernel) {α : Type} (m : Hooked α) : Prop :=
  ∀ w r w', m w = some (r, w') → Still env k w w'

namespace Quiet
variable {α β : Type} {m : Hooked α}

theorem pure (a : α) : Quiet env k (Pure.pure a : Hooked α) := by
  intro w r w' h
  cases h
  exact ⟨rfl, rfl⟩

theorem bind {f : α → Hooked β} (hm : Quiet env k m) (hf : ∀ a, Quiet env k (f a)) :
    Quiet env k (m >>= f) := by
  intro w r w' h
  rw [bind_apply, Option.bind_eq_some_iff] at h
  obtain ⟨⟨a, v⟩, hv, h⟩ := h
  have hfirst := hm w a v hv
  have hsecond := hf a v r w' h
  exact ⟨hsecond.datas.trans hfirst.datas, hsecond.kernel.trans hfirst.kernel⟩

theorem ite {P : Prop} [Decidable P] {m' : Hooked α} (hm : Quiet env k m)
    (hm' : Quiet env k m') : Quiet env k (if P then m else m') := by
  split_ifs
  · exact hm
  · exact hm'

theorem get : Quiet env k (MonadState.get : Hooked World) := by
  intro w r w' h
  cases h
  exact ⟨rfl, rfl⟩

theorem emit {e : Effect} (he : e.isOriginal = false) : Quiet env k (Hook.emit e) := by
  intro w r w' h
  cases h
  exact ⟨rfl, kernel_emit he w⟩

theorem iom {e : Effect} (he : e.isOriginal = false) : Quiet env k (Hook.iom env e) := by
  intro w r w' h
  rw [Hook.iom] at h
  cases hiom : env.hasIOManager with
  | false =>
    rw [hiom] at h
    cases h
  | true =>
    rw [hiom] at h
    exact emit he w r w' h

theorem onlyIf {P : Prop} [Decidable P] {m : Hooked Unit} {f : Unit → Hooked α}
    (hm : Quiet env k m) (hf : ∀ u, Quiet env k (f u)) :
    Quiet env k (if P then m >>= f else f ()) :=
  (hm.bind hf).ite (hf ())

theorem await {event : IOManager.Event} {timeout : ℕ} :
    Quiet env k (Hook.await env fd event timeout) := by
  unfold Hook.await
  refine onlyIf (iom rfl) fun _ => get.bind fun _ => ?_
  refine (iom rfl).bind fun _ => onlyIf (emit rfl) fun _ => ?_
  exact onlyIf (emit rfl) fun _ => get.bind fun _ => pure _

end Quiet

theorem Still.trans {v : World} (h : Still env k w v) (h' : Still env k v w') :
    Still env k w w' :=
  ⟨h'.datas.trans h.datas, h'.kernel.trans h.kernel⟩

inductive Opens (env : Env) (k : Kernel) (flags : BitVec 32) (w : World) (n : ℤ) (w' : World) :
    Prop
  | failed (hn : n = -1) (h : Still env k w w')
  | opened (hn : 0 ≤ n) (hlt : n < 2 ^ 31) (hdatas : w'.datas = w.datas)
      (h : kernel env k w'.trace = Function.update (kernel env k w.trace) n (some ⟨true, flags⟩))

theorem Still.opens {flags : BitVec 32} {v : World} (h : Still env k w v)
    (h' : Opens env k flags v n w') : Opens env k flags w n w' := by
  cases h' with
  | failed hn h' => exact .failed hn (h.trans h')
  | opened hn hlt hdatas hk =>
    rw [h.kernel] at hk
    exact .opened hn hlt (hdatas.trans h.datas) hk

theorem original_opens (hlinux : Linux env k) (hcall : call.opens = true)
    (h : original env call w = some (n, w')) : Opens env k call.newFlags w n w' := by
  have hret : n = (env.reply w.trace call).1 := (congrArg Prod.fst (Option.some.inj h)).symm
  have hworld : w' = (perform env call w).2 := (congrArg Prod.snd (Option.some.inj h)).symm
  have hk : kernel env k w'.trace = (kernel env k w.trace).apply env n call := by
    rw [hworld, kernel_perform, hret]
    rfl
  have hdatas : w'.datas = w.datas := by
    rw [hworld]
    rfl
  rw [Kernel.apply_opens env _ n hcall] at hk
  rcases hlinux.opens w.trace call hcall with hfail | ⟨hpos, hlt, -⟩
  · rw [← hret] at hfail
    rw [if_neg (by omega)] at hk
    exact .failed hfail ⟨hdatas, hk⟩
  · rw [← hret] at hpos hlt
    rw [if_pos hpos] at hk
    exact .opened hpos hlt hdatas hk

theorem get_false {ctx : Option FdCtx} (h : FdManager.get env fd false w = some (ctx, w')) :
    w' = w := by
  rw [get_run, slot_apply] at h
  simp only [Bool.false_eq_true, if_false, Bool.not_false, Bool.or_true, if_true] at h
  split_ifs at h
  · cases h
    rfl
  · cases h
    rfl
  · obtain ⟨r, hr, h⟩ := Option.bind_eq_some_iff.mp h
    obtain ⟨i, -, rfl⟩ := Option.map_eq_some_iff.mp hr
    cases h
    rfl

variable {sockfd : ℤ} {addr addrlen : ℕ}

theorem doIoLoop_accept (hlinux : Linux env k) {event : IOManager.Event} {timeout fuel : ℕ}
    (h : doIoLoop env (.accept sockfd addr addrlen) sockfd event timeout fuel w = some (n, w')) :
    Opens env k O_RDWR w n w' := by
  induction fuel generalizing w with
  | zero => cases h
  | succ fuel ih =>
    obtain ⟨⟨ret, v⟩, hv⟩ : ∃ r, r = perform env (.accept sockfd addr addrlen) w := ⟨_, rfl⟩
    have hopens : Opens env k O_RDWR w ret v := original_opens hlinux rfl (congrArg some hv.symm)
    have hstill (hret : ret = -1) : Still env k w v := by
      cases hopens with
      | failed hn hstill => exact hstill
      | opened hn => omega
    have hround := doIoLoop_round h
    rw [← hv] at hround
    cases hround with
    | interrupted hret herrno h => exact (hstill hret).opens (ih h)
    | unregistered hret herrno hawait hrt =>
      exact .failed rfl ((hstill hret).trans (Quiet.await _ _ _ hawait))
    | cancelled hret herrno hawait hrt hcancelled =>
      have hstill' := (hstill hret).trans (Quiet.await _ _ _ hawait)
      exact .failed rfl ⟨hstill'.datas, hstill'.kernel⟩
    | woken hret herrno hawait hrt hcancelled h =>
      exact ((hstill hret).trans (Quiet.await _ _ _ hawait)).opens (ih h)
    | returned hret => exact hopens

theorem doIo_accept (hlinux : Linux env k) {event : IOManager.Event} {timeoutSo : ℤ} {fuel : ℕ}
    (h : doIo env fuel (.accept sockfd addr addrlen) sockfd event timeoutSo w = some (n, w')) :
    Opens env k O_RDWR w n w' := by
  rw [doIo, bind_apply, Option.bind_eq_some_iff] at h
  obtain ⟨⟨enabled, v⟩, hv, h⟩ := h
  cases hv
  simp only [ite_run, bind_apply] at h
  split_ifs at h with hoff
  · exact original_opens hlinux rfl h
  · obtain ⟨⟨ctx, v⟩, hget, h⟩ := Option.bind_eq_some_iff.mp h
    obtain rfl := get_false hget
    cases ctx with
    | none => exact original_opens hlinux rfl h
    | some c =>
      simp only [setErrno, ite_run, bind_apply, modify_apply, pure_apply, Option.bind_some] at h
      split_ifs at h
      · cases h
        exact .failed rfl ⟨rfl, rfl⟩
      · exact original_opens hlinux rfl h
      · exact doIoLoop_accept hlinux h

end Worlds
def Kernel.respond (k : Kernel) : Call → ℤ
  | .socket _ _ _ | .accept _ _ _ => if k 3 = none then 3 else -1
  | .fcntl fd cmd _ =>
    match k fd with
    | some f => if cmd = F_GETFL then f.flags.toInt else 0
    | none => -1
  | .ioctl fd _ _ | .close fd => if k fd = none then -1 else 0
  | _ => 0

def Kernel.answered (env : Env) (k : Kernel) : Effect → Kernel
  | .original call => k.apply env (k.respond call) call
  | _ => k

def Env.linux (env : Env) (k : Kernel) : Env :=
  { env with
    reply := fun trace call => ((trace.foldl (Kernel.answered env) k).respond call, EBADF)
    isSock := fun trace fd => (trace.foldl (Kernel.answered env) k fd).map (·.isSocket) }

theorem kernel_linux (env : Env) (k : Kernel) (trace : List Effect) :
    kernel (env.linux k) k trace = trace.foldl (Kernel.answered env) k := by
  induction trace using List.reverseRecOn with
  | nil => rfl
  | append_singleton trace e ih =>
    rw [kernel_concat, ih, List.foldl_concat]
    cases e with
    | original call => cases call <;> rfl
    | _ => rfl

theorem linux_linux (env : Env) (k : Kernel) : Linux (env.linux k) k where
  opens trace call hcall := by
    rw [kernel_linux]
    have hret : ((env.linux k).reply trace call).1 =
        if trace.foldl (Kernel.answered env) k 3 = none then 3 else -1 := by
      cases call with
      | socket domain type protocol => rfl
      | accept sockfd addr addrlen => rfl
      | _ => cases hcall
    rw [hret]
    split_ifs with hfree
    · exact .inr ⟨by decide, by decide, hfree⟩
    · exact .inl rfl
  getfl trace fd arg f hf := by
    rw [kernel_linux] at hf
    simp [Env.linux, Kernel.respond, hf]
  setfl trace fd f hf := by
    rw [kernel_linux] at hf
    simp [Env.linux, Kernel.respond, hf, F_SETFL, F_GETFL]
  fionbio trace fd f arg hf _ := by
    rw [kernel_linux] at hf
    simp [Env.linux, Kernel.respond, hf]
  isSock trace fd := by
    rw [kernel_linux]
    rfl

end ApexStorm.Hook
