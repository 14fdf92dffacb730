import ApexStorm.Hook.Waiting

/-!
# A hooked call blocks like the original with a timeout

The result of a call is decided by the first thing it meets that ends it. A call
that has returned has no timer in the set, and the callback of a timer can only mark
the call that armed it.
-/

namespace ApexStorm.Waiting
open Lib TimerManager
open IOManager (Event)
open Hook (EINTR EAGAIN)

/-! ## The timers and registrations of the calls -/

structure Pc.Holds (pc : Pc) (m : TimerManager Cb) (c : ℕ) : Prop where
  owned : ∀ a ∈ m.timers, cbOf m.heap a = some (.ofCall c) → pc.timer = some a
  live : ∀ a, pc.timer = some a → (m.heap a).isSome

namespace Pc.Holds
variable {pc pc' : Pc} {m m' : TimerManager Cb} {c : ℕ} {op : Op Cb}

theorem congr (h : pc.Holds m c) (ht : pc'.timer = pc.timer) : pc'.Holds m c := by
  refine ⟨?_, ?_⟩
  · rw [ht]
    exact h.owned
  · rw [ht]
    exact h.live

theorem yields (h : pc.Holds m c) (hyields : op.Yields m m')
    (hadd : ∀ a now ms recurring, op ≠ .addTimer a now ms (some (.ofCall c)) recurring)
    (hrelease : ∀ a, pc.timer = some a → op ≠ .release a) : pc.Holds m' c := by
  refine ⟨?_, ?_⟩
  · intro a ha hcb
    rcases hyields.armed ha hcb with ⟨ha', hcb'⟩ | ⟨now, ms, recurring, rfl⟩
    · exact h.owned a ha' hcb'
    · exact absurd rfl (hadd a now ms recurring)
  · intro a ha
    exact hyields.live (h.live a ha) (hrelease a ha)

theorem cancel {a : Addr} (h : pc.Holds m c) (ht : pc.timer = some a)
    (hyields : (Op.cancel a).Yields m m') (hpc : pc'.timer = none) : pc'.Holds m' c := by
  refine ⟨?_, ?_⟩
  · intro b hb hcb
    have hba : b = a := by
      rcases hyields.armed hb hcb with ⟨hb', hcb'⟩ | ⟨now, ms, recurring, he⟩
      · exact Option.some.inj ((h.owned b hb' hcb').symm.trans ht)
      · cases he
    rw [hba, hyields.heap_eq] at hcb
    simp [Op.effect, cbOf, Option.bind_map] at hcb
  · intro b hb
    rw [hpc] at hb
    cases hb

theorem add {a : Addr} {now ms : UInt64} (h : pc.Holds m c) (ht : pc.timer = none)
    (hyields : (Op.addTimer a now ms (some (.ofCall c)) false).Yields m m')
    (hpc : pc'.timer = some a) : pc'.Holds m' c := by
  refine ⟨?_, ?_⟩
  · intro b hb hcb
    rcases hyields.armed hb hcb with ⟨hb', hcb'⟩ | ⟨now', ms', recurring, he⟩
    · rw [h.owned b hb' hcb'] at ht
      cases ht
    · cases he
      exact hpc
  · intro b hb
    cases hpc.symm.trans hb
    simp [hyields.heap_eq, Op.effect]

end Pc.Holds

namespace System
variable {spec : ℕ → Spec} {s s' : System} {a : Act} {c : ℕ} {f : Frame}

structure Inv (spec : ℕ → Spec) (s : System) : Prop where
  timers : TimerManager.Inv s.manager
  holds : ∀ c, (s.frame c).pc.Holds s.manager c
  registered : ∀ key c, s.registry key = some c ↔
    key = (spec c).key ∧ (s.frame c).pc.waits = true

namespace Inv

theorem initial (start : UInt64) : Inv spec (initial start) where
  timers := InvExcept.new start
  holds := by
    refine fun c => ⟨?_, ?_⟩
    · intro a ha
      cases ha
    · intro a ha
      cases ha
  registered := by
    intro key c
    refine ⟨nofun, ?_⟩
    rintro ⟨-, hwaits⟩
    cases hwaits

theorem same (h : Inv spec s) (hsame : Same s s') : Inv spec s' := by
  obtain ⟨hmanager, hregistry, hframe⟩ := hsame
  refine ⟨?_, ?_, ?_⟩
  · rw [hmanager]
    exact h.timers
  · rw [hmanager, hframe]
    exact h.holds
  · rw [hregistry, hframe]
    exact h.registered

theorem running (h : Inv spec s) (running : List (ℕ × Stage)) :
    Inv spec { s with running := running } := h.same ⟨rfl, rfl, rfl⟩

theorem holds_put {m : TimerManager Cb} (hself : f.pc.Holds m c)
    (hother : ∀ d, d ≠ c → (s.frame d).pc.Holds m d) (d : ℕ) :
    ((s.put c f).frame d).pc.Holds m d := by
  by_cases hd : d = c
  · subst hd
    rw [put_frame_self]
    exact hself
  · rw [put_frame_of_ne _ _ hd]
    exact hother d hd

theorem registered_put (h : Inv spec s) (hwaits : f.pc.waits = (s.frame c).pc.waits)
    (key : ℤ × Event) (d : ℕ) :
    s.registry key = some d ↔ key = (spec d).key ∧ ((s.put c f).frame d).pc.waits = true := by
  rw [h.registered]
  by_cases hd : d = c
  · subst hd
    rw [put_frame_self, hwaits]
  · rw [put_frame_of_ne _ _ hd]

theorem put (h : Inv spec s) (htimer : f.pc.timer = (s.frame c).pc.timer)
    (hwaits : f.pc.waits = (s.frame c).pc.waits) : Inv spec (s.put c f) where
  timers := h.timers
  holds := holds_put ((h.holds c).congr htimer) fun d _ => h.holds d
  registered := h.registered_put hwaits

theorem waiting_key (h : Inv spec s) {key : ℤ × Event} (hc : s.registry key = some c) :
    key = (spec c).key ∧ ∃ timer, (s.frame c).pc = .parked timer false := by
  obtain ⟨hkey, hwaits⟩ := (h.registered key c).mp hc
  refine ⟨hkey, ?_⟩
  cases hpc : (s.frame c).pc with
  | parked timer woken =>
    rw [hpc] at hwaits
    cases woken with
    | true => cases hwaits
    | false => exact ⟨timer, rfl⟩
  | _ =>
    rw [hpc] at hwaits
    cases hwaits

theorem trigger (h : Inv spec s) (key : ℤ × Event) : Inv spec (s.trigger key) := by
  rw [System.trigger]
  split
  · exact h
  next c hc =>
    obtain ⟨rfl, timer, hpc⟩ := h.waiting_key hc
    have hwake : (s.frame c).wake = (s.frame c).goto (.parked timer true) := by
      rw [Frame.wake, hpc]
    refine ⟨h.timers, ?_, ?_⟩
    · refine holds_put ((h.holds c).congr ?_) fun d _ => h.holds d
      rw [hwake, hpc]
      rfl
    · intro key d
      change Function.update s.registry _ none key = some d ↔ _
      by_cases hd : d = c
      · subst hd
        rw [put_frame_self, hwake]
        refine ⟨fun hk => ?_, fun hr => absurd hr.2 Bool.false_ne_true⟩
        by_cases hkey : key = (spec d).key
        · rw [hkey, Function.update_self] at hk
          cases hk
        · rw [Function.update_of_ne hkey] at hk
          exact absurd ((h.registered key d).mp hk).1 hkey
      · rw [put_frame_of_ne _ _ hd]
        by_cases hkey : key = (spec c).key
        · rw [hkey, Function.update_self]
          refine iff_of_false (Option.some_ne_none d).symm fun hr => ?_
          exact hd (Option.some.inj (((h.registered _ d).mpr hr).symm.trans hc))
        · rw [Function.update_of_ne hkey]
          exact h.registered key d

theorem operate {op : Op Cb} {m : TimerManager Cb} (h : Inv spec s)
    (hyields : op.Yields s.manager m)
    (hadd : ∀ d, d ≠ c → ∀ a now ms recurring,
      op ≠ .addTimer a now ms (some (.ofCall d)) recurring)
    (hrelease : ∀ a, op ≠ .release a) (hself : f.pc.Holds m c)
    (hwaits : f.pc.waits = (s.frame c).pc.waits) :
    Inv spec ({ s with manager := m }.put c f) where
  timers := hyields.inv
  holds := holds_put hself fun d hd =>
    (h.holds d).yields hyields (hadd d hd) fun a _ => hrelease a
  registered := h.registered_put hwaits

theorem op {op : Op Cb} {m : TimerManager Cb} (h : Inv spec s)
    (hyields : op.Yields s.manager m) (hforeign : s.Foreign op) :
    Inv spec { s with manager := m } where
  timers := hyields.inv
  holds := by
    refine fun c => (h.holds c).yields hyields ?_ ?_
    · rintro a now ms recurring rfl
      exact hforeign c rfl
    · rintro a ha rfl
      exact hforeign c ha
  registered := h.registered

theorem expire {now : UInt64} {x : Addr} {m : TimerManager Cb} (h : Inv spec s)
    (hyields : (Op.listExpiredCb now x).Yields s.manager m) (queue : List Cb) :
    Inv spec { s with manager := m, queue := queue } where
  timers := hyields.inv
  holds := fun c => (h.holds c).yields hyields (by simp) (by simp)
  registered := h.registered

theorem register (h : Inv spec s) {timer : Option Addr} (hpc : (s.frame c).pc = .adding timer)
    (hfree : s.registry (spec c).key = none) (errno : ℤ) :
    Inv spec ({ s with registry := Function.update s.registry (spec c).key (some c) }.put c
      ((s.frame c).add timer 0 errno)) where
  timers := h.timers
  holds := by
    refine holds_put ((h.holds c).congr ?_) fun d _ => h.holds d
    rw [hpc]
    rfl
  registered := by
    intro key d
    change Function.update s.registry _ (some c) key = some d ↔ _
    by_cases hd : d = c
    · subst hd
      rw [put_frame_self]
      by_cases hkey : key = (spec d).key
      · rw [hkey, Function.update_self]
        exact ⟨fun _ => ⟨rfl, rfl⟩, fun _ => rfl⟩
      · rw [Function.update_of_ne hkey, h.registered, hpc]
        exact ⟨fun hr => (nomatch hr.2), fun hr => absurd hr.1 hkey⟩
    · rw [put_frame_of_ne _ _ hd]
      by_cases hkey : key = (spec c).key
      · have hnone := h.registered (spec c).key d
        rw [hfree] at hnone
        rw [hkey, Function.update_self]
        refine ⟨fun he => absurd (Option.some.inj he).symm hd, fun hr => ?_⟩
        cases hnone.mpr hr
      · rw [Function.update_of_ne hkey]
        exact h.registered key d

theorem arm (h : Inv spec s) {a : Addr} {now ms : UInt64} {r : Result Cb × TimerManager Cb}
    (hpc : (s.frame c).pc = .arming) (hfree : s.manager.heap a = none)
    (hexec : exec s.manager (.addTimer a now ms (some (.ofCall c)) false) = some r) :
    Inv spec ({ s with manager := r.2 }.put c ((s.frame c).goto (.adding (some a)))) := by
  have hop : (Op.addTimer a now ms (some (.ofCall c)) false).Enabled s.manager := hfree
  obtain ⟨m, hrun, hyields⟩ := h.timers.exec_eq hop
  cases hrun.symm.trans hexec
  have hnone : (s.frame c).pc.timer = none := by rw [hpc]; rfl
  refine h.operate hyields ?_ nofun ((h.holds c).add hnone hyields rfl) ?_
  · rintro d hd b now' ms recurring he
    cases he
    exact hd rfl
  · rw [hpc]
    rfl

theorem cancelTimer (h : Inv spec s) {a : Addr} {r : Result Cb × TimerManager Cb}
    (hf : (s.frame c).unwind (spec c).kind = some f) (htimer : (s.frame c).pc.timer = some a)
    (hexec : exec s.manager (.cancel a) = some r) :
    Inv spec ({ s with manager := r.2 }.put c f) := by
  obtain ⟨hnone, hwaits', hwaits⟩ := Frame.unwind_keeps hf
  have hop : (Op.cancel a).Enabled s.manager := (h.holds c).live a htimer
  obtain ⟨m, hrun, hyields⟩ := h.timers.exec_eq hop
  cases hrun.symm.trans hexec
  exact h.operate hyields nofun nofun ((h.holds c).cancel htimer hyields hnone)
    (hwaits'.trans hwaits.symm)

theorem of_step (h : Inv spec s) (hstep : Step spec s a s') : Inv spec s' := by
  obtain ⟨henabled, hstep⟩ := hstep
  cases Steps.of_step hstep with
  | move c m hmoves => exact h.put hmoves.keeps.1 hmoves.keeps.2
  | untimed c a now hpc => exact h.put (by rw [hpc]; rfl) (by rw [hpc]; rfl)
  | arm c a now hpc htimeout hexec => exact h.arm hpc (henabled htimeout) hexec
  | fail c rt errno hpc hrt =>
    refine h.put ?_ ?_
    · simp [Frame.add, Frame.note, hrt, hpc, Pc.timer]
    · simp [Frame.add, Frame.note, hrt, hpc, Pc.waits]
  | register c errno hpc hfree => exact h.register hpc hfree errno
  | unwind c hf htimer =>
    obtain ⟨hnone, hwaits', hwaits⟩ := Frame.unwind_keeps hf
    exact h.put (hnone.trans htimer.symm) (hwaits'.trans hwaits.symm)
  | cancelTimer c hf htimer hexec => exact h.cancelTimer hf htimer hexec
  | op op hexec =>
    obtain ⟨m, hrun, hyields⟩ := h.timers.exec_eq henabled.1
    cases hrun.symm.trans hexec
    exact h.op hyields henabled.2
  | expire now x hexec =>
    obtain ⟨m, hrun, hyields⟩ := h.timers.listExpiredCb now x
    cases hrun.symm.trans hexec
    exact h.expire hyields _
  | start cb hqueue => exact h.same (s.same_enter cb _)
  | giveUp c hrunning hcancelled => exact h.running _
  | look c hrunning hcancelled => exact h.running _
  | mark c hrunning => exact (h.running _).put rfl rfl
  | cancel c hrunning => exact (h.running _).trigger (spec c).key
  | refuse c hrunning => exact h.running _
  | ready key => exact h.trigger key
  | cancelEvent key => exact h.trigger key

theorem of_run {start : UInt64} {es : List Act}
    (hrun : Run (Step spec) (Waiting.initial start) es s) : Inv spec s :=
  hrun.invariant (fun _ _ _ hs hstep => hs.of_step hstep) (initial start)

end Inv
end System

/-! ## The result of a call -/

/-- The result and `errno` that the first decisive thing leads to. -/
def verdict : List Happening → Option (ℤ × ℤ)
  | [] => none
  | .result n errno :: hs =>
    if n = -1 ∧ (errno = EINTR ∨ errno = EAGAIN) then verdict hs else some (n, errno)
  | .added rt errno :: hs => if rt = 0 then verdict hs else some (-1, errno)
  | .resumed fired :: hs => if fired then some (-1, ETIMEDOUT) else verdict hs
  | .probed _ _ _ _ :: hs => verdict hs

theorem verdict_append (hs : List Happening) (h : Happening) :
    verdict (hs ++ [h]) = (verdict hs).or (verdict [h]) := by
  induction hs with
  | nil => rfl
  | cons g hs ih =>
    cases g with
    | result n errno =>
      simp only [List.cons_append, verdict]
      split_ifs
      · exact ih
      · rfl
    | added rt errno =>
      simp only [List.cons_append, verdict]
      split_ifs
      · exact ih
      · rfl
    | resumed fired =>
      simp only [List.cons_append, verdict]
      split_ifs
      · rfl
      · exact ih
    | probed rt errno error settled => exact ih

/-- What a call has returned, or is about to return once it has cancelled its timer. -/
def Pc.outcome : Pc → Option (ℤ × ℤ)
  | .done rt errno => some (rt, errno)
  | .unwinding _ errno => some (-1, errno)
  | _ => none

namespace Frame
variable {kind : Kind} {f f' : Frame}

def Flagged (f : Frame) : Prop := f.cancelled = if f.fired then ETIMEDOUT else 0

theorem Changes.flag_eq (h : f.Changes kind f') :
    f'.cancelled = f.cancelled ∧ f'.fired = f.fired := by
  cases h with
  | move h => cases h <;> exact ⟨rfl, rfl⟩
  | _ => exact ⟨rfl, rfl⟩

theorem Changes.flagged (h : f.Changes kind f') (hf : f.Flagged) : f'.Flagged := by
  obtain ⟨hcancelled, hfired⟩ := h.flag_eq
  rw [Flagged, hcancelled, hfired]
  exact hf

def Answers (f : Frame) : Prop := f.pc ≠ .probing ∧ verdict f.history = f.pc.outcome

theorem Answers.note (hf : verdict f.history = none) {h : Happening} {pc : Pc}
    (hpc : pc ≠ .probing) (hh : verdict [h] = pc.outcome) : (f.note h pc).Answers := by
  refine ⟨hpc, ?_⟩
  rw [Frame.note, verdict_append, hf]
  exact hh

theorem Answers.goto (hf : f.Answers) {pc : Pc} (hpc : pc ≠ .probing)
    (houtcome : pc.outcome = f.pc.outcome) : (f.goto pc).Answers :=
  ⟨hpc, hf.2.trans houtcome.symm⟩

theorem verdict_result (n errno : ℤ) :
    afterResult n errno .io ≠ .probing ∧
      verdict [.result n errno] = (afterResult n errno .io).outcome := by
  simp only [afterResult, verdict]
  split_ifs <;> simp_all [Pc.outcome]

theorem verdict_resumed (hf : f.Flagged) :
    afterCheck f.cancelled .io ≠ .probing ∧
      verdict [.resumed f.fired] = (afterCheck f.cancelled .io).outcome := by
  rw [Flagged] at hf
  cases hfired : f.fired with
  | true =>
    rw [hf, hfired]
    decide
  | false =>
    rw [hf, hfired]
    decide

theorem Moves.answers (h : f.Moves .io f') (hflag : f.Flagged) (hf : f.Answers) : f'.Answers := by
  cases h with
  | start hpc => exact hf.goto nofun (by rw [hpc]; rfl)
  | original n errno hpc =>
    obtain ⟨hprobing, hverdict⟩ := verdict_result n errno
    exact .note (hf.2.trans (by rw [hpc]; rfl)) hprobing hverdict
  | resume timer hpc => exact hf.goto nofun (by rw [hpc]; rfl)
  | check hpc =>
    obtain ⟨hprobing, hverdict⟩ := verdict_resumed hflag
    exact .note (hf.2.trans (by rw [hpc]; rfl)) hprobing hverdict
  | probe rt errno error hpc => exact absurd hpc hf.1
  | settle => exact hf

theorem Changes.answers (h : f.Changes .io f') (hflag : f.Flagged) (hf : f.Answers) :
    f'.Answers := by
  cases h with
  | move h => exact h.answers hflag hf
  | arm timer hpc => exact hf.goto nofun (by rw [hpc]; rfl)
  | add timer rt errno hpc =>
    have hnone : verdict f.history = none := hf.2.trans (by rw [hpc]; rfl)
    by_cases hrt : rt = 0
    · simp only [Frame.add, if_pos hrt]
      exact .note hnone nofun (by simp [verdict, hrt, Pc.outcome])
    · simp only [Frame.add, if_neg hrt]
      exact .note hnone nofun (by simp [verdict, hrt, Pc.outcome])
  | wake timer woken hpc => exact hf.goto nofun (by rw [hpc]; rfl)
  | cancelled timer hpc => exact hf.goto nofun (by rw [hpc]; rfl)
  | failed timer errno hpc => exact hf.goto nofun (by rw [hpc]; rfl)

end Frame

namespace System
variable {spec : ℕ → Spec} {s s' : System} {a : Act} {c : ℕ}

theorem answers_of_run {start : UInt64} {es : List Act}
    (hrun : Run (Step spec) (initial start) es s) (c : ℕ) :
    (s.frame c).Flagged ∧ ((spec c).kind = .io → (s.frame c).Answers) := by
  refine frame_of_run (P := fun kind f => f.Flagged ∧ (kind = .io → f.Answers)) hrun ?_ ?_ ?_ c
  · exact fun kind => ⟨rfl, fun _ => ⟨nofun, rfl⟩⟩
  · rintro kind f f' ⟨hflag, hf⟩ hchange
    refine ⟨hchange.flagged hflag, ?_⟩
    rintro rfl
    exact hchange.answers hflag (hf rfl)
  · rintro kind f ⟨-, hf⟩
    exact ⟨rfl, hf⟩

/-- An unfinished call can take its next step, whatever it is answered, and readiness ends its wait,
for a connect when the attempt is over. `addEvent` returns only while no other call waits for the
same event. -/
def Proceeds (spec : ℕ → Spec) (s : System) (c : ℕ) : Prop :=
  match (s.frame c).pc with
  | .idle => ∃ s', Step spec s (.move c .start) s'
  | .calling => ∀ n errno, ∃ s', Step spec s (.move c (.original n errno)) s'
  | .arming => ∀ a now, s.manager.heap a = none → ∃ s', Step spec s (.arm c a now) s'
  | .adding _ => s.registry (spec c).key = none →
      ∀ rt errno, ∃ s', Step spec s (.add c rt errno) s'
  | .parked _ false => ((spec c).kind = .connect → (s.frame c).settled = true) →
      ∃ s', Step spec s (.ready (spec c).key) s' ∧ (s'.frame c).pc.waits = false
  | .parked _ true => ∃ s', Step spec s (.move c .resume) s'
  | .unwinding _ _ | .resumed _ => ∃ s', Step spec s (.cancelTimer c) s'
  | .checking => ∃ s', Step spec s (.move c .check) s'
  | .probing => ∀ rt errno error, ((s.frame c).settled = false → error = 0) →
      ∃ s', Step spec s (.move c (.probe rt errno error)) s'
  | .done _ _ => True

theorem Inv.step_cancelTimer (h : Inv spec s) {f : Frame}
    (hf : (s.frame c).unwind (spec c).kind = some f) :
    ∃ s', Step spec s (.cancelTimer c) s' := by
  cases htimer : (s.frame c).pc.timer with
  | none => exact ⟨s.put c f, trivial, by simp [step, hf, htimer]⟩
  | some a =>
    have hop : (Op.cancel a).Enabled s.manager := (h.holds c).live a htimer
    obtain ⟨m, hrun, -⟩ := h.timers.exec_eq hop
    exact ⟨_, trivial, by simp [step, hf, htimer, hrun]; rfl⟩

theorem Inv.proceeds (h : Inv spec s) (c : ℕ) : s.Proceeds spec c := by
  rw [Proceeds]
  split
  next hpc => exact ⟨_, trivial, by simp [step, Frame.move, hpc]; rfl⟩
  next hpc => exact fun n errno => ⟨_, trivial, by simp [step, Frame.move, hpc]; rfl⟩
  next hpc =>
    intro a now ha
    by_cases htimeout : (spec c).timeout = ~~~0
    · exact ⟨_, fun _ => ha, by rw [step, if_neg (not_not.mpr hpc), if_pos htimeout]⟩
    · exact ⟨_, fun _ => ha, by rw [step, if_neg (not_not.mpr hpc), if_neg htimeout]; rfl⟩
  next timer hpc =>
    intro hfree rt errno
    by_cases hrt : rt = 0
    · exact ⟨_, trivial, by simp [step, hpc, hrt, hfree]; rfl⟩
    · exact ⟨_, trivial, by simp [step, hpc, hrt, hfree]; rfl⟩
  next timer hpc =>
    intro hsettled
    have hregistered : s.registry (spec c).key = some c :=
      (h.registered _ c).mpr ⟨rfl, by rw [hpc]; rfl⟩
    have hready : ¬((spec c).kind = .connect ∧ (s.frame c).settled = false) := by
      rintro ⟨hkind, hfalse⟩
      exact Bool.false_ne_true (hfalse.symm.trans (hsettled hkind))
    refine ⟨s.trigger (spec c).key, ⟨trivial, ?_⟩, ?_⟩
    · simp only [step, hregistered, if_neg hready]
    · simp only [System.trigger, hregistered, put_frame_self, Frame.wake, hpc]
      rfl
  next timer hpc => exact ⟨_, trivial, by simp [step, Frame.move, hpc]; rfl⟩
  next timer errno hpc => exact h.step_cancelTimer (by rw [Frame.unwind, hpc])
  next timer hpc => exact h.step_cancelTimer (by rw [Frame.unwind, hpc])
  next hpc => exact ⟨_, trivial, by simp [step, Frame.move, hpc]; rfl⟩
  next hpc =>
    intro rt errno error hsettled
    exact ⟨_, hsettled, by simp [step, Frame.move, hpc]; rfl⟩
  · trivial

theorem cancelled_eq_of_step (h : s.step spec a = some s')
    (hne : (s'.frame c).cancelled ≠ (s.frame c).cancelled) :
    a = .mark c ∧ (c, .unmarked) ∈ s.running := by
  rcases Evolves.of_step h c with hsame | hchanged | ⟨ha, hrunning, -⟩
  · rw [hsame] at hne
    exact absurd rfl hne
  · exact absurd hchanged.flag_eq.1 hne
  · exact ⟨ha, hrunning⟩

theorem start_of_finished (hdone : (s.frame c).pc.finished = true)
    (hrunning : ∀ stage, (c, stage) ∉ s.running) (h : s.step spec (.start (.ofCall c)) = some s') :
    s' = { s with queue := s.queue.erase (.ofCall c) } := by
  obtain ⟨-, he⟩ := Option.ite_none_right_eq_some.mp h
  cases he
  have hdead : System.alive { s with queue := s.queue.erase (.ofCall c) } c = false := by
    simp only [alive, hdone, Bool.not_true, Bool.false_or, List.any_eq_false, beq_iff_eq]
    rintro ⟨d, stage⟩ hd rfl
    exact hrunning stage hd
  rw [enter, hdead]
  rfl

/-- In every run an I/O call returns what the first decisive thing it meets leads to, and goes on
until then; a call that has returned has no armed timer; and only the callback of a call itself
marks it, while one that starts after the call has returned does nothing. -/
theorem doIo_safe (spec : ℕ → Spec) (start : UInt64) (es : List Act) (s : System)
    (hrun : Run (Step spec) (initial start) es s) :
    (∀ c, (spec c).kind = .io →
      verdict (s.frame c).history = (s.frame c).pc.outcome ∧ s.Proceeds spec c) ∧
    (∀ c, (s.frame c).pc.finished = true → ∀ a ∈ s.manager.timers,
      cbOf s.manager.heap a ≠ some (.ofCall c)) ∧
    ∀ a s', Step spec s a s' →
      (∀ c, (s'.frame c).cancelled ≠ (s.frame c).cancelled →
        a = .mark c ∧ (c, .unmarked) ∈ s.running) ∧
      ∀ c, a = .start (.ofCall c) → (s.frame c).pc.finished = true →
        (∀ stage, (c, stage) ∉ s.running) →
        s' = { s with queue := s.queue.erase (.ofCall c) } := by
  have h := Inv.of_run hrun
  refine ⟨?_, ?_, ?_⟩
  · intro c hkind
    exact ⟨((answers_of_run hrun c).2 hkind).2, h.proceeds c⟩
  · intro c hdone a ha hcb
    have htimer := (h.holds c).owned a ha hcb
    cases hpc : (s.frame c).pc <;> simp_all [Pc.finished, Pc.timer]
  · intro a s' hstep
    refine ⟨fun c hne => cancelled_eq_of_step hstep.2 hne, ?_⟩
    rintro c rfl hdone hrunning
    exact start_of_finished hdone hrunning hstep.2

end System
end ApexStorm.Waiting
