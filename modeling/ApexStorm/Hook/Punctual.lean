import ApexStorm.Hook.Blocking
import ApexStorm.Timer.Expiry

/-!
# Timers that end the wait of a hooked call

The timer of an I/O call is armed before the event is registered. A callback that
runs in between marks the call as timed out and finds nothing to cancel, and the call
then waits with a timer that is spent. As long as no call begins a wait with a spent
timer, every wait with a timer comes to an end.
-/

namespace ApexStorm.Waiting
open Lib TimerManager
open IOManager (Event)
open Hook (EAGAIN)

/-- In `YieldToHold` with a timer and not yet scheduled again. -/
def Pc.timed : Pc → Bool
  | .parked (some _) false => true
  | _ => false

theorem Pc.timed_iff {pc : Pc} : pc.timed = true ↔ ∃ a, pc = .parked (some a) false := by
  constructor
  · intro h
    match pc, h with
    | .parked (some a) false, _ => exact ⟨a, rfl⟩
  · rintro ⟨a, rfl⟩
    rfl

theorem Frame.Changes.pc_of_waits {kind : Kind} {f f' : Frame} (h : f.Changes kind f')
    (hwaits : f.pc.waits = true) (hwaits' : f'.pc.waits = true) : f'.pc = f.pc := by
  cases h with
  | move h =>
    cases h with
    | settle => rfl
    | _ => simp_all [Pc.waits]
  | wake timer woken hpc => cases hwaits'
  | _ => simp_all [Pc.waits]

def Act.own (c : ℕ) : Act → Bool
  | .move d _ | .arm d _ _ | .add d _ _ | .cancelTimer d | .look d | .mark d | .cancel d _ =>
    d = c
  | .start cb => cb = .ofCall c
  | .expire _ _ => true
  | .ready _ | .cancelEvent _ | .op _ => false

def Stage.steps : Stage → ℕ
  | .held => 3
  | .unmarked => 2
  | .marked => 1

namespace System

/-- No I/O call registers its event with a spent timer, and no `cancelEvent` of a callback fails
when it was the last to end the wait. -/
def punctual (spec : ℕ → Spec) (s : System) : Act → Bool
  | .add c rt _ =>
    (spec c).kind = .io → (s.frame c).pc.timer.isSome → rt = 0 → s.spent c = false
  | .cancel c ok =>
    (spec c).kind = .io → (s.frame c).pc.timed → ok = false →
      System.spent { s with running := s.running.erase (c, .marked) } c = false
  | _ => true

/-- Its own timer can end the call, whatever the others do not do. -/
def TimesOut (spec : ℕ → Spec) (s : System) (c : ℕ) : Prop :=
  ∃ es s', Run (Step spec) s es s' ∧ (∀ a ∈ es, a.own c = true) ∧
    (s'.frame c).pc = .done (-1) ETIMEDOUT

/-! ## What is on the way to a waiting call -/

variable {spec : ℕ → Spec} {s s' : System} {a : Act} {c : ℕ}

def Armed (m : TimerManager Cb) (b : Addr) (c : ℕ) : Prop :=
  b ∈ m.timers ∧ cbOf m.heap b = some (.ofCall c)

def Pending (s : System) (c : ℕ) (b : Addr) : Prop :=
  Armed s.manager b c ∨ .ofCall c ∈ s.queue ∨ (c, .held) ∈ s.running ∨ (c, .unmarked) ∈ s.running

theorem alive_of_timer {b : Addr} (h : (s.frame c).pc.timer = some b) : s.alive c = true := by
  have hunfinished : (s.frame c).pc.finished = false := by
    cases hpc : (s.frame c).pc with
    | done rt errno =>
      rw [hpc] at h
      cases h
    | _ => rfl
  rw [alive, hunfinished]
  rfl

structure Alert (s : System) : Prop where
  distinct : ∀ c d b, (s.frame c).pc.timer = some b → (s.frame d).pc.timer = some b → c = d
  pending : ∀ c b, (s.frame c).pc.timer = some b → (s.frame c).cancelled = 0 → s.Pending c b
  marked : ∀ c, (c, .marked) ∈ s.running → (s.frame c).cancelled ≠ 0
  oneShot : ∀ c b, Armed s.manager b c → recurs s.manager.heap b = false
  finite : {b | s.manager.heap b ≠ none}.Finite

namespace Alert

theorem initial (start : UInt64) : Alert (initial start) where
  distinct := nofun
  pending := nofun
  marked := nofun
  oneShot c b h := by cases h.1
  finite := by simp [Waiting.initial, TimerManager.new]

theorem put (h : Alert s) {f : Frame}
    (htimer : f.pc.timer = (s.frame c).pc.timer ∨ f.pc.timer = none)
    (hcancelled : f.cancelled = 0 → (s.frame c).cancelled = 0) : Alert (s.put c f) := by
  have hkeeps : ∀ d b, ((s.put c f).frame d).pc.timer = some b →
      (s.frame d).pc.timer = some b := by
    intro d b hb
    by_cases hd : d = c
    · subst hd
      rw [put_frame_self] at hb
      rcases htimer with hsame | hnone
      · rw [← hsame, hb]
      · rw [hnone] at hb
        cases hb
    · rwa [put_frame_of_ne _ _ hd] at hb
  have hzero : ∀ d, ((s.put c f).frame d).cancelled = 0 → (s.frame d).cancelled = 0 := by
    intro d hd
    by_cases hdc : d = c
    · subst hdc
      rw [put_frame_self] at hd
      exact hcancelled hd
    · rwa [put_frame_of_ne _ _ hdc] at hd
  exact ⟨fun d e b hd he => h.distinct d e b (hkeeps d b hd) (hkeeps e b he),
    fun d b hb hd => h.pending d b (hkeeps d b hb) (hzero d hd),
    fun d hd hd' => h.marked d hd (hzero d hd'), h.oneShot, h.finite⟩

theorem hold (h : Alert s) {f : Frame} {b : Addr} (htimer : f.pc.timer = some b)
    (hother : ∀ d, (s.frame d).pc.timer ≠ some b) (harmed : Armed s.manager b c)
    (hcancelled : f.cancelled = (s.frame c).cancelled) : Alert (s.put c f) where
  distinct := by
    intro d e b' hd he
    by_cases hdc : d = c
    · by_cases hec : e = c
      · rw [hdc, hec]
      · rw [hdc, put_frame_self, htimer] at hd
        rw [put_frame_of_ne _ _ hec, ← hd] at he
        exact absurd he (hother e)
    · rw [put_frame_of_ne _ _ hdc] at hd
      by_cases hec : e = c
      · rw [hec, put_frame_self, htimer] at he
        rw [← he] at hd
        exact absurd hd (hother d)
      · rw [put_frame_of_ne _ _ hec] at he
        exact h.distinct d e b' hd he
  pending := by
    intro d b' hb hzero
    by_cases hdc : d = c
    · subst hdc
      rw [put_frame_self, htimer] at hb
      cases hb
      exact .inl harmed
    · rw [put_frame_of_ne _ _ hdc] at hb hzero
      exact h.pending d b' hb hzero
  marked := by
    intro d hd
    by_cases hdc : d = c
    · subst hdc
      rw [put_frame_self, hcancelled]
      exact h.marked d hd
    · rw [put_frame_of_ne _ _ hdc]
      exact h.marked d hd
  oneShot := h.oneShot
  finite := h.finite

theorem oneShot_yields {op : Op Cb} {m : TimerManager Cb} (h : Alert s)
    (hop : op.Enabled s.manager) (hyields : op.Yields s.manager m)
    (hadd : ∀ b now ms c, op ≠ .addTimer b now ms (some (.ofCall c)) true) (c : ℕ) (b : Addr)
    (hb : Armed m b c) : recurs m.heap b = false := by
  rcases hyields.armed hb.1 hb.2 with hold | ⟨now, ms, recurring, rfl⟩
  · exact (hyields.recurs_eq hop hold.1 hold.2).trans (h.oneShot c b hold)
  · cases recurring with
    | true => exact absurd rfl (hadd b now ms c)
    | false => simp [hyields.heap_eq, Op.effect, recurs]

theorem manage {op : Op Cb} {m : TimerManager Cb} (h : Alert s) (hop : op.Enabled s.manager)
    (hyields : op.Yields s.manager m)
    (hadd : ∀ b now ms c, op ≠ .addTimer b now ms (some (.ofCall c)) true)
    (hcancel : ∀ c b, (s.frame c).pc.timer = some b → op ≠ .cancel b)
    (hexpire : ∀ now x, op ≠ .listExpiredCb now x) : Alert { s with manager := m } where
  distinct := h.distinct
  pending := by
    intro c b hb hzero
    refine (h.pending c b hb hzero).imp_left fun harmed => ?_
    exact hyields.stays hop harmed.1 harmed.2 (hcancel c b hb) fun now x he =>
      absurd he (hexpire now x)
  marked := h.marked
  oneShot := h.oneShot_yields hop hyields hadd
  finite := hyields.finite h.finite

theorem op {op : Op Cb} {m : TimerManager Cb} (h : Alert s) (hop : op.Enabled s.manager)
    (hforeign : s.Foreign op) (hyields : op.Yields s.manager m) :
    Alert { s with manager := m } := by
  refine h.manage hop hyields ?_ ?_ ?_
  · rintro b now ms c rfl
    exact hforeign c rfl
  · rintro c b hb rfl
    exact hforeign c hb
  · rintro now x rfl
    exact hforeign

theorem arm (h : Alert s) (hinv : Inv spec s) {b : Addr} {now ms : UInt64}
    {r : Result Cb × TimerManager Cb} (hfree : s.manager.heap b = none)
    (hexec : exec s.manager (.addTimer b now ms (some (.ofCall c)) false) = some r) :
    Alert ({ s with manager := r.2 }.put c ((s.frame c).goto (.adding (some b)))) := by
  have hop : (Op.addTimer b now ms (some (.ofCall c)) false).Enabled s.manager := hfree
  obtain ⟨m, hrun, hyields⟩ := hinv.timers.exec_eq hop
  cases hrun.symm.trans hexec
  have hm : Alert { s with manager := m } := h.manage hop hyields nofun nofun nofun
  have hother : ∀ d, (s.frame d).pc.timer ≠ some b := by
    intro d hd
    have hlive := (hinv.holds d).live b hd
    rw [hfree] at hlive
    cases hlive
  have harmed : Armed m b c := by
    refine ⟨(hyields.mem_iff b).mpr (.inl rfl), ?_⟩
    simp [hyields.heap_eq, Op.effect, cbOf]
  exact hm.hold rfl hother harmed rfl

theorem cancelTimer (h : Alert s) (hinv : Inv spec s) {b : Addr} {f : Frame}
    {r : Result Cb × TimerManager Cb} (hf : (s.frame c).unwind (spec c).kind = some f)
    (htimer : (s.frame c).pc.timer = some b) (hexec : exec s.manager (.cancel b) = some r) :
    Alert ({ s with manager := r.2 }.put c f) := by
  have hop : (Op.cancel b).Enabled s.manager := (hinv.holds c).live b htimer
  obtain ⟨m, hrun, hyields⟩ := hinv.timers.exec_eq hop
  cases hrun.symm.trans hexec
  have hnone := (Frame.unwind_keeps hf).1
  have hput : Alert (s.put c f) := h.put (.inr hnone) fun hzero =>
    (Frame.Changes.of_unwind hf).flag_eq.1 ▸ hzero
  refine hput.manage hop hyields nofun ?_ nofun
  intro d b' hb' he
  cases he
  by_cases hd : d = c
  · subst hd
    rw [put_frame_self, hnone] at hb'
    cases hb'
  · rw [put_frame_of_ne _ _ hd] at hb'
    exact hd (h.distinct d c b hb' htimer)

theorem expire (h : Alert s) (hinv : Inv spec s) {now : UInt64} {x : Addr}
    {r : List (Option Cb) × TimerManager Cb} (hx : s.manager.heap x = none)
    (hexec : s.manager.listExpiredCb now x = some r) :
    Alert { s with manager := r.2, queue := s.queue ++ r.1.filterMap id } := by
  have hop : (Op.listExpiredCb now x : Op Cb).Enabled s.manager := hx
  obtain ⟨m, hrun, hyields⟩ := hinv.timers.listExpiredCb now x
  cases hrun.symm.trans hexec
  refine ⟨h.distinct, ?_, h.marked, h.oneShot_yields hop hyields nofun, hyields.finite h.finite⟩
  intro c b hb hzero
  rcases h.pending c b hb hzero with harmed | hqueue | hrunning
  · by_cases hin : b ∈ s.manager.expired now x
    · refine .inr (.inl (List.mem_append_right _ ?_))
      exact List.mem_filterMap.mpr ⟨_, List.mem_map_of_mem hin, harmed.2⟩
    · refine .inl (hyields.stays hop harmed.1 harmed.2 nofun fun now' x' he => ?_)
      cases he
      exact hin
  · exact .inr (.inl (List.mem_append_left _ hqueue))
  · exact .inr (.inr hrunning)

theorem callbacks (h : Alert s) {queue : List Cb} {running : List (ℕ × Stage)}
    (hpending : ∀ c b, (s.frame c).pc.timer = some b → (s.frame c).cancelled = 0 →
      s.Pending c b → Pending { s with queue := queue, running := running } c b)
    (hmarked : ∀ c, (c, .marked) ∈ running → (s.frame c).cancelled ≠ 0) :
    Alert { s with queue := queue, running := running } where
  distinct := h.distinct
  pending c b hb hzero := hpending c b hb hzero (h.pending c b hb hzero)
  marked := hmarked
  oneShot := h.oneShot
  finite := h.finite

theorem start (h : Alert s) (cb : Cb) :
    Alert ({ s with queue := s.queue.erase cb }.enter cb) := by
  have hother : ∀ c, cb ≠ .ofCall c → .ofCall c ∈ s.queue → .ofCall c ∈ s.queue.erase cb :=
    fun c hne hmem => (List.mem_erase_of_ne hne.symm).mpr hmem
  cases cb with
  | other k =>
    refine h.callbacks (fun c b hb hzero hpending => ?_) h.marked
    exact hpending.imp_right (Or.imp_left (hother c nofun))
  | ofCall d =>
    rw [enter]
    split_ifs with halive
    · refine h.callbacks (fun c b hb hzero hpending => ?_) fun c hc => ?_
      · by_cases hd : c = d
        · exact .inr (.inr (.inl (hd ▸ List.mem_cons_self)))
        · have hne : Cb.ofCall d ≠ .ofCall c := fun he => hd (Cb.ofCall.inj he).symm
          exact hpending.imp_right (Or.imp (hother c hne)
            (Or.imp (List.mem_cons_of_mem _) (List.mem_cons_of_mem _)))
      · rcases List.mem_cons.mp hc with he | hc
        · cases he
        · exact h.marked c hc
    · refine h.callbacks (fun c b hb hzero hpending => ?_) h.marked
      refine hpending.imp_right (Or.imp_left (hother c fun he => ?_))
      cases he
      exact halive (alive_of_timer hb)

theorem goOn (h : Alert s) (d : ℕ) (stage : Stage) {running : List (ℕ × Stage)}
    (hrunning : ∀ c stage', (c, stage') ≠ (d, stage) → (c, stage') ∈ s.running →
      (c, stage') ∈ running)
    (hheld : (s.frame d).cancelled = 0 → stage ≠ .marked → (d, .unmarked) ∈ running)
    (hmarked : ∀ c, (c, .marked) ∈ running → (s.frame c).cancelled ≠ 0) :
    Alert { s with running := running } := by
  refine h.callbacks (fun c b hb hzero hpending => hpending.imp_right (Or.imp_right ?_)) hmarked
  rintro (hmem | hmem)
  · by_cases heq : (c, Stage.held) = (d, stage)
    · cases heq
      exact .inr (hheld hzero nofun)
    · exact .inl (hrunning c _ heq hmem)
  · by_cases heq : (c, Stage.unmarked) = (d, stage)
    · cases heq
      exact .inr (hheld hzero nofun)
    · exact .inr (hrunning c _ heq hmem)

theorem erase (h : Alert s) {d : ℕ} {stage : Stage}
    (hstage : stage = .marked ∨ (s.frame d).cancelled ≠ 0) :
    Alert { s with running := s.running.erase (d, stage) } := by
  refine h.goOn d stage (fun c stage' hne hmem => (List.mem_erase_of_ne hne).mpr hmem) ?_
    fun c hc => h.marked c (List.mem_of_mem_erase hc)
  intro hzero hne
  exact absurd hzero (hstage.resolve_left hne)

theorem look (h : Alert s) (d : ℕ) :
    Alert { s with running := (d, .unmarked) :: s.running.erase (d, .held) } := by
  refine h.goOn d .held (fun c stage hne hmem => ?_) (fun _ _ => List.mem_cons_self) fun c hc => ?_
  · exact List.mem_cons_of_mem _ ((List.mem_erase_of_ne hne).mpr hmem)
  · rcases List.mem_cons.mp hc with he | hc
    · cases he
    · exact h.marked c (List.mem_of_mem_erase hc)

theorem mark (h : Alert s) (d : ℕ) :
    Alert ({ s with running := (d, .marked) :: s.running.erase (d, .unmarked) }.put d
      (s.frame d).mark) := by
  have hmarked : ((s.put d (s.frame d).mark).frame d).cancelled ≠ 0 := by
    rw [put_frame_self]
    exact (by decide : ETIMEDOUT ≠ 0)
  have hput : Alert (s.put d (s.frame d).mark) := h.put (.inl rfl) nofun
  refine hput.goOn d .unmarked (fun c stage hne hmem => ?_) ?_ fun c hc => ?_
  · exact List.mem_cons_of_mem _ ((List.mem_erase_of_ne hne).mpr hmem)
  · exact fun hzero => absurd hzero hmarked
  · rcases List.mem_cons.mp hc with he | hc
    · cases he
      exact hmarked
    · exact hput.marked c (List.mem_of_mem_erase hc)

theorem registry (h : Alert s) (registry : ℤ × Event → Option ℕ) :
    Alert { s with registry := registry } :=
  ⟨h.distinct, h.pending, h.marked, h.oneShot, h.finite⟩

theorem trigger (h : Alert s) (key : ℤ × Event) : Alert (s.trigger key) := by
  rw [System.trigger]
  split
  · exact h
  next c hc =>
    obtain ⟨htimer, hcancelled⟩ := (s.frame c).wake_keeps
    exact (h.registry _).put (.inl htimer) fun hzero => hcancelled ▸ hzero

theorem of_step (h : Alert s) (hinv : Inv spec s) (hstep : Step spec s a s') : Alert s' := by
  obtain ⟨henabled, hstep⟩ := hstep
  cases Steps.of_step hstep with
  | move c m hmoves =>
    have hflag := (Frame.Changes.move hmoves).flag_eq.1
    exact h.put (.inl hmoves.keeps.1) fun hzero => hflag ▸ hzero
  | untimed c b now hpc => exact h.put (.inr rfl) id
  | arm c b now hpc htimeout hexec => exact h.arm hinv (henabled htimeout) hexec
  | fail c rt errno hpc hrt =>
    refine h.put (.inl ?_) id
    simp [Frame.add, Frame.note, hrt, hpc, Pc.timer]
  | register c errno hpc hfree =>
    refine (h.registry _).put (.inl ?_) id
    simp [Frame.add, Frame.note, hpc, Pc.timer]
  | unwind c hf htimer =>
    have hflag := (Frame.Changes.of_unwind hf).flag_eq.1
    exact h.put (.inr (Frame.unwind_keeps hf).1) fun hzero => hflag ▸ hzero
  | cancelTimer c hf htimer hexec => exact h.cancelTimer hinv hf htimer hexec
  | op op hexec =>
    obtain ⟨m, hrun, hyields⟩ := hinv.timers.exec_eq henabled.1
    cases hrun.symm.trans hexec
    exact h.op henabled.1 henabled.2 hyields
  | expire now x hexec => exact h.expire hinv henabled hexec
  | start cb hqueue => exact h.start cb
  | giveUp c hrunning hcancelled => exact h.erase (.inr hcancelled)
  | look c hrunning hcancelled => exact h.look c
  | mark c hrunning => exact h.mark c
  | cancel c hrunning => exact (h.erase (.inl rfl)).trigger (spec c).key
  | refuse c hrunning => exact h.erase (.inl rfl)
  | ready key => exact h.trigger key
  | cancelEvent key => exact h.trigger key

end Alert

structure Watch (spec : ℕ → Spec) (s : System) : Prop where
  inv : Inv spec s
  alert : Alert s
  flagged : ∀ c, (s.frame c).Flagged

theorem Watch.initial (start : UInt64) : Watch spec (initial start) :=
  ⟨.initial start, .initial start, fun _ => rfl⟩

theorem Watch.of_step (h : Watch spec s) (hstep : Step spec s a s') : Watch spec s' := by
  refine ⟨h.inv.of_step hstep, h.alert.of_step h.inv hstep, fun c => ?_⟩
  rcases Evolves.of_step hstep.2 c with hsame | hchanged | ⟨-, -, hmarked⟩
  · rw [hsame]
    exact h.flagged c
  · exact hchanged.flagged (h.flagged c)
  · rw [hmarked]
    rfl

/-! ## A callback on its way ends the call -/

theorem TimesOut.of_step (hstep : Step spec s a s') (hown : a.own c = true)
    (h : TimesOut spec s' c) : TimesOut spec s c := by
  obtain ⟨es, t, hrun, hall, hpc⟩ := h
  refine ⟨a :: es, t, .cons hstep hrun, ?_, hpc⟩
  intro b hb
  rcases List.mem_cons.mp hb with rfl | hb
  · exact hown
  · exact hall b hb

theorem frame_cancelTimer {f : Frame} (hstep : Step spec s (.cancelTimer c) s')
    (hf : (s.frame c).unwind (spec c).kind = some f) : s'.frame c = f := by
  cases Steps.of_step hstep.2 with
  | unwind _ hf' htimer =>
    cases hf.symm.trans hf'
    exact put_frame_self ..
  | cancelTimer _ hf' htimer hexec =>
    cases hf.symm.trans hf'
    exact put_frame_self ..

section Stages
variable {timer : Option Addr}

theorem timesOut_checking (hpc : (s.frame c).pc = .checking)
    (hcancelled : (s.frame c).cancelled = ETIMEDOUT) : TimesOut spec s c := by
  have hdone : Frame.afterCheck (s.frame c).cancelled (spec c).kind = .done (-1) ETIMEDOUT := by
    rw [hcancelled]
    cases (spec c).kind <;> rfl
  have hstep : Step spec s (.move c .check) (s.put c ((s.frame c).note
      (.resumed (s.frame c).fired) (.done (-1) ETIMEDOUT))) := by
    refine ⟨trivial, ?_⟩
    rw [step, Frame.move, if_pos hpc, hdone]
    rfl
  refine .of_step hstep (decide_eq_true rfl) ⟨[], _, .nil _, List.forall_mem_nil _, ?_⟩
  rw [put_frame_self]
  rfl

theorem timesOut_woken (h : Inv spec s) (hpc : (s.frame c).pc = .parked timer true)
    (hcancelled : (s.frame c).cancelled = ETIMEDOUT) : TimesOut spec s c := by
  have hstep : Step spec s (.move c .resume) (s.put c ((s.frame c).goto (.resumed timer))) := by
    refine ⟨trivial, ?_⟩
    rw [step, Frame.move, hpc]
    rfl
  have hunwind : ((s.put c ((s.frame c).goto (.resumed timer))).frame c).unwind (spec c).kind =
      some ((s.frame c).goto .checking) := by
    rw [put_frame_self]
    rfl
  obtain ⟨t, hcancel⟩ := (h.of_step hstep).step_cancelTimer hunwind
  have hframe := frame_cancelTimer hcancel hunwind
  exact .of_step hstep (decide_eq_true rfl) (.of_step hcancel (decide_eq_true rfl)
    (timesOut_checking (congrArg Frame.pc hframe)
      ((congrArg Frame.cancelled hframe).trans hcancelled)))

theorem timesOut_marked (h : Inv spec s) (hpc : (s.frame c).pc = .parked timer false)
    (hcancelled : (s.frame c).cancelled = ETIMEDOUT) (hrunning : (c, .marked) ∈ s.running) :
    TimesOut spec s c := by
  have hregistered : s.registry (spec c).key = some c :=
    (h.registered _ c).mpr ⟨rfl, by rw [hpc]; rfl⟩
  have hwake : (s.frame c).wake = (s.frame c).goto (.parked timer true) := by
    rw [Frame.wake, hpc]
  obtain ⟨t, ht⟩ : ∃ t : System, t = System.trigger
    { s with running := s.running.erase (c, .marked) } (spec c).key := ⟨_, rfl⟩
  have hframe : t.frame c = (s.frame c).goto (.parked timer true) := by
    rw [ht, System.trigger]
    simp only [hregistered, put_frame_self, hwake]
  have hstep : Step spec s (.cancel c true) t := by
    refine ⟨trivial, ?_⟩
    rw [ht, step, if_neg (not_not.mpr hrunning)]
    rfl
  exact .of_step hstep (decide_eq_true rfl) (timesOut_woken (h.of_step hstep)
    (congrArg Frame.pc hframe) ((congrArg Frame.cancelled hframe).trans hcancelled))

theorem timesOut_unmarked (h : Inv spec s) (hpc : (s.frame c).pc = .parked timer false)
    (hrunning : (c, .unmarked) ∈ s.running) : TimesOut spec s c := by
  have hstep : Step spec s (.mark c)
      ({ s with running := (c, .marked) :: s.running.erase (c, .unmarked) }.put c
        (s.frame c).mark) := by
    refine ⟨trivial, ?_⟩
    rw [step, if_neg (not_not.mpr hrunning)]
  have hframe := put_frame_self
    { s with running := (c, .marked) :: s.running.erase (c, .unmarked) } c (s.frame c).mark
  exact .of_step hstep (decide_eq_true rfl) (timesOut_marked (h.of_step hstep)
    ((congrArg Frame.pc hframe).trans hpc) (congrArg Frame.cancelled hframe) List.mem_cons_self)

theorem timesOut_held (h : Inv spec s) (hpc : (s.frame c).pc = .parked timer false)
    (hcancelled : (s.frame c).cancelled = 0) (hrunning : (c, .held) ∈ s.running) :
    TimesOut spec s c := by
  have hstep : Step spec s (.look c)
      { s with running := (c, .unmarked) :: s.running.erase (c, .held) } := by
    refine ⟨trivial, ?_⟩
    rw [step, if_neg (not_not.mpr hrunning), if_neg (not_not.mpr hcancelled)]
  exact .of_step hstep (decide_eq_true rfl)
    (timesOut_unmarked (h.of_step hstep) hpc List.mem_cons_self)

theorem timesOut_queued (h : Inv spec s) (hpc : (s.frame c).pc = .parked timer false)
    (hcancelled : (s.frame c).cancelled = 0) (hqueue : .ofCall c ∈ s.queue) :
    TimesOut spec s c := by
  obtain ⟨t, ht⟩ : ∃ t : System, t = { s with queue := s.queue.erase (.ofCall c) } := ⟨_, rfl⟩
  have halive : t.alive c = true := by
    rw [ht, alive, hpc]
    rfl
  have hstep : Step spec s (.start (.ofCall c)) { t with running := (c, .held) :: t.running } := by
    refine ⟨trivial, ?_⟩
    rw [step, if_pos hqueue, ← ht, enter, if_pos halive]
  have hframe : t.frame = s.frame := by rw [ht]
  exact .of_step hstep (decide_eq_true rfl)
    (timesOut_held (h.of_step hstep) (hframe ▸ hpc) (hframe ▸ hcancelled) List.mem_cons_self)

theorem timesOut_armed (h : Inv spec s) (hfinite : {b | s.manager.heap b ≠ none}.Finite)
    (hpc : (s.frame c).pc = .parked timer false) (hcancelled : (s.frame c).cancelled = 0)
    {b : Addr} (harmed : Armed s.manager b c) : TimesOut spec s c := by
  obtain ⟨x, hx⟩ := hfinite.infinite_compl.nonempty
  have hfree : s.manager.heap x = none := by
    by_contra hne
    exact hx hne
  obtain ⟨now, hnow⟩ : ∃ now, nextOf s.manager.heap b = now := ⟨_, rfl⟩
  have hdue : b ∈ s.manager.expired now x :=
    h.timers.mem_expired hfree harmed.1 (hnow ▸ UInt64.le_refl _)
  obtain ⟨m, hlist, hyields⟩ := h.timers.listExpiredCb now x
  have hstep : Step spec s (.expire now x) { s with
      manager := m
      queue := s.queue ++ ((s.manager.expired now x).map (cbOf s.manager.heap)).filterMap id } := by
    refine ⟨hfree, ?_⟩
    rw [step, hlist]
    rfl
  refine .of_step hstep rfl (timesOut_queued (h.of_step hstep) hpc hcancelled ?_)
  refine List.mem_append_right _ (List.mem_filterMap.mpr ⟨_, List.mem_map_of_mem hdue, harmed.2⟩)

end Stages

/-! ## What a step does to the callbacks and the wait of one call -/

theorem spent_iff : s.spent c = true ↔
    (s.frame c).cancelled ≠ 0 ∧ ∀ stage, stage ≠ .held → (c, stage) ∉ s.running := by
  rw [spent, decide_eq_true_iff]
  refine and_congr_right fun _ => ⟨fun h stage hstage => ?_, fun h => ⟨h _ nofun, h _ nofun⟩⟩
  cases stage with
  | held => exact absurd rfl hstage
  | unmarked => exact h.1
  | marked => exact h.2

theorem trigger_running (s : System) (key : ℤ × Event) : (s.trigger key).running = s.running := by
  rw [trigger]
  split <;> rfl

theorem mem_enter {cb : Cb} {stage : Stage} (hstage : stage ≠ .held) :
    (c, stage) ∈ (s.enter cb).running ↔ (c, stage) ∈ s.running := by
  cases cb with
  | other k => rfl
  | ofCall d =>
    rw [enter]
    split_ifs
    · rw [List.mem_cons]
      refine or_iff_right fun heq => hstage ?_
      exact (Prod.mk.inj heq).2
    · rfl

theorem running_of_step (h : s.step spec a = some s') {stage : Stage} (hstage : stage ≠ .held)
    (hmem : (c, stage) ∈ s'.running) :
    (c, stage) ∈ s.running ∨ a = .look c ∧ (s.frame c).cancelled = 0 ∨
      a = .mark c ∧ (c, .unmarked) ∈ s.running := by
  cases Steps.of_step h with
  | start cb hqueue =>
    rw [mem_enter hstage] at hmem
    exact .inl hmem
  | giveUp d hrunning hcancelled => exact .inl (List.mem_of_mem_erase hmem)
  | look d hrunning hcancelled =>
    rcases List.mem_cons.mp hmem with heq | hmem
    · obtain ⟨rfl, -⟩ := Prod.mk.inj heq
      exact .inr (.inl ⟨rfl, hcancelled⟩)
    · exact .inl (List.mem_of_mem_erase hmem)
  | mark d hrunning =>
    rcases List.mem_cons.mp hmem with heq | hmem
    · obtain ⟨rfl, -⟩ := Prod.mk.inj heq
      exact .inr (.inr ⟨rfl, hrunning⟩)
    · exact .inl (List.mem_of_mem_erase hmem)
  | cancel d hrunning =>
    rw [trigger_running] at hmem
    exact .inl (List.mem_of_mem_erase hmem)
  | refuse d hrunning => exact .inl (List.mem_of_mem_erase hmem)
  | ready key => exact .inl (s.trigger_running key ▸ hmem)
  | cancelEvent key => exact .inl (s.trigger_running key ▸ hmem)
  | _ => exact .inl hmem

theorem running_kept (h : s.step spec a = some s') {stage : Stage} (hstage : stage ≠ .held)
    (hmem : (c, stage) ∈ s.running) :
    (c, stage) ∈ s'.running ∨ (c, .marked) ∈ s'.running ∨ ∃ ok, a = .cancel c ok := by
  have herase : ∀ d stage', (c, stage) ≠ (d, stage') →
      (c, stage) ∈ s.running.erase (d, stage') :=
    fun d stage' hne => (List.mem_erase_of_ne hne).mpr hmem
  have hheld : ∀ d, (c, stage) ≠ (d, .held) := fun d heq => hstage (Prod.mk.inj heq).2
  cases Steps.of_step h with
  | start cb hqueue => exact .inl ((mem_enter hstage).mpr hmem)
  | giveUp d hrunning hcancelled => exact .inl (herase d _ (hheld d))
  | look d hrunning hcancelled => exact .inl (List.mem_cons_of_mem _ (herase d _ (hheld d)))
  | mark d hrunning =>
    by_cases heq : (c, stage) = (d, .unmarked)
    · obtain ⟨rfl, -⟩ := Prod.mk.inj heq
      exact .inr (.inl List.mem_cons_self)
    · exact .inl (List.mem_cons_of_mem _ (herase d _ heq))
  | cancel d hrunning =>
    rw [trigger_running]
    by_cases heq : (c, stage) = (d, .marked)
    · obtain ⟨rfl, -⟩ := Prod.mk.inj heq
      exact .inr (.inr ⟨true, rfl⟩)
    · exact .inl (herase d _ heq)
  | refuse d hrunning =>
    by_cases heq : (c, stage) = (d, .marked)
    · obtain ⟨rfl, -⟩ := Prod.mk.inj heq
      exact .inr (.inr ⟨false, rfl⟩)
    · exact .inl (herase d _ heq)
  | ready key => exact .inl ((s.trigger_running key).symm ▸ hmem)
  | cancelEvent key => exact .inl ((s.trigger_running key).symm ▸ hmem)
  | _ => exact .inl hmem

/-- The acts that do not end the wait of `c` for its event, those of its own callbacks apart. -/
def Quiet (spec : ℕ → Spec) (c : ℕ) (a : Act) : Prop :=
  a ≠ .ready (spec c).key ∧ a ≠ .cancelEvent (spec c).key ∧
    ∀ d ok, a = .cancel d ok → d = c ∨ (spec d).key ≠ (spec c).key

theorem Quiet.of_own (h : a.own c = true) : Quiet spec c a := by
  refine ⟨?_, ?_, ?_⟩
  · rintro rfl
    cases h
  · rintro rfl
    cases h
  · rintro d ok rfl
    exact .inl (of_decide_eq_true h)

theorem registry_trigger {key key' : ℤ × Event} (hne : key' ≠ key) :
    (s.trigger key).registry key' = s.registry key' := by
  rw [trigger]
  split
  · rfl
  · exact Function.update_of_ne hne ..

theorem registry_of_quiet (h : s.step spec a = some s') (hquiet : Quiet spec c a)
    (hmarked : (c, .marked) ∉ s.running) (hregistered : s.registry (spec c).key = some c) :
    s'.registry (spec c).key = some c := by
  obtain ⟨hready, hcancel, hother⟩ := hquiet
  cases Steps.of_step h with
  | register d errno hpc hfree =>
    have hne : (spec c).key ≠ (spec d).key := by
      intro heq
      rw [heq, hfree] at hregistered
      cases hregistered
    exact (Function.update_of_ne hne ..).trans hregistered
  | start cb hqueue =>
    rw [(s.same_enter cb _).2.1]
    exact hregistered
  | cancel d hrunning =>
    have hne : (spec c).key ≠ (spec d).key := by
      intro heq
      rcases hother d true rfl with rfl | hne
      · exact hmarked hrunning
      · exact hne heq.symm
    rw [registry_trigger hne]
    exact hregistered
  | ready key =>
    rw [registry_trigger fun heq => hready (congrArg Act.ready heq.symm)]
    exact hregistered
  | cancelEvent key =>
    rw [registry_trigger fun heq => hcancel (congrArg Act.cancelEvent heq.symm)]
    exact hregistered
  | _ => exact hregistered

theorem spent_of_quiet (h : Inv spec s) (hstep : Step spec s a s') (hquiet : Quiet spec c a)
    (hwaits : (s.frame c).pc.waits = true) (hspent : s.spent c = true) :
    (s'.frame c).pc.waits = true ∧ s'.spent c = true := by
  rw [spent_iff] at hspent
  obtain ⟨hcancelled, hnone⟩ := hspent
  have hregistered : s.registry (spec c).key = some c := (h.registered _ c).mpr ⟨rfl, hwaits⟩
  have hkept := registry_of_quiet hstep.2 hquiet (hnone _ nofun) hregistered
  refine ⟨(((h.of_step hstep).registered _ c).mp hkept).2, ?_⟩
  rw [spent_iff]
  have hunmarked : ¬(a = .mark c ∧ (c, .unmarked) ∈ s.running) :=
    fun hmark => hnone .unmarked nofun hmark.2
  refine ⟨?_, fun stage hstage hmem => ?_⟩
  · by_contra hzero
    have hne : (s'.frame c).cancelled ≠ (s.frame c).cancelled := by
      rw [hzero]
      exact hcancelled.symm
    exact hunmarked (cancelled_eq_of_step hstep.2 hne)
  · rcases running_of_step hstep.2 hstage hmem with hmem | ⟨-, hzero⟩ | hmark
    · exact hnone stage hstage hmem
    · exact hcancelled hzero
    · exact hunmarked hmark

theorem spent_of_run {es : List Act} (h : Inv spec s) (hrun : Run (Step spec) s es s')
    (hquiet : ∀ a ∈ es, Quiet spec c a) (hwaits : (s.frame c).pc.waits = true)
    (hspent : s.spent c = true) : (s'.frame c).pc.waits = true := by
  induction hrun with
  | nil s => exact hwaits
  | cons hstep _ ih =>
    obtain ⟨hwaits', hspent'⟩ := spent_of_quiet h hstep (hquiet _ List.mem_cons_self) hwaits hspent
    exact ih (h.of_step hstep) (fun b hb => hquiet b (List.mem_cons_of_mem _ hb)) hwaits' hspent'

theorem coming_of_unspent (h : Watch spec s) {b : Addr} (htimer : (s.frame c).pc.timer = some b)
    (hspent : s.spent c = false) :
    (s.frame c).cancelled = 0 ∧ s.Pending c b ∨ (c, .unmarked) ∈ s.running ∨
      (s.frame c).cancelled = ETIMEDOUT ∧ (c, .marked) ∈ s.running := by
  by_cases hzero : (s.frame c).cancelled = 0
  · exact .inl ⟨hzero, h.alert.pending c b htimer hzero⟩
  · have hflag : (s.frame c).cancelled = ETIMEDOUT := by
      have hf := h.flagged c
      rw [Frame.Flagged] at hf
      split_ifs at hf
      · exact hf
      · exact absurd hf hzero
    by_contra hnone
    rw [not_or, not_or] at hnone
    rw [spent, decide_eq_false_iff_not] at hspent
    exact hspent ⟨hzero, hnone.2.1, fun hmarked => hnone.2.2 ⟨hflag, hmarked⟩⟩

theorem timesOut_iff (h : Watch spec s) (htimed : (s.frame c).pc.timed = true) :
    TimesOut spec s c ↔ s.spent c = false := by
  obtain ⟨b, hpc⟩ := Pc.timed_iff.mp htimed
  have htimer : (s.frame c).pc.timer = some b := by rw [hpc]; rfl
  have hwaits : (s.frame c).pc.waits = true := by rw [hpc]; rfl
  constructor
  · rintro ⟨es, t, hrun, hown, hdone⟩
    by_contra hspent
    have hstuck := spent_of_run h.inv hrun (fun a ha => .of_own (hown a ha)) hwaits
      (Bool.not_eq_false _ ▸ hspent)
    rw [hdone] at hstuck
    cases hstuck
  · intro hspent
    rcases coming_of_unspent h htimer hspent with ⟨hzero, hpending⟩ | hunmarked | ⟨hflag, hmarked⟩
    · rcases hpending with harmed | hqueue | hheld | hunmarked
      · exact timesOut_armed h.inv h.alert.finite hpc hzero harmed
      · exact timesOut_queued h.inv hpc hzero hqueue
      · exact timesOut_held h.inv hpc hzero hheld
      · exact timesOut_unmarked h.inv hpc hunmarked
    · exact timesOut_unmarked h.inv hpc hunmarked
    · exact timesOut_marked h.inv hpc hflag hmarked

/-! ## Which steps keep the timers unspent -/

def Prompt (spec : ℕ → Spec) (s : System) : Prop :=
  ∀ c, (spec c).kind = .io → (s.frame c).pc.timed = true → s.spent c = false

theorem registry_of_step (h : s.step spec a = some s') {key : ℤ × Event}
    (hregistered : s'.registry key = some c) :
    s.registry key = some c ∨ ∃ errno, a = .add c 0 errno := by
  have htrigger : ∀ (t : System) key', (t.trigger key').registry key = some c →
      t.registry key = some c := by
    intro t key' hkey
    by_cases hne : key = key'
    · rw [trigger] at hkey
      split at hkey
      · exact hkey
      · replace hkey : Function.update t.registry key' none key = some c := hkey
        rw [hne, Function.update_self] at hkey
        cases hkey
    · rwa [registry_trigger hne] at hkey
  cases Steps.of_step h with
  | register d errno hpc hfree =>
    replace hregistered : Function.update s.registry (spec d).key (some d) key = some c :=
      hregistered
    rw [Function.update_apply] at hregistered
    split_ifs at hregistered
    · cases hregistered
      exact .inr ⟨errno, rfl⟩
    · exact .inl hregistered
  | start cb hqueue =>
    rw [(s.same_enter cb _).2.1] at hregistered
    exact .inl hregistered
  | cancel d hrunning =>
    exact .inl (htrigger { s with running := s.running.erase (d, .marked) } _ hregistered)
  | ready key' => exact .inl (htrigger _ _ hregistered)
  | cancelEvent key' => exact .inl (htrigger _ _ hregistered)
  | _ => exact .inl hregistered

theorem timed_of_step (h : Inv spec s) (hstep : Step spec s a s')
    (htimed : (s'.frame c).pc.timed = true) :
    (s.frame c).pc.timed = true ∨ ∃ errno, a = .add c 0 errno := by
  obtain ⟨b, hpc'⟩ := Pc.timed_iff.mp htimed
  have hwaits' : (s'.frame c).pc.waits = true := by rw [hpc']; rfl
  have hregistered := ((h.of_step hstep).registered _ c).mpr ⟨rfl, hwaits'⟩
  refine (registry_of_step hstep.2 hregistered).imp_left fun hold => ?_
  have hwaits := ((h.registered _ c).mp hold).2
  have hpc : (s'.frame c).pc = (s.frame c).pc := by
    rcases Evolves.of_step hstep.2 c with hsame | hchanged | ⟨-, -, hmarked⟩
    · rw [hsame]
    · exact hchanged.pc_of_waits hwaits hwaits'
    · rw [hmarked]
      rfl
  rw [← hpc]
  exact htimed

theorem woken_of_cancel (h : Inv spec s) (hstep : Step spec s (.cancel c true) s') :
    (s'.frame c).pc.waits = false := by
  cases Steps.of_step hstep.2 with
  | cancel _ hrunning =>
    cases hwaits : (s.frame c).pc.waits with
    | true =>
      have hregistered := (h.registered _ c).mpr ⟨rfl, hwaits⟩
      obtain ⟨-, timer, hpc⟩ := h.waiting_key hregistered
      simp only [trigger, hregistered, put_frame_self, Frame.wake, hpc]
      rfl
    | false =>
      by_contra hwaits'
      have hregistered := ((h.of_step hstep).registered _ c).mpr
        ⟨rfl, Bool.not_eq_false _ ▸ hwaits'⟩
      rcases registry_of_step hstep.2 hregistered with hold | ⟨errno, he⟩
      · rw [((h.registered _ c).mp hold).2] at hwaits
        cases hwaits
      · cases he

theorem unspent_of_step (h : Inv spec s) (hstep : Step spec s a s')
    (hcancel : a ≠ .cancel c false) (htimed' : (s'.frame c).pc.timed = true)
    (hspent : s.spent c = false) : s'.spent c = false := by
  by_contra hspent'
  obtain ⟨hcancelled', hnone⟩ := spent_iff.mp (Bool.not_eq_false _ ▸ hspent')
  have hkept : ∀ stage, stage ≠ .held → (c, stage) ∈ s.running → ∃ ok, a = .cancel c ok := by
    intro stage hstage hmem
    rcases running_kept hstep.2 hstage hmem with hmem | hmem | hok
    · exact absurd hmem (hnone stage hstage)
    · exact absurd hmem (hnone .marked nofun)
    · exact hok
  by_cases hzero : (s.frame c).cancelled = 0
  · obtain ⟨rfl, hunmarked⟩ := cancelled_eq_of_step hstep.2 (hzero ▸ hcancelled')
    obtain ⟨ok, he⟩ := hkept .unmarked nofun hunmarked
    cases he
  · have hcoming : ∃ stage, stage ≠ .held ∧ (c, stage) ∈ s.running := by
      by_contra hall
      push Not at hall
      rw [spent_iff.mpr ⟨hzero, hall⟩] at hspent
      cases hspent
    obtain ⟨stage, hstage, hmem⟩ := hcoming
    obtain ⟨ok, rfl⟩ := hkept stage hstage hmem
    cases ok with
    | false => exact hcancel rfl
    | true =>
      obtain ⟨b, hpc'⟩ := Pc.timed_iff.mp htimed'
      have hwoken := woken_of_cancel h hstep
      rw [hpc'] at hwoken
      cases hwoken

theorem Prompt.step (hprompt : Prompt spec s) (h : Inv spec s) (hstep : Step spec s a s')
    (hadd : ∀ errno, a ≠ .add c 0 errno) (hcancel : a ≠ .cancel c false)
    (hkind : (spec c).kind = .io) (htimed' : (s'.frame c).pc.timed = true) :
    s'.spent c = false := by
  have htimed := (timed_of_step h hstep htimed').resolve_right fun ⟨errno, he⟩ => hadd errno he
  exact unspent_of_step h hstep hcancel htimed' (hprompt c hkind htimed)

theorem Prompt.register_iff (hprompt : Prompt spec s) (h : Inv spec s) {errno : ℤ}
    {timer : Option Addr} (hpc : (s.frame c).pc = .adding timer)
    (hstep : Step spec s (.add c 0 errno)
      ({ s with registry := Function.update s.registry (spec c).key (some c) }.put c
        ((s.frame c).add timer 0 errno))) :
    Prompt spec ({ s with registry := Function.update s.registry (spec c).key (some c) }.put c
      ((s.frame c).add timer 0 errno)) ↔
      ((spec c).kind = .io → timer.isSome → s.spent c = false) := by
  obtain ⟨t, ht⟩ : ∃ t : System, t =
    { s with registry := Function.update s.registry (spec c).key (some c) }.put c
      ((s.frame c).add timer 0 errno) := ⟨_, rfl⟩
  rw [← ht] at hstep ⊢
  have hframe : t.frame c = (s.frame c).note (.added 0 errno) (.parked timer false) := by
    rw [ht, put_frame_self]
    rfl
  have htimed : (t.frame c).pc.timed = timer.isSome := by
    rw [hframe]
    cases timer <;> rfl
  have hspent : t.spent c = s.spent c := by
    rw [spent, spent, hframe, ht]
    rfl
  constructor
  · intro hp hkind htimer
    rw [← hspent]
    exact hp c hkind (htimed.trans htimer)
  · intro hcond d hkind htimed'
    by_cases hd : d = c
    · subst hd
      rw [hspent]
      exact hcond hkind (htimed.symm.trans htimed')
    · refine hprompt.step h hstep (fun e he => ?_) nofun hkind htimed'
      cases he
      exact hd rfl

theorem Prompt.refuse_iff (hprompt : Prompt spec s) (h : Inv spec s)
    (hstep : Step spec s (.cancel c false) { s with running := s.running.erase (c, .marked) }) :
    Prompt spec { s with running := s.running.erase (c, .marked) } ↔
      ((spec c).kind = .io → (s.frame c).pc.timed = true →
        System.spent { s with running := s.running.erase (c, .marked) } c = false) := by
  constructor
  · exact fun hp hkind htimed => hp c hkind htimed
  · intro hcond d hkind htimed
    by_cases hd : d = c
    · subst hd
      exact hcond hkind htimed
    · refine hprompt.step h hstep nofun (fun he => ?_) hkind htimed
      cases he
      exact hd rfl

theorem Prompt.step_iff (hprompt : Prompt spec s) (h : Inv spec s) (hstep : Step spec s a s') :
    Prompt spec s' ↔ s.punctual spec a = true := by
  cases a with
  | add c rt errno =>
    cases Steps.of_step hstep.2 with
    | fail _ _ _ hpc hrt =>
      refine iff_of_true (fun d => hprompt.step h hstep (fun e he => ?_) nofun) ?_
      · cases he
        exact hrt rfl
      · exact decide_eq_true fun _ _ hzero => absurd hzero hrt
    | @register _ _ timer hpc hfree =>
      rw [hprompt.register_iff h hpc hstep, punctual, decide_eq_true_iff, hpc]
      exact ⟨fun hcond hkind htimer _ => hcond hkind htimer,
        fun hcond hkind htimer => hcond hkind htimer rfl⟩
  | cancel c ok =>
    cases ok with
    | true =>
      exact iff_of_true (fun d => hprompt.step h hstep nofun nofun)
        (decide_eq_true fun _ _ hfalse => by cases hfalse)
    | false =>
      cases Steps.of_step hstep.2 with
      | refuse _ hrunning =>
        rw [hprompt.refuse_iff h hstep, punctual, decide_eq_true_iff]
        exact ⟨fun hcond hkind htimed _ => hcond hkind htimed,
          fun hcond hkind htimed => hcond hkind htimed rfl⟩
  | _ => exact iff_of_true (fun d => hprompt.step h hstep nofun nofun) rfl

/-! ## Every wait with a timer ends -/

def load (c : ℕ) (running : List (ℕ × Stage)) : ℕ :=
  (running.map fun r => if r.1 = c then r.2.steps else 0).sum

def armedFor (m : TimerManager Cb) (c : ℕ) : List Addr :=
  m.timers.filter fun b => cbOf m.heap b == some (.ofCall c)

def work (s : System) (c : ℕ) : ℕ :=
  5 * (armedFor s.manager c).length + 4 * s.queue.count (.ofCall c) + load c s.running

theorem load_cons (d : ℕ) (stage : Stage) (running : List (ℕ × Stage)) :
    load c ((d, stage) :: running) = (if d = c then stage.steps else 0) + load c running := by
  rw [load, List.map_cons, List.sum_cons]
  rfl

theorem load_erase {running : List (ℕ × Stage)} {d : ℕ} {stage : Stage}
    (h : (d, stage) ∈ running) :
    load c running = (if d = c then stage.steps else 0) + load c (running.erase (d, stage)) := by
  rw [← load_cons]
  exact ((List.perm_cons_erase h).map _).sum_eq

theorem work_trigger (s : System) (key : ℤ × Event) : (s.trigger key).work c = s.work c := by
  rw [trigger]
  split <;> rfl

theorem mem_armedFor {m : TimerManager Cb} {b : Addr} : b ∈ armedFor m c ↔ Armed m b c := by
  rw [armedFor, List.mem_filter, beq_iff_eq, Armed]

theorem nodup_armedFor {m : TimerManager Cb} (h : TimerManager.Inv m) : (armedFor m c).Nodup :=
  h.sorted.nodup.filter _

theorem armedFor_le {m : TimerManager Cb} {op : Op Cb} (hyields : op.Yields s.manager m)
    (hadd : ∀ b now ms recurring, op ≠ .addTimer b now ms (some (.ofCall c)) recurring) :
    (armedFor m c).length ≤ (armedFor s.manager c).length := by
  refine (List.subperm_of_subset (nodup_armedFor hyields.inv) fun b hb => ?_).length_le
  rw [mem_armedFor] at hb ⊢
  rcases hyields.armed hb.1 hb.2 with hold | ⟨now, ms, recurring, he⟩
  · exact hold
  · exact absurd he (hadd b now ms recurring)

theorem armedFor_expire (h : Watch spec s) {now : UInt64} {x : Addr} {m : TimerManager Cb}
    (hyields : (Op.listExpiredCb now x).Yields s.manager m) :
    (armedFor m c).length +
        ((s.manager.expired now x).countP fun b => cbOf s.manager.heap b == some (.ofCall c)) ≤
      (armedFor s.manager c).length := by
  have hsublist := InvExcept.expired_sublist s.manager now x
  have hnodup : (s.manager.expired now x).Nodup := h.inv.timers.sorted.nodup.sublist hsublist
  rw [List.countP_eq_length_filter, ← List.length_append]
  refine (List.subperm_of_subset ?_ fun b hb => ?_).length_le
  · refine List.nodup_append.mpr ⟨nodup_armedFor hyields.inv, hnodup.filter _, ?_⟩
    rintro b hb b' hb' rfl
    rw [mem_armedFor] at hb
    rw [List.mem_filter, beq_iff_eq] at hb'
    have hrecurs := ((hyields.mem_iff b).mp hb.1).2 hb'.1
    rw [h.alert.oneShot c b ⟨hsublist.mem hb'.1, hb'.2⟩] at hrecurs
    cases hrecurs
  · rw [mem_armedFor]
    rcases List.mem_append.mp hb with hb | hb
    · rw [mem_armedFor] at hb
      rcases hyields.armed hb.1 hb.2 with hold | ⟨_, _, _, he⟩
      · exact hold
      · cases he
    · rw [List.mem_filter, beq_iff_eq] at hb
      exact ⟨hsublist.mem hb.1, hb.2⟩

def Eases (s : System) (c : ℕ) (b : Addr) (s' : System) : Prop :=
  s'.work c < s.work c ∨ s'.work c = s.work c ∧ (Armed s.manager b c → Armed s'.manager b c)

theorem eases_manage {m : TimerManager Cb} {op : Op Cb} {b : Addr} (hop : op.Enabled s.manager)
    (hyields : op.Yields s.manager m)
    (hadd : ∀ b now ms recurring, op ≠ .addTimer b now ms (some (.ofCall c)) recurring)
    (hcancel : op ≠ .cancel b) (hexpire : ∀ now x, op ≠ .listExpiredCb now x) :
    s.Eases c b { s with manager := m } := by
  have hle : (armedFor m c).length ≤ (armedFor s.manager c).length := armedFor_le hyields hadd
  have hstays : Armed s.manager b c → Armed m b c := fun harmed =>
    hyields.stays hop harmed.1 harmed.2 hcancel fun now x he => absurd he (hexpire now x)
  rcases hle.lt_or_eq with hlt | heq
  · left
    simp only [work]
    omega
  · right
    simp only [work, heq]
    exact ⟨trivial, hstays⟩

theorem eases_expire (h : Watch spec s) {now : UInt64} {x b : Addr}
    {r : List (Option Cb) × TimerManager Cb} (hx : s.manager.heap x = none)
    (hexec : s.manager.listExpiredCb now x = some r) :
    s.Eases c b { s with manager := r.2, queue := s.queue ++ r.1.filterMap id } := by
  have hop : (Op.listExpiredCb now x : Op Cb).Enabled s.manager := hx
  obtain ⟨m, hrun, hyields⟩ := h.inv.timers.listExpiredCb now x
  cases hrun.symm.trans hexec
  have hle := armedFor_expire (c := c) h hyields
  have hcount : (((s.manager.expired now x).map (cbOf s.manager.heap)).filterMap id).count
      (.ofCall c) =
        (s.manager.expired now x).countP fun b => cbOf s.manager.heap b == some (.ofCall c) := by
    rw [List.filterMap_map, List.count_filterMap]
    rfl
  by_cases hin : b ∈ s.manager.expired now x ∧ Armed s.manager b c
  · have hpos : 0 < (s.manager.expired now x).countP fun b =>
        cbOf s.manager.heap b == some (.ofCall c) :=
      List.countP_pos_iff.mpr ⟨b, hin.1, beq_iff_eq.mpr hin.2.2⟩
    left
    simp only [work, List.count_append, hcount]
    omega
  · have hstays : Armed s.manager b c → Armed m b c := fun harmed =>
      hyields.stays hop harmed.1 harmed.2 nofun fun now' x' he hmem => by
        cases he
        exact hin ⟨hmem, harmed⟩
    rcases lt_or_ge (System.work { s with
        manager := m
        queue := s.queue ++ ((s.manager.expired now x).map (cbOf s.manager.heap)).filterMap id } c)
      (s.work c) with hlt | hge
    · exact .inl hlt
    · refine .inr ⟨le_antisymm ?_ hge, hstays⟩
      simp only [work, List.count_append, hcount]
      omega

theorem work_start_self (halive : s.alive c = true) (hqueue : .ofCall c ∈ s.queue) :
    System.work ({ s with queue := s.queue.erase (.ofCall c) }.enter (.ofCall c)) c < s.work c := by
  have hcount := List.count_pos_iff.mpr hqueue
  have hsame : System.alive { s with queue := s.queue.erase (.ofCall c) } c = true := halive
  rw [enter, if_pos hsame]
  simp only [work, load_cons, List.count_erase_self, if_true, Stage.steps]
  omega

theorem work_start_other {cb : Cb} (hne : cb ≠ .ofCall c) :
    System.work ({ s with queue := s.queue.erase cb }.enter cb) c = s.work c := by
  have hcount : (s.queue.erase cb).count (.ofCall c) = s.queue.count (.ofCall c) :=
    List.count_erase_of_ne hne.symm
  cases cb with
  | other k => simp only [enter, work, hcount]
  | ofCall d =>
    have hd : d ≠ c := fun heq => hne (heq ▸ rfl)
    rw [enter]
    split_ifs
    · simp only [work, load_cons, hcount, if_neg hd, zero_add]
    · simp only [work, hcount]

theorem start_manager (s : System) (cb : Cb) :
    ({ s with queue := s.queue.erase cb }.enter cb).manager = s.manager := (s.same_enter cb _).1

theorem Eases.of_le {b : Addr} (hle : s'.work c ≤ s.work c) (hmanager : s'.manager = s.manager) :
    s.Eases c b s' := by
  rcases hle.lt_or_eq with hlt | heq
  · exact .inl hlt
  · exact .inr ⟨heq, fun harmed => hmanager ▸ harmed⟩

theorem trigger_manager (s : System) (key : ℤ × Event) :
    (s.trigger key).manager = s.manager := by
  rw [trigger]
  split <;> rfl

theorem work_erase {d : ℕ} {stage : Stage} (h : (d, stage) ∈ s.running) :
    System.work { s with running := s.running.erase (d, stage) } c ≤ s.work c ∧
      (d = c → System.work { s with running := s.running.erase (d, stage) } c < s.work c) := by
  have hpos : 0 < stage.steps := by cases stage <;> decide
  simp only [work, load_erase h]
  split_ifs <;> omega

theorem work_next {d : ℕ} {stage next : Stage} (hlt : next.steps < stage.steps)
    (h : (d, stage) ∈ s.running) :
    System.work { s with running := (d, next) :: s.running.erase (d, stage) } c ≤ s.work c ∧
      (d = c → System.work { s with running := (d, next) :: s.running.erase (d, stage) } c <
        s.work c) := by
  simp only [work, load_erase h, load_cons]
  split_ifs <;> omega

theorem eases_of_step (h : Watch spec s) {b : Addr}
    (hpc : (s.frame c).pc = .parked (some b) false) (hstep : Step spec s a s') :
    s.Eases c b s' := by
  have hinv := h.inv
  obtain ⟨henabled, hstep⟩ := hstep
  cases Steps.of_step hstep with
  | arm d b' now hpc' htimeout hexec =>
    have hop : (Op.addTimer b' now (spec d).timeout (some (.ofCall d)) false).Enabled s.manager :=
      henabled htimeout
    obtain ⟨m, hrun, hyields⟩ := hinv.timers.exec_eq hop
    cases hrun.symm.trans hexec
    refine eases_manage hop hyields (fun b'' now' ms recurring he => ?_) nofun nofun
    cases he
    rw [hpc] at hpc'
    cases hpc'
  | @cancelTimer d f b' r hf htimer hexec =>
    have hop : (Op.cancel b').Enabled s.manager := (hinv.holds d).live b' htimer
    obtain ⟨m, hrun, hyields⟩ := hinv.timers.exec_eq hop
    cases hrun.symm.trans hexec
    refine eases_manage hop hyields nofun (fun he => ?_) nofun
    cases he
    have hd : d = c := h.alert.distinct d c b htimer (by rw [hpc]; rfl)
    rw [hd, Frame.unwind, hpc] at hf
    cases hf
  | op op hexec =>
    obtain ⟨m, hrun, hyields⟩ := hinv.timers.exec_eq henabled.1
    cases hrun.symm.trans hexec
    refine eases_manage henabled.1 hyields ?_ ?_ ?_
    · rintro b' now ms recurring rfl
      exact henabled.2 c rfl
    · rintro rfl
      exact henabled.2 c (by rw [hpc]; rfl)
    · rintro now x rfl
      exact henabled.2
  | expire now x hexec => exact eases_expire h henabled hexec
  | start cb hqueue =>
    refine .of_le ?_ (s.start_manager cb)
    by_cases hcb : cb = .ofCall c
    · rw [hcb] at hqueue ⊢
      exact (work_start_self (alive_of_timer (by rw [hpc]; rfl)) hqueue).le
    · exact (work_start_other hcb).le
  | giveUp d hrunning hcancelled => exact .of_le (work_erase hrunning).1 rfl
  | look d hrunning hcancelled => exact .of_le (work_next (by decide) hrunning).1 rfl
  | mark d hrunning =>
    have hlt : Stage.marked.steps < Stage.unmarked.steps := by decide
    exact .of_le (work_next hlt hrunning).1 rfl
  | cancel d hrunning =>
    refine .of_le ?_ (trigger_manager ..)
    rw [work_trigger]
    exact (work_erase hrunning).1
  | refuse d hrunning => exact .of_le (work_erase hrunning).1 rfl
  | ready key => exact .of_le (s.work_trigger key).le (s.trigger_manager key)
  | cancelEvent key => exact .of_le (s.work_trigger key).le (s.trigger_manager key)
  | _ => exact .of_le le_rfl rfl

def Advances (c : ℕ) (a : Act) : Prop :=
  a = .start (.ofCall c) ∨ a = .look c ∨ a = .mark c ∨ ∃ ok, a = .cancel c ok

theorem work_lt_of_advance (hstep : Step spec s a s') (hadvance : Advances c a)
    (halive : s.alive c = true) : s'.work c < s.work c := by
  obtain ⟨-, hstep⟩ := hstep
  rcases hadvance with rfl | rfl | rfl | ⟨ok, rfl⟩
  · cases Steps.of_step hstep with
    | start _ hqueue => exact work_start_self halive hqueue
  · cases Steps.of_step hstep with
    | giveUp _ hrunning hcancelled => exact (work_erase hrunning).2 rfl
    | look _ hrunning hcancelled => exact (work_next (by decide) hrunning).2 rfl
  · cases Steps.of_step hstep with
    | mark _ hrunning =>
      have hlt : Stage.marked.steps < Stage.unmarked.steps := by decide
      exact (work_next hlt hrunning).2 rfl
  · cases Steps.of_step hstep with
    | cancel _ hrunning =>
      rw [work_trigger]
      exact (work_erase hrunning).2 rfl
    | refuse _ hrunning => exact (work_erase hrunning).2 rfl

/-- Nothing that is under way for the call `c` is put off forever: its timer leaves the set, and
each callback takes its next step. -/
structure Fair {step : System → Act → System → Prop} (x : Execution step) (c : ℕ) : Prop where
  expires : ∀ n b, Armed (x.state n).manager b c → ∃ m, n ≤ m ∧ ¬Armed (x.state m).manager b c
  starts : ∀ n, .ofCall c ∈ (x.state n).queue → ∃ m, n ≤ m ∧ x.label m = .start (.ofCall c)
  looks : ∀ n, (c, .held) ∈ (x.state n).running → ∃ m, n ≤ m ∧ x.label m = .look c
  marks : ∀ n, (c, .unmarked) ∈ (x.state n).running → ∃ m, n ≤ m ∧ x.label m = .mark c
  cancels : ∀ n, (c, .marked) ∈ (x.state n).running → ∃ m ok, n ≤ m ∧ x.label m = .cancel c ok

def PunctualStep (spec : ℕ → Spec) (s : System) (a : Act) (s' : System) : Prop :=
  s.punctual spec a = true ∧ Step spec s a s'

theorem PunctualStep.keeps (hstep : PunctualStep spec s a s')
    (h : Watch spec s ∧ Prompt spec s) : Watch spec s' ∧ Prompt spec s' :=
  ⟨h.1.of_step hstep.2, (h.2.step_iff h.1.inv hstep.2).mpr hstep.1⟩

structure Waits (spec : ℕ → Spec) (c : ℕ) (b : Addr) (s : System) : Prop where
  watch : Watch spec s
  prompt : Prompt spec s
  pc : (s.frame c).pc = .parked (some b) false

section Liveness
variable {b : Addr}

theorem Waits.step (h : Waits spec c b s) (hstep : PunctualStep spec s a s') :
    (s'.frame c).pc.waits = false ∨ Waits spec c b s' := by
  cases hwaits' : (s'.frame c).pc.waits with
  | false => exact .inl rfl
  | true =>
    obtain ⟨hwatch', hprompt'⟩ := hstep.keeps ⟨h.watch, h.prompt⟩
    refine .inr ⟨hwatch', hprompt', ?_⟩
    have hwaits : (s.frame c).pc.waits = true := by rw [h.pc]; rfl
    rcases Evolves.of_step hstep.2.2 c with hsame | hchanged | ⟨-, -, hmarked⟩
    · rw [hsame, h.pc]
    · rw [hchanged.pc_of_waits hwaits hwaits', h.pc]
    · rw [hmarked]
      exact h.pc

theorem Waits.alive (h : Waits spec c b s) : s.alive c = true :=
  alive_of_timer (by rw [h.pc]; rfl)

theorem Waits.keeps (x : Execution (PunctualStep spec)) (n : ℕ) (h : Waits spec c b (x.state n)) :
    ((x.state (n + 1)).frame c).pc.waits = false ∨ Waits spec c b (x.state (n + 1)) ∧
      (x.state n).Eases c b (x.state (n + 1)) :=
  (h.step (x.steps n)).imp_right fun h' => ⟨h', eases_of_step h.watch h.pc (x.steps n).2⟩

theorem Waits.advance (x : Execution (PunctualStep spec)) {n m : ℕ} (hle : n ≤ m)
    (h : Waits spec c b (x.state n)) (hadvance : Advances c (x.label m)) :
    ∃ k, n ≤ k ∧ (((x.state k).frame c).pc.waits = false ∨
      Waits spec c b (x.state k) ∧ (x.state k).work c < (x.state n).work c) := by
  have hwalk := x.walk (P := Waits spec c b) (Q := fun s => (s.frame c).pc.waits = false)
    (R := fun _ => True) (fun s => s.work c) (fun k hk => (keeps x k hk).imp_right
      fun ⟨hk', heases⟩ => ⟨hk', heases.imp_right fun heq => ⟨heq.1, fun _ => trivial⟩⟩)
    hle h trivial
  rcases hwalk with ⟨k, hk, hover⟩ | ⟨hm, hwork⟩
  · exact ⟨k, hk, .inl hover⟩
  · have hlt := work_lt_of_advance (x.steps m).2 hadvance hm.alive
    refine ⟨m + 1, by omega, (hm.step (x.steps m)).imp_right fun hm' => ⟨hm', ?_⟩⟩
    omega

theorem Waits.falls (x : Execution (PunctualStep spec)) (hfair : Fair x c)
    (hkind : (spec c).kind = .io) {n : ℕ} (h : Waits spec c b (x.state n)) :
    ∃ m, n ≤ m ∧ (((x.state m).frame c).pc.waits = false ∨
      Waits spec c b (x.state m) ∧ (x.state m).work c < (x.state n).work c) := by
  have htimer : ((x.state n).frame c).pc.timer = some b := by rw [h.pc]; rfl
  have hspent := h.prompt c hkind (Pc.timed_iff.mpr ⟨b, h.pc⟩)
  have hunmarked : (c, .unmarked) ∈ (x.state n).running → ∃ m, n ≤ m ∧
      (((x.state m).frame c).pc.waits = false ∨
        Waits spec c b (x.state m) ∧ (x.state m).work c < (x.state n).work c) := by
    intro hmem
    obtain ⟨m, hle, hlabel⟩ := hfair.marks n hmem
    exact h.advance x hle (.inr (.inr (.inl hlabel)))
  rcases coming_of_unspent h.watch htimer hspent with ⟨-, hpending⟩ | hmem | ⟨-, hmem⟩
  · rcases hpending with harmed | hmem | hmem | hmem
    · obtain ⟨m, hle, hgone⟩ := hfair.expires n b harmed
      have hwalk := x.walk (P := Waits spec c b) (Q := fun s => (s.frame c).pc.waits = false)
        (R := fun s => Armed s.manager b c) (fun s => s.work c) (keeps x) hle h harmed
      rcases hwalk with ⟨k, hk, hover⟩ | ⟨hm, hlt | ⟨-, harmed'⟩⟩
      · exact ⟨k, hk, .inl hover⟩
      · exact ⟨m, hle, .inr ⟨hm, hlt⟩⟩
      · exact absurd harmed' hgone
    · obtain ⟨m, hle, hlabel⟩ := hfair.starts n hmem
      exact h.advance x hle (.inl hlabel)
    · obtain ⟨m, hle, hlabel⟩ := hfair.looks n hmem
      exact h.advance x hle (.inr (.inl hlabel))
    · exact hunmarked hmem
  · exact hunmarked hmem
  · obtain ⟨m, ok, hle, hlabel⟩ := hfair.cancels n hmem
    exact h.advance x hle (.inr (.inr (.inr ⟨ok, hlabel⟩)))

theorem wait_ends (x : Execution (PunctualStep spec)) (hwatch : Watch spec (x.state 0))
    (hprompt : Prompt spec (x.state 0)) (hkind : (spec c).kind = .io) (hfair : Fair x c) {n : ℕ}
    (htimed : ((x.state n).frame c).pc.timed = true) :
    ∃ m, n ≤ m ∧ ((x.state m).frame c).pc.waits = false := by
  obtain ⟨b, hpc⟩ := Pc.timed_iff.mp htimed
  have hgood := x.invariant (P := fun s => Watch spec s ∧ Prompt spec s)
    (fun s a s' h hstep => hstep.keeps h) ⟨hwatch, hprompt⟩ n
  have hwaits : Waits spec c b (x.state n) := ⟨hgood.1, hgood.2, hpc⟩
  exact x.leadsTo (Q := fun s => (s.frame c).pc.waits = false) (fun s => s.work c)
    (fun k hk => Waits.falls x hfair hkind hk) hwaits

end Liveness

/-! ## The whole call -/

/-- A call returns what the first decisive thing it meets leads to, goes on until then, can be ended
by its timer while it waits, and has no armed timer when it has returned. -/
structure Blocks (spec : ℕ → Spec) (s : System) (c : ℕ) : Prop where
  verdict : verdict (s.frame c).history = (s.frame c).pc.outcome
  proceeds : s.Proceeds spec c
  timesOut : (s.frame c).pc.timed = true → TimesOut spec s c
  disarmed : (s.frame c).pc.finished = true → ∀ b ∈ s.manager.timers,
    cbOf s.manager.heap b ≠ some (.ofCall c)

theorem blocks_iff_prompt {start : UInt64} {es : List Act}
    (hrun : Run (Step spec) (initial start) es s) (hwatch : Watch spec s) :
    (∀ c, (spec c).kind = .io → s.Blocks spec c) ↔ Prompt spec s := by
  obtain ⟨hright, hdisarmed, -⟩ := doIo_safe spec start es s hrun
  constructor
  · intro h c hkind htimed
    exact (timesOut_iff hwatch htimed).mp ((h c hkind).timesOut htimed)
  · intro h c hkind
    obtain ⟨hverdict, hproceeds⟩ := hright c hkind
    exact ⟨hverdict, hproceeds, fun htimed => (timesOut_iff hwatch htimed).mpr (h c hkind htimed),
      hdisarmed c⟩

theorem punctual_of_run {start : UInt64} {es : List Act}
    (hrun : Run (PunctualStep spec) (initial start) es s) :
    Run (Step spec) (initial start) es s ∧ Watch spec s ∧ Prompt spec s := by
  refine ⟨hrun.mono fun _ _ _ h => h.2, ?_⟩
  exact hrun.invariant (P := fun s => Watch spec s ∧ Prompt spec s)
    (fun s a s' h hstep => hstep.keeps h) ⟨.initial start, fun _ _ htimed => by cases htimed⟩

/-- In every run in which no I/O call registers its event with a spent timer, every I/O call blocks
as the original with a timeout, and a step breaks this exactly if it does not meet that condition.
In every fair continuation each wait with a timer ends. Only the callback of a call itself marks it,
and one that starts after the call has returned does nothing. -/
theorem doIo_blocks_iff_punctual (spec : ℕ → Spec) (start : UInt64) (es : List Act) (s : System)
    (hrun : Run (PunctualStep spec) (initial start) es s) :
    (∀ c, (spec c).kind = .io → s.Blocks spec c) ∧
    (∀ a s', Step spec s a s' →
      ((∀ c, (spec c).kind = .io → s'.Blocks spec c) ↔ s.punctual spec a = true)) ∧
    (∀ x : Execution (PunctualStep spec), x.state 0 = s → ∀ c, (spec c).kind = .io → Fair x c →
      ∀ n, ((x.state n).frame c).pc.timed = true →
        ∃ m, n ≤ m ∧ ((x.state m).frame c).pc.waits = false) ∧
    ∀ a s', Step spec s a s' →
      (∀ c, (s'.frame c).cancelled ≠ (s.frame c).cancelled →
        a = .mark c ∧ (c, .unmarked) ∈ s.running) ∧
      ∀ c, a = .start (.ofCall c) → (s.frame c).pc.finished = true →
        (∀ stage, (c, stage) ∉ s.running) →
        s' = { s with queue := s.queue.erase (.ofCall c) } := by
  obtain ⟨hrun, hwatch, hprompt⟩ := punctual_of_run hrun
  refine ⟨(blocks_iff_prompt hrun hwatch).mpr hprompt, ?_, ?_, (doIo_safe spec start es s hrun).2.2⟩
  · intro a s' hstep
    rw [blocks_iff_prompt (hrun.concat hstep) (hwatch.of_step hstep)]
    exact hprompt.step_iff hwatch.inv hstep
  · rintro x rfl c hkind hfair n htimed
    exact wait_ends x hwatch hprompt hkind hfair htimed

def reads (_ : ℕ) : Spec := ⟨.io, 3, .read, 5⟩

/-- The timer of the first call is due when data comes: its callback is still queued when the call
returns 7, and starts while the second call waits for the same event and then times out. -/
def lateCallback : List Act :=
  [.move 0 .start, .move 0 (.original (-1) EAGAIN), .arm 0 1 0, .add 0 0 0, .expire 5 9,
    .ready (3, .read), .move 0 .resume, .cancelTimer 0, .move 0 .check, .move 0 (.original 7 0),
    .move 1 .start, .move 1 (.original (-1) EAGAIN), .arm 1 2 6, .add 1 0 0, .start (.ofCall 0),
    .expire 11 9, .start (.ofCall 1), .look 1, .mark 1, .cancel 1 true, .move 1 .resume,
    .cancelTimer 1, .move 1 .check]

def timedOut : List Act :=
  [.move 0 .start, .move 0 (.original (-1) EAGAIN), .arm 0 1 0, .add 0 0 0, .expire 5 9,
    .start (.ofCall 0), .look 0, .mark 0, .cancel 0 true, .move 0 .settle]

def timedOutState (n : ℕ) : System :=
  (iterate (step reads) (initial 0) (timedOut.take (n + 4))).getD (initial 0)

theorem timedOutState_of_ge {n : ℕ} (h : 6 ≤ n) : timedOutState n = timedOutState 6 := by
  have htake : timedOut.take (n + 4) = timedOut.take (6 + 4) := by
    rw [List.take_of_length_le (Nat.add_le_add_right h 4)]
    rfl
  rw [timedOutState, htake]
  rfl

theorem timedOut_settled :
    (timedOutState 6).put 0 { (timedOutState 6).frame 0 with settled := true } =
      timedOutState 6 := by
  have hframe : { (timedOutState 6).frame 0 with settled := true } = (timedOutState 6).frame 0 :=
    rfl
  rw [hframe, put, Function.update_eq_self]

def timedOutLabel (n : ℕ) : Act := (timedOut[n + 4]?).getD (.move 0 .settle)

theorem timedOut_steps (n : ℕ) :
    PunctualStep reads (timedOutState n) (timedOutLabel n) (timedOutState (n + 1)) := by
  match n with
  | 0 => exact ⟨rfl, rfl, rfl⟩
  | 1 => exact ⟨rfl, trivial, rfl⟩
  | 2 => exact ⟨rfl, trivial, rfl⟩
  | 3 => exact ⟨rfl, trivial, rfl⟩
  | 4 => exact ⟨rfl, trivial, rfl⟩
  | 5 => exact ⟨rfl, trivial, rfl⟩
  | n + 6 =>
    refine ⟨rfl, trivial, ?_⟩
    rw [timedOutState_of_ge (Nat.le_add_left 6 n), timedOutState_of_ge (by omega)]
    exact congrArg some timedOut_settled

def timedOutExecution : Execution (PunctualStep reads) :=
  ⟨timedOutState, timedOutLabel, timedOut_steps⟩

theorem timedOut_stage {n : ℕ} {stage : Stage} (h : (0, stage) ∈ (timedOutState n).running) :
    n + stage.steps ≤ 5 := by
  by_cases hn : 6 ≤ n
  · rw [timedOutState_of_ge hn] at h
    cases h
  · interval_cases n <;> cases stage <;> revert h <;> decide

theorem timedOut_queue {n : ℕ} (h : .ofCall 0 ∈ (timedOutState n).queue) : n ≤ 1 := by
  by_cases hn : 6 ≤ n
  · rw [timedOutState_of_ge hn] at h
    cases h
  · interval_cases n <;> revert h <;> decide

theorem timedOut_fair : Fair timedOutExecution 0 where
  expires n b _ := by
    refine ⟨n + 6, by omega, fun harmed => ?_⟩
    have hlast : timedOutExecution.state (n + 6) = timedOutState 6 :=
      timedOutState_of_ge (Nat.le_add_left 6 n)
    rw [hlast] at harmed
    cases harmed.1
  starts n h := ⟨1, timedOut_queue h, rfl⟩
  looks n h := ⟨2, Nat.le_of_add_le_add_right (timedOut_stage h), rfl⟩
  marks n h := ⟨3, Nat.le_of_add_le_add_right (timedOut_stage h), rfl⟩
  cancels n h := ⟨4, true, Nat.le_of_add_le_add_right (timedOut_stage h), rfl⟩

theorem doIo_blocks_late_callback :
    (∃ s, Run (PunctualStep reads) (initial 0) lateCallback s ∧
      (s.frame 0).pc = .done 7 0 ∧ verdict (s.frame 0).history = some (7, 0) ∧
      (s.frame 1).pc = .done (-1) ETIMEDOUT ∧
      verdict (s.frame 1).history = some (-1, ETIMEDOUT)) ∧
    Run (PunctualStep reads) (initial 0) (timedOut.take 4) (timedOutExecution.state 0) ∧
      Fair timedOutExecution 0 ∧ ((timedOutExecution.state 0).frame 0).pc.timed = true ∧
      ∃ m, ((timedOutExecution.state m).frame 0).pc.waits = false := by
  have hrun : ∃ s, Run (PunctualStep reads) (initial 0) lateCallback s ∧
      (s.frame 0).pc = .done 7 0 ∧ (s.frame 1).pc = .done (-1) ETIMEDOUT :=
    ⟨_, .cons ⟨rfl, trivial, rfl⟩ (.cons ⟨rfl, trivial, rfl⟩ (.cons ⟨rfl, fun _ => rfl, rfl⟩
      (.cons ⟨rfl, trivial, rfl⟩ (.cons ⟨rfl, rfl, rfl⟩ (.cons ⟨rfl, trivial, rfl⟩
      (.cons ⟨rfl, trivial, rfl⟩ (.cons ⟨rfl, trivial, rfl⟩ (.cons ⟨rfl, trivial, rfl⟩
      (.cons ⟨rfl, trivial, rfl⟩ (.cons ⟨rfl, trivial, rfl⟩ (.cons ⟨rfl, trivial, rfl⟩
      (.cons ⟨rfl, fun _ => rfl, rfl⟩ (.cons ⟨rfl, trivial, rfl⟩ (.cons ⟨rfl, trivial, rfl⟩
      (.cons ⟨rfl, rfl, rfl⟩ (.cons ⟨rfl, trivial, rfl⟩ (.cons ⟨rfl, trivial, rfl⟩
      (.cons ⟨rfl, trivial, rfl⟩ (.cons ⟨rfl, trivial, rfl⟩ (.cons ⟨rfl, trivial, rfl⟩
      (.cons ⟨rfl, trivial, rfl⟩ (.cons ⟨rfl, trivial, rfl⟩
      (.nil _))))))))))))))))))))))), rfl, rfl⟩
  obtain ⟨s, hrun, hfirst, hsecond⟩ := hrun
  obtain ⟨hio, -⟩ := doIo_blocks_iff_punctual reads 0 _ s hrun
  have hwait : Run (PunctualStep reads) (initial 0) (timedOut.take 4) (timedOutExecution.state 0) :=
    .cons ⟨rfl, trivial, rfl⟩ (.cons ⟨rfl, trivial, rfl⟩ (.cons ⟨rfl, fun _ => rfl, rfl⟩
      (.cons ⟨rfl, trivial, rfl⟩ (.nil _))))
  obtain ⟨-, -, hends, -⟩ := doIo_blocks_iff_punctual reads 0 _ _ hwait
  obtain ⟨m, -, hover⟩ := hends timedOutExecution rfl 0 rfl timedOut_fair 0 rfl
  refine ⟨⟨s, hrun, hfirst, ?_, hsecond, ?_⟩, hwait, timedOut_fair, rfl, m, hover⟩
  · rw [(hio 0 rfl).verdict, hfirst]
    rfl
  · rw [(hio 1 rfl).verdict, hsecond]
    rfl

/-- The timer of a call runs out before its event is registered: the callback has marked the call
and returned, and the call waits until the event comes, however late. -/
theorem doIo_waits_forever :
    ∃ s, Run (Step reads) (initial 0)
      [.move 0 .start, .move 0 (.original (-1) EAGAIN), .arm 0 1 0, .expire 5 9,
        .start (.ofCall 0), .look 0, .mark 0, .cancel 0 true, .add 0 0 0] s ∧
      (s.frame 0).fired = true ∧ ¬s.Blocks reads 0 ∧
      ∀ es s', Run (Step reads) s es s' → (∀ a ∈ es, Quiet reads 0 a) →
        (s'.frame 0).pc.waits = true := by
  have hrun : ∃ s, Run (Step reads) (initial 0)
      [.move 0 .start, .move 0 (.original (-1) EAGAIN), .arm 0 1 0, .expire 5 9,
        .start (.ofCall 0), .look 0, .mark 0, .cancel 0 true, .add 0 0 0] s ∧
      (s.frame 0).fired = true ∧ (s.frame 0).pc = .parked (some 1) false ∧ s.spent 0 = true :=
    ⟨_, .cons ⟨trivial, rfl⟩ (.cons ⟨trivial, rfl⟩ (.cons ⟨fun _ => rfl, rfl⟩ (.cons ⟨rfl, rfl⟩
      (.cons ⟨trivial, rfl⟩ (.cons ⟨trivial, rfl⟩ (.cons ⟨trivial, rfl⟩ (.cons ⟨trivial, rfl⟩
      (.cons ⟨trivial, rfl⟩ (.nil _))))))))), rfl, rfl, rfl⟩
  obtain ⟨s, hrun, hfired, hpc, hspent⟩ := hrun
  have hwaits : (s.frame 0).pc.waits = true := by rw [hpc]; rfl
  have hstuck : ∀ es s', Run (Step reads) s es s' → (∀ a ∈ es, Quiet reads 0 a) →
      (s'.frame 0).pc.waits = true := fun es s' hrun' hquiet =>
    spent_of_run (.of_run hrun) hrun' hquiet hwaits hspent
  refine ⟨s, hrun, hfired, fun h => ?_, hstuck⟩
  obtain ⟨es, t, hrun', hown, hdone⟩ := h.timesOut (by rw [hpc]; rfl)
  have hstill := hstuck es t hrun' fun a ha => .of_own (hown a ha)
  rw [hdone] at hstill
  cases hstill

end System
end ApexStorm.Waiting
