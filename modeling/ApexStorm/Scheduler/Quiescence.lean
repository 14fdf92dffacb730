import ApexStorm.Scheduler.Conservation

/-!
# When `stopping()` is right

`stopping()` reads the queue and `m_activeThreadCount`. A fiber that came back in
state `READY` is in neither of them from the decrement of its worker to the call of
`schedule`. As long as some other task keeps `stopping()` false over this stretch,
a true answer means that no task is left and that none will run again. The steps
that break this are the decrements and the calls of `stop` that `covered` excludes.
-/

namespace ApexStorm.Scheduler
open Lib

variable {n : ℕ}

def Pc.decrements : Pc → Bool
  | .dropped | .inside _ .task .decrement | .inside _ .callback .decrement => true
  | _ => false

namespace System
variable {s t : System n} {w : Fin n} {q : Pc}

def uncounted (s : System n) (w : Fin n) : Bool :=
  match s.pc w with
  | .inside f _ .readReady => s.state f == .ready
  | .inside _ _ .reschedule => true
  | _ => false

/-- Worker `w` has come back from a fiber that is to be put into the queue again. -/
def owes (s : System n) (w : Fin n) : Bool :=
  match s.pc w with
  | .inside f .task .decrement | .inside f .callback .decrement => s.state f == .ready
  | _ => s.uncounted w

end System

/-- The step does not make `stopping()` true while a fiber is to be put into the queue again. -/
def covered (s : System n) : Move n → Bool
  | .work w =>
    !((s.pc w).decrements && s.autoStop && s.stopFlag && s.queue.isEmpty &&
      decide (s.activeThreadCount ≤ 1)) || decide (∀ w', s.owes w' = false)
  | .stop =>
    !(s.queue.isEmpty && s.activeThreadCount == 0) || decide (∀ w', s.owes w' = false)
  | _ => true

def Move.inner : Move n → Bool
  | .schedule _ _ | .scheduleAll _ => false
  | _ => true

namespace System
variable {s t : System n} {w : Fin n} {q : Pc}

structure Settled (s : System n) : Prop where
  queue : s.queue = []
  idle : ∀ w, (s.pc w).holds = false
  back : ∀ w, s.uncounted w = false
  forever : ∀ ms t, Run (fun s m t => m.inner = true ∧ move s m = some t) s ms t →
    ∀ w, (t.pc w).holds = false

theorem uncounted_of_pc {f : FiberId} {r : Role} (h : s.pc w = .inside f r .readReady) :
    s.uncounted w = (s.state f == .ready) := by
  simp [uncounted, h]

theorem uncounted_congr (hpc : t.pc w = s.pc w)
    (hready : ∀ f, t.state f = .ready → s.state f = .ready) (h : s.uncounted w = false) :
    t.uncounted w = false := by
  unfold uncounted at h ⊢
  rw [hpc]
  split at h
  · simp only [beq_eq_false_iff_ne] at h ⊢
    exact fun hf => h (hready _ hf)
  · cases h
  · rfl

theorem uncounted_stay (hst : s.Stepped w t q) (hheld : (s.pc w).holds = false)
    (hread : ∀ f r, q ≠ .inside f r .readReady)
    (hready : ∀ f r, q = .inside f r .reschedule →
      s.pc w = .inside f r .readReady ∧ s.state f = .ready)
    (h : ∀ w, s.uncounted w = false) (w' : Fin n) : t.uncounted w' = false := by
  by_cases hw : w' = w
  · subst hw
    have hself : t.pc w' = q := by rw [hst.pc, Function.update_self]
    unfold uncounted
    rw [hself]
    split
    · exact absurd rfl (hread _ _)
    · obtain ⟨hpc, hf⟩ := hready _ _ rfl
      have := h w'
      rw [uncounted_of_pc hpc, hf] at this
      cases this
    · rfl
  · refine uncounted_congr (by rw [hst.pc, Function.update_of_ne hw]) ?_ (h w')
    intro f hf
    exact (hst.ready f hf).resolve_right (by simp [hheld])

/-- No task is left in the queue or in the hands of a worker. -/
structure Quiet (s : System n) : Prop where
  queue : s.queue = []
  idle : ∀ w, (s.pc w).holds = false
  back : ∀ w, s.uncounted w = false
  shaped : ∀ w, (s.pc w).shaped = true

namespace Quiet

theorem stepped (h : s.Quiet) (hst : s.Stepped w t q) : t.Quiet := by
  have hpc : ∀ P : Pc → Prop, P q → (∀ w, P (s.pc w)) → ∀ w', P (t.pc w') := by
    intro P hq hP w'
    rw [hst.pc]
    by_cases hw : w' = w
    · rwa [hw, Function.update_self]
    · rw [Function.update_of_ne hw]
      exact hP w'
  cases hst.outcome with
  | take e rest _ hdeq =>
    simp [dequeue, h.queue, takeFirst] at hdeq
  | finish hnext =>
    have hheld := (Books.Kept.holds_of_finish hnext).1
    rw [h.idle w] at hheld
    cases hheld
  | giveBack f r hpc' =>
    have hback := h.back w
    simp [uncounted, hpc'] at hback
  | stay hheld _ _ _ hread hready hqueue _ =>
    refine ⟨hqueue.trans h.queue, ?_, ?_, ?_⟩
    · exact hpc (fun p => p.holds = false) (hheld.trans (h.idle w)) h.idle
    · exact uncounted_stay hst (h.idle w) hread hready h.back
    · exact hpc (fun p => p.shaped = true) hst.shaped h.shaped

theorem of_same (h : s.Quiet) (hpc : t.pc = s.pc) (hqueue : t.queue = s.queue)
    (hready : ∀ f, t.state f = .ready → s.state f = .ready) : t.Quiet :=
  ⟨hqueue.trans h.queue, fun w => hpc ▸ h.idle w,
    fun w => uncounted_congr (congrFun hpc w) hready (h.back w), fun w => hpc ▸ h.shaped w⟩

theorem move {m : Move n} (h : s.Quiet) (hm : m.inner = true)
    (hmove : Scheduler.move s m = some t) : t.Quiet := by
  unfold Scheduler.move at hmove
  split_ifs at hmove
  cases m with
  | work w =>
    obtain ⟨q, hst⟩ := stepped_work (h.shaped w) hmove
    exact h.stepped hst
  | user w a =>
    obtain ⟨⟨q, hst⟩, -⟩ := stepped_user hmove
    exact h.stepped hst
  | schedule task thread => cases hm
  | scheduleAll slots => cases hm
  | reset f =>
    cases hmove
    unfold reset
    split_ifs
    · exact h.of_same rfl rfl fun g hg => ready_of_write (by simp) hg
    · exact h.of_same rfl rfl fun _ => id
  | stop =>
    cases hmove
    exact h.of_same rfl rfl fun _ => id

theorem settled (h : s.Quiet) : s.Settled := by
  refine ⟨h.queue, h.idle, h.back, ?_⟩
  intro ms t hrun
  exact (hrun.invariant (P := Quiet) (fun _ _ _ hs hstep => hs.move hstep.1 hstep.2) h).idle

end Quiet

def Accounted (s : System n) : Prop :=
  ∃ l, Books.Kept ⟨s, l⟩ ∧ ∀ w, (s.pc w).shaped = true

namespace Accounted

theorem started (n : ℕ) (state : FiberId → State) : (System.started n state).Accounted :=
  ⟨_, .started n state, fun _ => rfl⟩

theorem move {m : Move n} (h : s.Accounted) (hmove : Scheduler.move s m = some t) :
    t.Accounted := by
  obtain ⟨l, hkept, hshape⟩ := h
  have hb : Books.move ⟨s, l⟩ m = some ⟨t, Books.enter ⟨s, l⟩ m⟩ := by
    simp [Books.move, hmove]
  exact ⟨_, hkept.move hshape hb⟩

theorem holds_eq_false (h : s.Accounted) (hactive : s.activeThreadCount = 0) (w : Fin n) :
    (s.pc w).holds = false := by
  obtain ⟨l, hkept, -⟩ := h
  exact eq_false_of_tally_card (hkept.active.symm.trans hactive) w

theorem active_pos (h : s.Accounted) (hw : (s.pc w).holds = true) : 0 < s.activeThreadCount := by
  by_contra hzero
  have hidle := h.holds_eq_false (by omega) w
  rw [hw] at hidle
  cases hidle

theorem eq_of_active_one (h : s.Accounted) (hone : s.activeThreadCount ≤ 1) {w' : Fin n}
    (hw : (s.pc w).holds = true) (hw' : (s.pc w').holds = true) : w' = w := by
  obtain ⟨l, hkept, -⟩ := h
  have hcard : s.holders.card ≤ 1 := hkept.active ▸ hone
  exact Finset.card_le_one.mp hcard w' (mem_tally.mpr hw') w (mem_tally.mpr hw)

end Accounted

theorem stopping_iff : s.stopping = true ↔
    (s.autoStop = true ∧ s.stopFlag = true) ∧ s.queue = [] ∧ s.activeThreadCount = 0 := by
  simp [stopping, and_assoc]

/-- `stopping()` sees every fiber that is to be put into the queue again. -/
def Sound (s : System n) : Prop :=
  s.stopping = true → ∀ w, s.uncounted w = false

theorem Sound.settled (hs : s.Sound) (h : s.Accounted) (hstop : s.stopping = true) :
    s.Settled := by
  obtain ⟨-, hqueue, hactive⟩ := stopping_iff.mp hstop
  obtain ⟨l, -, hshape⟩ := id h
  exact Quiet.settled ⟨hqueue, h.holds_eq_false hactive, hs hstop, hshape⟩

theorem Sound.of_same (hs : s.Sound) (hpc : t.pc = s.pc)
    (hready : ∀ f, t.state f = .ready → s.state f = .ready)
    (hstop : t.stopping = true → s.stopping = true) : t.Sound :=
  fun h w => uncounted_congr (congrFun hpc w) hready (hs (hstop h) w)

theorem Sound.stepped (hs : s.Sound) (h : s.Accounted) (hdec : (s.pc w).decrements = false)
    (hst : s.Stepped w t q) : t.Sound := by
  intro hstop
  obtain ⟨hflags, hempty, hzero⟩ := stopping_iff.mp hstop
  cases hst.outcome with
  | take e rest _ _ _ _ hactive => omega
  | finish hnext =>
    obtain ⟨hpc, -⟩ | ⟨f, r, hr, hpc, -⟩ := hnext
    · simp [hpc, Pc.decrements] at hdec
    · cases r <;> simp_all [Pc.decrements]
  | giveBack f r _ _ hqueue _ => simp [hqueue] at hempty
  | stay hheld _ _ _ hread hready hqueue hactive =>
    have hzero' : s.activeThreadCount = 0 := hactive ▸ hzero
    have hstop' : s.stopping = true := by
      rw [stopping_iff, ← hst.flags.1, ← hst.flags.2, ← hqueue]
      exact ⟨hflags, hempty, hzero'⟩
    exact uncounted_stay hst (h.holds_eq_false hzero' w) hread hready (hs hstop')

theorem owes_of_not_holds (h : (s.pc w).holds = false) : s.owes w = s.uncounted w := by
  unfold owes
  split
  · rename_i hpc
    simp [hpc, Pc.holds, Point.unreturned] at h
  · rename_i hpc
    simp [hpc, Pc.holds, Point.unreturned] at h
  · rfl

theorem owes_of_decrement {f : FiberId} {r : Role} (hr : r ≠ .idle)
    (hpc : s.pc w = .inside f r .decrement) : s.owes w = (s.state f == .ready) := by
  cases r <;> simp_all [owes]

theorem uncounted_finish (h : s.Accounted) (hone : s.activeThreadCount ≤ 1)
    (hpc : t.pc = Function.update s.pc w q) (hstate : t.state = s.state)
    (hnext : s.pc w = .dropped ∧ q = .scan ∨ ∃ f r, r ≠ .idle ∧
      s.pc w = .inside f r .decrement ∧ q = .inside f r .readReady) (w' : Fin n) :
    t.uncounted w' = s.owes w' := by
  by_cases hw : w' = w
  · subst hw
    have hself : t.pc w' = q := by rw [hpc, Function.update_self]
    obtain ⟨hs, rfl⟩ | ⟨f, r, hr, hs, rfl⟩ := hnext
    · simp [uncounted, owes, hself, hs]
    · rw [uncounted_of_pc hself, owes_of_decrement hr hs, hstate]
  · have hother : (s.pc w').holds = false := by
      by_contra hheld
      exact hw (h.eq_of_active_one hone (Books.Kept.holds_of_finish hnext).1 (by simpa using hheld))
    rw [owes_of_not_holds hother, uncounted, uncounted, hpc, Function.update_of_ne hw, hstate]

theorem finish_of_decrements (hdec : (s.pc w).decrements = true) (h : s.work w = some t) :
    ∃ q, t = { s with activeThreadCount := s.activeThreadCount - 1 }.goto w q ∧
      (s.pc w = .dropped ∧ q = .scan ∨ ∃ f r, r ≠ .idle ∧
        s.pc w = .inside f r .decrement ∧ q = .inside f r .readReady) := by
  unfold Pc.decrements at hdec
  split at hdec
  · rename_i hpc
    simp only [work, hpc, Option.some.injEq] at h
    exact ⟨_, h.symm, .inl ⟨hpc, rfl⟩⟩
  · rename_i f hpc
    simp only [work, workInside, hpc, Option.some.injEq] at h
    exact ⟨_, h.symm, .inr ⟨f, .task, by simp, hpc, rfl⟩⟩
  · rename_i f hpc
    simp only [work, workInside, hpc, Option.some.injEq] at h
    exact ⟨_, h.symm, .inr ⟨f, .callback, by simp, hpc, rfl⟩⟩
  · cases hdec

theorem Accounted.sound_finish (h : s.Accounted) (hdec : (s.pc w).decrements = true)
    (hwork : s.work w = some t) : t.Sound ↔ covered s (.work w) = true := by
  obtain ⟨q, ht, hnext⟩ := finish_of_decrements hdec hwork
  have hpos := h.active_pos (Books.Kept.holds_of_finish hnext).1
  have hstop : t.stopping = true ↔
      (s.autoStop = true ∧ s.stopFlag = true) ∧ s.queue = [] ∧ s.activeThreadCount - 1 = 0 := by
    rw [stopping_iff, ht]
    rfl
  have hback : s.activeThreadCount ≤ 1 → ∀ w', t.uncounted w' = s.owes w' := fun hone =>
    uncounted_finish h hone (by rw [ht]; rfl) (by rw [ht]; rfl) hnext
  have hcovered : covered s (.work w) = true ↔ (s.autoStop = true ∧ s.stopFlag = true ∧
      s.queue = [] ∧ s.activeThreadCount ≤ 1 → ∀ w', s.owes w' = false) := by
    simp only [covered, hdec, Bool.true_and, Bool.or_eq_true, Bool.not_eq_true',
      ← Bool.not_eq_true, Bool.and_eq_true, List.isEmpty_iff, decide_eq_true_eq, and_assoc,
      imp_iff_not_or]
  rw [hcovered]
  constructor
  · intro hsound ⟨hauto, hflag, hqueue, hone⟩ w'
    rw [← hback hone]
    exact hsound (hstop.mpr ⟨⟨hauto, hflag⟩, hqueue, by omega⟩) w'
  · intro howes h' w'
    obtain ⟨⟨hauto, hflag⟩, hqueue, hzero⟩ := hstop.mp h'
    have hone : s.activeThreadCount ≤ 1 := by omega
    rw [hback hone]
    exact howes ⟨hauto, hflag, hqueue, hone⟩ w'

theorem Accounted.sound_stop (h : s.Accounted) :
    Sound { s with autoStop := true, stopFlag := true } ↔ covered s .stop = true := by
  have hcovered : covered s .stop = true ↔
      (s.queue = [] ∧ s.activeThreadCount = 0 → ∀ w', s.owes w' = false) := by
    simp only [covered, Bool.or_eq_true, Bool.not_eq_true', ← Bool.not_eq_true, Bool.and_eq_true,
      List.isEmpty_iff, beq_iff_eq, decide_eq_true_eq, imp_iff_not_or]
  rw [hcovered]
  constructor
  · intro hsound hle w'
    rw [owes_of_not_holds (h.holds_eq_false hle.2 w')]
    exact hsound (stopping_iff.mpr ⟨⟨rfl, rfl⟩, hle⟩) w'
  · intro howes hstop w'
    obtain ⟨-, hle⟩ := stopping_iff.mp hstop
    have hw := howes hle w'
    rwa [owes_of_not_holds (h.holds_eq_false hle.2 w')] at hw

theorem Sound.move {m : Move n} (hs : s.Sound) (h : s.Accounted)
    (hmove : Scheduler.move s m = some t) : t.Sound ↔ covered s m = true := by
  unfold Scheduler.move at hmove
  split_ifs at hmove
  obtain ⟨l, -, hshape⟩ := id h
  cases m with
  | work w =>
    obtain ⟨q, hst⟩ := stepped_work (hshape w) hmove
    cases hdec : (s.pc w).decrements with
    | false => exact iff_of_true (hs.stepped h hdec hst) (by simp [covered, hdec])
    | true => exact h.sound_finish hdec hmove
  | user w a =>
    obtain ⟨⟨q, hst⟩, f, r, b, hpc⟩ := stepped_user hmove
    exact iff_of_true (hs.stepped h (by simp [hpc, Pc.decrements]) hst) rfl
  | schedule task thread =>
    cases hmove
    refine iff_of_true ?_ rfl
    cases task with
    | none => exact hs
    | some x =>
      intro hstop
      simp [stopping, schedule] at hstop
  | scheduleAll slots =>
    cases hmove
    refine iff_of_true ?_ rfl
    rw [scheduleAll_eq]
    refine hs.of_same rfl (fun _ => id) ?_
    intro hstop
    simp only [stopping_iff, List.append_eq_nil_iff] at hstop ⊢
    exact ⟨hstop.1, hstop.2.1.1, hstop.2.2⟩
  | reset f =>
    cases hmove
    refine iff_of_true ?_ rfl
    unfold reset
    split_ifs
    · exact hs.of_same rfl (fun g hg => ready_of_write (by simp) hg) id
    · exact hs.of_same rfl (fun _ => id) id
  | stop =>
    cases hmove
    exact h.sound_stop

end System

/-- In every run of covered steps a true answer of `stopping()` means that no work is left and
that no task runs again without a call of `schedule`, and the next step breaks this exactly if it
is not covered. -/
theorem stopping_sound_iff_covered (n : ℕ) (state : FiberId → State) (ms : List (Move n))
    (s : System n)
    (hrun : Run (fun s m t => covered s m = true ∧ move s m = some t)
      (System.started n state) ms s) :
    (s.stopping = true → s.Settled) ∧
      ∀ m t, move s m = some t → ((t.stopping = true → t.Settled) ↔ covered s m = true) := by
  have hinv : s.Sound ∧ s.Accounted := by
    refine hrun.invariant (P := fun s => s.Sound ∧ s.Accounted) ?_
      ⟨fun hstop => ?_, .started n state⟩
    · exact fun s m t h hstep => ⟨(h.1.move h.2 hstep.2).mpr hstep.1, h.2.move hstep.2⟩
    · cases hstop
  refine ⟨hinv.1.settled hinv.2, fun m t hmove => ?_⟩
  rw [← hinv.1.move hinv.2 hmove]
  exact ⟨fun h hstop => (h hstop).back, fun h => h.settled (hinv.2.move hmove)⟩

def yieldsReady (w : Fin n) : List (Move n) :=
  .schedule (some (.cb 0)) none :: List.replicate 5 (.work w) ++ [.user w .yieldToReady]

-- With `stop` called after the fiber is back in the queue and has run to its end.
theorem stopping_sound_iff_covered_ready :
    ∃ (ms : List (Move 1)) (s : System 1),
      Run (fun s m t => covered s m = true ∧ move s m = some t)
        (System.started 1 fun _ => .init) ms s ∧ s.stopping = true ∧ s.Settled := by
  have hexec : (iterate (guarded covered move) (System.started 1 fun _ => .init)
      (List.flatten [yieldsReady 0, List.replicate 10 (.work 0), [.user 0 .finish],
        List.replicate 4 (.work 0), [.stop]])).map (fun s => s.stopping) = some true := by
    decide +kernel
  obtain ⟨s, hs, hstop⟩ := Option.map_eq_some_iff.mp hexec
  have hrun := Run.of_guarded hs
  exact ⟨_, s, hrun, hstop, (stopping_sound_iff_covered 1 _ _ s hrun).1 hstop⟩

/-- `stopping()` is true between the decrement and the call of `schedule`, and the fiber then runs
again. -/
theorem stopping_true_before_requeue :
    ∃ (ms : List (Move 1)) (s : System 1),
      Run (fun s m t => move s m = some t) (System.started 1 fun _ => .init) ms s ∧
      s.stopping = true ∧ s.pc 0 = .inside 1 .callback .readReady ∧ s.state 1 = .ready ∧
      ∃ ms' t, Run (fun s m t => m.inner = true ∧ move s m = some t) s ms' t ∧
        t.pc 0 = .inside 1 .task (.user false) := by
  have hexec : (iterate move (System.started 1 fun _ => .init)
      (yieldsReady 0 ++ [.stop, .work 0, .work 0])).bind
      (fun s => (iterate (guarded (fun _ m => m.inner) move) s (List.replicate 8 (.work 0))).map
        fun t => (s.stopping, s.pc 0, s.state 1, t.pc 0)) =
        some (true, .inside 1 .callback .readReady, .ready, .inside 1 .task (.user false)) := by
    decide +kernel
  obtain ⟨s, hs, hexec⟩ := Option.bind_eq_some_iff.mp hexec
  obtain ⟨t, ht, hobs⟩ := Option.map_eq_some_iff.mp hexec
  simp only [Prod.mk.injEq] at hobs
  exact ⟨_, s, Run.of_iterate hs, hobs.1, hobs.2.1, hobs.2.2.1, _, t, Run.of_guarded ht,
    hobs.2.2.2⟩

end ApexStorm.Scheduler
