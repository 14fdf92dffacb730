import ApexStorm.Scheduler.Conservation

/-!
# When `stop()` waits for the workers

One thread executes `Scheduler::stop` beside `n` worker threads. With `use_caller`
it runs `Scheduler::run` itself from `m_rootFiber->call()`, as one more worker. An
`IOManager` stops only when no timer and no event is left. The second test of
`stopping()` returns before the join, so `stop()` waits for its workers only if at
that moment some work is unfinished, or if no thread is left to wait for.
-/

namespace ApexStorm.Scheduler
open Lib

variable {n : ℕ}

inductive StopPoint (n : ℕ)
  | outside | checkRoot | firstTest | setStopping
  | tickling (k : ℕ)
  | secondTest | thirdTest | calling | swapping
  | joining (rest : List (Fin n))
  | returned
  deriving DecidableEq, Repr

/-- The last worker of `sys` is the caller's own `run`. -/
structure Stopper (n : ℕ) where
  sys : System (n + 1)
  useCaller : Bool
  isIOManager : Bool
  rootState : State
  timers : ℕ
  pendingEventCount : ℕ
  threads : List (Fin n)
  joined : List (Fin n)
  point : StopPoint n

namespace System
variable {s t : System n}

theorem Stepped.exited {w w' : Fin n} {q : Pc} (h : s.Stepped w t q) (hw : s.pc w ≠ .exited)
    (hexit : s.pc w' = .exited) : t.pc w' = .exited := by
  have hne : w' ≠ w := fun he => hw (he ▸ hexit)
  rw [h.pc, Function.update_of_ne hne, hexit]

theorem move_spec {m : Move n} (hshape : ∀ w, (s.pc w).shaped = true) (hm : m ≠ .stop)
    (h : move s m = some t) :
    (∀ w, (t.pc w).shaped = true) ∧ (∀ w, s.pc w = .exited → t.pc w = .exited) ∧
      t.autoStop = s.autoStop ∧ t.stopFlag = s.stopFlag := by
  have hstepped : ∀ {w q}, s.pc w ≠ .exited → s.Stepped w t q →
      (∀ w, (t.pc w).shaped = true) ∧ (∀ w, s.pc w = .exited → t.pc w = .exited) ∧
        t.autoStop = s.autoStop ∧ t.stopFlag = s.stopFlag :=
    fun hw hst => ⟨hst.all_shaped hshape, fun _ => hst.exited hw, hst.flags⟩
  unfold move at h
  split_ifs at h
  cases m with
  | work w =>
    obtain ⟨q, hst⟩ := stepped_work (hshape w) h
    refine hstepped (fun hw => ?_) hst
    simp [work, hw] at h
  | user w a =>
    obtain ⟨⟨q, hst⟩, f, r, b, hpc⟩ := stepped_user h
    exact hstepped (by simp [hpc]) hst
  | schedule task thread =>
    cases h
    cases task <;> exact ⟨hshape, fun _ => id, rfl, rfl⟩
  | scheduleAll slots =>
    cases h
    rw [scheduleAll_eq]
    exact ⟨hshape, fun _ => id, rfl, rfl⟩
  | reset f =>
    cases h
    unfold reset
    split_ifs <;> exact ⟨hshape, fun _ => id, rfl, rfl⟩
  | stop => exact absurd rfl hm

end System

namespace Stopper

def started (n : ℕ) (useCaller isIOManager : Bool) (state : FiberId → State) : Stopper n where
  sys := .started (n + 1) state
  useCaller := useCaller
  isIOManager := isIOManager
  rootState := .init
  timers := 0
  pendingEventCount := 0
  threads := List.finRange n
  joined := []
  point := .outside

/-- `Scheduler::stopping`, and `IOManager::stopping` with its timers and events. -/
def stopping (p : Stopper n) : Bool :=
  p.timers == 0 && p.pendingEventCount == 0 && p.sys.stopping

def call (p : Stopper n) : Option (Stopper n) :=
  match p.point with
  | .outside | .returned =>
    some { p with sys := { p.sys with autoStop := true }, point := .checkRoot }
  | .checkRoot =>
    if n = 0 then
      if p.useCaller = false then none
      else if p.rootState = .term ∨ p.rootState = .init then
        some { p with sys := { p.sys with stopFlag := true }, point := .firstTest }
      else some { p with point := .setStopping }
    else some { p with point := .setStopping }
  | .firstTest => some { p with point := if p.stopping then .returned else .setStopping }
  | .setStopping =>
    some { p with
      sys := { p.sys with stopFlag := true }
      point := .tickling (n + if p.useCaller then 1 else 0) }
  | .tickling 0 => some { p with point := .secondTest }
  | .tickling (k + 1) => some { p with point := .tickling k }
  | .secondTest => some { p with point := if p.stopping then .returned else .thirdTest }
  | .thirdTest =>
    if p.useCaller && !p.stopping then
      if p.rootState = .init then some { p with rootState := .exec, point := .calling } else none
    else some { p with point := .swapping }
  | .calling =>
    if p.sys.pc (Fin.last n) = .exited then
      some { p with rootState := .term, point := .swapping }
    else none
  | .swapping => some { p with threads := [], point := .joining p.threads }
  | .joining [] => some { p with point := .returned }
  | .joining (i :: rest) =>
    if p.sys.pc i.castSucc = .exited then
      some { p with joined := i :: p.joined, point := .joining rest }
    else none

def runs (p : Stopper n) (w : Fin (n + 1)) : Bool :=
  w != Fin.last n || p.point == .calling

/-- The steps of the workers and of other threads. The idle fiber returns once the scheduler may
stop, and the caller is a worker only inside `m_rootFiber->call()`. -/
def allows (p : Stopper n) : Move (n + 1) → Bool
  | .work w => p.runs w
  | .user w a =>
    p.runs w &&
      match p.sys.pc w with
      | .inside _ .idle _ => a != .finish || p.stopping
      | _ => true
  | .stop => false
  | _ => true

inductive Act (n : ℕ)
  | move (m : Move (n + 1))
  | call
  | io (timers pendingEventCount : ℕ)
  deriving DecidableEq, Repr

def step (p : Stopper n) : Act n → Option (Stopper n)
  | .move m =>
    if p.allows m then (Scheduler.move p.sys m).map fun t => { p with sys := t } else none
  | .call => if p.sys.aborted then none else p.call
  | .io timers pending =>
    if p.isIOManager then some { p with timers := timers, pendingEventCount := pending } else none

def unfinished (p : Stopper n) : Bool :=
  !p.sys.queue.isEmpty || p.sys.activeThreadCount != 0 || p.timers != 0 ||
    p.pendingEventCount != 0

/-- The second test of `stop` finds unfinished work or no thread to wait for. -/
def waits (p : Stopper n) : Act n → Bool
  | .call => p.point != .secondTest || p.threads.isEmpty || p.unfinished
  | _ => true

/-- When `stop` has returned, every worker thread has left `run` and has been joined. -/
def Waited (p : Stopper n) : Prop :=
  p.point = .returned →
    p.threads = [] ∧ ∀ i, i ∈ p.joined ∧ p.sys.pc i.castSucc = .exited

def StopPoint.requested : StopPoint n → Bool
  | .tickling _ | .secondTest => true
  | _ => false

def StopPoint.plain : StopPoint n → Bool
  | .joining _ | .firstTest | .tickling _ | .secondTest => false
  | _ => true

structure Inv (p : Stopper n) : Prop where
  shaped : ∀ w, (p.sys.pc w).shaped = true
  exited : ∀ i ∈ p.joined, p.sys.pc i.castSucc = .exited
  threads : ∀ rest, p.point = .joining rest → p.threads = [] ∧ ∀ i, i ∈ rest ∨ i ∈ p.joined
  kept : (∀ rest, p.point ≠ .joining rest) →
    p.threads = List.finRange n ∨ p.threads = [] ∧ ∀ i, i ∈ p.joined
  first : p.point = .firstTest → n = 0
  auto : p.point ≠ .outside → p.sys.autoStop = true
  stop : StopPoint.requested p.point = true → p.sys.stopFlag = true

variable {p p' : Stopper n}

namespace Inv

theorem started (n : ℕ) (useCaller isIOManager : Bool) (state : FiberId → State) :
    (Stopper.started n useCaller isIOManager state).Inv where
  shaped _ := rfl
  exited i hi := by cases hi
  threads rest h := by cases h
  kept _ := .inl rfl
  first h := by cases h
  auto h := absurd rfl h
  stop h := by cases h

theorem next (h : p.Inv) (hnot : ∀ rest, p.point ≠ .joining rest) (hpc : p'.sys.pc = p.sys.pc)
    (hthreads : p'.threads = p.threads) (hjoined : p'.joined = p.joined)
    (hnot' : ∀ rest, p'.point ≠ .joining rest) (hfirst : p'.point = .firstTest → n = 0)
    (hauto : p'.sys.autoStop = true)
    (hstop : StopPoint.requested p'.point = true → p'.sys.stopFlag = true) : p'.Inv where
  shaped w := hpc ▸ h.shaped w
  exited i hi := hpc ▸ h.exited i (hjoined ▸ hi)
  threads rest hrest := absurd hrest (hnot' rest)
  kept _ := by
    rw [hthreads, hjoined]
    exact h.kept hnot
  first := hfirst
  auto _ := hauto
  stop := hstop

theorem goto (h : p.Inv) {q : StopPoint n} {r : State} (hnot : ∀ rest, p.point ≠ .joining rest)
    (hin : p.point ≠ .outside) (hplain : StopPoint.plain q = true) :
    Inv { p with rootState := r, point := q } := by
  refine h.next hnot rfl rfl rfl ?_ ?_ (h.auto hin) ?_
  · rintro rest rfl
    cases hplain
  · rintro rfl
    cases hplain
  · intro hreq
    cases q <;> simp [StopPoint.plain, StopPoint.requested] at hplain hreq

theorem request (h : p.Inv) (hnot : ∀ rest, p.point ≠ .joining rest) :
    Inv { p with sys := { p.sys with autoStop := true }, point := .checkRoot } :=
  h.next hnot rfl rfl rfl (by simp) (by simp) rfl (by simp [StopPoint.requested])

theorem tickle (h : p.Inv) {q : StopPoint n} (hp : StopPoint.requested p.point = true)
    (hq : StopPoint.requested q = true) : Inv { p with point := q } := by
  refine h.next ?_ rfl rfl rfl ?_ ?_ (h.auto ?_) fun _ => h.stop hp
  · intro rest hrest
    rw [hrest] at hp
    cases hp
  · rintro rest rfl
    cases hq
  · rintro rfl
    cases hq
  · intro hout
    rw [hout] at hp
    cases hp

theorem swap (h : p.Inv) (hp : p.point = .swapping) :
    Inv { p with threads := [], point := .joining p.threads } where
  shaped := h.shaped
  exited := h.exited
  threads rest hrest := by
    cases hrest
    refine ⟨rfl, fun i => ?_⟩
    obtain hall | ⟨-, hjoined⟩ := h.kept (by simp [hp])
    · exact .inl (hall ▸ List.mem_finRange i)
    · exact .inr (hjoined i)
  kept hnot := absurd rfl (hnot _)
  first hfirst := by cases hfirst
  auto _ := h.auto (by simp [hp])
  stop hreq := by cases hreq

theorem join_nil (h : p.Inv) (hp : p.point = .joining []) : Inv { p with point := .returned } where
  shaped := h.shaped
  exited := h.exited
  threads rest hrest := by cases hrest
  kept _ := by
    obtain ⟨hthreads, hall⟩ := h.threads [] hp
    exact .inr ⟨hthreads, fun i => (hall i).resolve_left List.not_mem_nil⟩
  first hfirst := by cases hfirst
  auto _ := h.auto (by simp [hp])
  stop hreq := by cases hreq

theorem join_cons (h : p.Inv) {i : Fin n} {rest : List (Fin n)}
    (hp : p.point = .joining (i :: rest)) (hexit : p.sys.pc i.castSucc = .exited) :
    Inv { p with joined := i :: p.joined, point := .joining rest } where
  shaped := h.shaped
  exited := List.forall_mem_cons.mpr ⟨hexit, h.exited⟩
  threads rest' hrest := by
    cases hrest
    obtain ⟨hthreads, hall⟩ := h.threads _ hp
    refine ⟨hthreads, fun j => ?_⟩
    have hj := hall j
    simp only [List.mem_cons] at hj ⊢
    tauto
  kept hnot := absurd rfl (hnot rest)
  first hfirst := by cases hfirst
  auto _ := h.auto (by simp [hp])
  stop hreq := by cases hreq

theorem call (h : p.Inv) (hcall : p.call = some p') : p'.Inv := by
  cases hp : p.point with
  | outside | returned =>
    simp only [Stopper.call, hp, Option.some.injEq] at hcall
    subst hcall
    exact h.request (by simp [hp])
  | checkRoot =>
    have hnot : ∀ rest, p.point ≠ .joining rest := by simp [hp]
    have hin : p.point ≠ .outside := by simp [hp]
    simp only [Stopper.call, hp] at hcall
    split_ifs at hcall with hn
    · cases hcall
      exact h.next hnot rfl rfl rfl (by simp) (fun _ => hn) (h.auto hin)
        (by simp [StopPoint.requested])
    · cases hcall
      exact h.goto hnot hin rfl
    · cases hcall
      exact h.goto hnot hin rfl
  | firstTest | secondTest =>
    simp only [Stopper.call, hp, Option.some.injEq] at hcall
    subst hcall
    exact h.goto (by simp [hp]) (by simp [hp]) (by split_ifs <;> rfl)
  | setStopping =>
    simp only [Stopper.call, hp, Option.some.injEq] at hcall
    subst hcall
    exact h.next (by simp [hp]) rfl rfl rfl (by simp) (by simp) (h.auto (by simp [hp]))
      fun _ => rfl
  | tickling k =>
    have hreq : StopPoint.requested p.point = true := by simp [hp, StopPoint.requested]
    cases k with
    | zero =>
      simp only [Stopper.call, hp, Option.some.injEq] at hcall
      subst hcall
      exact h.tickle hreq rfl
    | succ k =>
      simp only [Stopper.call, hp, Option.some.injEq] at hcall
      subst hcall
      exact h.tickle hreq rfl
  | thirdTest =>
    simp only [Stopper.call, hp] at hcall
    split_ifs at hcall
    · cases hcall
      exact h.goto (by simp [hp]) (by simp [hp]) rfl
    · cases hcall
      exact h.goto (by simp [hp]) (by simp [hp]) rfl
  | calling =>
    simp only [Stopper.call, hp] at hcall
    split_ifs at hcall
    cases hcall
    exact h.goto (by simp [hp]) (by simp [hp]) rfl
  | swapping =>
    simp only [Stopper.call, hp, Option.some.injEq] at hcall
    subst hcall
    exact h.swap hp
  | joining rest =>
    cases rest with
    | nil =>
      simp only [Stopper.call, hp, Option.some.injEq] at hcall
      subst hcall
      exact h.join_nil hp
    | cons i rest =>
      simp only [Stopper.call, hp] at hcall
      split_ifs at hcall with hexit
      cases hcall
      exact h.join_cons hp hexit

theorem move (h : p.Inv) {m : Move (n + 1)} {s : System (n + 1)} (hm : m ≠ .stop)
    (hmove : Scheduler.move p.sys m = some s) : Inv { p with sys := s } := by
  obtain ⟨hshape, hexit, hauto, hstop⟩ := System.move_spec h.shaped hm hmove
  exact ⟨hshape, fun i hi => hexit _ (h.exited i hi), h.threads, h.kept, h.first,
    fun hp => hauto.trans (h.auto hp), fun hp => hstop.trans (h.stop hp)⟩

theorem step (h : p.Inv) {a : Act n} (hstep : p.step a = some p') : p'.Inv := by
  cases a with
  | move m =>
    simp only [Stopper.step] at hstep
    split_ifs at hstep with hm
    obtain ⟨s, hs, rfl⟩ := Option.map_eq_some_iff.mp hstep
    exact h.move (fun he => by simp [he, allows] at hm) hs
  | call =>
    simp only [Stopper.step] at hstep
    split_ifs at hstep
    exact h.call hstep
  | io timers pending =>
    simp only [Stopper.step] at hstep
    split_ifs at hstep
    cases hstep
    exact ⟨h.shaped, h.exited, h.threads, h.kept, h.first, h.auto, h.stop⟩

theorem waited_iff (h : p.Inv) : p.Waited ↔ (p.point = .returned → p.threads = []) := by
  refine forall_congr' fun hp => ⟨And.left, fun hthreads => ⟨hthreads, fun i => ?_⟩⟩
  have hjoined : i ∈ p.joined := by
    obtain hall | ⟨-, hall⟩ := h.kept (by simp [hp])
    · have hi := List.mem_finRange i
      rw [← hall, hthreads] at hi
      cases hi
    · exact hall i
  exact ⟨hjoined, h.exited i hjoined⟩

theorem stopping_iff (h : p.Inv) (hp : p.point = .secondTest) :
    p.stopping = true ↔ p.unfinished = false := by
  have hauto := h.auto (by simp [hp])
  have hstop := h.stop (by simp [hp, StopPoint.requested])
  simp [stopping, System.stopping, unfinished, hauto, hstop]
  tauto

end Inv

theorem returned_of_call (hcall : p.call = some p') (hret : p'.point = .returned) :
    p'.threads = p.threads ∧
      (p.point = .firstTest ∨ p.point = .secondTest ∨ p.point = .joining []) := by
  rw [call] at hcall
  split at hcall <;> try split_ifs at hcall
  all_goals
    cases hcall
    simp_all

theorem waited_of_call (h : p.Inv) (hcall : p.call = some p') :
    (p'.point = .returned → p'.threads = []) ↔ waits p .call = true := by
  by_cases hp : p.point = .secondTest
  · simp only [call, hp, Option.some.injEq] at hcall
    subst hcall
    have hstop := h.stopping_iff hp
    simp only [waits, hp, bne_self_eq_false, Bool.false_or, Bool.or_eq_true, List.isEmpty_iff]
    cases hu : p.unfinished with
    | true =>
      have hgo : p.stopping = false := by simpa [hu] using hstop
      simp [hgo]
    | false => simp [hstop.mpr hu]
  · refine iff_of_true (fun hret => ?_) (by simp [waits, hp])
    obtain ⟨hthreads, hfirst | hsecond | hjoin⟩ := returned_of_call hcall hret
    · have hn := h.first hfirst
      subst hn
      obtain hall | ⟨hnil, -⟩ := h.kept (by simp [hfirst])
      · rw [hthreads, hall, List.finRange_zero]
      · exact hthreads.trans hnil
    · exact absurd hsecond hp
    · exact hthreads.trans (h.threads [] hjoin).1

theorem waited_iff_waits (h : p.Inv) (hw : p.Waited) {a : Act n} (hstep : p.step a = some p') :
    p'.Waited ↔ waits p a = true := by
  rw [(h.step hstep).waited_iff]
  rw [h.waited_iff] at hw
  cases a with
  | move m =>
    simp only [step] at hstep
    split_ifs at hstep
    obtain ⟨s, -, rfl⟩ := Option.map_eq_some_iff.mp hstep
    exact iff_of_true hw rfl
  | call =>
    simp only [step] at hstep
    split_ifs at hstep
    exact waited_of_call h hstep
  | io timers pending =>
    simp only [step] at hstep
    split_ifs at hstep
    cases hstep
    exact iff_of_true hw rfl

end Stopper

/-- If every second test of `stop` finds unfinished work or no thread to wait for, then every
return of `stop` leaves no worker thread unjoined, and a step breaks this exactly if it does not
meet that condition. -/
theorem stop_waits_iff (n : ℕ) (useCaller isIOManager : Bool) (state : FiberId → State)
    (acts : List (Stopper.Act n)) (p : Stopper n)
    (hrun : Run (fun p a p' => p.waits a = true ∧ p.step a = some p')
      (Stopper.started n useCaller isIOManager state) acts p) :
    p.Waited ∧ ∀ a p', p.step a = some p' → (p'.Waited ↔ p.waits a = true) := by
  have hinv : p.Inv ∧ p.Waited := by
    refine hrun.invariant (P := fun p => p.Inv ∧ p.Waited) ?_ ⟨.started .., fun h => ?_⟩
    · exact fun p a p' h hstep =>
        ⟨h.1.step hstep.2, (Stopper.waited_iff_waits h.1 h.2 hstep.2).mpr hstep.1⟩
    · cases h
  exact ⟨hinv.2, fun a p' hstep => Stopper.waited_iff_waits hinv.1 hinv.2 hstep⟩

-- A callback is still in the queue when `stop` tests the second time.
theorem stop_waits_iff_busy :
    ∃ (acts : List (Stopper.Act 1)) (p : Stopper 1),
      Run (fun p a p' => p.waits a = true ∧ p.step a = some p')
        (.started 1 false false fun _ => .init) acts p ∧
      p.point = .returned ∧ p.threads = [] ∧ p.joined = [0] ∧ p.sys.pc 0 = .exited := by
  have hexec : (iterate (guarded Stopper.waits Stopper.step) (.started 1 false false fun _ => .init)
      (List.flatten [[.move (.schedule (some (.cb 0)) none)], List.replicate 8 .call,
        List.replicate 5 (.move (.work 0)), [.move (.user 0 .finish)],
        List.replicate 12 (.move (.work 0)), [.move (.user 0 .finish)],
        List.replicate 5 (.move (.work 0)), [.call, .call]])).map
      (fun p => (p.point, p.joined)) = some (.returned, [0]) := by decide +kernel
  obtain ⟨p, hp, hobs⟩ := Option.map_eq_some_iff.mp hexec
  obtain ⟨hret, hjoined⟩ := Prod.mk.inj hobs
  have hrun := Run.of_guarded hp
  obtain ⟨hthreads, hall⟩ := (stop_waits_iff 1 false false _ _ p hrun).1 hret
  exact ⟨_, p, hrun, hret, hthreads, hjoined, (hall 0).2⟩

/-- The only worker has not even begun its first search when `stop` returns. -/
theorem stop_returns_without_join :
    ∃ (acts : List (Stopper.Act 1)) (p : Stopper 1),
      Run (fun p a p' => p.step a = some p') (.started 1 false false fun _ => .init) acts p ∧
      p.point = .returned ∧ p.threads = [0] ∧ p.joined = [] ∧ p.sys.pc 0 = .scan := by
  have hexec : (iterate Stopper.step (.started 1 false false fun _ => .init)
      (List.replicate 6 .call)).map (fun p => (p.point, p.threads, p.joined, p.sys.pc 0)) =
        some (.returned, [0], [], .scan) := by decide +kernel
  obtain ⟨p, hp, hobs⟩ := Option.map_eq_some_iff.mp hexec
  simp only [Prod.mk.injEq] at hobs
  exact ⟨_, p, Run.of_iterate hp, hobs⟩

end ApexStorm.Scheduler
