import ApexStorm.Lib.Ledger
import ApexStorm.Lib.Tally
import ApexStorm.Scheduler.Exclusion

/-!
# Scheduled work is conserved

Any thread may call `schedule` with any fiber or callback, one by one or as a
batch, while the workers run. A ledger beside the system issues a ticket for every
entry put into the queue and notes the worker that takes it. Along every run the
queue is what waits in the ledger, and `m_activeThreadCount` counts the workers
between a dequeue and the decrement that follows the return of the task.
-/

namespace ApexStorm.Scheduler
open Lib

variable {n : ℕ}

namespace System

/-- The batch `schedule(begin, end)`, with the caller's slots afterwards. -/
def scheduleAll (s : System n) : List (Option Task) → System n × List (Option Task)
  | [] => (s, [])
  | slot :: slots =>
    let r := (s.schedule slot none).scheduleAll slots
    (r.1, none :: r.2)

def reset (s : System n) (f : FiberId) : System n :=
  if s.state f = .term ∨ s.state f = .init ∨ s.state f = .except then s.write f .init
  else { s with aborted := true }

def started (n : ℕ) (state : FiberId → State) : System n :=
  { initial n with state := state }

end System

inductive Move (n : ℕ)
  | work (w : Fin n)
  | user (w : Fin n) (a : System.UserAct)
  | schedule (task : Option Task) (thread : Option ℕ)
  | scheduleAll (slots : List (Option Task))
  | reset (f : FiberId)
  | stop
  deriving DecidableEq, Repr

def move (s : System n) (m : Move n) : Option (System n) :=
  if s.aborted then none
  else
    match m with
    | .work w => s.work w
    | .user w a => s.user w a
    | .schedule task thread => some (s.schedule task thread)
    | .scheduleAll slots => some (s.scheduleAll slots).1
    | .reset f => some (s.reset f)
    | .stop => some { s with autoStop := true, stopFlag := true }

/-- Before the decrement that follows the return of `swapIn`. -/
def Point.unreturned : Point → Bool
  | .readReady | .reschedule | .readTerm | .readExcept | .writeHold | .clear _ => false
  | _ => true

/-- The worker has taken a task from the queue and its run has not returned. -/
def Pc.holds : Pc → Bool
  | .dropped | .setup _ => true
  | .inside _ r p => r != .idle && p.unreturned
  | .scan | .idleCheck | .exited => false

def Pc.carries : Pc → Task → Bool
  | .dropped, .fiber _ => true
  | .setup c, .cb d => c == d
  | .inside f .task p, .fiber g => f == g && p.unreturned
  | .inside _ .callback p, .cb _ => p.unreturned
  | _, _ => false

def Pc.shaped : Pc → Bool
  | .inside _ r .checkTerm | .inside _ r .checkExcept => r == .task
  | _ => true

def handed : Task → Pc
  | .fiber f => .inside f .task .checkTerm
  | .cb c => .setup c

theorem handed_spec (x : Task) :
    (handed x).holds = true ∧ (handed x).carries x = true ∧ (handed x).shaped = true := by
  cases x with
  | fiber f => simp [handed, Pc.holds, Pc.carries, Pc.shaped, Point.unreturned]
  | cb c => simp [handed, Pc.holds, Pc.carries, Pc.shaped]

theorem Pc.carries_inside {f : FiberId} {r : Role} {p q : Point} (h : p.unreturned = q.unreturned)
    (x : Task) : (Pc.inside f r p).carries x = (Pc.inside f r q).carries x := by
  cases r <;> cases x <;> simp [Pc.carries, h]

namespace System
variable {s t : System n} {w : Fin n} {f : FiberId} {r : Role} {p : Point}

theorem scheduleAll_eq (s : System n) (slots : List (Option Task)) :
    s.scheduleAll slots =
      ({ s with queue := s.queue ++ slots.filterMap fun slot => slot.map fun x => ⟨x, none⟩ },
        slots.map fun _ => none) := by
  induction slots generalizing s with
  | nil => simp [scheduleAll]
  | cons slot slots ih =>
    rw [scheduleAll, ih]
    cases slot <;> simp [schedule]

inductive Outcome (s : System n) (w : Fin n) (q : Pc) (t : System n) : Prop
  | take (e : FiberAndThread) (rest : List FiberAndThread) (hpc : s.pc w = .scan)
      (hdeq : s.dequeue w = some (e, rest)) (hnext : q = handed e.task) (hqueue : t.queue = rest)
      (hactive : t.activeThreadCount = s.activeThreadCount + 1)
  | finish (hnext : s.pc w = .dropped ∧ q = .scan ∨ ∃ f r, r ≠ .idle ∧
        s.pc w = .inside f r .decrement ∧ q = .inside f r .readReady)
      (hstate : t.state = s.state) (hqueue : t.queue = s.queue)
      (hactive : t.activeThreadCount = s.activeThreadCount - 1)
  | giveBack (f : FiberId) (r : Role) (hpc : s.pc w = .inside f r .reschedule)
      (hnext : q = .scan) (hqueue : t.queue = s.queue ++ [⟨.fiber f, none⟩])
      (hactive : t.activeThreadCount = s.activeThreadCount)
  | stay (hheld : q.holds = (s.pc w).holds) (hcarry : ∀ x, (s.pc w).carries x → q.carries x)
      (hscan : s.pc w = .scan → s.dequeue w = none)
      (hkeep : ∀ f r, s.pc w ≠ .inside f r .reschedule)
      (hread : ∀ f r, q ≠ .inside f r .readReady)
      (hready : ∀ f r, q = .inside f r .reschedule →
        s.pc w = .inside f r .readReady ∧ s.state f = .ready)
      (hqueue : t.queue = s.queue) (hactive : t.activeThreadCount = s.activeThreadCount)

structure Stepped (s : System n) (w : Fin n) (t : System n) (q : Pc) : Prop where
  pc : t.pc = Function.update s.pc w q
  shaped : q.shaped = true
  ready : ∀ f, t.state f = .ready → s.state f = .ready ∨ (s.pc w).holds = true
  flags : t.autoStop = s.autoStop ∧ t.stopFlag = s.stopFlag
  outcome : Outcome s w q t

namespace Stepped

theorem inside {q : Point} (hp : s.pc w = .inside f r p)
    (hpc : t.pc = Function.update s.pc w (.inside f r q)) (hsame : p.unreturned = q.unreturned)
    (hshape : (Pc.inside f r q).shaped = true) (hp' : p ≠ .reschedule) (hq : q ≠ .readReady)
    (hready : q = .reschedule → p = .readReady ∧ s.state f = .ready)
    (hstate : ∀ g, t.state g = .ready → s.state g = .ready ∨ (s.pc w).holds = true)
    (hflags : t.autoStop = s.autoStop ∧ t.stopFlag = s.stopFlag)
    (hqueue : t.queue = s.queue) (hactive : t.activeThreadCount = s.activeThreadCount) :
    Stepped s w t (.inside f r q) := by
  refine ⟨hpc, hshape, hstate, hflags, .stay ?_ ?_ ?_ ?_ ?_ ?_ hqueue hactive⟩
  · simp [hp, Pc.holds, hsame]
  · intro x hx
    rwa [hp, Pc.carries_inside hsame] at hx
  · simp [hp]
  · intro g r' h
    rw [hp] at h
    exact hp' (by simp_all)
  · intro g r' h
    exact hq (by simp_all)
  · intro g r' h
    obtain ⟨rfl, rfl, hq'⟩ := Pc.inside.inj h
    obtain ⟨rfl, hr⟩ := hready hq'
    exact ⟨hp, hr⟩

theorem leave {q : Pc} (hp : s.pc w = .inside f r p) (hpc : t.pc = Function.update s.pc w q)
    (hq : q = .scan) (hret : p.unreturned = false) (hp' : p ≠ .reschedule)
    (hstate : ∀ g, t.state g = .ready → s.state g = .ready ∨ (s.pc w).holds = true)
    (hflags : t.autoStop = s.autoStop ∧ t.stopFlag = s.stopFlag)
    (hqueue : t.queue = s.queue) (hactive : t.activeThreadCount = s.activeThreadCount) :
    Stepped s w t q := by
  subst hq
  refine ⟨hpc, rfl, hstate, hflags, .stay ?_ ?_ ?_ ?_ ?_ ?_ hqueue hactive⟩
  · simp [hp, Pc.holds, hret]
  · intro x hx
    rw [hp] at hx
    cases r <;> cases x <;> simp [Pc.carries, hret] at hx
  · simp [hp]
  · intro g r' h
    rw [hp] at h
    exact hp' (by simp_all)
  · simp
  · simp

theorem all_shaped {q : Pc} (h : Stepped s w t q) (hshape : ∀ w, (s.pc w).shaped = true)
    (w' : Fin n) : (t.pc w').shaped = true := by
  rw [h.pc]
  by_cases hw : w' = w
  · rw [hw, Function.update_self]
    exact h.shaped
  · rw [Function.update_of_ne hw]
    exact hshape w'

theorem drop (hp : s.pc w = .inside f .task p) (hret : p.unreturned = true) :
    Stepped s w (s.goto w .dropped) .dropped := by
  refine ⟨rfl, rfl, fun _ => .inl, ⟨rfl, rfl⟩, .stay ?_ ?_ ?_ ?_ ?_ ?_ rfl rfl⟩
  · simp [hp, Pc.holds, hret]
  · intro x hx
    rw [hp] at hx
    cases x with
    | fiber g => rfl
    | cb c => simp [Pc.carries] at hx
  · simp [hp]
  · intro g r' h
    rw [hp] at h
    obtain ⟨-, -, rfl⟩ := Pc.inside.inj h
    simp [Point.unreturned] at hret
  · simp
  · simp

theorem onward {q : Point} (hp : s.pc w = .inside f r p) (hsame : p.unreturned = q.unreturned)
    (hshape : (Pc.inside f r q).shaped = true) (hp' : p ≠ .reschedule)
    (hq : q ≠ .readReady ∧ q ≠ .reschedule) :
    Stepped s w (s.goto w (.inside f r q)) (.inside f r q) :=
  .inside hp rfl hsame hshape hp' hq.1 (fun h => absurd h hq.2) (fun _ => .inl) ⟨rfl, rfl⟩ rfl rfl

end Stepped

theorem ready_of_write {x : State} (hx : x ≠ .ready) {g : FiberId}
    (h : (s.write f x).state g = .ready) : s.state g = .ready := by
  by_cases hg : g = f
  · subst hg
    simp [write, hx] at h
  · simpa [write, hg] using h

theorem pc_eq_update (hp : s.pc w = .inside f r p) :
    s.pc = Function.update s.pc w (.inside f r p) := by
  rw [← hp, Function.update_eq_self]

theorem stepped_workReset {k : ResetPoint → Point} {b : Bool} {next : Pc} {q : ResetPoint}
    (hk : ∀ q, (k q).unreturned = b) (hshape : ∀ q, (Pc.inside f r (k q)).shaped = true)
    (hne : ∀ q, k q ≠ .reschedule ∧ k q ≠ .readReady) (hp : s.pc w = .inside f r (k q))
    (hnext : ∃ q', Stepped s w ((s.write f .init).goto w next) q') :
    ∃ q', Stepped s w (s.workReset w f (fun q => .inside f r (k q)) next q) q' := by
  have hstay : ∀ q', Stepped s w (s.goto w (.inside f r (k q'))) (.inside f r (k q')) := fun q' =>
    .onward hp ((hk q).trans (hk q').symm) (hshape q') (hne q).1 (hne q').symm
  cases q with
  | isTerm => exact ⟨_, hstay _⟩
  | isInit => exact ⟨_, hstay _⟩
  | isExcept =>
    rw [workReset]
    split_ifs
    · exact ⟨_, hstay _⟩
    · exact ⟨_, .inside hp (pc_eq_update hp) rfl (hshape _) (hne _).1 (hne _).2
        (fun h => absurd h (hne _).1) (fun _ => .inl) ⟨rfl, rfl⟩ rfl rfl⟩
  | write => exact hnext

theorem stepped_workInside (hp : s.pc w = .inside f r p) (hshape : (s.pc w).shaped = true)
    (h : s.workInside w f r p = some t) : ∃ q, Stepped s w t q := by
  rw [hp] at hshape
  cases p with
  | checkTerm =>
    cases h
    have hr : r = .task := by simpa [Pc.shaped] using hshape
    subst hr
    split_ifs
    · exact ⟨_, .drop hp rfl⟩
    · exact ⟨_, .onward hp rfl rfl (by simp) (by simp)⟩
  | checkExcept =>
    cases h
    have hr : r = .task := by simpa [Pc.shaped] using hshape
    subst hr
    split_ifs
    · exact ⟨_, .drop hp rfl⟩
    · exact ⟨_, .onward hp rfl rfl (by simp) (by simp)⟩
  | prepare q =>
    cases h
    exact stepped_workReset (fun _ => rfl) (fun _ => rfl) (by simp) hp
      ⟨_, .inside hp rfl rfl rfl (by simp) (by simp) (by simp)
        (fun _ h => .inl (ready_of_write (by simp) h)) ⟨rfl, rfl⟩ rfl rfl⟩
  | assertNotExec =>
    simp only [workInside] at h
    split_ifs at h
    · cases h
      exact ⟨_, .inside hp (pc_eq_update hp) rfl rfl (by simp) (by simp) (by simp)
        (fun _ => .inl) ⟨rfl, rfl⟩ rfl rfl⟩
    · cases h
      exact ⟨_, .onward hp rfl rfl (by simp) (by simp)⟩
  | writeExec =>
    cases h
    exact ⟨_, .inside hp rfl rfl rfl (by simp) (by simp) (by simp)
      (fun _ h => .inl (ready_of_write (by simp) h)) ⟨rfl, rfl⟩ rfl rfl⟩
  | switchIn =>
    cases h
    exact ⟨_, .onward hp rfl rfl (by simp) (by simp)⟩
  | user b => cases h
  | switchOut =>
    cases h
    exact ⟨_, .onward hp rfl rfl (by simp) (by simp)⟩
  | decrement =>
    cases r with
    | idle =>
      cases h
      refine ⟨_, rfl, rfl, fun _ => .inl, ⟨rfl, rfl⟩, .stay ?_ ?_ ?_ ?_ ?_ ?_ rfl rfl⟩ <;>
        simp [hp, Pc.holds, Pc.carries]
    | task | callback =>
      cases h
      exact ⟨_, rfl, rfl, fun _ => .inl, ⟨rfl, rfl⟩,
        .finish (.inr ⟨f, _, by simp, hp, rfl⟩) rfl rfl rfl⟩
  | readReady =>
    cases h
    refine ⟨_, .inside hp rfl ?_ ?_ (by simp) ?_ ?_ (fun _ => .inl) ⟨rfl, rfl⟩ rfl rfl⟩ <;>
      split_ifs <;> simp_all [Point.unreturned, Pc.shaped]
  | reschedule =>
    cases r with
    | idle => cases h
    | task | callback =>
      cases h
      exact ⟨_, rfl, rfl, fun _ => .inl, ⟨rfl, rfl⟩, .giveBack f _ hp rfl rfl rfl⟩
  | readTerm | readExcept =>
    cases r with
    | callback =>
      cases h
      refine ⟨_, .inside hp rfl ?_ ?_ (by simp) ?_ ?_ (fun _ => .inl) ⟨rfl, rfl⟩ rfl rfl⟩ <;>
        split_ifs <;> simp [Point.unreturned, Pc.shaped]
    | task | idle =>
      cases h
      split_ifs
      · exact ⟨_, .leave hp rfl rfl rfl (by simp) (fun _ => .inl) ⟨rfl, rfl⟩ rfl rfl⟩
      · exact ⟨_, .onward hp rfl rfl (by simp) (by simp)⟩
  | writeHold =>
    cases r with
    | task | callback | idle =>
      cases h
      exact ⟨_, .leave hp rfl rfl rfl (by simp)
        (fun _ h => .inl (ready_of_write (by simp) h)) ⟨rfl, rfl⟩ rfl rfl⟩
  | clear q =>
    cases h
    exact stepped_workReset (fun _ => rfl) (fun _ => rfl) (by simp) hp
      ⟨_, .leave hp rfl rfl rfl (by simp) (fun _ h => .inl (ready_of_write (by simp) h))
        ⟨rfl, rfl⟩ rfl rfl⟩

theorem stepped_work (hshape : (s.pc w).shaped = true) (h : s.work w = some t) :
    ∃ q, Stepped s w t q := by
  rw [work] at h
  cases hpc : s.pc w with
  | scan =>
    simp only [hpc] at h
    cases hdeq : s.dequeue w with
    | none =>
      rw [hdeq] at h
      cases h
      refine ⟨_, rfl, rfl, fun _ => .inl, ⟨rfl, rfl⟩, .stay ?_ ?_ ?_ ?_ ?_ ?_ rfl rfl⟩ <;>
        simp [hpc, hdeq, Pc.holds, Pc.carries]
    | some x =>
      obtain ⟨⟨task, thread⟩, rest⟩ := x
      rw [hdeq] at h
      cases task with
      | fiber f | cb c =>
        cases h
        exact ⟨_, rfl, rfl, fun _ => .inl, ⟨rfl, rfl⟩, .take _ rest hpc hdeq rfl rfl rfl⟩
  | dropped =>
    simp only [hpc] at h
    cases h
    exact ⟨_, rfl, rfl, fun _ => .inl, ⟨rfl, rfl⟩, .finish (.inl ⟨hpc, rfl⟩) rfl rfl rfl⟩
  | setup c =>
    simp only [hpc] at h
    cases hcb : s.cbFiber w with
    | some g =>
      rw [hcb] at h
      cases h
      refine ⟨_, rfl, rfl, fun _ => .inl, ⟨rfl, rfl⟩, .stay ?_ ?_ ?_ ?_ ?_ ?_ rfl rfl⟩ <;>
        simp [hpc, Pc.holds, Point.unreturned]
      intro x hx
      cases x <;> simp_all [Pc.carries, Point.unreturned]
    | none =>
      rw [hcb] at h
      cases h
      refine ⟨_, rfl, rfl, fun _ h => .inl (ready_of_write (by simp) h), ⟨rfl, rfl⟩,
        .stay ?_ ?_ ?_ ?_ ?_ ?_ rfl rfl⟩ <;>
        simp [hpc, Pc.holds, Point.unreturned]
      intro x hx
      cases x <;> simp_all [Pc.carries, Point.unreturned]
  | idleCheck =>
    simp only [hpc] at h
    split_ifs at h
    · cases h
      refine ⟨_, rfl, rfl, fun _ => .inl, ⟨rfl, rfl⟩, .stay ?_ ?_ ?_ ?_ ?_ ?_ rfl rfl⟩ <;>
        simp [hpc, Pc.holds, Pc.carries]
    · cases h
      refine ⟨_, rfl, rfl, fun _ => .inl, ⟨rfl, rfl⟩, .stay ?_ ?_ ?_ ?_ ?_ ?_ rfl rfl⟩ <;>
        simp [hpc, Pc.holds, Pc.carries]
  | inside f r p =>
    simp only [hpc] at h
    exact stepped_workInside hpc hshape h
  | exited =>
    simp only [hpc] at h
    cases h

theorem stepped_user {a : UserAct} (h : s.user w a = some t) :
    (∃ q, Stepped s w t q) ∧ ∃ f r b, s.pc w = .inside f r (.user b) := by
  rw [user] at h
  split at h
  · rename_i f r b hp
    refine ⟨?_, f, r, b, hp⟩
    have hout : ∀ x : State, (x = .ready → r ≠ .idle) →
        ∃ q, Stepped s w ((s.write f x).goto w (.inside f r .switchOut)) q := by
      intro x hx
      refine ⟨_, .inside hp rfl rfl rfl (by simp) (by simp) (by simp) ?_ ⟨rfl, rfl⟩ rfl rfl⟩
      intro g hg
      by_cases hxr : x = .ready
      · exact .inr (by simp [hp, Pc.holds, Point.unreturned, hx hxr])
      · exact .inl (ready_of_write hxr hg)
    split at h
    · cases h
      exact hout .hold (by simp)
    · cases h
      exact ⟨_, .onward hp rfl rfl (by simp) (by simp)⟩
    · split_ifs at h
      cases h
      exact hout .term (by simp)
    · cases h
    · cases h
      exact ⟨_, .inside hp rfl rfl rfl (by simp) (by simp) (by simp) (fun _ => .inl) ⟨rfl, rfl⟩
        rfl rfl⟩
    · rename_i hr
      cases h
      exact hout .ready fun _ => hr
    · cases h
      exact hout .term (by simp)
    · cases h
      exact hout .except (by simp)
    · cases h
  · cases h

theorem takeFirst_eq_none {skip : FiberAndThread → Bool} {q : List FiberAndThread}
    (h : takeFirst skip q = none) : ∀ x ∈ q, skip x = true := by
  induction q with
  | nil => simp
  | cons y q ih =>
    rw [takeFirst] at h
    split_ifs at h with hy
    exact List.forall_mem_cons.mpr ⟨hy, ih (Option.map_eq_none_iff.mp h)⟩

def position (s : System n) (w : Fin n) : Option ℕ :=
  s.queue.findIdx? fun e => !s.skips w e

theorem position_of_dequeue {e : FiberAndThread} {rest : List FiberAndThread}
    (h : s.dequeue w = some (e, rest)) :
    ∃ i, s.position w = some i ∧ s.queue[i]? = some e ∧ rest = s.queue.eraseIdx i := by
  obtain ⟨front, back, hq, rfl, he, hfront⟩ := takeFirst_spec h
  refine ⟨front.length, ?_, ?_, ?_⟩
  · rw [position, hq, List.findIdx?_append, List.findIdx?_eq_none_iff.mpr (by simpa using hfront)]
    simp [List.findIdx?_cons, he]
  · simp [hq]
  · simp [hq, List.eraseIdx_append_of_length_le]

theorem position_of_dequeue_none (h : s.dequeue w = none) : s.position w = none := by
  simpa [position] using takeFirst_eq_none h

def PassedOver (s : System n) (w : Fin n) (e : FiberAndThread) : Prop :=
  (∃ t, e.thread = some t ∧ t ≠ w) ∨ ∃ f, e.task = .fiber f ∧ s.state f = .exec

theorem skips_iff (e : FiberAndThread) : s.skips w e = true ↔ s.PassedOver w e := by
  obtain ⟨task, thread⟩ := e
  cases task <;> cases thread <;> simp [skips, PassedOver]

def holders (s : System n) : Finset (Fin n) := tally Pc.holds s.pc

theorem card_holders_update {q : Pc} (h : t.pc = Function.update s.pc w q) :
    t.holders.card + (if (s.pc w).holds = true then 1 else 0) =
      s.holders.card + if q.holds = true then 1 else 0 := by
  rw [holders, h]
  exact card_tally_update Pc.holds s.pc w q

end System

def arrivals (s : System n) : Move n → List FiberAndThread
  | .schedule task thread => (task.map fun x => ⟨x, thread⟩).toList
  | .scheduleAll slots => slots.filterMap fun slot => slot.map fun x => ⟨x, none⟩
  | .work w =>
    match s.pc w with
    | .inside f _ .reschedule => [⟨.fiber f, none⟩]
    | _ => []
  | _ => []

def departure (s : System n) : Move n → Option (ℕ × Fin n)
  | .work w =>
    match s.pc w with
    | .scan => (s.position w).map fun i => (i, w)
    | _ => none
  | _ => none

structure Books (n : ℕ) where
  sys : System n
  ledger : Ledger FiberAndThread (Fin n)

namespace Books

def started (n : ℕ) (state : FiberId → State) : Books n := ⟨System.started n state, .empty⟩

def enter (b : Books n) (m : Move n) : Ledger FiberAndThread (Fin n) :=
  match departure b.sys m with
  | none => b.ledger.postAll (arrivals b.sys m)
  | some (i, w) => (b.ledger.take i w).postAll (arrivals b.sys m)

def move (b : Books n) (m : Move n) : Option (Books n) :=
  (Scheduler.move b.sys m).map fun t => ⟨t, b.enter m⟩

structure Kept (b : Books n) : Prop where
  sound : b.ledger.Sound
  queue : b.ledger.entries = b.sys.queue
  pinned : ∀ k e w, (k, e, w) ∈ b.ledger.taken → e.thread = none ∨ e.thread = some ↑w
  held : ∀ w, (b.sys.pc w).holds = true →
    ∃ k e, b.ledger.latest w = some (k, e, w) ∧ (b.sys.pc w).carries e.task = true
  active : b.sys.activeThreadCount = b.sys.holders.card

namespace Kept
variable {b : Books n} {t : System n} {w : Fin n} {q : Pc}

theorem started (n : ℕ) (state : FiberId → State) : (Books.started n state).Kept := by
  refine ⟨.empty, rfl, ?_, ?_, ?_⟩
  · intro k e w h
    cases h
  · intro w h
    cases h
  · simp [Books.started, System.started, System.initial, System.holders, tally, Pc.holds]

theorem postAll (h : b.Kept) {es : List FiberAndThread} (hqueue : t.queue = b.sys.queue ++ es)
    (hactive : t.activeThreadCount = t.holders.card)
    (hheld : ∀ w, (t.pc w).holds = true → (b.sys.pc w).holds = true ∧
      ∀ x, (b.sys.pc w).carries x = true → (t.pc w).carries x = true) :
    Kept ⟨t, b.ledger.postAll es⟩ := by
  refine ⟨h.sound.postAll es, ?_, ?_, ?_, hactive⟩
  · rw [Ledger.entries_postAll, h.queue, hqueue]
  · intro k e w hk
    rw [Ledger.taken_postAll] at hk
    exact h.pinned k e w hk
  · intro w hw
    obtain ⟨k, e, hlatest, hcarry⟩ := h.held w (hheld w hw).1
    refine ⟨k, e, ?_, (hheld w hw).2 _ hcarry⟩
    rw [Ledger.latest, Ledger.taken_postAll]
    exact hlatest

theorem idle (h : b.Kept) {es : List FiberAndThread} (hpc : t.pc = b.sys.pc)
    (hqueue : t.queue = b.sys.queue ++ es)
    (hactive : t.activeThreadCount = b.sys.activeThreadCount) :
    Kept ⟨t, b.ledger.postAll es⟩ := by
  refine h.postAll hqueue ?_ ?_
  · rw [hactive, h.active, System.holders, System.holders, hpc]
  · intro w hw
    rw [hpc] at hw ⊢
    exact ⟨hw, fun _ => id⟩

theorem takes (h : b.Kept) {i : ℕ} {e : FiberAndThread} (hpc : b.sys.pc w = .scan)
    (hi : b.sys.queue[i]? = some e) (hskip : b.sys.skips w e = false)
    (hpc' : t.pc = Function.update b.sys.pc w (handed e.task))
    (hqueue : t.queue = b.sys.queue.eraseIdx i)
    (hactive : t.activeThreadCount = b.sys.activeThreadCount + 1) :
    Kept ⟨t, b.ledger.take i w⟩ := by
  rw [← h.queue] at hi
  obtain ⟨k, htaken⟩ := Ledger.taken_take hi w
  obtain ⟨hholds, hcarry, -⟩ := handed_spec e.task
  refine ⟨h.sound.take i w, ?_, ?_, ?_, ?_⟩
  · rw [Ledger.entries_take, h.queue, hqueue]
  · intro k' e' w' hk'
    rw [htaken] at hk'
    rcases List.mem_cons.mp hk' with hk' | hk'
    · simp only [Prod.mk.injEq] at hk'
      obtain ⟨-, rfl, rfl⟩ := hk'
      obtain ⟨task, thread⟩ := e'
      cases thread with
      | none => exact .inl rfl
      | some t => simp_all [System.skips]
    · exact h.pinned k' e' w' hk'
  · intro w' hw'
    simp only [Ledger.latest, htaken, hpc', List.find?_cons]
    by_cases hw : w' = w
    · subst hw
      exact ⟨k, e, by simp, by simpa using hcarry⟩
    · simp only [hpc', Function.update_of_ne hw] at hw' ⊢
      simpa [Ne.symm hw, Ledger.latest] using h.held w' hw'
  · have hcard := System.card_holders_update hpc'
    have hscan : (b.sys.pc w).holds = false := by rw [hpc]; rfl
    rw [hscan, hholds] at hcard
    simp only [Bool.false_eq_true, if_false, if_true] at hcard
    rw [hactive, h.active]
    exact hcard.symm

theorem enter_quiet (hscan : b.sys.pc w = .scan → b.sys.dequeue w = none)
    (hkeep : ∀ f r, b.sys.pc w ≠ .inside f r .reschedule) :
    b.enter (.work w) = b.ledger.postAll [] := by
  have harr : arrivals b.sys (.work w) = [] := by
    simp only [arrivals]
  have hdep : departure b.sys (.work w) = none := by
    simp only [departure]
    split
    · rename_i hp
      rw [System.position_of_dequeue_none (hscan hp), Option.map_none]
    · rfl
  rw [Books.enter, hdep, harr]

theorem holds_of_finish {s : System n} (h : s.pc w = .dropped ∧ q = .scan ∨ ∃ f r, r ≠ .idle ∧
      s.pc w = .inside f r .decrement ∧ q = .inside f r .readReady) :
    (s.pc w).holds = true ∧ q.holds = false := by
  obtain ⟨hpc, rfl⟩ | ⟨f, r, hr, hpc, rfl⟩ := h
  · simp [hpc, Pc.holds]
  · simp [hpc, Pc.holds, Point.unreturned, hr]

theorem stepped (h : b.Kept) (hst : b.sys.Stepped w t q) : Kept ⟨t, b.enter (.work w)⟩ := by
  have hcard := System.card_holders_update hst.pc
  have hother : ∀ w', w' ≠ w → t.pc w' = b.sys.pc w' := fun w' hw => by
    rw [hst.pc, Function.update_of_ne hw]
  have hself : t.pc w = q := by rw [hst.pc, Function.update_self]
  cases hst.outcome with
  | take e rest hpc hdeq hnext hqueue hactive =>
    obtain ⟨i, hpos, hi, rfl⟩ := System.position_of_dequeue hdeq
    obtain ⟨front, back, -, -, hskip, -⟩ := System.takeFirst_spec hdeq
    have henter : b.enter (.work w) = b.ledger.take i w := by
      simp [Books.enter, departure, arrivals, hpc, hpos, Ledger.postAll]
    rw [henter]
    exact h.takes hpc hi hskip (hnext ▸ hst.pc) hqueue hactive
  | finish hnext _ hqueue hactive =>
    obtain ⟨hheld, hnext⟩ := holds_of_finish hnext
    rw [enter_quiet (fun hp => by rw [hp] at hheld; cases hheld)
      (fun f r hp => by rw [hp] at hheld; cases r <;> cases hheld)]
    refine h.postAll (by simpa using hqueue) ?_ ?_
    · rw [hheld, hnext, if_pos rfl] at hcard
      rw [hactive, h.active]
      simp at hcard
      omega
    · intro w' hw'
      by_cases hw : w' = w
      · rw [hw, hself, hnext] at hw'
        cases hw'
      · rw [hother w' hw] at hw' ⊢
        exact ⟨hw', fun _ => id⟩
  | giveBack f r hpc hnext hqueue hactive =>
    have henter : b.enter (.work w) = b.ledger.postAll [⟨.fiber f, none⟩] := by
      simp [Books.enter, departure, arrivals, hpc]
    rw [henter]
    refine h.postAll hqueue ?_ ?_
    · have hout : (b.sys.pc w).holds = false := by rw [hpc]; simp [Pc.holds, Point.unreturned]
      rw [hout, hnext] at hcard
      rw [hactive, h.active]
      exact hcard.symm
    · intro w' hw'
      by_cases hw : w' = w
      · rw [hw, hself, hnext] at hw'
        cases hw'
      · rw [hother w' hw] at hw' ⊢
        exact ⟨hw', fun _ => id⟩
  | stay hheld hcarry hscan hkeep hread hready hqueue hactive =>
    rw [enter_quiet hscan hkeep]
    refine h.postAll (by simpa using hqueue) ?_ ?_
    · rw [hheld] at hcard
      rw [hactive, h.active]
      omega
    · intro w' hw'
      by_cases hw : w' = w
      · rw [hw, hself] at hw' ⊢
        exact ⟨hheld ▸ hw', hcarry⟩
      · rw [hother w' hw] at hw' ⊢
        exact ⟨hw', fun _ => id⟩

theorem move (h : b.Kept) (hshape : ∀ w, (b.sys.pc w).shaped = true) {m : Move n} {b' : Books n}
    (hmove : b.move m = some b') : b'.Kept ∧ ∀ w, (b'.sys.pc w).shaped = true := by
  obtain ⟨t, ht, rfl⟩ := Option.map_eq_some_iff.mp hmove
  unfold Scheduler.move at ht
  split_ifs at ht
  cases m with
  | work w =>
    obtain ⟨q, hst⟩ := System.stepped_work (hshape w) ht
    exact ⟨h.stepped hst, hst.all_shaped hshape⟩
  | user w a =>
    obtain ⟨⟨q, hst⟩, f, r, registered, hp⟩ := System.stepped_user ht
    have henter : b.enter (.user w a) = b.enter (.work w) := by
      simp [Books.enter, departure, arrivals, hp]
    rw [henter]
    exact ⟨h.stepped hst, hst.all_shaped hshape⟩
  | schedule task thread =>
    cases ht
    cases task with
    | none => exact ⟨h.idle rfl (List.append_nil _).symm rfl, hshape⟩
    | some x => exact ⟨h.idle rfl rfl rfl, hshape⟩
  | scheduleAll slots =>
    cases ht
    rw [System.scheduleAll_eq]
    exact ⟨h.idle rfl rfl rfl, hshape⟩
  | reset f =>
    cases ht
    unfold System.reset
    split_ifs
    · exact ⟨h.idle rfl (List.append_nil _).symm rfl, hshape⟩
    · exact ⟨h.idle rfl (List.append_nil _).symm rfl, hshape⟩
  | stop =>
    cases ht
    exact ⟨h.idle rfl (List.append_nil _).symm rfl, hshape⟩

theorem of_run {state : FiberId → State} {ms : List (Move n)}
    (hrun : Run (fun b m b' => b.move m = some b') (Books.started n state) ms b) :
    b.Kept ∧ ∀ w, (b.sys.pc w).shaped = true :=
  hrun.invariant (P := fun b => b.Kept ∧ ∀ w, (b.sys.pc w).shaped = true)
    (fun _ _ _ h hmove => h.1.move h.2 hmove) ⟨.started n state, fun _ => rfl⟩

end Kept

def Fetches (s : System n) (w : Fin n) (t : System n) : Prop :=
  (∃ front e back, s.queue = front ++ e :: back ∧ (∀ x ∈ front, s.PassedOver w x) ∧
    ¬ s.PassedOver w e ∧ t.queue = front ++ back ∧ t.pc w = handed e.task ∧
    ∀ w', w' ≠ w → t.pc w' = s.pc w') ∨
  (∀ x ∈ s.queue, s.PassedOver w x) ∧ t.queue = s.queue ∧ (t.pc w).holds = false

theorem fetches_of_scan {s t : System n} {w : Fin n} (hpc : s.pc w = .scan)
    (h : s.work w = some t) : Fetches s w t := by
  obtain ⟨q, hst⟩ := System.stepped_work (by rw [hpc]; rfl) h
  have hself : t.pc w = q := by rw [hst.pc, Function.update_self]
  cases hst.outcome with
  | take e rest _ hdeq hnext hqueue _ =>
    obtain ⟨front, back, hq, rfl, hskip, hfront⟩ := System.takeFirst_spec hdeq
    refine .inl ⟨front, e, back, hq, ?_, ?_, hqueue, hself.trans hnext, ?_⟩
    · exact fun x hx => (System.skips_iff x).mp (hfront x hx)
    · rw [← System.skips_iff, hskip]
      simp
    · intro w' hw
      rw [hst.pc, Function.update_of_ne hw]
  | finish hnext =>
    simp [hpc] at hnext
  | giveBack f r hpc' =>
    rw [hpc] at hpc'
    cases hpc'
  | stay hheld _ hscan _ _ _ hqueue _ =>
    refine .inr ⟨fun x hx => ?_, hqueue, ?_⟩
    · exact (System.skips_iff x).mp (System.takeFirst_eq_none (hscan hpc) x hx)
    · rw [hself, hheld, hpc]
      rfl

end Books

/-- In every run each entry put into the queue waits there or was taken by one dequeue of one
worker, of its own thread if it is pinned; a search takes the first entry that is neither pinned
elsewhere nor in `EXEC` and keeps the order of the others; and the counter is the number of
workers that hold a task. -/
theorem scheduled_work_conserved (n : ℕ) (state : FiberId → State) (ms : List (Move n))
    (b : Books n)
    (hrun : Run (fun b m b' => b.move m = some b') (Books.started n state) ms b) :
    b.Kept ∧
      (∀ w t, b.sys.pc w = .scan → b.sys.work w = some t → Books.Fetches b.sys w t) ∧
      (∀ m b', b.move m = some b' → departure b.sys m = none →
        b'.sys.queue = b.sys.queue ++ arrivals b.sys m) ∧
      (∀ slots, (b.sys.scheduleAll slots).2 = slots.map fun _ => none) ∧
      ∀ w, (b.sys.pc w).holds = true → 0 < b.sys.activeThreadCount := by
  obtain ⟨hkept, hshape⟩ := Books.Kept.of_run hrun
  refine ⟨hkept, fun w t => Books.fetches_of_scan, ?_, ?_, ?_⟩
  · intro m b' hmove hdep
    rw [← hkept.queue, ← (hkept.move hshape hmove).1.queue]
    obtain ⟨t, ht, rfl⟩ := Option.map_eq_some_iff.mp hmove
    simp only [Books.enter, hdep, Ledger.entries_postAll]
  · intro slots
    rw [System.scheduleAll_eq]
  · intro w hw
    rw [hkept.active]
    exact tally_card_pos hw

-- A dead fiber, an empty slot and a callback as a batch, then a callback pinned to worker 1.
theorem scheduled_work_conserved_two :
    ∃ (ms : List (Move 2)) (b : Books 2),
      Run (fun b m b' => b.move m = some b')
        (Books.started 2 fun f => if f = 5 then .term else .init) ms b ∧
      b.sys.queue = [⟨.cb 1, some 1⟩] ∧ b.ledger.taken.map Prod.fst = [1, 0] ∧
      b.sys.holders.card = 1 := by
  have hexec : (iterate Books.move (Books.started 2 fun f => if f = 5 then .term else .init)
      [.scheduleAll [some (.fiber 5), none, some (.cb 0)], .schedule (some (.cb 1)) (some 1),
        .work 0, .work 0, .work 0, .work 1, .work 0]).map
      (fun b => (b.sys.queue, b.ledger.taken.map Prod.fst, b.sys.activeThreadCount)) =
        some ([⟨.cb 1, some 1⟩], [1, 0], 1) := by decide +kernel
  obtain ⟨b, hb, hobs⟩ := Option.map_eq_some_iff.mp hexec
  simp only [Prod.mk.injEq] at hobs
  have hrun := Run.of_iterate hb
  have hkept := (scheduled_work_conserved 2 _ _ b hrun).1
  exact ⟨_, b, hrun, hobs.1, hobs.2.1, hkept.active ▸ hobs.2.2⟩

end ApexStorm.Scheduler
