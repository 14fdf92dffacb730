import ApexStorm.Lib.Run

/-!
# Starting and owning a thread

`Thread::Thread` creates the kernel thread and waits on the semaphore of the object
until `Thread::run` has taken over what it needs from it. From then on the owner may
join, detach or destroy the object at any moment. A step is one access of either
thread to the object, or one call of the kernel.
-/

namespace ApexStorm.Thread
open Lib (Run)

inductive Owner
  -- in the constructor, before `pthread_create` and in `m_semaphore.wait()`
  | building | waiting
  -- the constructor has returned
  | owning
  -- the object is destroyed, or its constructor has thrown
  | gone
  deriving DecidableEq, Repr

inductive Child
  | absent
  | setThis | copyName | setId | setKernelName | swapCb | notify | callCb
  -- inside the callback
  | inCb
  | done
  deriving DecidableEq, Repr

structure System (β : Type) where
  owner : Owner
  child : Child
  -- the object: whether it exists, and its members
  alive : Bool
  id : ℤ
  thread : Bool
  cb : Option β
  name : List UInt8
  semaphore : ℕ
  -- the thread-local variables and the local `cb` of `run`
  tThread : Bool
  tThreadName : List UInt8
  localCb : Option β
  -- the kernel's side
  tid : ℤ
  kernelName : List UInt8
  -- successful calls of `pthread_join` and `pthread_detach`
  released : ℕ
  -- the callbacks that were called
  called : List (Option β)
  -- the object was accessed while it did not exist
  fault : Bool

inductive Move
  | create (ok : Bool)
  -- `sem_wait` takes the semaphore, or is interrupted by a signal
  | wait | interrupt
  | join (ok : Bool) | detach (ok : Bool) | destroy
  | child
  | setName (name : List UInt8)
  | return
  deriving DecidableEq, Repr

def unknown : List UInt8 := "UNKNOWN".toUTF8.data.toList

namespace System
variable {β : Type}

/-- The members of the object before the body of the constructor, for a thread that will
have the id `tid`. -/
def start (cb : Option β) (name : List UInt8) (tid : ℤ) : System β where
  owner := .building
  child := .absent
  alive := true
  id := -1
  thread := false
  cb := cb
  name := if name = [] then unknown else name
  semaphore := 0
  tThread := false
  tThreadName := unknown
  localCb := none
  tid := tid
  kernelName := []
  released := 0
  called := []
  fault := false

variable (s : System β)

def touch : System β := { s with fault := s.fault || !s.alive }

def run : Option (System β) :=
  match s.child with
  | .absent | .inCb | .done => none
  | .setThis => some { s with tThread := true, child := .copyName }
  | .copyName => some { s.touch with tThreadName := s.name, child := .setId }
  | .setId => some { s.touch with id := s.tid, child := .setKernelName }
  | .setKernelName =>
    -- `c_str` ends at the first NUL
    some { s.touch with kernelName := (s.name.take 15).takeWhile (· ≠ 0), child := .swapCb }
  | .swapCb => some { s.touch with localCb := s.cb, cb := s.localCb, child := .notify }
  | .notify => some { s.touch with semaphore := s.semaphore + 1, child := .callCb }
  | .callCb => some { s with called := s.called ++ [s.localCb], child := .inCb }

def step : Move → Option (System β)
  | .create ok =>
    if s.owner = .building then
      if ok then some { s with owner := .waiting, thread := true, child := .setThis }
      else some { s with owner := .gone, alive := false }
    else none
  | .wait =>
    if s.owner = .waiting ∧ 0 < s.semaphore then
      some { s with owner := .owning, semaphore := s.semaphore - 1 }
    else none
  -- `wait` throws, and the constructor with it: the members are destroyed
  | .interrupt =>
    if s.owner = .waiting then some { s with owner := .gone, alive := false } else none
  | .join ok =>
    if s.owner = .owning then
      if s.thread ∧ ok then
        if s.child = .done then some { s with thread := false, released := s.released + 1 }
        else none
      else some s
    else none
  | .detach ok =>
    if s.owner = .owning then
      if s.thread ∧ ok then some { s with thread := false, released := s.released + 1 }
      else some s
    else none
  | .destroy =>
    if s.owner = .owning then
      some
        { s with
          owner := .gone
          alive := false
          released := if s.thread then s.released + 1 else s.released }
    else none
  | .child => s.run
  -- the callback calls `Thread::SetName`
  | .setName name =>
    if s.child = .inCb then
      if s.tThread then some { s.touch with name := name, tThreadName := name }
      else some { s with tThreadName := name }
    else none
  | .return => if s.child = .inCb then some { s with child := .done } else none

def Step (s : System β) (m : Move) (t : System β) : Prop := s.step m = some t

end System

def Child.rank : Child → ℕ
  | .absent => 0
  | .setThis => 1
  | .copyName => 2
  | .setId => 3
  | .setKernelName => 4
  | .swapCb => 5
  | .notify => 6
  | .callCb => 7
  | .inCb => 8
  | .done => 9

def NamedLate (ms : List Move) : Prop :=
  ∃ before name after, ms = before ++ .setName name :: after ∧ .destroy ∈ before

section invariant
variable {β : Type} {cb : Option β} {name : List UInt8} {tid : ℤ} {ms : List Move} {m : Move}
  {s t : System β}

def Owned (ms : List Move) (s : System β) : Prop :=
  match s.owner with
  | .building => s.child = .absent ∧ s.alive = true ∧ s.semaphore = 0 ∧ s.released = 0 ∧
      .interrupt ∉ ms
  | .waiting => 1 ≤ s.child.rank ∧ s.alive = true ∧ s.thread = true ∧ s.released = 0 ∧
      s.semaphore = (if 7 ≤ s.child.rank then 1 else 0) ∧ .interrupt ∉ ms
  | .owning => 7 ≤ s.child.rank ∧ s.alive = true ∧ s.released = (if s.thread then 0 else 1) ∧
      .interrupt ∉ ms
  | .gone => s.alive = false ∧
      (s.child = .absent ∧ s.released = 0 ∧ .interrupt ∉ ms ∨
        7 ≤ s.child.rank ∧ s.released = 1 ∧ .interrupt ∉ ms ∧ .destroy ∈ ms ∨
        1 ≤ s.child.rank ∧ s.released = 0 ∧ .interrupt ∈ ms)

structure Taken (cb : Option β) (tid : ℤ) (s : System β) : Prop where
  kernel : s.tid = tid
  local_this : s.tThread = decide (2 ≤ s.child.rank)
  id : 4 ≤ s.child.rank → s.id = tid
  before : s.child.rank ≤ 5 → s.cb = cb ∧ s.localCb = none
  after : 6 ≤ s.child.rank → s.cb = none ∧ s.localCb = cb
  called : s.called = if 8 ≤ s.child.rank then [cb] else []

theorem Taken.of_run (h : Taken cb tid s) (hrun : s.run = some t) : Taken cb tid t := by
  obtain ⟨hkernel, hthis, hid, hbefore, hafter, hcalled⟩ := h
  rw [System.run] at hrun
  cases hchild : s.child <;> simp only [hchild, Option.some.injEq, reduceCtorEq] at hrun <;>
    subst hrun <;> constructor <;> simp_all [System.touch, Child.rank]

theorem Owned.of_run (h : Owned ms s) (hrun : s.run = some t) : Owned (ms ++ [.child]) t := by
  rw [System.run] at hrun
  cases hchild : s.child <;> simp only [hchild, Option.some.injEq, reduceCtorEq] at hrun <;>
    subst hrun <;> cases howner : s.owner <;> simp_all [System.touch, Owned, Child.rank]

theorem Taken.step (h : Taken cb tid s) (howned : Owned ms s) (hstep : s.step m = some t) :
    Taken cb tid t := by
  cases m with
  | child => exact h.of_run hstep
  | create ok =>
    simp only [System.step] at hstep
    split_ifs at hstep with howner hok <;> cases hstep
    · have hchild : s.child = .absent := by
        rw [Owned, howner] at howned
        exact howned.1
      obtain ⟨hkernel, hthis, hid, hbefore, hafter, hcalled⟩ := h
      constructor <;> simp_all [Child.rank]
    · exact ⟨h.kernel, h.local_this, h.id, h.before, h.after, h.called⟩
  | setName n =>
    simp only [System.step] at hstep
    split_ifs at hstep <;> cases hstep <;>
      exact ⟨h.kernel, h.local_this, h.id, h.before, h.after, h.called⟩
  | «return» =>
    simp only [System.step] at hstep
    split_ifs at hstep with hchild
    cases hstep
    obtain ⟨hkernel, hthis, hid, hbefore, hafter, hcalled⟩ := h
    constructor <;> simp_all [Child.rank]
  | wait | interrupt | join ok | detach ok | destroy =>
    simp only [System.step] at hstep
    split_ifs at hstep <;> cases hstep <;>
      exact ⟨h.kernel, h.local_this, h.id, h.before, h.after, h.called⟩

theorem Owned.step (h : Owned ms s) (hstep : s.step m = some t) : Owned (ms ++ [m]) t := by
  cases m with
  | child => exact h.of_run hstep
  | wait =>
    simp only [System.step] at hstep
    split_ifs at hstep with hwait
    cases hstep
    obtain ⟨howner, hpos⟩ := hwait
    rw [Owned, howner] at h
    obtain ⟨-, halive, hthread, hreleased, hsem, hcalm⟩ := h
    -- only `run` posts the semaphore
    have hnotified : 7 ≤ s.child.rank := by
      by_contra hearly
      rw [if_neg hearly] at hsem
      omega
    simp [Owned, halive, hthread, hreleased, hcalm, hnotified]
  | create ok | interrupt | join ok | detach ok | destroy | setName n | «return» =>
    simp only [System.step] at hstep
    split_ifs at hstep <;> cases hstep <;> cases howner : s.owner <;>
      simp_all [System.touch, Owned, Child.rank]

theorem NamedLate.append (h : NamedLate ms) (m : Move) : NamedLate (ms ++ [m]) := by
  obtain ⟨before, name, after, rfl, hdestroy⟩ := h
  exact ⟨before, name, after ++ [m], by simp, hdestroy⟩

/-- An access in the wrong moment goes back to an interrupted constructor or to `SetName`. -/
def Excused (ms : List Move) (s : System β) : Prop :=
  s.fault = true → .interrupt ∈ ms ∨ 8 ≤ s.child.rank ∧ NamedLate ms

theorem Owned.interrupted (h : Owned ms s) (hdead : s.alive = false) (hpos : 1 ≤ s.child.rank)
    (hrank : s.child.rank ≤ 6) : .interrupt ∈ ms := by
  cases howner : s.owner <;> simp only [Owned, howner, hdead] at h
  case gone =>
    obtain ⟨-, ⟨hchild, -, -⟩ | ⟨hlate, -, -, -⟩ | ⟨-, -, hintr⟩⟩ := h
    · simp [hchild, Child.rank] at hpos
    · omega
    · exact hintr
  all_goals simp at h

theorem Excused.of_run (h : Excused ms s) (howned : Owned ms s) (hrun : s.run = some t) :
    Excused (ms ++ [.child]) t := by
  intro hfault
  have hold : s.fault = true → .interrupt ∈ ms ++ [Move.child] ∨
      8 ≤ t.child.rank ∧ NamedLate (ms ++ [.child]) := by
    intro hs
    obtain hintr | ⟨hrank, hlate⟩ := h hs
    · exact .inl (List.mem_append_left _ hintr)
    · -- `run` has no statement after the callback
      rw [System.run] at hrun
      cases hchild : s.child <;> simp [hchild, Child.rank] at hrun hrank
  have hnew : s.alive = false → 1 ≤ s.child.rank → s.child.rank ≤ 6 →
      .interrupt ∈ ms ++ [Move.child] := fun hdead hpos hrank =>
    List.mem_append_left _ (howned.interrupted hdead hpos hrank)
  rw [System.run] at hrun
  cases hchild : s.child <;> simp only [hchild, Option.some.injEq, reduceCtorEq] at hrun <;>
    subst hrun <;> simp_all [System.touch, Child.rank] <;> grind

theorem Excused.step (h : Excused ms s) (howned : Owned ms s) (hstep : s.step m = some t) :
    Excused (ms ++ [m]) t := by
  have hkeep : s.child.rank = t.child.rank → s.fault = t.fault → Excused (ms ++ [m]) t := by
    intro hrank hfault ht
    obtain hintr | ⟨hlate, hnamed⟩ := h (hfault ▸ ht)
    · exact .inl (List.mem_append_left _ hintr)
    · exact .inr ⟨hrank ▸ hlate, hnamed.append m⟩
  cases m with
  | child => exact h.of_run howned hstep
  | create ok =>
    simp only [System.step] at hstep
    split_ifs at hstep with howner hok <;> cases hstep
    · have hchild : s.child = .absent := by
        rw [Owned, howner] at howned
        exact howned.1
      intro hfault
      obtain hintr | ⟨hlate, -⟩ := h hfault
      · exact .inl (List.mem_append_left _ hintr)
      · simp [hchild, Child.rank] at hlate
    · exact hkeep rfl rfl
  | setName n =>
    simp only [System.step] at hstep
    split_ifs at hstep with hchild hthis <;> cases hstep
    · intro hfault
      have hrank : 8 ≤ s.child.rank := by simp [hchild, Child.rank]
      simp only [System.touch, Bool.or_eq_true, Bool.not_eq_true'] at hfault
      obtain hold | hdead := hfault
      · obtain hintr | ⟨-, hlate⟩ := h hold
        · exact .inl (List.mem_append_left _ hintr)
        · exact .inr ⟨hrank, hlate.append _⟩
      · cases howner : s.owner <;> simp only [Owned, howner, hdead] at howned
        case gone =>
          obtain ⟨-, ⟨habsent, -, -⟩ | ⟨-, -, -, hdestroy⟩ | ⟨-, -, hintr⟩⟩ := howned
          · rw [hchild] at habsent
            cases habsent
          · exact .inr ⟨hrank, ms, n, [], rfl, hdestroy⟩
          · exact .inl (List.mem_append_left _ hintr)
        all_goals simp at howned
    · exact hkeep rfl rfl
  | «return» =>
    simp only [System.step] at hstep
    split_ifs at hstep with hchild
    cases hstep
    intro hfault
    obtain hintr | ⟨-, hlate⟩ := h hfault
    · exact .inl (List.mem_append_left _ hintr)
    · exact .inr ⟨by simp [Child.rank], hlate.append _⟩
  | wait | interrupt | join ok | detach ok | destroy =>
    simp only [System.step] at hstep
    split_ifs at hstep <;> cases hstep <;> exact hkeep rfl rfl

theorem invariant_run (h : Run System.Step (System.start cb name tid) ms s) :
    Taken cb tid s ∧ Owned ms s ∧ Excused ms s := by
  refine h.history (P := fun ms s => Taken cb tid s ∧ Owned ms s ∧ Excused ms s) ?_ ?_
  · rintro ms s m t ⟨htaken, howned, hexcused⟩ hstep
    exact ⟨htaken.step howned hstep, howned.step hstep, hexcused.step howned hstep⟩
  · refine ⟨?_, ?_, ?_⟩
    · constructor <;> simp [System.start, Child.rank]
    · simp [Owned, System.start]
    · simp [Excused, System.start]

/-- When the constructor has returned, `run` is done with the object. It never accesses an
object that is gone, unless the wait of the constructor was interrupted, and then it does
with every statement it has left; otherwise only `SetName` can. -/
theorem constructed_thread_is_free
    (h : Run System.Step (System.start cb name tid) ms s) :
    (s.owner = .owning →
      s.id = tid ∧ s.cb = none ∧ s.localCb = cb ∧ s.tThread = true ∧ 7 ≤ s.child.rank) ∧
      (s.fault = true → .interrupt ∈ ms ∨ NamedLate ms) ∧
      ∀ t, 2 ≤ s.child.rank → s.child.rank ≤ 6 → s.run = some t →
        (t.fault = true ↔ .interrupt ∈ ms) := by
  obtain ⟨htaken, howned, hexcused⟩ := invariant_run h
  refine ⟨fun howner => ?_, fun hfault => (hexcused hfault).imp_right And.right,
    fun t hlow hhigh hrun => ?_⟩
  · rw [Owned, howner] at howned
    have hrank := howned.1
    obtain ⟨hcb, hlocal⟩ := htaken.after (by omega)
    exact ⟨htaken.id (by omega), hcb, hlocal, by simp [htaken.local_this]; omega, hrank⟩
  · have hfault : t.fault = (s.fault || !s.alive) := by
      rw [System.run] at hrun
      cases hchild : s.child <;> simp [hchild, Child.rank] at hlow hhigh hrun <;>
        subst hrun <;> rfl
    have hold : s.fault = true → .interrupt ∈ ms := by
      intro hs
      obtain hintr | ⟨hlate, -⟩ := hexcused hs
      · exact hintr
      · omega
    have hdead : s.alive = false → .interrupt ∈ ms := fun hdead =>
      howned.interrupted hdead (by omega) hhigh
    have hlive : .interrupt ∈ ms → s.alive = false := by
      intro hintr
      cases howner : s.owner <;> simp_all [Owned]
    rw [hfault, Bool.or_eq_true, Bool.not_eq_true']
    exact ⟨fun hor => hor.elim hold hdead, fun hintr => .inr (hlive hintr)⟩

-- The owner destroys the object at once, while the callback still has to be called.
def hastyMoves : List Move :=
  [.create true, .child, .child, .child, .child, .child, .child, .wait, .destroy, .child, .return]

theorem hasty_run :
    ∃ s : System ℕ, Run System.Step (System.start (some 5) [] 7) hastyMoves s ∧
      s.owner = .gone ∧ s.child = .done :=
  ⟨_, .cons rfl <| .cons rfl <| .cons rfl <| .cons rfl <| .cons rfl <| .cons rfl <| .cons rfl <|
    .cons rfl <| .cons rfl <| .cons rfl <| .cons rfl <| .nil _, rfl, rfl⟩

theorem constructed_thread_is_free_hasty :
    ∃ s : System ℕ, Run System.Step (System.start (some 5) [] 7) hastyMoves s ∧
      s.fault = false := by
  obtain ⟨s, hrun, -, -⟩ := hasty_run
  obtain ⟨-, hfault, -⟩ := constructed_thread_is_free hrun
  refine ⟨s, hrun, ?_⟩
  rw [← Bool.not_eq_true]
  intro hs
  obtain hintr | ⟨before, n, after, hms, -⟩ := hfault hs
  · exact absurd hintr (by decide)
  · have hmem : Move.setName n ∈ hastyMoves := by rw [hms]; simp
    simp [hastyMoves] at hmem

/-- The callback is called once, and the kernel thread is joined or detached once. -/
theorem called_and_released_once (h : Run System.Step (System.start cb name tid) ms s)
    (hcalm : .interrupt ∉ ms) :
    s.called = (if s.child = .inCb ∨ s.child = .done then [cb] else []) ∧
      s.released ≤ 1 ∧ (s.owner = .owning → (s.released = 1 ↔ s.thread = false)) ∧
      (s.owner = .gone → s.child ≠ .absent → s.released = 1) := by
  obtain ⟨htaken, howned, -⟩ := invariant_run h
  refine ⟨?_, ?_, fun howner => ?_, fun howner hchild => ?_⟩
  · rw [htaken.called]
    cases s.child <;> simp [Child.rank]
  · cases howner : s.owner <;> simp only [Owned, howner] at howned
    case building => omega
    case waiting => omega
    case owning =>
      rw [howned.2.2.1]
      split_ifs <;> omega
    case gone => omega
  · rw [Owned, howner] at howned
    rw [howned.2.2.1]
    cases s.thread <;> simp
  · rw [Owned, howner] at howned
    obtain ⟨-, ⟨habsent, -⟩ | ⟨-, hreleased, -⟩ | ⟨-, -, hintr⟩⟩ := howned
    · exact absurd habsent hchild
    · exact hreleased
    · exact absurd hintr hcalm

theorem called_and_released_once_hasty :
    ∃ s : System ℕ, Run System.Step (System.start (some 5) [] 7) hastyMoves s ∧
      s.called = [some 5] ∧ s.released = 1 := by
  obtain ⟨s, hrun, howner, hchild⟩ := hasty_run
  obtain ⟨hcalled, -, -, hreleased⟩ := called_and_released_once hrun (by decide)
  rw [if_pos (.inr hchild)] at hcalled
  exact ⟨s, hrun, hcalled, hreleased howner (by simp [hchild])⟩

end invariant

end ApexStorm.Thread
