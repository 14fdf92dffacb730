import ApexStorm.IOManager.Bookkeeping

/-!
# What one batch of `epoll_wait` triggers

A round of the loop in `idle` should trigger the events that are registered for its
descriptor and reported by its own entry. It decides from the flags of the first
entry instead, which the first round may have rewritten. The batch is handled
right exactly when these flags happen to show the events that are due.
-/

namespace ApexStorm.IOManager
open Lib
open Scheduler (Task)

def has (flags : UInt32) (event : Event) : Bool := flags &&& event.mask ≠ 0

def hasError (flags : UInt32) : Bool := flags &&& (EPOLLERR ||| EPOLLHUP) ≠ 0

def reported (flags : UInt32) (event : Event) : Bool := has flags event || hasError flags

def due (c : FdContext) (flags : UInt32) (event : Event) : Bool :=
  has c.events event && reported flags event

def maskOf (S : Event → Bool) : UInt32 :=
  (if S .read then Event.read.mask else 0) ||| (if S .write then Event.write.mask else 0)

section Masks
variable {S T : Event → Bool}

@[simp] theorem has_maskOf (S : Event → Bool) (event : Event) : has (maskOf S) event = S event := by
  cases event <;> cases hr : S .read <;> cases hw : S .write <;> simp [maskOf, hr, hw] <;> decide

theorem realEvents_eq (flags : UInt32) : realEvents flags = maskOf (has flags) := by
  simp only [realEvents, maskOf, has, decide_eq_true_eq]
  rfl

theorem maskOf_and (S T : Event → Bool) : maskOf S &&& maskOf T = maskOf fun e => S e && T e := by
  cases hr : S .read <;> cases hw : S .write <;> cases tr : T .read <;> cases tw : T .write <;>
    simp [maskOf, hr, hw, tr, tw] <;> decide

theorem maskOf_andNot (S T : Event → Bool) :
    maskOf S &&& ~~~maskOf T = maskOf fun e => S e && !T e := by
  cases hr : S .read <;> cases hw : S .write <;> cases tr : T .read <;> cases tw : T .write <;>
    simp [maskOf, hr, hw, tr, tw] <;> decide

theorem maskOf_eq_zero : maskOf S = 0 ↔ ∀ event, S event = false := by
  constructor
  · intro h event
    rw [← has_maskOf S, h]
    cases event <;> rfl
  · intro h
    simp [maskOf, h]

theorem has_or (x y : UInt32) (event : Event) :
    has (x ||| y) event = (has x event || has y event) := by
  have h : (x ||| y) &&& event.mask = x &&& event.mask ||| y &&& event.mask :=
    UInt32.toBitVec_inj.mp BitVec.and_or_distrib_right
  simp [has, h, UInt32.or_eq_zero_iff]

end Masks

def Regs.minus (R : Regs) (S : Event → Bool) : Regs := fun e => if S e then none else R e

def Regs.tasks (R : Regs) (S : Event → Bool) : List (ℕ × Task) :=
  (if S .read then R.task .read else []) ++ (if S .write then R.task .write else [])

/-- The events of `S` that are registered for `fd` are triggered, and nothing else happens. -/
structure Dispatched (m : IOManager) (fd : ℕ) (R : Regs) (S : Event → Bool) (m' : IOManager) :
    Prop where
  contexts : m'.fdContexts = m.fdContexts.set fd (.ofRegs fd (R.minus S))
  scheduled : m'.scheduled = m.scheduled ++ R.tasks S
  count : m'.pendingEventCount.toNat + (R.tasks S).length = m.pendingEventCount.toNat

section Handle
variable {m : IOManager} {fd : ℕ} {R : Regs} {S T : Event → Bool} {ok : Bool}

@[simp] theorem has_ofRegs (fd : ℕ) (R : Regs) (event : Event) :
    has (FdContext.ofRegs fd R).events event = (R event).isSome :=
  has_maskOf (fun e => (R e).isSome) event

theorem mask_eq_maskOf (R : Regs) : R.mask = maskOf fun e => (R e).isSome := rfl

theorem mask_and_maskOf (R : Regs) (S : Event → Bool) :
    R.mask &&& maskOf S = 0 ↔ ∀ e, S e = true → R e = none := by
  rw [mask_eq_maskOf, maskOf_and, maskOf_eq_zero]
  apply forall_congr'
  intro e
  cases S e <;> simp

theorem mask_minus (R : Regs) (S : Event → Bool) : R.mask &&& ~~~maskOf S = (R.minus S).mask := by
  rw [mask_eq_maskOf, maskOf_andNot, mask_eq_maskOf]
  apply congrArg maskOf
  funext e
  cases hS : S e <;> simp [Regs.minus, hS]

theorem minus_eq_self (h : ∀ e, S e = true → R e = none) : R.minus S = R := by
  funext e
  rw [Regs.minus]
  split_ifs with hS
  · exact (h e hS).symm
  · rfl

theorem tasks_eq_nil (h : ∀ e, S e = true → R e = none) : R.tasks S = [] := by
  have htask : ∀ e, (if S e then R.task e else []) = [] := by
    intro e
    split_ifs with hS
    · rw [Regs.task, h e hS]
      rfl
    · rfl
  rw [Regs.tasks, htask, htask, List.append_nil]

theorem bitCount_minus (R : Regs) (S : Event → Bool) :
    bitCount (R.minus S).mask + (R.tasks S).length = bitCount R.mask := by
  cases hr : R .read <;> cases hw : R .write <;> cases sr : S .read <;> cases sw : S .write <;>
    simp [Regs.mask, Regs.minus, Regs.tasks, Regs.task, hr, hw, sr, sw] <;> decide

theorem Dispatched.of_skip (hR : m.fdContexts[fd]? = some (.ofRegs fd R))
    (h : ∀ e, S e = true → R e = none) : Dispatched m fd R S m := by
  obtain ⟨hfd, hc⟩ := List.getElem?_eq_some_iff.mp hR
  constructor
  · rw [minus_eq_self h, ← hc, List.set_getElem_self]
  · rw [tasks_eq_nil h, List.append_nil]
  · rw [tasks_eq_nil h]
    rfl

theorem handle_skip (hR : m.fdContexts[fd]? = some (.ofRegs fd R))
    (h : ∀ e, S e = true → R e = none) : m.handle fd (maskOf S) ok = some (none, m) := by
  have hzero := (mask_and_maskOf R S).mpr h
  simp only [FdContext.ofRegs] at hR
  simp [handle, hR, hzero]

theorem handle_fail (hR : m.fdContexts[fd]? = some (.ofRegs fd R))
    (h : ¬ ∀ e, S e = true → R e = none) :
    m.handle fd (maskOf S) false = some (some (EPOLLET ||| (R.minus S).mask), m) := by
  rw [← mask_and_maskOf] at h
  simp only [FdContext.ofRegs] at hR
  simp [handle, hR, h, mask_minus]

theorem maskOf_and_mask (S : Event → Bool) (e : Event) : maskOf S &&& e.mask ≠ 0 ↔ S e = true := by
  rw [← has_maskOf S e, has, decide_eq_true_eq]

theorem handle_ok (hm : Inv m) (hR : m.fdContexts[fd]? = some (.ofRegs fd R))
    (h : ¬ ∀ e, S e = true → R e = none) :
    ∃ m₁, Inv m₁ ∧ m₁.fdContexts = m.fdContexts ∧ m₁.scheduled = m.scheduled ∧
      m₁.epoll = Function.update m.epoll fd
        (interest (R.minus S) (EPOLLET ||| (R.minus S).mask)) ∧
      m.handle fd (maskOf S) true = do
        let m ← m₁.triggerIf fd .read (maskOf S)
        let m ← m.triggerIf fd .write (maskOf S)
        return (some (EPOLLET ||| (R.minus S).mask), m) := by
  rw [← mask_and_maskOf] at h
  refine ⟨m.epollCtl (if (R.minus S).mask ≠ 0 then .mod else .del) fd
    (EPOLLET ||| (R.minus S).mask), hm.epollCtl .., epollCtl_fdContexts .., epollCtl_scheduled ..,
    ?_, ?_⟩
  · rw [epollCtl_epoll, interest_eq]
  · simp only [FdContext.ofRegs] at hR
    simp [handle, hR, h, mask_minus]

theorem triggerIf_maskOf {e : Event} (hm : Inv m) (hR : m.fdContexts[fd]? = some (.ofRegs fd R))
    (hreg : S e = true → (R e).isSome) :
    ∃ m', m.triggerIf fd e (maskOf S) = some m' ∧ Inv m' ∧ m'.epoll = m.epoll ∧
      m'.fdContexts = m.fdContexts.set fd
        (.ofRegs fd (if S e = true then Function.update R e none else R)) ∧
      m'.scheduled = m.scheduled ++ if S e = true then R.task e else [] := by
  have h := @triggerIf_spec m fd e R hm hR (maskOf S) fun hb => hreg ((maskOf_and_mask S e).mp hb)
  simpa only [maskOf_and_mask] using h

theorem minus_eq_update (R : Regs) (S : Event → Bool) {R₁ : Regs}
    (hR₁ : R₁ = if S .read = true then Function.update R .read none else R) :
    (if S .write = true then Function.update R₁ .write none else R₁) = R.minus S ∧
      R₁ .write = R .write := by
  constructor
  · funext e
    cases e <;> cases hr : S .read <;> cases hw : S .write <;> simp [hR₁, Regs.minus, hr, hw]
  · cases hr : S .read <;> simp [hR₁, hr]

theorem handle_done (hm : Inv m) (hR : m.fdContexts[fd]? = some (.ofRegs fd R))
    (h : ¬ ∀ e, S e = true → R e = none) (hall : ∀ e, S e = true → (R e).isSome) :
    ∃ m', m.handle fd (maskOf S) true = some (some (EPOLLET ||| (R.minus S).mask), m') ∧
      Inv m' ∧ Dispatched m fd R S m' ∧ m'.epoll = Function.update m.epoll fd
        (interest (R.minus S) (EPOLLET ||| (R.minus S).mask)) := by
  have hfd := (List.getElem?_eq_some_iff.mp hR).1
  obtain ⟨m₁, h₁, hc₁, hs₁, he₁, hhandle⟩ := handle_ok hm hR h
  obtain ⟨m₂, ht₂, h₂, he₂, hc₂, hs₂⟩ := triggerIf_maskOf h₁ (by rwa [hc₁]) (hall .read)
  generalize hR₂ : (if S .read = true then Function.update R .read none else R) = R₂ at hc₂
  obtain ⟨hminus, hwrite⟩ := minus_eq_update R S hR₂.symm
  rw [hc₁] at hc₂
  obtain ⟨m₃, ht₃, h₃, he₃, hc₃, hs₃⟩ := triggerIf_maskOf h₂
    (by rw [hc₂]; exact List.getElem?_set_self hfd) (fun hS => by rw [hwrite]; exact hall .write hS)
  have hset : m₃.fdContexts = m.fdContexts.set fd (.ofRegs fd (R.minus S)) := by
    rw [hc₃, hc₂, hminus, List.set_set]
  refine ⟨m₃, ?_, h₃, ⟨hset, ?_, ?_⟩, by rw [he₃, he₂, he₁]⟩
  · rw [hhandle, ht₂]
    simp [ht₃]
  · rw [hs₃, hs₂, hs₁, List.append_assoc, Regs.tasks, Regs.task, Regs.task, hwrite]
    rfl
  · have hcount := hm.count_set h₃ hR hset
    have hbits := bitCount_minus R S
    omega

theorem triggerIf_abort (hR : m.fdContexts[fd]? = some (.ofRegs fd R)) {e : Event} (hS : S e = true)
    (hnone : R e = none) : m.triggerIf fd e (maskOf S) = none := by
  have hzero : (FdContext.ofRegs fd R).events &&& e.mask = 0 := (R.mask_and_eq_zero e).mpr hnone
  rw [triggerIf, if_pos ((maskOf_and_mask S e).mpr hS)]
  simp [trigger, hR, FdContext.triggerEvent, hzero]

theorem handle_abort (hm : Inv m) (hR : m.fdContexts[fd]? = some (.ofRegs fd R))
    (h : ¬ ∀ e, S e = true → R e = none) (hall : ¬ ∀ e, S e = true → (R e).isSome) :
    m.handle fd (maskOf S) true = none := by
  have hfd := (List.getElem?_eq_some_iff.mp hR).1
  obtain ⟨m₁, h₁, hc₁, -, -, hhandle⟩ := handle_ok hm hR h
  rw [← hc₁] at hR hfd
  rw [hhandle]
  by_cases hread : S .read = true → (R .read).isSome
  · obtain ⟨m₂, ht₂, -, -, hc₂, -⟩ := triggerIf_maskOf h₁ hR hread
    generalize hR₂ : (if S .read = true then Function.update R .read none else R) = R₂ at hc₂
    have hwrite : S .write = true ∧ R .write = none := by
      by_contra hw
      apply hall
      intro e hS
      cases e with
      | read => exact hread hS
      | write => exact Option.isSome_iff_ne_none.mpr fun hn => hw ⟨hS, hn⟩
    have habort : m₂.triggerIf fd .write (maskOf S) = none :=
      triggerIf_abort (by rw [hc₂]; exact List.getElem?_set_self hfd) hwrite.1
        ((minus_eq_update R S hR₂.symm).2.trans hwrite.2)
    rw [ht₂]
    simp [habort]
  · obtain ⟨hS, hn⟩ := Classical.not_imp.mp hread
    rw [triggerIf_abort hR hS (by simpa using hn)]
    rfl

inductive Handled (m : IOManager) (fd : ℕ) (R : Regs) (S : Event → Bool) :
    Bool → Option (Option UInt32 × IOManager) → Prop
  | skip {ok : Bool} (hskip : ∀ e, S e = true → R e = none) : Handled m fd R S ok (some (none, m))
  | fail (hseen : ¬ ∀ e, S e = true → R e = none) :
      Handled m fd R S false (some (some (EPOLLET ||| (R.minus S).mask), m))
  | done {m' : IOManager} (hseen : ¬ ∀ e, S e = true → R e = none)
      (hall : ∀ e, S e = true → (R e).isSome) (hinv : Inv m') (hd : Dispatched m fd R S m')
      (hepoll : m'.epoll = Function.update m.epoll fd
        (interest (R.minus S) (EPOLLET ||| (R.minus S).mask))) :
      Handled m fd R S true (some (some (EPOLLET ||| (R.minus S).mask), m'))
  | abort (hseen : ¬ ∀ e, S e = true → R e = none)
      (hall : ¬ ∀ e, S e = true → (R e).isSome) : Handled m fd R S true none

theorem handled (hm : Inv m) (hR : m.fdContexts[fd]? = some (.ofRegs fd R)) (S : Event → Bool)
    (ok : Bool) : Handled m fd R S ok (m.handle fd (maskOf S) ok) := by
  by_cases hskip : ∀ e, S e = true → R e = none
  · rw [handle_skip hR hskip]
    exact .skip hskip
  · cases ok with
    | false =>
      rw [handle_fail hR hskip]
      exact .fail hskip
    | true =>
      by_cases hall : ∀ e, S e = true → (R e).isSome
      · obtain ⟨m', hhandle, hinv, hd, hepoll⟩ := handle_done hm hR hskip hall
        rw [hhandle]
        exact .done hskip hall hinv hd hepoll
      · rw [handle_abort hm hR hskip hall]
        exact .abort hskip hall

theorem handle_state (hm : Inv m) (hR : m.fdContexts[fd]? = some (.ofRegs fd R))
    {r : Option UInt32 × IOManager} (hr : m.handle fd (maskOf S) ok = some r) :
    r.2 = m ∨ Inv r.2 ∧ Dispatched m fd R S r.2 ∧ r.2.epoll = Function.update m.epoll fd
      (interest (R.minus S) (EPOLLET ||| (R.minus S).mask)) := by
  have h := handled hm hR S ok
  rw [hr] at h
  cases h with
  | skip hskip => exact .inl rfl
  | fail hseen => exact .inl rfl
  | done hseen hall hinv hd hepoll => exact .inr ⟨hinv, hd, hepoll⟩

theorem handle_flags (hm : Inv m) (hR : m.fdContexts[fd]? = some (.ofRegs fd R))
    {r : Option UInt32 × IOManager} (hr : m.handle fd (maskOf S) ok = some r) :
    (∀ e, S e = true → R e = none) ∧ r.1 = none ∨
      (¬ ∀ e, S e = true → R e = none) ∧ r.1 = some (EPOLLET ||| (R.minus S).mask) := by
  have h := handled hm hR S ok
  rw [hr] at h
  cases h with
  | skip hskip => exact .inl ⟨hskip, rfl⟩
  | fail hseen => exact .inr ⟨hseen, rfl⟩
  | done hseen hall hinv hd hepoll => exact .inr ⟨hseen, rfl⟩

end Handle

theorem EventContext.ofReg_injective : Function.Injective EventContext.ofReg := by
  rintro (_ | ⟨s, _ | _⟩) (_ | ⟨s', _ | _⟩) h <;> simp_all [EventContext.ofReg, EventContext.empty]

theorem FdContext.ofRegs_injective (i : ℕ) : Function.Injective (ofRegs i) := by
  intro R R' h
  simp only [ofRegs, FdContext.mk.injEq] at h
  funext e
  cases e with
  | read => exact EventContext.ofReg_injective h.1
  | write => exact EventContext.ofReg_injective h.2.1

/-- The events shown by the flags `base` are those due, or nothing is due and nothing is done. -/
def LaterOk (c : FdContext) (base flags : UInt32) (ok : Bool) : Prop :=
  ok = true ∧ (∀ e, has base e = due c flags e) ∨
    (∀ e, due c flags e = false) ∧ (ok = false ∨ ∀ e, has c.events e = true → has base e = false)

/-- The first entry sees its own flags: what they show has to be registered. -/
def FirstOk (c : FdContext) (flags : UInt32) (ok : Bool) : Prop :=
  ok = true ∧ (∀ e, has flags e = true → has c.events e = true) ∨ ∀ e, due c flags e = false

def noted (c : FdContext) (flags : UInt32) : UInt32 :=
  if hasError flags then flags ||| (EPOLLIN ||| EPOLLOUT) &&& c.events else flags

section Rounds
variable {m : IOManager} {fd : ℕ} {R R' : Regs} {S T : Event → Bool} {ok : Bool}

theorem minus_inj_iff : R.minus S = R.minus T ↔ ∀ e, (R e).isSome → S e = T e := by
  rw [funext_iff]
  apply forall_congr'
  intro e
  cases hR : R e <;> cases hS : S e <;> cases hT : T e <;> simp [Regs.minus, hR, hS, hT]

theorem tasks_congr (h : ∀ e, (R e).isSome → S e = T e) : R.tasks S = R.tasks T := by
  have htask : ∀ e, (if S e then R.task e else []) = if T e then R.task e else [] := by
    intro e
    cases hR : R e with
    | none => simp [Regs.task, hR]
    | some g => rw [h e (by simp [hR])]
  rw [Regs.tasks, Regs.tasks, htask, htask]

theorem Dispatched.congr {m' : IOManager} (hd : Dispatched m fd R S m')
    (h : ∀ e, (R e).isSome → S e = T e) : Dispatched m fd R T m' := by
  obtain ⟨hc, hs, hn⟩ := hd
  rw [minus_inj_iff.mpr h] at hc
  rw [tasks_congr h] at hs hn
  exact ⟨hc, hs, hn⟩

theorem Dispatched.agree {m' : IOManager} (hfd : fd < m.fdContexts.length)
    (hS : Dispatched m fd R S m') (hT : Dispatched m fd R T m') :
    ∀ e, (R e).isSome → S e = T e := by
  rw [← minus_inj_iff]
  apply FdContext.ofRegs_injective fd
  have h := congrArg (·[fd]?) (hS.contexts.symm.trans hT.contexts)
  simpa [List.getElem?_set_self hfd] using h

theorem Dispatched.exists_iff {o : Option (Option UInt32 × IOManager)} {flags : Option UInt32}
    {m' : IOManager} (hfd : fd < m.fdContexts.length) (ho : o = some (flags, m'))
    (hS : Dispatched m fd R S m') :
    (∃ r, o = some r ∧ Dispatched m fd R T r.2) ↔ ∀ e, (R e).isSome → S e = T e := by
  constructor
  · rintro ⟨r, hr, hT⟩
    obtain rfl := Option.some.inj (ho.symm.trans hr)
    exact hS.agree hfd hT
  · intro h
    exact ⟨_, ho, hS.congr h⟩

theorem handle_iff (hm : Inv m) (hR : m.fdContexts[fd]? = some (.ofRegs fd R))
    (base flags : UInt32) :
    (∃ r, m.handle fd (realEvents base) ok = some r ∧ Dispatched m fd R (reported flags) r.2) ↔
      LaterOk (.ofRegs fd R) base flags ok := by
  have hfd := (List.getElem?_eq_some_iff.mp hR).1
  have hseen_some (h : ¬ ∀ e, has base e = true → R e = none) :
      ∃ e, has base e = true ∧ (R e).isSome := by
    simpa [Option.isSome_iff_ne_none] using h
  simp only [realEvents_eq, LaterOk, due, has_ofRegs]
  have h := handled hm hR (has base) ok
  generalize m.handle fd (maskOf (has base)) ok = o at h ⊢
  cases h with
  | skip hskip =>
    rw [Dispatched.exists_iff hfd rfl (.of_skip hR hskip)]
    have hnone : ∀ e, (R e).isSome → has base e = false := by
      intro e he
      by_contra hb
      simp [hskip e (by simpa using hb)] at he
    grind
  | fail hseen =>
    have := hseen_some hseen
    rw [Dispatched.exists_iff hfd rfl (.of_skip hR (S := fun _ => false) nofun)]
    grind
  | done hseen hall hinv hd hepoll =>
    have := hseen_some hseen
    rw [Dispatched.exists_iff hfd rfl hd]
    grind
  | abort hseen hall =>
    have := hseen_some hseen
    grind

theorem noted_has (c : FdContext) (flags : UInt32) (e : Event) :
    has (noted c flags) e = (has flags e || hasError flags && has c.events e) := by
  have hand : ((EPOLLIN ||| EPOLLOUT) &&& c.events) &&& e.mask = c.events &&& e.mask := by
    rw [UInt32.and_comm (EPOLLIN ||| EPOLLOUT), UInt32.and_assoc]
    cases e <;> rfl
  rw [noted]
  split_ifs with herror
  · rw [has_or, herror, Bool.true_and]
    simp [has, hand]
  · simp [herror]

theorem firstOk_iff (c : FdContext) (flags : UInt32) (ok : Bool) :
    LaterOk c (noted c flags) flags ok ↔ FirstOk c flags ok := by
  simp only [LaterOk, FirstOk, noted_has, due, reported]
  grind

theorem noted_of_not_due {c : FdContext} {flags : UInt32} (hc : c = .ofRegs fd R)
    (h : ∀ e, due c flags e = false) : noted c flags = flags := by
  rw [noted]
  split_ifs with herror
  · have hzero : c.events = 0 := by
      rw [hc]
      apply Regs.mask_eq_zero.mpr
      intro e
      simpa [due, reported, herror, hc] using h e
    rw [hzero, UInt32.and_zero, UInt32.or_zero]
  · rfl

theorem dispatchEntry_ptr {events : List EpollEvent} {i : ℕ} {flags : UInt32} {c : FdContext}
    (hi : events[i]? = some ⟨flags, .ptr fd⟩) (hc : m.fdContexts[fd]? = some c) {first : EpollEvent}
    (hfirst : (events.set i ⟨noted c flags, .ptr fd⟩)[0]? = some first) :
    m.dispatchEntry events i ok =
      (m.handle fd (realEvents first.events) ok).map fun r =>
        (events.set i ⟨r.1.getD (noted c flags), .ptr fd⟩, r.2) := by
  have hnoted : (if flags &&& (EPOLLERR ||| EPOLLHUP) ≠ 0 then
      ({ events := flags ||| (EPOLLIN ||| EPOLLOUT) &&& c.events, data := .ptr fd } : EpollEvent)
      else ⟨flags, .ptr fd⟩) = ⟨noted c flags, .ptr fd⟩ := by
    rw [noted, hasError]
    split_ifs <;> simp_all
  simp only [dispatchEntry, hi, hc, Option.bind_eq_bind, Option.bind_some, hnoted, hfirst]
  rcases m.handle fd (realEvents first.events) ok with _ | ⟨_ | flags', m'⟩
  · rfl
  · rfl
  · simp

end Rounds

/-- What processing the entry `e` should do to the state `m` found when the lock is taken. -/
def Right (m : IOManager) (e : EpollEvent) (m' : IOManager) : Prop :=
  match e.data with
  | .tickle => m' = m
  | .ptr fd => ∃ R, m.fdContexts[fd]? = some (.ofRegs fd R) ∧
      Dispatched m fd R (reported e.events) m'

inductive AllRight : List EpollEvent → List (IOManager × Bool) → List IOManager → Prop
  | nil : AllRight [] [] []
  | cons {m m' : IOManager} {e : EpollEvent} {ok : Bool} {es : List EpollEvent}
      {rounds : List (IOManager × Bool)} {ms : List IOManager} :
      Right m e m' → AllRight es rounds ms → AllRight (e :: es) ((m, ok) :: rounds) (m' :: ms)

/-- What `epoll_wait` and the other threads guarantee about a round. -/
def Found (e : EpollEvent) (r : IOManager × Bool) : Prop :=
  Inv r.1 ∧ ∀ fd, e.data = .ptr fd → fd < r.1.fdContexts.length

/-- The flags that the first entry shows to the later rounds. -/
def shown (m : IOManager) (e : EpollEvent) : UInt32 :=
  match e.data with
  | .tickle => e.events
  | .ptr fd =>
    match m.fdContexts[fd]? with
    | none => e.events
    | some c =>
      if due c e.events .read || due c e.events .write then
        EPOLLET ||| maskOf fun event => has c.events event && !due c e.events event
      else e.events

def FirstRound (e : EpollEvent) (r : IOManager × Bool) : Prop :=
  ∀ fd c, e.data = .ptr fd → r.1.fdContexts[fd]? = some c → FirstOk c e.events r.2

def LaterRound (base : UInt32) (e : EpollEvent) (r : IOManager × Bool) : Prop :=
  ∀ fd c, e.data = .ptr fd → r.1.fdContexts[fd]? = some c → LaterOk c base e.events r.2

def BatchOk : List EpollEvent → List (IOManager × Bool) → Prop
  | e :: es, r :: rounds => FirstRound e r ∧ List.Forall₂ (LaterRound (shown r.1 e)) es rounds
  | _, _ => True

section Batch
variable {m : IOManager} {ok : Bool} {i : ℕ} {e first : EpollEvent} {events es : List EpollEvent}
variable {rounds : List (IOManager × Bool)}

theorem Found.regs {r : IOManager × Bool} {fd : ℕ} (h : Found e r) (hfd : e.data = .ptr fd) :
    ∃ R, r.1.fdContexts[fd]? = some (.ofRegs fd R) :=
  h.1.get (h.2 fd hfd)

theorem dispatchEntry_tickle (hi : events[i]? = some e) (he : e.data = .tickle) :
    m.dispatchEntry events i ok = some (events, m) := by
  simp [dispatchEntry, hi, he]

theorem right_iff (hf : Found e (m, ok)) (hi : events[i]? = some e) {base : FdContext → EpollEvent}
    (hbase : ∀ c, (events.set i ⟨noted c e.events, e.data⟩)[0]? = some (base c)) :
    (∃ r, m.dispatchEntry events i ok = some r ∧ Right m e r.2) ↔
      ∀ fd c, e.data = .ptr fd → m.fdContexts[fd]? = some c →
        LaterOk c (base c).events e.events ok := by
  obtain ⟨flags, data⟩ := e
  cases data with
  | tickle => simp [dispatchEntry_tickle hi rfl, Right]
  | ptr fd =>
    obtain ⟨R, hR⟩ := hf.regs rfl
    have hiff := @handle_iff m fd R ok hf.1 hR (base (.ofRegs fd R)).events flags
    rw [dispatchEntry_ptr hi hR (hbase _)]
    constructor
    · rintro ⟨r, hr, R', hR', hd⟩ fd' c hfd hc
      obtain rfl : fd = fd' := by simpa using hfd
      obtain rfl := Option.some.inj (hR.symm.trans hc)
      obtain rfl := FdContext.ofRegs_injective fd (Option.some.inj (hR'.symm.trans hR))
      obtain ⟨x, hx, rfl⟩ := Option.map_eq_some_iff.mp hr
      exact hiff.mp ⟨x, hx, hd⟩
    · intro h
      obtain ⟨x, hx, hd⟩ := hiff.mpr (h fd _ rfl hR)
      exact ⟨_, by rw [hx]; rfl, R, hR, hd⟩

theorem dispatchEntry_set (hf : Found e (m, ok)) (hi : events[i]? = some e)
    (h0 : events[0]?.isSome) {r : List EpollEvent × IOManager}
    (h : m.dispatchEntry events i ok = some r) : ∃ e', r.1 = events.set i e' := by
  obtain ⟨flags, data⟩ := e
  cases data with
  | tickle =>
    rw [dispatchEntry_tickle hi rfl] at h
    obtain rfl := Option.some.inj h
    obtain ⟨hlt, he⟩ := List.getElem?_eq_some_iff.mp hi
    exact ⟨events[i], by simp⟩
  | ptr fd =>
    obtain ⟨R, hR⟩ := hf.regs rfl
    obtain ⟨first, hfirst⟩ := Option.isSome_iff_exists.mp
      (show (events.set i ⟨noted (.ofRegs fd R) flags, .ptr fd⟩)[0]?.isSome by simpa using h0)
    rw [dispatchEntry_ptr hi hR hfirst] at h
    obtain ⟨x, -, rfl⟩ := Option.map_eq_some_iff.mp h
    exact ⟨_, rfl⟩

theorem dispatch_cons_iff :
    (∃ ms, dispatch events i ((m, ok) :: rounds) = some ms ∧
      AllRight (e :: es) ((m, ok) :: rounds) ms) ↔
    ∃ r, (m.dispatchEntry events i ok = some r ∧ Right m e r.2) ∧
      ∃ ms, dispatch r.1 (i + 1) rounds = some ms ∧ AllRight es rounds ms := by
  constructor
  · rintro ⟨_, hd, hright⟩
    cases hright with
    | cons hr htail =>
      simp only [dispatch, Option.bind_eq_bind, Option.bind_eq_some_iff, Option.pure_def,
        Option.some.injEq, List.cons.injEq] at hd
      obtain ⟨r, hentry, ms, hms, rfl, rfl⟩ := hd
      exact ⟨r, ⟨hentry, hr⟩, ms, hms, htail⟩
  · rintro ⟨r, ⟨hentry, hr⟩, ms, hms, htail⟩
    exact ⟨r.2 :: ms, by simp [dispatch, hentry, hms], .cons hr htail⟩

theorem dispatch_later_iff (hi : 0 < i) (hfirst : events[0]? = some first)
    (hdrop : events.drop i = es) (hfound : List.Forall₂ Found es rounds) :
    (∃ ms, dispatch events i rounds = some ms ∧ AllRight es rounds ms) ↔
      List.Forall₂ (LaterRound first.events) es rounds := by
  induction hfound generalizing i events with
  | nil => simp [dispatch, AllRight.nil]
  | @cons e r es rounds hf _ ih =>
    obtain ⟨m, ok⟩ := r
    have he : events[i]? = some e := by
      rw [← List.head?_drop, hdrop]
      rfl
    have hrest : events.drop (i + 1) = es := by
      rw [← List.tail_drop, hdrop]
      rfl
    have hround : (∃ r, m.dispatchEntry events i ok = some r ∧ Right m e r.2) ↔
        LaterRound first.events e (m, ok) := by
      apply right_iff hf he
      intro c
      rwa [List.getElem?_set_ne hi.ne']
    rw [dispatch_cons_iff, List.forall₂_cons, ← hround]
    constructor
    · rintro ⟨r, hr, htail⟩
      obtain ⟨e', he'⟩ := dispatchEntry_set hf he (by rw [hfirst]; rfl) hr.1
      refine ⟨⟨r, hr⟩, (ih (Nat.succ_pos i) ?_ ?_).mp htail⟩
      · rwa [he', List.getElem?_set_ne hi.ne']
      · rw [he', List.drop_set_of_lt (Nat.lt_succ_self i), hrest]
    · rintro ⟨⟨r, hr⟩, htail⟩
      obtain ⟨e', he'⟩ := dispatchEntry_set hf he (by rw [hfirst]; rfl) hr.1
      refine ⟨r, hr, (ih (Nat.succ_pos i) ?_ ?_).mpr htail⟩
      · rwa [he', List.getElem?_set_ne hi.ne']
      · rw [he', List.drop_set_of_lt (Nat.lt_succ_self i), hrest]

theorem dispatchEntry_first (hf : Found e (m, ok)) {r : List EpollEvent × IOManager}
    (h : m.dispatchEntry (e :: es) 0 ok = some r) :
    ∃ e', r.1 = e' :: es ∧ e'.events = shown m e := by
  obtain ⟨flags, data⟩ := e
  cases data with
  | tickle =>
    rw [dispatchEntry_tickle rfl rfl] at h
    obtain rfl := Option.some.inj h
    exact ⟨_, rfl, rfl⟩
  | ptr fd =>
    obtain ⟨R, hR⟩ := hf.regs rfl
    rw [dispatchEntry_ptr rfl hR rfl, realEvents_eq] at h
    obtain ⟨x, hx, rfl⟩ := Option.map_eq_some_iff.mp h
    have hdue : ∀ e, has (noted (.ofRegs fd R) flags) e = true ∧ (R e).isSome ↔
        due (.ofRegs fd R) flags e = true := by
      intro e
      simp only [noted_has, due, reported, has_ofRegs]
      grind
    refine ⟨_, rfl, ?_⟩
    have hshown : shown m ⟨flags, .ptr fd⟩ = if due (.ofRegs fd R) flags .read ||
        due (.ofRegs fd R) flags .write then EPOLLET ||| maskOf fun event =>
          has (FdContext.ofRegs fd R).events event && !due (.ofRegs fd R) flags event
        else flags := by
      simp only [shown, hR]
    rw [hshown]
    rcases handle_flags hf.1 hR hx with ⟨hskip, hx⟩ | ⟨hskip, hx⟩
    · have hnone : ∀ e, due (.ofRegs fd R) flags e = false := by
        intro e
        rw [Bool.eq_false_iff, ne_eq, ← hdue]
        rintro ⟨hn, he⟩
        simp [hskip e hn] at he
      simp [hx, hnone, noted_of_not_due rfl hnone]
    · have hsome : (due (.ofRegs fd R) flags .read || due (.ofRegs fd R) flags .write) = true := by
        by_contra hn
        apply hskip
        intro e he
        by_contra hreg
        have := (hdue e).mp ⟨he, Option.isSome_iff_ne_none.mpr hreg⟩
        cases e <;> simp [this] at hn
      rw [if_pos hsome, hx, mask_eq_maskOf]
      apply congrArg (EPOLLET ||| maskOf ·)
      funext e
      have := hdue e
      simp only [has_ofRegs, Regs.minus]
      grind

/-- A batch is handled right exactly if the flags in the first entry show, in every round, the
events that are due. -/
theorem batch_right_iff (hfound : List.Forall₂ Found events rounds) :
    (∃ ms, dispatch events 0 rounds = some ms ∧ AllRight events rounds ms) ↔
      BatchOk events rounds := by
  cases hfound with
  | nil => simp [dispatch, AllRight.nil, BatchOk]
  | @cons e r es rounds hf hfound =>
    obtain ⟨m, ok⟩ := r
    have hround : (∃ r, m.dispatchEntry (e :: es) 0 ok = some r ∧ Right m e r.2) ↔
        FirstRound e (m, ok) := by
      have h := @right_iff m ok 0 e (e :: es) hf rfl (fun c => ⟨noted c e.events, e.data⟩)
        fun c => rfl
      simpa only [firstOk_iff, FirstRound] using h
    have hlater := fun e' =>
      @dispatch_later_iff 1 e' (e' :: es) es rounds Nat.one_pos rfl rfl hfound
    rw [dispatch_cons_iff, BatchOk, ← hround]
    constructor
    · rintro ⟨r, hr, htail⟩
      obtain ⟨e', he', hshown⟩ := dispatchEntry_first hf hr.1
      rw [← hshown]
      rw [he'] at htail
      exact ⟨⟨r, hr⟩, (hlater e').mp htail⟩
    · rintro ⟨⟨r, hr⟩, htail⟩
      obtain ⟨e', he', hshown⟩ := dispatchEntry_first hf hr.1
      rw [← hshown] at htail
      refine ⟨r, hr, ?_⟩
      rw [he']
      exact (hlater e').mpr htail

end Batch

-- The byte in the pipe is reported before the descriptor, with the same flags.
theorem batch_right_iff_read :
    ∃ m ms, (∃ c, m.fdContexts[5]? = some c ∧ has c.events .read = true) ∧
      dispatch [⟨EPOLLIN, .tickle⟩, ⟨EPOLLIN, .ptr 5⟩] 0 [(m, true), (m, true)] = some ms ∧
      AllRight [⟨EPOLLIN, .tickle⟩, ⟨EPOLLIN, .ptr 5⟩] [(m, true), (m, true)] ms := by
  have hinit := Inv.initial 3
  have hlt : 5 < (initial 3).fdContexts.length := by decide
  obtain ⟨m, -, hr, -⟩ := @addEvent_spec (initial 3) 5 .read (fun _ => none) ⟨0, .cb 1⟩ _
    ⟨some 0, 0, true⟩ 0 (hinit.reserve_eq hlt) rfl rfl (some 1) rfl rfl rfl
  have hget := hr.get
  have hm := hinit.of_registered hr
  have htickle : Found ⟨EPOLLIN, .tickle⟩ (m, true) := ⟨hm, nofun⟩
  have hfound : Found ⟨EPOLLIN, .ptr 5⟩ (m, true) := by
    refine ⟨hm, fun fd hfd => ?_⟩
    obtain rfl : 5 = fd := by simpa using hfd
    exact (List.getElem?_eq_some_iff.mp hget).1
  have hok : BatchOk [⟨EPOLLIN, .tickle⟩, ⟨EPOLLIN, .ptr 5⟩] [(m, true), (m, true)] := by
    refine ⟨nofun, .cons (fun fd c hfd hc => .inl ⟨rfl, fun e => ?_⟩) .nil⟩
    obtain rfl : 5 = fd := by simpa using hfd
    obtain rfl := Option.some.inj (hget.symm.trans hc)
    change has EPOLLIN e = due _ EPOLLIN e
    rw [due, has_ofRegs]
    cases e <;> decide
  obtain ⟨ms, hms⟩ := (batch_right_iff (.cons htickle (.cons hfound .nil))).mpr hok
  exact ⟨m, ms, ⟨_, hget, by rw [has_ofRegs]; rfl⟩, hms⟩

/-- Two descriptors are ready at once: after the first one has been handled, the first entry holds
no flags, and the write event of the second one is dropped. -/
theorem second_entry_dropped :
    ((iterate exec (initial 3) [.addEvent 5 .read (some 1) ⟨some 0, 0, true⟩ true,
        .addEvent 6 .write (some 2) ⟨some 0, 0, true⟩ true]).bind fun m =>
      (m.dispatchEntry [⟨EPOLLIN, .ptr 5⟩, ⟨EPOLLOUT, .ptr 6⟩] 0 true).bind fun r =>
      (r.2.dispatchEntry r.1 1 true).map fun r' =>
        (r'.2.scheduled, r'.2.fdContexts[6]?, r'.2.pendingEventCount)) =
    some ([(0, .cb 1)], some ⟨.empty, ⟨some 0, none, some 2⟩, 6, Event.write.mask⟩, 1) := by
  decide +kernel

end ApexStorm.IOManager
