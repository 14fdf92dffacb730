import ApexStorm.IOManager.Basic
import ApexStorm.Lib.Resize

/-!
# What the counter, the masks and the event contexts say about each other

A descriptor has at most one registration per event: a scheduler together with the
fiber or the callback to run. `FdContext.ofRegs` is the only way to write a set of
registrations into a context, and every call keeps all contexts of this form and
the counter equal to the number of registrations.
-/

namespace ApexStorm.IOManager
open Lib
open Scheduler (Task)

structure Registration where
  scheduler : ℕ
  task : Task
  deriving DecidableEq, Repr

def EventContext.ofReg : Option Registration → EventContext
  | none => .empty
  | some ⟨s, .fiber f⟩ => ⟨some s, some f, none⟩
  | some ⟨s, .cb f⟩ => ⟨some s, none, some f⟩

abbrev Regs := Event → Option Registration

def Regs.mask (R : Regs) : UInt32 :=
  (if (R .read).isSome then Event.read.mask else 0) |||
    (if (R .write).isSome then Event.write.mask else 0)

def Regs.task (R : Regs) (event : Event) : List (ℕ × Task) :=
  (R event).toList.map fun g => (g.scheduler, g.task)

def FdContext.ofRegs (i : ℕ) (R : Regs) : FdContext :=
  ⟨.ofReg (R .read), .ofReg (R .write), i, R.mask⟩

def bitCount (events : UInt32) : ℕ :=
  (if events &&& Event.read.mask ≠ 0 then 1 else 0) +
    (if events &&& Event.write.mask ≠ 0 then 1 else 0)

namespace Regs
variable {R : Regs} {event : Event} {g : Registration}

theorem mask_and_eq_zero (R : Regs) (event : Event) :
    R.mask &&& event.mask = 0 ↔ R event = none := by
  cases event <;> cases hr : R .read <;> cases hw : R .write <;> simp [mask, hr, hw] <;> decide

theorem isSome_of_mask (R : Regs) (event : Event) (h : R.mask &&& event.mask ≠ 0) :
    (R event).isSome := by
  rwa [ne_eq, mask_and_eq_zero, ← ne_eq, Option.ne_none_iff_isSome] at h

theorem mask_eq_zero : R.mask = 0 ↔ ∀ event, R event = none := by
  constructor
  · intro h event
    rw [← mask_and_eq_zero, h]
    cases event <;> rfl
  · intro h
    simp [mask, h]

theorem mask_or (R : Regs) (event : Event) (g : Registration) :
    R.mask ||| event.mask = mask (Function.update R event (some g)) := by
  cases event <;> cases hr : R .read <;> cases hw : R .write <;>
    simp [mask, hr, hw] <;> decide

theorem mask_andNot (R : Regs) (event : Event) :
    R.mask &&& ~~~event.mask = mask (Function.update R event none) := by
  cases event <;> cases hr : R .read <;> cases hw : R .write <;>
    simp [mask, hr, hw] <;> decide

theorem bitCount_register (h : R event = none) :
    bitCount (mask (Function.update R event (some g))) = bitCount R.mask + 1 := by
  cases event <;> cases hr : R .read <;> cases hw : R .write <;>
    simp_all [mask] <;> decide

theorem bitCount_unregister (h : (R event).isSome) :
    bitCount (mask (Function.update R event none)) + 1 = bitCount R.mask := by
  cases event <;> cases hr : R .read <;> cases hw : R .write <;>
    simp_all [mask] <;> decide

end Regs

namespace FdContext
variable {i : ℕ} {R : Regs} {event : Event} {g : Registration}

theorem getContext_ofRegs (i : ℕ) (R : Regs) (event : Event) :
    (ofRegs i R).getContext event = .ofReg (R event) := by
  cases event <;> rfl

theorem setContext_ofRegs (i : ℕ) (R : Regs) (event : Event) (x : Option Registration) :
    FdContext.setContext { ofRegs i R with events := Regs.mask (Function.update R event x) } event
      (.ofReg x) = ofRegs i (Function.update R event x) := by
  cases event <;> simp [setContext, ofRegs]

theorem triggerEvent_ofRegs (hg : R event = some g) :
    (ofRegs i R).triggerEvent event =
      some (ofRegs i (Function.update R event none), [(g.scheduler, g.task)]) := by
  have hset : (ofRegs i R).events &&& event.mask ≠ 0 := by
    rw [ne_eq, ofRegs, Regs.mask_and_eq_zero, hg]
    simp
  have hrest := setContext_ofRegs i R event none
  have hctx : FdContext.getContext
      { ofRegs i R with events := Regs.mask (Function.update R event none) } event =
      .ofReg (some g) := by
    rw [← hg]
    cases event <;> rfl
  obtain ⟨s, task⟩ := g
  rw [triggerEvent, if_neg hset,
    show (ofRegs i R).events &&& ~~~event.mask = _ from Regs.mask_andNot R event]
  cases task with
  | fiber f => simp [hctx, EventContext.ofReg, ← hrest, EventContext.empty]
  | cb f => simp [hctx, EventContext.ofReg, ← hrest, EventContext.empty]

theorem new_eq (hi : i < 2 ^ 31) : new i = ofRegs i fun _ => none := by
  rw [new, toInt_of_lt hi]
  rfl

end FdContext

theorem contextResize_getElem? {l : List FdContext} {size : ℕ} (h : l.length ≤ size) (i : ℕ) :
    (contextResize l size)[i]? =
      if i < l.length then l[i]? else if i < size then some (.new i) else none :=
  getElem?_resize h i

@[simp] theorem length_contextResize (l : List FdContext) (size : ℕ) :
    (contextResize l size).length = size :=
  length_resize _ _ _

theorem sum_bitCount_contextResize {l : List FdContext} {size : ℕ} (h : l.length ≤ size) :
    ((contextResize l size).map fun c => bitCount c.events).sum =
      (l.map fun c => bitCount c.events).sum := by
  have hnew : ∀ i, bitCount (FdContext.new i).events = 0 := fun i => by
    show bitCount 0 = 0
    decide
  simp [contextResize, List.take_of_length_le h, Function.comp_def, hnew]

theorem sum_map_set {α : Type*} (f : α → ℕ) {l : List α} {i : ℕ} {x y : α} (h : l[i]? = some x) :
    ((l.set i y).map f).sum + f x = (l.map f).sum + f y := by
  induction l generalizing i with
  | nil => simp at h
  | cons a l ih =>
    cases i with
    | zero =>
      simp only [List.getElem?_cons_zero, Option.some.injEq] at h
      simp only [List.set_cons_zero, List.map_cons, List.sum_cons, h]
      omega
    | succ i =>
      have := ih (by simpa using h)
      simp only [List.set_cons_succ, List.map_cons, List.sum_cons]
      omega

@[simp] theorem epollCtl_fdContexts (m : IOManager) (op : CtlOp) (fd : ℤ) (events : UInt32) :
    (m.epollCtl op fd events).fdContexts = m.fdContexts := by
  cases op <;> rfl

@[simp] theorem epollCtl_pendingEventCount (m : IOManager) (op : CtlOp) (fd : ℤ)
    (events : UInt32) : (m.epollCtl op fd events).pendingEventCount = m.pendingEventCount := by
  cases op <;> rfl

@[simp] theorem epollCtl_scheduled (m : IOManager) (op : CtlOp) (fd : ℤ) (events : UInt32) :
    (m.epollCtl op fd events).scheduled = m.scheduled := by
  cases op <;> rfl

theorem epollCtl_epoll (m : IOManager) (op : CtlOp) (fd : ℤ) (events : UInt32) :
    (m.epollCtl op fd events).epoll =
      Function.update m.epoll fd (if op = .del then none else some events) := by
  cases op <;> rfl

structure Inv (m : IOManager) : Prop where
  size_ge : 32 ≤ m.fdContexts.length
  size_lt : m.fdContexts.length < 2 ^ 31
  regs : ∀ {i c}, m.fdContexts[i]? = some c → ∃ R, c = FdContext.ofRegs i R
  count : m.pendingEventCount.toNat = (m.fdContexts.map fun c => bitCount c.events).sum

structure Registered (m m' : IOManager) (fd : ℕ) (event : Event) (R : Regs) (g : Registration) :
    Prop where
  regs : m.fdContexts[fd]? = some (.ofRegs fd R)
  free : R event = none
  contexts : m'.fdContexts = m.fdContexts.set fd (.ofRegs fd (Function.update R event (some g)))
  count : m'.pendingEventCount = m.pendingEventCount + 1

theorem Registered.get {m m' : IOManager} {fd : ℕ} {event : Event} {R : Regs} {g : Registration}
    (h : Registered m m' fd event R g) :
    m'.fdContexts[fd]? = some (.ofRegs fd (Function.update R event (some g))) := by
  rw [h.contexts]
  exact List.getElem?_set_self (List.getElem?_eq_some_iff.mp h.regs).1

structure Unregistered (m m' : IOManager) (fd : ℕ) (event : Event) (R : Regs) : Prop where
  regs : m.fdContexts[fd]? = some (.ofRegs fd R)
  registered : (R event).isSome
  contexts : m'.fdContexts = m.fdContexts.set fd (.ofRegs fd (Function.update R event none))
  count : m'.pendingEventCount = m.pendingEventCount - 1

namespace Inv
variable {m m' : IOManager} {fd : ℕ} {event : Event} {R : Regs} {g : Registration}

theorem toInt_size (h : Inv m) : toInt m.fdContexts.length = m.fdContexts.length :=
  toInt_of_lt h.size_lt

theorem count_lt (h : Inv m) : m.pendingEventCount.toNat < 2 ^ 63 := by
  have hsum := List.sum_le_card_nsmul (m.fdContexts.map fun c => bitCount c.events) 2 (by
    intro x hx
    obtain ⟨c, -, rfl⟩ := List.mem_map.mp hx
    rw [bitCount]
    split_ifs <;> omega)
  have := h.size_lt
  rw [h.count]
  simp only [List.length_map, smul_eq_mul] at hsum
  omega

theorem initial (tickleFd : ℤ) : Inv (initial tickleFd) := by
  have hget := @contextResize_getElem? [] 32 (Nat.zero_le _)
  refine ⟨le_rfl, by norm_num [IOManager.initial, contextResize], ?_, rfl⟩
  intro i c hc
  have hc : (contextResize [] 32)[i]? = some c := hc
  rw [hget] at hc
  simp only [List.length_nil, Nat.not_lt_zero, if_false, Option.ite_none_right_eq_some,
    Option.some.injEq] at hc
  exact ⟨_, hc.2 ▸ FdContext.new_eq (by omega)⟩

theorem get (h : Inv m) (hfd : fd < m.fdContexts.length) :
    ∃ R, m.fdContexts[fd]? = some (.ofRegs fd R) := by
  obtain ⟨R, hR⟩ := h.regs (List.getElem?_eq_getElem hfd)
  exact ⟨R, hR ▸ List.getElem?_eq_getElem hfd⟩

theorem of_set (h : Inv m) {R' : Regs} (hR : m.fdContexts[fd]? = some (.ofRegs fd R))
    (hset : m'.fdContexts = m.fdContexts.set fd (.ofRegs fd R'))
    (hcount : m'.pendingEventCount.toNat + bitCount R.mask =
      m.pendingEventCount.toNat + bitCount R'.mask) : Inv m' := by
  have hsum := sum_map_set (fun c => bitCount c.events) (y := FdContext.ofRegs fd R') hR
  refine ⟨by simpa [hset] using h.size_ge, by simpa [hset] using h.size_lt, ?_, ?_⟩
  · intro i c hc
    rw [hset, List.getElem?_set] at hc
    split_ifs at hc with hi hlt
    · exact ⟨R', by rw [← hi]; exact (Option.some.inj hc).symm⟩
    · exact h.regs hc
  · rw [hset]
    have := h.count
    simp only [FdContext.ofRegs] at hsum hcount ⊢
    omega

theorem count_set (h : Inv m) (h' : Inv m') {R' : Regs}
    (hR : m.fdContexts[fd]? = some (.ofRegs fd R))
    (hset : m'.fdContexts = m.fdContexts.set fd (.ofRegs fd R')) :
    m'.pendingEventCount.toNat + bitCount R.mask =
      m.pendingEventCount.toNat + bitCount R'.mask := by
  have hsum := sum_map_set (fun c => bitCount c.events) (y := FdContext.ofRegs fd R') hR
  rw [h.count, h'.count, hset]
  exact hsum

theorem epollCtl (h : Inv m) (op : CtlOp) (fd : ℤ) (events : UInt32) :
    Inv (m.epollCtl op fd events) := by
  refine ⟨?_, ?_, ?_, ?_⟩
  all_goals rw [epollCtl_fdContexts]
  · exact h.size_ge
  · exact h.size_lt
  · exact h.regs
  · rw [epollCtl_pendingEventCount]
    exact h.count

theorem of_registered (h : Inv m) (hr : Registered m m' fd event R g) : Inv m' := by
  apply h.of_set hr.regs hr.contexts
  have := h.count_lt
  rw [Regs.bitCount_register hr.free, hr.count, UInt64.toNat_add, UInt64.toNat_one]
  omega

theorem of_unregistered (h : Inv m) (hu : Unregistered m m' fd event R) : Inv m' := by
  apply h.of_set hu.regs hu.contexts
  have hpos : bitCount R.mask ≤ m.pendingEventCount.toNat := by
    rw [h.count]
    exact List.single_le_sum (by simp) _
      (List.mem_map.mpr ⟨_, List.mem_of_getElem? hu.regs, rfl⟩)
  have hbits := Regs.bitCount_unregister hu.registered
  rw [hu.count, UInt64.toNat_sub_of_le _ _ (by rw [UInt64.le_iff_toNat_le]; simp; omega)]
  simp
  omega

theorem reserve_eq (h : Inv m) (hfd : fd < m.fdContexts.length) : m.reserve fd = m := by
  rw [IOManager.reserve, h.toInt_size, if_pos (by omega)]

theorem reserve_grow (h : Inv m) (hfd : m.fdContexts.length ≤ fd) :
    m.reserve fd = { m with fdContexts := contextResize m.fdContexts (fd * 3 / 2) } := by
  rw [IOManager.reserve, h.toInt_size, if_neg (by omega)]

theorem length_le_grow (h : Inv m) (hfd : m.fdContexts.length ≤ fd) : fd < fd * 3 / 2 := by
  have := h.size_ge
  omega

theorem reserve_old (h : Inv m) (fd : ℕ) {i : ℕ} {c : FdContext} (hc : m.fdContexts[i]? = some c) :
    (m.reserve fd).fdContexts[i]? = some c := by
  rcases lt_or_ge fd m.fdContexts.length with hfd | hfd
  · rwa [h.reserve_eq hfd]
  · have := h.length_le_grow hfd
    have hi := (List.getElem?_eq_some_iff.mp hc).1
    rw [h.reserve_grow hfd]
    simp only
    rw [contextResize_getElem? (by omega), if_pos hi, hc]

theorem reserve_get (h : Inv m) (hlt : fd < 2 ^ 31)
    (hfree : ∀ c, m.fdContexts[fd]? = some c → c.events &&& event.mask = 0) :
    ∃ R, (m.reserve fd).fdContexts[fd]? = some (.ofRegs fd R) ∧ R event = none := by
  rcases lt_or_ge fd m.fdContexts.length with hfd | hfd
  · obtain ⟨R, hR⟩ := h.get hfd
    exact ⟨R, by rwa [h.reserve_eq hfd], (R.mask_and_eq_zero event).mp (hfree _ hR)⟩
  · have := h.length_le_grow hfd
    refine ⟨fun _ => none, ?_, rfl⟩
    rw [h.reserve_grow hfd, ← FdContext.new_eq hlt]
    simp only
    rw [contextResize_getElem? (by omega), if_neg (by omega), if_pos this]

theorem reserve (h : Inv m) (hfit : m.fdContexts.length ≤ fd → fd * 3 / 2 < 2 ^ 31) :
    Inv (m.reserve fd) := by
  rcases lt_or_ge fd m.fdContexts.length with hfd | hfd
  · rwa [h.reserve_eq hfd]
  · have hgrow := h.length_le_grow hfd
    have := h.size_ge
    rw [h.reserve_grow hfd]
    refine ⟨by rw [length_contextResize]; omega, by simpa using hfit hfd, ?_, ?_⟩
    · intro i c hc
      simp only at hc
      rw [contextResize_getElem? (by omega)] at hc
      split_ifs at hc with hold hnew
      · exact h.regs hc
      · rw [← Option.some.inj hc]
        exact ⟨_, FdContext.new_eq (by have := hfit hfd; omega)⟩
    · rw [h.count]
      exact (sum_bitCount_contextResize (by omega)).symm

end Inv

def Caller.registration (caller : Caller) (s : ℕ) (cb : Option ℕ) : Registration :=
  ⟨s, cb.elim (.fiber caller.fiber) .cb⟩

section Calls
variable {m : IOManager} {fd : ℕ} {event : Event} {R : Regs} {g : Registration}

theorem register_empty {caller : Caller} {s : ℕ} (hs : caller.scheduler = some s)
    (hexec : caller.exec = true) (cb : Option ℕ) :
    register .empty caller cb = some (.ofReg (some (caller.registration s cb))) := by
  cases cb with
  | none => simp [register, hexec, hs, EventContext.empty, EventContext.ofReg, Caller.registration]
  | some f => simp [register, hs, EventContext.empty, EventContext.ofReg, Caller.registration]

theorem addEvent_spec {m₁ : IOManager} {caller : Caller} {s : ℕ} (hm : m.reserve fd = m₁)
    (hs : caller.scheduler = some s) (hexec : caller.exec = true) (cb : Option ℕ)
    (hR : m₁.fdContexts[fd]? = some (.ofRegs fd R)) (hfree : R event = none)
    (hg : g = caller.registration s cb) :
    ∃ m', m.addEvent fd event cb caller true = some (0, m') ∧ Registered m₁ m' fd event R g ∧
      m'.epoll = Function.update m₁.epoll fd
        (some (EPOLLET ||| Regs.mask (Function.update R event (some g)))) := by
  have hzero : (FdContext.ofRegs fd R).events &&& event.mask = 0 := by
    rwa [FdContext.ofRegs, Regs.mask_and_eq_zero]
  have hmask : (FdContext.ofRegs fd R).events ||| event.mask =
      Regs.mask (Function.update R event (some g)) := Regs.mask_or ..
  have hempty : FdContext.getContext
      { FdContext.ofRegs fd R with events := Regs.mask (Function.update R event (some g)) } event =
      .empty := by
    rw [show EventContext.empty = .ofReg (R event) by rw [hfree]; rfl]
    cases event <;> rfl
  have hop : (if (FdContext.ofRegs fd R).events = 0 then CtlOp.add else .mod) ≠ .del := by
    split_ifs <;> simp
  refine ⟨{ m₁ with
    fdContexts := m₁.fdContexts.set fd (.ofRegs fd (Function.update R event (some g)))
    pendingEventCount := m₁.pendingEventCount + 1
    epoll := Function.update m₁.epoll fd
      (some (EPOLLET ||| Regs.mask (Function.update R event (some g)))) }, ?_,
    ⟨hR, hfree, rfl, rfl⟩, rfl⟩
  simp [addEvent, hm, hR, hzero, UInt32.or_assoc, hmask, hempty, register_empty hs hexec, ← hg,
    FdContext.setContext_ofRegs, setFdContext, epollCtl_epoll, hop]

theorem addEvent_fail (cb : Option ℕ) (caller : Caller)
    (hR : (m.reserve fd).fdContexts[fd]? = some (.ofRegs fd R)) (hfree : R event = none) :
    m.addEvent fd event cb caller false = some (-1, m.reserve fd) := by
  have hzero : (FdContext.ofRegs fd R).events &&& event.mask = 0 := by
    rwa [FdContext.ofRegs, Regs.mask_and_eq_zero]
  simp [addEvent, hR, hzero]

theorem trigger_eq (hR : m.fdContexts[fd]? = some (.ofRegs fd R)) (hg : R event = some g) :
    m.trigger fd event = some { m with
      fdContexts := m.fdContexts.set fd (.ofRegs fd (Function.update R event none))
      pendingEventCount := m.pendingEventCount - 1
      scheduled := m.scheduled ++ [(g.scheduler, g.task)] } := by
  simp [trigger, hR, FdContext.triggerEvent_ofRegs hg, setFdContext]

theorem removal_cases (h : Inv m) (fd : ℕ) (event : Event) :
    m.removal fd event = some none ∧
        (∀ c, m.fdContexts[fd]? = some c → c.events &&& event.mask = 0) ∨
      ∃ R, m.fdContexts[fd]? = some (.ofRegs fd R) ∧ (R event).isSome ∧
        m.removal fd event =
          some (some (.ofRegs fd R, Regs.mask (Function.update R event none))) := by
  rcases lt_or_ge fd m.fdContexts.length with hfd | hfd
  · obtain ⟨R, hR⟩ := h.get hfd
    have hzero : (FdContext.ofRegs fd R).events &&& event.mask = 0 ↔ R event = none :=
      R.mask_and_eq_zero event
    have hmask : (FdContext.ofRegs fd R).events &&& ~~~event.mask = _ := R.mask_andNot event
    rw [removal, h.toInt_size, if_neg (by omega)]
    cases hg : R event with
    | none => exact .inl (by simp [hR, hzero, hg])
    | some g => exact .inr ⟨R, hR, by simp [hg], by simp [hR, hzero, hg, hmask]⟩
  · exact .inl ⟨by rw [removal, h.toInt_size, if_pos (by omega)],
      by simp [List.getElem?_eq_none hfd]⟩

/-- What a successful `epoll_ctl` of `delEvent` and `cancelEvent` leaves in the interest map. -/
def interest (R : Regs) (events : UInt32) : Option UInt32 :=
  if R.mask = 0 then none else some events

theorem interest_eq (R : Regs) (events : UInt32) :
    (if (if R.mask ≠ 0 then CtlOp.mod else .del) = .del then none else some events) =
      interest R events := by
  rw [interest]
  by_cases h : R.mask = 0 <;> simp [h]

def Removes (m : IOManager) (fd : ℕ) (event : Event) (garbage : UInt32) (ok : Bool)
    (result : Option (Bool × IOManager)) : Prop :=
  result = some (false, m) ∧
      (ok = false ∨ ∀ c, m.fdContexts[fd]? = some c → c.events &&& event.mask = 0) ∨
    ok = true ∧ ∃ R m', result = some (true, m') ∧ Unregistered m m' fd event R ∧
      m'.epoll = Function.update m.epoll fd (interest (Function.update R event none) garbage)

theorem delEvent_removes (h : Inv m) (fd : ℕ) (event : Event) (garbage : UInt32) (ok : Bool) :
    Removes m fd event garbage ok (m.delEvent fd event garbage ok) := by
  rcases removal_cases h fd event with ⟨hr, hskip⟩ | ⟨R, hR, hg, hr⟩
  · exact .inl ⟨by simp [delEvent, hr], .inr hskip⟩
  · cases ok with
    | false => exact .inl ⟨by simp [delEvent, hr], .inl rfl⟩
    | true =>
      refine .inr ⟨rfl, R, _, by
        simp only [delEvent, hr, Option.bind_eq_bind, Option.bind_some]; rfl, ⟨hR, hg, ?_, ?_⟩, ?_⟩
      · simp only [setFdContext, epollCtl_fdContexts, FdContext.resetContext]
        exact congrArg _ (FdContext.setContext_ofRegs fd R event none)
      · simp [setFdContext]
      · simp only [setFdContext, epollCtl_epoll, interest_eq]

theorem cancelEvent_removes (h : Inv m) (fd : ℕ) (event : Event) (garbage : UInt32) (ok : Bool) :
    Removes m fd event garbage ok (m.cancelEvent fd event garbage ok) := by
  rcases removal_cases h fd event with ⟨hr, hskip⟩ | ⟨R, hR, hg, hr⟩
  · exact .inl ⟨by simp [cancelEvent, hr], .inr hskip⟩
  · cases ok with
    | false => exact .inl ⟨by simp [cancelEvent, hr], .inl rfl⟩
    | true =>
      obtain ⟨g, hg'⟩ := Option.isSome_iff_exists.mp hg
      have htrigger : (m.epollCtl (if Regs.mask (Function.update R event none) ≠ 0 then .mod
          else .del) fd garbage).trigger fd event = _ :=
        trigger_eq ((congrArg (·[fd]?) (epollCtl_fdContexts ..)).trans hR) hg'
      refine .inr ⟨rfl, R, _, by
        simp only [cancelEvent, hr, Option.bind_eq_bind, Option.bind_some, htrigger]; rfl,
        ⟨hR, hg, ?_, ?_⟩, ?_⟩
      · simp
      · simp
      · simp only [epollCtl_epoll, interest_eq]

theorem triggerIf_spec (h : Inv m) (hR : m.fdContexts[fd]? = some (.ofRegs fd R))
    {events : UInt32} (hreg : events &&& event.mask ≠ 0 → (R event).isSome) :
    ∃ m', m.triggerIf fd event events = some m' ∧ Inv m' ∧ m'.epoll = m.epoll ∧
      m'.fdContexts = m.fdContexts.set fd
        (.ofRegs fd (if events &&& event.mask ≠ 0 then Function.update R event none else R)) ∧
      m'.scheduled = m.scheduled ++ if events &&& event.mask ≠ 0 then R.task event else [] := by
  rw [triggerIf]
  split_ifs with hset
  · obtain ⟨g, hg⟩ := Option.isSome_iff_exists.mp (hreg hset)
    exact ⟨_, trigger_eq hR hg, h.of_unregistered ⟨hR, hreg hset, rfl, rfl⟩, rfl, rfl,
      by simp [Regs.task, hg]⟩
  · obtain ⟨hfd, hc⟩ := List.getElem?_eq_some_iff.mp hR
    exact ⟨m, rfl, h, rfl, by rw [← hc, List.set_getElem_self], (List.append_nil _).symm⟩

theorem update_of_mask (R : Regs) (event : Event) :
    (if R.mask &&& event.mask ≠ 0 then Function.update R event none else R) =
      Function.update R event none := by
  split_ifs with h
  · rfl
  · rw [← (R.mask_and_eq_zero event).mp (not_not.mp h), Function.update_eq_self]

theorem cancelAll_cases (h : Inv m) (fd : ℕ) (ok : Bool) :
    m.cancelAll fd ok = some (false, m) ∨
      ok = true ∧ ∃ R m', m.fdContexts[fd]? = some (.ofRegs fd R) ∧
        m.cancelAll fd ok = some (true, m') ∧ Inv m' ∧
        m'.epoll = Function.update m.epoll fd none ∧
        m'.fdContexts = m.fdContexts.set fd (.ofRegs fd fun _ => none) := by
  rcases lt_or_ge fd m.fdContexts.length with hfd | hfd
  swap
  · exact .inl (by simp [cancelAll, h.toInt_size, hfd])
  obtain ⟨R, hR⟩ := h.get hfd
  have hsize : ¬ toInt m.fdContexts.length ≤ fd := by
    rw [h.toInt_size]
    omega
  by_cases hzero : (FdContext.ofRegs fd R).events = 0
  · exact .inl (by simp [cancelAll, hsize, hR, hzero])
  cases ok with
  | false => exact .inl (by simp [cancelAll, hsize, hR])
  | true =>
    have h₁ : Inv (m.epollCtl .del fd 0) := h.epollCtl .del fd 0
    obtain ⟨m₂, ht₂, h₂, he₂, hs₂, -⟩ := triggerIf_spec h₁ hR (R.isSome_of_mask .read)
    rw [update_of_mask] at hs₂
    have hR₂ : m₂.fdContexts[fd]? = some (.ofRegs fd (Function.update R .read none)) := by
      rw [hs₂]
      exact List.getElem?_set_self hfd
    obtain ⟨m₃, ht₃, h₃, he₃, hs₃, -⟩ := triggerIf_spec h₂ hR₂ (Regs.isSome_of_mask _ .write)
    rw [update_of_mask] at hs₃
    have hnone : Function.update (Function.update R .read none) .write none = fun _ => none := by
      funext event
      cases event <;> simp
    have hR₃ : m₃.fdContexts[fd]? = some (.ofRegs fd fun _ => none) := by
      rw [hs₃, hnone]
      exact List.getElem?_set_self (by rwa [hs₂, List.length_set])
    refine .inr ⟨rfl, R, m₃, hR, ?_, h₃, by rw [he₃, he₂]; rfl, by rw [hs₃, hs₂, hnone]; simp⟩
    have hmask : Regs.mask (fun _ => none) = 0 := rfl
    simp only [FdContext.ofRegs] at hR hR₂ hR₃ hzero
    simp [cancelAll, hsize, hR, hzero, ht₂, hR₂, ht₃, hR₃, hmask]

end Calls

inductive Op
  | addEvent (fd : ℕ) (event : Event) (cb : Option ℕ) (caller : Caller) (ok : Bool)
  | delEvent (fd : ℕ) (event : Event) (garbage : UInt32) (ok : Bool)
  | cancelEvent (fd : ℕ) (event : Event) (garbage : UInt32) (ok : Bool)
  | cancelAll (fd : ℕ) (ok : Bool)
  | trigger (fd : ℕ) (event : Event)

namespace Op

/-- The circumstances in which the calls are made: descriptors are values of type `int`,
`addEvent` is called by a running fiber of a scheduler thread for an event that is not registered,
and only registered events are triggered. -/
def Enabled (m : IOManager) : Op → Prop
  | .addEvent fd event _ caller _ => fd < 2 ^ 31 ∧ caller.scheduler.isSome ∧ caller.exec = true ∧
      ∀ c, m.fdContexts[fd]? = some c → c.events &&& event.mask = 0
  | .trigger fd event => ∃ c, m.fdContexts[fd]? = some c ∧ c.events &&& event.mask ≠ 0
  | .delEvent fd _ _ _ | .cancelEvent fd _ _ _ | .cancelAll fd _ => fd < 2 ^ 31

/-- The contexts that `addEvent` allocates have indices that an `int` can hold. -/
def Fits (m : IOManager) : Op → Prop
  | .addEvent fd _ _ _ _ => m.fdContexts.length ≤ fd → fd * 3 / 2 < 2 ^ 31
  | _ => True

def epollFails : Op → Bool
  | .addEvent _ _ _ _ ok | .delEvent _ _ _ ok | .cancelEvent _ _ _ ok | .cancelAll _ ok => !ok
  | .trigger _ _ => false

end Op

def exec (m : IOManager) : Op → Option IOManager
  | .addEvent fd event cb caller ok => (m.addEvent fd event cb caller ok).map (·.2)
  | .delEvent fd event garbage ok => (m.delEvent fd event garbage ok).map (·.2)
  | .cancelEvent fd event garbage ok => (m.cancelEvent fd event garbage ok).map (·.2)
  | .cancelAll fd ok => (m.cancelAll fd ok).map (·.2)
  | .trigger fd event => m.trigger fd event

structure Bookkept (m : IOManager) : Prop where
  count : m.pendingEventCount.toNat = (m.fdContexts.map fun c => bitCount c.events).sum
  fd : ∀ (i : ℕ) (c : FdContext), m.fdContexts[i]? = some c → c.fd = i
  set : ∀ (i : ℕ) (c : FdContext) (event : Event), m.fdContexts[i]? = some c →
    c.events &&& event.mask ≠ 0 → (c.getContext event).scheduler.isSome ∧
      ((c.getContext event).fiber.isSome ↔ (c.getContext event).cb = none)
  clear : ∀ (i : ℕ) (c : FdContext) (event : Event), m.fdContexts[i]? = some c →
    c.events &&& event.mask = 0 → c.getContext event = .empty

theorem Inv.bookkept {m : IOManager} (h : Inv m) : Bookkept m := by
  refine ⟨h.count, ?_, ?_, ?_⟩
  · intro i c hc
    obtain ⟨R, rfl⟩ := h.regs hc
    rfl
  · intro i c event hc hset
    obtain ⟨R, rfl⟩ := h.regs hc
    rw [ne_eq, FdContext.ofRegs, R.mask_and_eq_zero] at hset
    obtain ⟨⟨s, task⟩, hg⟩ := Option.ne_none_iff_exists'.mp hset
    rw [FdContext.getContext_ofRegs, hg]
    cases task <;> simp [EventContext.ofReg]
  · intro i c event hc hclear
    obtain ⟨R, rfl⟩ := h.regs hc
    rw [FdContext.ofRegs, R.mask_and_eq_zero] at hclear
    rw [FdContext.getContext_ofRegs, hclear]
    rfl

structure Unchanged (m m' : IOManager) : Prop where
  count : m'.pendingEventCount = m.pendingEventCount
  contexts : ∀ (i : ℕ) (c : FdContext), m.fdContexts[i]? = some c → m'.fdContexts[i]? = some c
  epoll : m'.epoll = m.epoll

section Steps
variable {m m' : IOManager}

theorem Unchanged.refl (m : IOManager) : Unchanged m m := ⟨rfl, fun _ _ hc => hc, rfl⟩

theorem Inv.unchanged_reserve (h : Inv m) (fd : ℕ) : Unchanged m (m.reserve fd) := by
  refine ⟨?_, fun i c => h.reserve_old fd, ?_⟩ <;>
    rw [IOManager.reserve] <;> split_ifs <;> rfl

theorem Inv.reserve_large (h : Inv m) {fd : ℕ} (hfd : m.fdContexts.length ≤ fd)
    (hlarge : ¬ fd * 3 / 2 < 2 ^ 31) :
    (m.reserve fd).fdContexts[2 ^ 31]? = some (.new (2 ^ 31)) := by
  have := h.size_lt
  have := h.length_le_grow hfd
  rw [h.reserve_grow hfd]
  simp only
  rw [contextResize_getElem? (by omega), if_neg (by omega), if_pos (by omega)]

theorem not_bookkept_of_new (h : m.fdContexts[2 ^ 31]? = some (.new (2 ^ 31))) : ¬ Bookkept m := by
  intro hb
  have hbad : toInt (2 ^ 31) = (2 ^ 31 : ℕ) := hb.fd _ _ h
  revert hbad
  decide

structure Outcome (m m' : IOManager) (op : Op) : Prop where
  exec : exec m op = some m'
  inv : op.Fits m → Inv m'
  large : ¬ op.Fits m → ¬ Bookkept m'
  failed : op.epollFails = true → Unchanged m m'

theorem Outcome.of_removal {op : Op} (hfits : op.Fits m) (h : Inv m')
    (hexec : IOManager.exec m op = some m') (hfail : op.epollFails = true → m' = m) :
    Outcome m m' op :=
  ⟨hexec, fun _ => h, fun hn => absurd hfits hn, fun hf => hfail hf ▸ .refl m'⟩

theorem exec_addEvent {fd : ℕ} {event : Event} {cb : Option ℕ} {caller : Caller} {ok : Bool}
    {rt : ℤ} (h : m.addEvent fd event cb caller ok = some (rt, m')) :
    exec m (.addEvent fd event cb caller ok) = some m' := by
  rw [IOManager.exec, h]
  rfl

theorem addEvent_outcome (h : Inv m) {fd : ℕ} {event : Event} {cb : Option ℕ} {caller : Caller}
    {ok : Bool} (hen : (Op.addEvent fd event cb caller ok).Enabled m) :
    ∃ m', Outcome m m' (.addEvent fd event cb caller ok) := by
  obtain ⟨hlt, hs, hexec, hfree⟩ := hen
  obtain ⟨s, hs⟩ := Option.isSome_iff_exists.mp hs
  obtain ⟨R, hR, hnone⟩ := h.reserve_get hlt hfree
  have hlarge : ∀ m' : IOManager,
      (∀ i, i ≠ fd → m'.fdContexts[i]? = (m.reserve fd).fdContexts[i]?) →
      ¬ (Op.addEvent fd event cb caller ok).Fits m → ¬ Bookkept m' := by
    intro m' hm' hn
    obtain ⟨hfd, hn⟩ := Classical.not_imp.mp hn
    apply not_bookkept_of_new
    rw [hm' _ (by omega), h.reserve_large hfd hn]
  cases ok with
  | false =>
    exact ⟨_, exec_addEvent (addEvent_fail cb caller hR hnone), h.reserve,
      hlarge _ fun _ _ => rfl, fun _ => h.unchanged_reserve fd⟩
  | true =>
    obtain ⟨m', ha, hr, -⟩ := addEvent_spec rfl hs hexec cb hR hnone rfl
    refine ⟨m', exec_addEvent ha, fun hfit => (h.reserve hfit).of_registered hr, hlarge _ ?_, nofun⟩
    intro i hi
    rw [hr.contexts, List.getElem?_set_ne hi.symm]

theorem Removes.outcome {op : Op} {fd : ℕ} {event : Event} {garbage : UInt32} {ok : Bool}
    {result : Option (Bool × IOManager)} (h : Inv m) (hr : Removes m fd event garbage ok result)
    (hfits : op.Fits m) (hexec : IOManager.exec m op = result.map (·.2))
    (hok : op.epollFails = !ok) : ∃ m', Outcome m m' op := by
  rcases hr with ⟨hd, -⟩ | ⟨rfl, R, m', hd, hu, -⟩
  · exact ⟨m, .of_removal hfits h (by rw [hexec, hd]; rfl) fun _ => rfl⟩
  · exact ⟨m', .of_removal hfits (h.of_unregistered hu) (by rw [hexec, hd]; rfl) (by simp [hok])⟩

theorem exec_outcome (h : Inv m) {op : Op} (hen : op.Enabled m) : ∃ m', Outcome m m' op := by
  cases op with
  | addEvent fd event cb caller ok => exact addEvent_outcome h hen
  | delEvent fd event garbage ok =>
    exact (delEvent_removes h fd event garbage ok).outcome h trivial rfl rfl
  | cancelEvent fd event garbage ok =>
    exact (cancelEvent_removes h fd event garbage ok).outcome h trivial rfl rfl
  | cancelAll fd ok =>
    rcases cancelAll_cases h fd ok with hd | ⟨rfl, R, m', -, hd, h', -⟩
    · exact ⟨m, .of_removal trivial h (by rw [IOManager.exec, hd]; rfl) fun _ => rfl⟩
    · exact ⟨m', .of_removal trivial h' (by rw [IOManager.exec, hd]; rfl) nofun⟩
  | trigger fd event =>
    obtain ⟨c, hc, hset⟩ := hen
    obtain ⟨R, rfl⟩ := h.regs hc
    rw [ne_eq, FdContext.ofRegs, R.mask_and_eq_zero] at hset
    obtain ⟨g, hg⟩ := Option.ne_none_iff_exists'.mp hset
    exact ⟨_, .of_removal trivial (h.of_unregistered ⟨hc, by simp [hg], rfl, rfl⟩)
      (trigger_eq hc hg) nofun⟩

end Steps

structure Step (m : IOManager) (op : Op) (m' : IOManager) : Prop where
  enabled : op.Enabled m
  exec : exec m op = some m'

theorem Inv.of_run {tickleFd : ℤ} {ops : List Op} {m : IOManager}
    (h : Run (fun m op m' => Step m op m' ∧ op.Fits m) (IOManager.initial tickleFd) ops m) :
    Inv m := by
  refine h.invariant ?_ (Inv.initial tickleFd)
  rintro m op m' hm ⟨hstep, hfits⟩
  obtain ⟨m₁, ho⟩ := exec_outcome hm hstep.enabled
  rw [Option.some.inj (hstep.exec.symm.trans ho.exec)]
  exact ho.inv hfits

/-- In a run in which every `addEvent` fits, the books are right in every state; there every
enabled call returns, leaves the books right exactly if it fits, and changes nothing if its
`epoll_ctl` fails. -/
theorem bookkept_iff_fits {tickleFd : ℤ} {ops : List Op} {m : IOManager}
    (h : Run (fun m op m' => Step m op m' ∧ op.Fits m) (initial tickleFd) ops m) :
    Bookkept m ∧ ∀ op : Op, op.Enabled m → ∃ m', exec m op = some m' ∧
      (Bookkept m' ↔ op.Fits m) ∧ (op.epollFails = true → Unchanged m m') := by
  have hm := Inv.of_run h
  refine ⟨hm.bookkept, fun op hen => ?_⟩
  obtain ⟨m', ho⟩ := exec_outcome hm hen
  refine ⟨m', ho.exec, ⟨fun hb => ?_, fun hf => (ho.inv hf).bookkept⟩, ho.failed⟩
  by_contra hn
  exact ho.large hn hb

theorem bookkept_iff_fits_add :
    ∃ m m', Run (fun m op m' => Step m op m' ∧ op.Fits m) (initial 3)
      [.addEvent 40 .read none ⟨some 1, 7, true⟩ true] m ∧ Bookkept m ∧
      exec m (.cancelAll 40 false) = some m' ∧ Bookkept m' ∧ Unchanged m m' := by
  have hen : (Op.addEvent 40 .read none ⟨some 1, 7, true⟩ true).Enabled (initial 3) :=
    ⟨by norm_num, rfl, rfl, fun c hc => by cases hc⟩
  obtain ⟨m, ho⟩ := exec_outcome (.initial 3) hen
  have hrun : Run (fun m op m' => Step m op m' ∧ op.Fits m) (initial 3) _ m :=
    .cons ⟨⟨hen, ho.exec⟩, fun _ => by norm_num⟩ (.nil m)
  obtain ⟨hm, hcall⟩ := bookkept_iff_fits hrun
  obtain ⟨m', hexec, hfits, hfail⟩ := hcall (.cancelAll 40 false) (show 40 < 2 ^ 31 by norm_num)
  exact ⟨m, m', hrun, hm, hexec, hfits.mpr trivial, hfail rfl⟩

/-- A descriptor of `1431655766` makes `addEvent` allocate the context of index `2 ^ 31`, also when
its `epoll_ctl` fails. -/
theorem large_fd_context_wraps :
    ∃ m', Step (initial 3) (.addEvent 1431655766 .read none ⟨some 0, 0, true⟩ false) m' ∧
      ∃ c, m'.fdContexts[2147483648]? = some c ∧ c.fd = -2147483648 := by
  have hsize : (initial 3).fdContexts.length = 32 := rfl
  have hfree : ∀ c, (initial 3).fdContexts[1431655766]? = some c →
      c.events &&& Event.read.mask = 0 := by
    intro c hc
    have := (List.getElem?_eq_some_iff.mp hc).1
    omega
  obtain ⟨R, hR, hnone⟩ := (Inv.initial 3).reserve_get (by norm_num) hfree
  have hlarge := @Inv.reserve_large _ (.initial 3) 1431655766 (by omega) (by norm_num)
  exact ⟨_, ⟨⟨by norm_num, rfl, rfl, hfree⟩, exec_addEvent (addEvent_fail _ _ hR hnone)⟩, _, hlarge,
    by decide⟩

end ApexStorm.IOManager
