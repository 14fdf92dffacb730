import ApexStorm.IOManager.Dispatch

/-!
# The kernel's interest map and the registrations

For every descriptor but the manager's own pipe the interest map should hold the
registered events together with `EPOLLET`, and nothing when there are none.
`delEvent` and `cancelEvent` pass an uninitialised mask to `epoll_ctl` when the
other event stays registered, so the map agrees with the registrations exactly as
long as such a word happens to be the right one.
-/

namespace ApexStorm.IOManager
open Lib

def expected : Option FdContext → Option UInt32
  | none => none
  | some c => if c.events = 0 then none else some (EPOLLET ||| c.events)

def Mirrored (tickleFd : ℤ) (m : IOManager) : Prop :=
  ∀ fd : ℕ, (fd : ℤ) ≠ tickleFd → m.epoll fd = expected m.fdContexts[fd]?

inductive Act
  | call (op : Op)
  | round (events : List EpollEvent) (i : ℕ) (ok : Bool)

namespace Act

/-- Events are triggered only by the calls themselves and by the rounds of `idle`. -/
def Enabled (m : IOManager) : Act → Prop
  | .call (.trigger _ _) => False
  | .call op => op.Enabled m
  | .round events i ok => ∃ e, events[i]? = some e ∧ Found e (m, ok)

def Fits (m : IOManager) : Act → Prop
  | .call op => op.Fits m
  | .round _ _ _ => True

/-- The uninitialised word that `delEvent` and `cancelEvent` pass to `epoll_ctl` is the mask of
the event that stays registered, if one does. -/
def Initialised (tickleFd : ℤ) (m : IOManager) : Act → Prop
  | .call (.delEvent fd event garbage ok) | .call (.cancelEvent fd event garbage ok) =>
    ok = true → ∀ c, m.fdContexts[fd]? = some c → (fd : ℤ) ≠ tickleFd →
      c.events &&& event.mask ≠ 0 →
      c.events &&& ~~~event.mask ≠ 0 → garbage = EPOLLET ||| c.events &&& ~~~event.mask
  | _ => True

end Act

def act (m : IOManager) : Act → Option IOManager
  | .call op => exec m op
  | .round events i ok => (m.dispatchEntry events i ok).map (·.2)

structure Acts (m : IOManager) (a : Act) (m' : IOManager) : Prop where
  enabled : a.Enabled m
  act : act m a = some m'

section Mirror
variable {m m' : IOManager} {fd : ℕ} {tickleFd : ℤ} {R R' : Regs} {event : Event}

theorem expected_ofRegs (i : ℕ) (R : Regs) :
    expected (some (.ofRegs i R)) = interest R (EPOLLET ||| R.mask) := rfl

theorem mirrored_set_iff {x : Option UInt32} (hm : Mirrored tickleFd m)
    (hfd : fd < m.fdContexts.length)
    (hset : m'.fdContexts = m.fdContexts.set fd (.ofRegs fd R))
    (hepoll : m'.epoll = Function.update m.epoll fd x) :
    Mirrored tickleFd m' ↔ ((fd : ℤ) ≠ tickleFd → x = interest R (EPOLLET ||| R.mask)) := by
  rw [Mirrored, hset, hepoll]
  constructor
  · intro h hne
    have := h fd hne
    rwa [Function.update_self, List.getElem?_set_self hfd, expected_ofRegs] at this
  · intro h i hne
    by_cases hi : i = fd
    · subst hi
      rw [Function.update_self, List.getElem?_set_self hfd, expected_ofRegs, h hne]
    · rw [Function.update_of_ne (by exact_mod_cast hi), List.getElem?_set_ne (Ne.symm hi), hm i hne]

theorem mirrored_reserve (h : Inv m) (hm : Mirrored tickleFd m) (fd : ℕ) :
    Mirrored tickleFd (m.reserve fd) := by
  rcases lt_or_ge fd m.fdContexts.length with hfd | hfd
  · rwa [h.reserve_eq hfd]
  · have := h.length_le_grow hfd
    rw [h.reserve_grow hfd]
    intro i hne
    simp only
    rw [hm i hne, contextResize_getElem? (by omega)]
    split_ifs with hold hnew
    · rfl
    · rw [List.getElem?_eq_none (by omega)]
      rfl
    · rw [List.getElem?_eq_none (by omega)]

theorem interest_eq_iff (R : Regs) (events : UInt32) :
    interest R events = interest R (EPOLLET ||| R.mask) ↔
      (R.mask ≠ 0 → events = EPOLLET ||| R.mask) := by
  rw [interest, interest]
  split_ifs with h <;> simp [h]

theorem Removes.mirrored_iff {garbage : UInt32} {ok : Bool} {result : Option (Bool × IOManager)}
    (hm : Mirrored tickleFd m) (hr : Removes m fd event garbage ok result)
    (hm' : result.map (·.2) = some m') :
    Mirrored tickleFd m' ↔ (ok = true → ∀ c, m.fdContexts[fd]? = some c → (fd : ℤ) ≠ tickleFd →
      c.events &&& event.mask ≠ 0 → c.events &&& ~~~event.mask ≠ 0 →
        garbage = EPOLLET ||| c.events &&& ~~~event.mask) := by
  rcases hr with ⟨rfl, hskip⟩ | ⟨rfl, R, m₁, rfl, hu, hepoll⟩
  · obtain rfl : m = m' := Option.some.inj hm'
    refine iff_of_true hm ?_
    rintro rfl c hc - hset -
    rcases hskip with hfalse | hskip
    · cases hfalse
    · exact absurd (hskip c hc) hset
  · obtain rfl : m₁ = m' := Option.some.inj hm'
    have hfd := (List.getElem?_eq_some_iff.mp hu.regs).1
    have hmask : (FdContext.ofRegs fd R).events &&& ~~~event.mask =
        Regs.mask (Function.update R event none) := R.mask_andNot event
    have hset : (FdContext.ofRegs fd R).events &&& event.mask ≠ 0 := by
      rw [ne_eq, FdContext.ofRegs, R.mask_and_eq_zero]
      exact Option.isSome_iff_ne_none.mp hu.registered
    rw [mirrored_set_iff hm hfd hu.contexts hepoll, interest_eq_iff]
    constructor
    · intro h _ c hc hne _
      obtain rfl := Option.some.inj (hu.regs.symm.trans hc)
      rw [hmask]
      exact h hne
    · intro h hne
      have := h rfl _ hu.regs hne hset
      rwa [hmask] at this

theorem addEvent_mirrored {cb : Option ℕ} {caller : Caller} {ok : Bool} (h : Inv m)
    (hm : Mirrored tickleFd m) (hen : (Op.addEvent fd event cb caller ok).Enabled m)
    (hm' : exec m (.addEvent fd event cb caller ok) = some m') : Mirrored tickleFd m' := by
  obtain ⟨hlt, hs, hexec, hfree⟩ := hen
  obtain ⟨s, hs⟩ := Option.isSome_iff_exists.mp hs
  obtain ⟨R, hR, hnone⟩ := h.reserve_get hlt hfree
  have hreserve := mirrored_reserve h hm fd
  cases ok with
  | false =>
    have hfail := exec_addEvent (addEvent_fail cb caller hR hnone)
    obtain rfl := Option.some.inj (hfail.symm.trans hm')
    exact hreserve
  | true =>
    obtain ⟨m₁, ha, hr, hepoll⟩ := addEvent_spec rfl hs hexec cb hR hnone rfl
    obtain rfl := Option.some.inj ((exec_addEvent ha).symm.trans hm')
    rw [mirrored_set_iff hreserve (List.getElem?_eq_some_iff.mp hR).1 hr.contexts hepoll]
    intro _
    have hne : Regs.mask (Function.update R event (some (caller.registration s cb))) ≠ 0 := by
      rw [ne_eq, Regs.mask_eq_zero]
      intro hzero
      simpa using hzero event
    rw [interest, if_neg hne]

theorem cancelAll_mirrored {ok : Bool} (h : Inv m) (hm : Mirrored tickleFd m)
    (hm' : exec m (.cancelAll fd ok) = some m') : Mirrored tickleFd m' := by
  rcases cancelAll_cases h fd ok with hd | ⟨rfl, R, m₁, hR, hd, -, hepoll, hset⟩
  all_goals
    rw [exec, hd] at hm'
    obtain rfl := Option.some.inj hm'
  · exact hm
  · rw [mirrored_set_iff hm (List.getElem?_eq_some_iff.mp hR).1 hset hepoll]
    intro _
    rfl

theorem dispatchEntry_mirrored {events : List EpollEvent} {i : ℕ} {e : EpollEvent} {ok : Bool}
    {r : List EpollEvent × IOManager} (hm : Mirrored tickleFd m) (hf : Found e (m, ok))
    (hi : events[i]? = some e) (hr : m.dispatchEntry events i ok = some r) :
    Inv r.2 ∧ Mirrored tickleFd r.2 := by
  obtain ⟨flags, data⟩ := e
  cases data with
  | tickle =>
    rw [dispatchEntry_tickle hi rfl] at hr
    obtain rfl := Option.some.inj hr
    exact ⟨hf.1, hm⟩
  | ptr fd =>
    obtain ⟨R, hR⟩ := hf.regs rfl
    have hlt := (List.getElem?_eq_some_iff.mp hi).1
    have h0 : 0 < (events.set i ⟨noted (.ofRegs fd R) flags, .ptr fd⟩).length := by
      rw [List.length_set]
      omega
    rw [dispatchEntry_ptr hi hR (List.getElem?_eq_getElem h0), realEvents_eq] at hr
    obtain ⟨x, hx, rfl⟩ := Option.map_eq_some_iff.mp hr
    rcases handle_state hf.1 hR hx with hsame | ⟨hinv, hd, hepoll⟩
    · simp only
      rw [hsame]
      exact ⟨hf.1, hm⟩
    · refine ⟨hinv, ?_⟩
      rw [mirrored_set_iff hm (List.getElem?_eq_some_iff.mp hR).1 hd.contexts hepoll]
      intro _
      rfl

theorem acts_spec {a : Act} (h : Inv m) (hm : Mirrored tickleFd m) (ha : Acts m a m')
    (hfits : a.Fits m) : Inv m' ∧ (Mirrored tickleFd m' ↔ a.Initialised tickleFd m) := by
  obtain ⟨hen, hact⟩ := ha
  cases a with
  | round events i ok =>
    obtain ⟨e, hi, hf⟩ := hen
    obtain ⟨r, hr, rfl⟩ := Option.map_eq_some_iff.mp hact
    obtain ⟨hinv, hmir⟩ := dispatchEntry_mirrored hm hf hi hr
    exact ⟨hinv, iff_of_true hmir trivial⟩
  | call op =>
    have hact : exec m op = some m' := hact
    have hinv : op.Enabled m → Inv m' := by
      intro hop
      obtain ⟨m₁, ho⟩ := exec_outcome h hop
      obtain rfl := Option.some.inj (ho.exec.symm.trans hact)
      exact ho.inv hfits
    cases op with
    | addEvent fd event cb caller ok =>
      exact ⟨hinv hen, iff_of_true (addEvent_mirrored h hm hen hact) trivial⟩
    | delEvent fd event garbage ok =>
      exact ⟨hinv hen, (delEvent_removes h fd event garbage ok).mirrored_iff hm hact⟩
    | cancelEvent fd event garbage ok =>
      exact ⟨hinv hen, (cancelEvent_removes h fd event garbage ok).mirrored_iff hm hact⟩
    | cancelAll fd ok =>
      exact ⟨hinv hen, iff_of_true (cancelAll_mirrored h hm hact) trivial⟩
    | trigger fd event => exact hen.elim

theorem mirrored_initial (tickleFd : ℤ) : Mirrored tickleFd (initial tickleFd) := by
  intro fd hne
  have hget := @contextResize_getElem? [] 32 (Nat.zero_le _) fd
  have hfds : (initial tickleFd).fdContexts = contextResize [] 32 := rfl
  rw [hfds, hget, initial]
  simp only [Function.update_of_ne hne, List.length_nil, Nat.not_lt_zero, if_false]
  split_ifs <;> rfl

end Mirror

theorem inv_mirrored_of_run {tickleFd : ℤ} {acts : List Act} {m : IOManager}
    (h : Run (fun m a m' => Acts m a m' ∧ a.Fits m ∧ a.Initialised tickleFd m)
      (initial tickleFd) acts m) : Inv m ∧ Mirrored tickleFd m := by
  refine h.invariant (P := fun m => Inv m ∧ Mirrored tickleFd m) ?_
    ⟨Inv.initial tickleFd, mirrored_initial tickleFd⟩
  rintro m a m' ⟨hm, hmir⟩ ⟨ha, hfits, hinit⟩
  obtain ⟨hm', hiff⟩ := acts_spec hm hmir ha hfits
  exact ⟨hm', hiff.mpr hinit⟩

/-- In a run in which no uninitialised mask is wrong, the interest map mirrors the registrations in
every state, and one more step keeps this so exactly if it passes no wrong mask either. -/
theorem mirrored_iff_initialised {tickleFd : ℤ} {acts : List Act} {m : IOManager}
    (h : Run (fun m a m' => Acts m a m' ∧ a.Fits m ∧ a.Initialised tickleFd m)
      (initial tickleFd) acts m) :
    Mirrored tickleFd m ∧ ∀ a m', Acts m a m' → a.Fits m →
      (Mirrored tickleFd m' ↔ a.Initialised tickleFd m) := by
  obtain ⟨hm, hmir⟩ := inv_mirrored_of_run h
  exact ⟨hmir, fun a m' ha hfits => (acts_spec hm hmir ha hfits).2⟩

theorem Acts.of_outcome {m m' : IOManager} {op : Op} (hen : (Act.call op).Enabled m)
    (ho : Outcome m m' op) : Acts m (.call op) m' :=
  ⟨hen, ho.exec⟩

theorem acts_addEvent {m : IOManager} {fd : ℕ} {R : Regs} {event : Event} {caller : Caller}
    {s : ℕ} (h : Inv m) (hfd : fd < m.fdContexts.length) (hint : fd < 2 ^ 31)
    (hR : m.fdContexts[fd]? = some (.ofRegs fd R)) (hfree : R event = none)
    (hs : caller.scheduler = some s) (hexec : caller.exec = true) (cb : Option ℕ) :
    ∃ m', Acts m (.call (.addEvent fd event cb caller true)) m' ∧ Inv m' ∧
      fd < m'.fdContexts.length ∧ m'.fdContexts[fd]? =
        some (.ofRegs fd (Function.update R event (some (caller.registration s cb)))) := by
  obtain ⟨m', hadd, hr, -⟩ := addEvent_spec (h.reserve_eq hfd) hs hexec cb hR hfree rfl
  have henabled : (Op.addEvent fd event cb caller true).Enabled m := by
    refine ⟨hint, by rw [hs]; rfl, hexec, fun c hc => ?_⟩
    obtain rfl := Option.some.inj (hR.symm.trans hc)
    exact (R.mask_and_eq_zero event).mpr hfree
  have hexec' : exec m (.addEvent fd event cb caller true) = some m' := exec_addEvent hadd
  refine ⟨m', ⟨henabled, hexec'⟩, h.of_registered hr, ?_, hr.get⟩
  rw [hr.contexts, List.length_set]
  exact hfd

-- One event of two is taken out: `delEvent` happens to pass the mask of the other one,
-- `cancelEvent` passes zero.
theorem mirrored_iff_initialised_add :
    ∃ m m₁ m₂, Run (fun m a m' => Acts m a m' ∧ a.Fits m ∧ a.Initialised 3 m) (initial 3)
        [.call (.addEvent 5 .read (some 1) ⟨some 0, 0, true⟩ true),
          .call (.addEvent 5 .write (some 2) ⟨some 0, 0, true⟩ true)] m ∧
      Acts m (.call (.delEvent 5 .read (EPOLLET ||| EPOLLOUT) true)) m₁ ∧ Mirrored 3 m₁ ∧
      Acts m (.call (.cancelEvent 5 .write 0 true)) m₂ ∧ ¬Mirrored 3 m₂ := by
  have hlt : 5 < (initial 3).fdContexts.length := by decide
  obtain ⟨m₀, hread, h₀, hlt₀, hget₀⟩ := @acts_addEvent (initial 3) 5 (fun _ => none) .read
    ⟨some 0, 0, true⟩ 0 (.initial 3) hlt (by norm_num) rfl rfl rfl rfl (some 1)
  obtain ⟨m, hwrite, hm, -, hget⟩ := @acts_addEvent m₀ 5 _ .write ⟨some 0, 0, true⟩ 0 h₀ hlt₀
    (by norm_num) hget₀ rfl rfl rfl (some 2)
  have hrun : Run (fun m a m' => Acts m a m' ∧ a.Fits m ∧ a.Initialised 3 m) (initial 3)
      [.call (.addEvent 5 .read (some 1) ⟨some 0, 0, true⟩ true),
        .call (.addEvent 5 .write (some 2) ⟨some 0, 0, true⟩ true)] m :=
    .cons ⟨hread, fun _ => by norm_num, trivial⟩
      (.cons ⟨hwrite, fun _ => by norm_num, trivial⟩ (.nil m))
  have hdel : (Op.delEvent 5 .read (EPOLLET ||| EPOLLOUT) true).Enabled m :=
    show 5 < 2 ^ 31 by norm_num
  have hcancel : (Op.cancelEvent 5 .write 0 true).Enabled m := show 5 < 2 ^ 31 by norm_num
  obtain ⟨m₁, hm₁⟩ := exec_outcome hm hdel
  obtain ⟨m₂, hm₂⟩ := exec_outcome hm hcancel
  have hdel₁ : Acts m (.call (.delEvent 5 .read (EPOLLET ||| EPOLLOUT) true)) m₁ :=
    .of_outcome hdel hm₁
  have hcancel₂ : Acts m (.call (.cancelEvent 5 .write 0 true)) m₂ := .of_outcome hcancel hm₂
  obtain ⟨-, hnext⟩ := mirrored_iff_initialised hrun
  refine ⟨m, m₁, m₂, hrun, hdel₁, (hnext _ m₁ hdel₁ trivial).mpr ?_, hcancel₂, fun hmir => ?_⟩
  · intro _ c hc _ _ _
    obtain rfl := Option.some.inj (hget.symm.trans hc)
    decide
  · have hzero := (hnext _ m₂ hcancel₂ trivial).mp hmir rfl _ hget (by decide) (by decide)
      (by decide)
    exact absurd hzero (by decide)

/-- `delEvent` removes the read event while the write event stays, and the uninitialised mask is
zero: the kernel is told that nothing is of interest. -/
theorem delEvent_stores_garbage :
    (iterate act (initial 3) [.call (.addEvent 5 .read (some 1) ⟨some 0, 0, true⟩ true),
      .call (.addEvent 5 .write (some 2) ⟨some 0, 0, true⟩ true),
      .call (.delEvent 5 .read 0 true)]).map
        (fun m => (m.epoll 5, m.fdContexts[5]?.map (·.events))) =
    some (some 0, some Event.write.mask) := by
  decide +kernel

end ApexStorm.IOManager
