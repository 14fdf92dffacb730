import ApexStorm.Lib.Tally
import ApexStorm.Timer.Front

/-!
# No timer wake-up is lost

Workers go through `IOManager::idle` while other threads change the timers, call
`stopping()` and `tickle()`. A worker is `between` from its sample of `getNextTimer`
to its return from `epoll_wait`. While `m_tickled` is set, an insertion at the front
is not reported, so the flag must mean that some worker will sample again: one is
awake, or a byte is in the pipe or on its way there.
-/

namespace ApexStorm.Wakeup
open Lib TimerManager

variable {C : Type} {n : ℕ}

inductive Phase
  | away | entered
  | between (sampled delay : UInt64)
  | woken | ended | left
  deriving DecidableEq, Repr

/-- Between `++m_idleThreadCount` and `--m_idleThreadCount` of `Scheduler::run`. -/
def Phase.idle : Phase → Bool
  | .entered | .between _ _ | .woken | .ended => true
  | .away | .left => false

def Phase.awake : Phase → Bool
  | .away | .entered | .woken => true
  | .between _ _ | .ended | .left => false

def Phase.inLoop : Phase → Bool
  | .ended | .left => false
  | _ => true

/-- `pending` threads have set `m_tickled` and not yet called `tickle()`, `writing` of them have
found an idle thread there and not yet written; `others` have called `tickle()` for another
reason. -/
structure System (C : Type) (n : ℕ) where
  manager : TimerManager C
  clock : UInt64
  phase : Fin n → Phase
  idleThreadCount : ℕ
  pending : ℕ
  writing : ℕ
  others : ℕ
  pipe : ℕ

def initial (C : Type) (n : ℕ) (start : UInt64) : System C n where
  manager := .new start
  clock := start
  phase := fun _ => .away
  idleThreadCount := 0
  pending := 0
  writing := 0
  others := 0
  pipe := 0

inductive Act (C : Type) (n : ℕ)
  | tick (clock : UInt64)
  | op (op : Op C)
  | stopping
  | enter (w : Fin n)
  | sample (w : Fin n)
  | giveUp (w : Fin n)
  | wake (w : Fin n)
  | read (w : Fin n)
  | list (w : Fin n) (now : UInt64) (x : Addr)
  | leave (w : Fin n)
  | check
  | write
  | otherCheck
  | otherWrite

namespace System

def goto (s : System C n) (w : Fin n) (p : Phase) : System C n :=
  { s with phase := Function.update s.phase w p }

/-- The threads that `onTimerInsertedAtFront` sends to `tickle()`. -/
def withManager (s : System C n) (m : TimerManager C) : System C n :=
  { s with manager := m, pending := s.pending + (m.atFrontCalls - s.manager.atFrontCalls) }

def step (s : System C n) : Act C n → Option (System C n)
  | .tick clock => some { s with clock := clock }
  | .op op => (exec s.manager op).map fun r => s.withManager r.2
  | .stopping => (s.manager.getNextTimer s.clock).map fun r => { s with manager := r.2 }
  | .enter w =>
    match s.phase w with
    | .away => some ({ s with idleThreadCount := s.idleThreadCount + 1 }.goto w .entered)
    | _ => none
  | .sample w =>
    match s.phase w with
    | .entered => (s.manager.getNextTimer s.clock).map fun r =>
        { s with manager := r.2 }.goto w (.between s.clock r.1)
    | _ => none
  | .giveUp w =>
    match s.phase w with
    | .between _ delay => if delay = ~~~0 then some (s.goto w .ended) else none
    | _ => none
  | .wake w =>
    match s.phase w with
    | .between _ _ => some (s.goto w .woken)
    | _ => none
  | .read w =>
    match s.phase w with
    | .woken => if 0 < s.pipe then some { s with pipe := s.pipe - 1 } else none
    | _ => none
  | .list w now x =>
    match s.phase w with
    | .woken => (exec s.manager (.listExpiredCb now x)).map fun r => s.withManager r.2
    | _ => none
  | .leave w =>
    match s.phase w with
    | .woken => some ({ s with idleThreadCount := s.idleThreadCount - 1 }.goto w .away)
    | .ended => some ({ s with idleThreadCount := s.idleThreadCount - 1 }.goto w .left)
    | _ => none
  | .check =>
    if 0 < s.pending then
      if 0 < s.idleThreadCount then
        some { s with pending := s.pending - 1, writing := s.writing + 1 }
      else some { s with pending := s.pending - 1 }
    else none
  | .write =>
    if 0 < s.writing then some { s with writing := s.writing - 1, pipe := s.pipe + 1 } else none
  | .otherCheck =>
    if 0 < s.idleThreadCount then some { s with others := s.others + 1 } else none
  | .otherWrite =>
    if 0 < s.others then some { s with others := s.others - 1, pipe := s.pipe + 1 } else none

/-- The clock does not go back, calls are made on live timers and no sum of a reading of the
clock and a period wraps. -/
def Enabled (s : System C n) : Act C n → Prop
  | .tick clock => s.clock ≤ clock
  | .op op => op.outside = true ∧ op.Enabled s.manager ∧ op.Timely s.clock s.manager
  | .list _ now x =>
    (Op.listExpiredCb now x : Op C).Enabled s.manager ∧
      (Op.listExpiredCb now x : Op C).Timely s.clock s.manager
  | _ => True

/-- A byte is in the pipe or a thread that set `m_tickled` will still execute `tickle()`. -/
def Signalled (s : System C n) : Prop := 0 < s.pipe ∨ 0 < s.pending ∨ 0 < s.writing

def Awake (s : System C n) : Prop := ∃ w, (s.phase w).awake = true

structure Inv (s : System C n) : Prop where
  manager : s.manager.Inv
  begun : Begun s.clock s.manager.heap
  sampled : ∀ w sampled delay, s.phase w = .between sampled delay → sampled ≤ s.clock
  count : s.idleThreadCount = (tally Phase.idle s.phase).card
  tickled : s.manager.tickled = true →
    s.Awake ∨ s.Signalled ∨ ∀ w, (s.phase w).inLoop = false
  covered : s.manager.timers ≠ [] → s.Awake ∨ s.Signalled ∨
    (∃ w sampled delay, s.phase w = .between sampled delay ∧ delay ≠ ~~~0 ∧
      s.manager.Covers sampled delay) ∨
    ∀ w sampled delay, s.phase w = .between sampled delay → s.manager.Covers sampled delay

variable {s t : System C n} {w : Fin n} {p : Phase}

theorem awake_goto (s : System C n) (w : Fin n) (hp : p.awake = true) : (s.goto w p).Awake :=
  ⟨w, by simpa [goto] using hp⟩

theorem inv_clear {m : TimerManager C} (h : m.Inv) :
    TimerManager.Inv { m with tickled := false } :=
  ⟨h.sorted, h.live, h.disarmed, h.out⟩

namespace Inv

theorem initial (C : Type) (n : ℕ) (start : UInt64) : (initial C n start).Inv where
  manager := InvExcept.new start
  begun _ _ ht := by cases ht
  sampled _ _ _ hp := by cases hp
  count := by simp [Wakeup.initial, tally, Phase.idle]
  tickled h := by cases h
  covered h := absurd rfl h

theorem of_awake (hm : t.manager.Inv) (hb : Begun t.clock t.manager.heap)
    (hs : ∀ w sampled delay, t.phase w = .between sampled delay → sampled ≤ t.clock)
    (hc : t.idleThreadCount = (tally Phase.idle t.phase).card) (ha : t.Awake) : t.Inv :=
  ⟨hm, hb, hs, hc, fun _ => .inl ha, fun _ => .inl ha⟩

theorem not_between {P : UInt64 → UInt64 → Prop} (hall : ∀ w, (s.phase w).inLoop = false) :
    ∀ w sampled delay, s.phase w = .between sampled delay → P sampled delay := by
  intro w sampled delay hw
  have hout := hall w
  rw [hw] at hout
  cases hout

theorem of_signals (h : s.Inv) (hm : t.manager = s.manager) (hclock : t.clock = s.clock)
    (hphase : t.phase = s.phase) (hc : t.idleThreadCount = s.idleThreadCount)
    (hsig : s.Signalled → s.Awake ∨ t.Signalled ∨ ∀ w, (s.phase w).inLoop = false) : t.Inv := by
  have hawake : t.Awake ↔ s.Awake := by rw [Awake, hphase, Awake]
  refine ⟨hm ▸ h.manager, ?_, ?_, ?_, ?_, ?_⟩
  · rw [hclock, hm]
    exact h.begun
  · rw [hphase, hclock]
    exact h.sampled
  · rw [hc, hphase]
    exact h.count
  · rw [hm, hawake, hphase]
    intro htick
    rcases h.tickled htick with ha | hs | hall
    · exact .inl ha
    · exact hsig hs
    · exact .inr (.inr hall)
  · rw [hm, hawake, hphase]
    intro hne
    rcases h.covered hne with ha | hs | hcov
    · exact .inl ha
    · exact (hsig hs).imp_right (Or.imp_right fun hall => .inr (not_between hall))
    · exact .inr (.inr hcov)

theorem sampled_goto (h : s.Inv) (hp : ∀ sampled delay, p = .between sampled delay →
      sampled ≤ s.clock) (w' : Fin n) (sampled delay : UInt64)
    (hw : (s.goto w p).phase w' = .between sampled delay) : sampled ≤ s.clock := by
  by_cases he : w' = w
  · subst he
    exact hp sampled delay (by simpa [goto] using hw)
  · exact h.sampled w' sampled delay (by simpa [goto, he] using hw)

theorem op (h : s.Inv) {op : Op C} {r : Result C} {m : TimerManager C} (hop : op.Enabled s.manager)
    (htime : op.Timely s.clock s.manager) (hout : op.outside = true)
    (hexec : exec s.manager op = some (r, m)) : (s.withManager m).Inv := by
  have hyields := (h.manager.step_eq (e := (op, r)) ⟨hop, hexec⟩).2
  have hm : m.Inv := hyields.inv
  have hbegun : Begun s.clock m.heap := h.begun.yields htime hyields
  cases notice_exec h.manager h.begun hop htime hout hexec with
  | later hnext htickled hcalls =>
    have hsig : (s.withManager m).Signalled ↔ s.Signalled := by
      simp [Signalled, withManager, hcalls]
    refine ⟨hm, hbegun, h.sampled, h.count, ?_, ?_⟩
    · intro htick
      rw [hsig]
      exact h.tickled (htickled.symm.trans htick)
    · intro hne
      obtain ⟨b, hb⟩ := List.exists_mem_of_ne_nil _ hne
      obtain ⟨c, hc, -⟩ := hnext b hb
      rw [hsig]
      refine (h.covered (List.ne_nil_of_mem hc)).imp_right (Or.imp_right (Or.imp ?_ ?_))
      · rintro ⟨w, sampled, delay, hw, hdelay, hcovers⟩
        exact ⟨w, sampled, delay, hw, hdelay, hcovers.later hnext⟩
      · exact fun hall w sampled delay hw => (hall w sampled delay hw).later hnext
  | hushed hold htickled hcalls =>
    have hsig : (s.withManager m).Signalled ↔ s.Signalled := by
      simp [Signalled, withManager, hcalls]
    refine ⟨hm, hbegun, h.sampled, h.count, ?_, ?_⟩
    · intro _
      rw [hsig]
      exact h.tickled hold
    · intro _
      rw [hsig]
      exact (h.tickled hold).imp_right (Or.imp_right fun hall => .inr (not_between hall))
  | reported htickled hcalls =>
    have hsig : (s.withManager m).Signalled := by
      refine .inr (.inl ?_)
      simp only [withManager, hcalls]
      omega
    exact ⟨hm, hbegun, h.sampled, h.count, fun _ => .inr (.inl hsig), fun _ => .inr (.inl hsig)⟩

theorem count_goto (h : s.Inv) {k : ℕ} (hcount : k + (if (s.phase w).idle = true then 1 else 0) =
      s.idleThreadCount + if p.idle = true then 1 else 0) :
    k = (tally Phase.idle (Function.update s.phase w p)).card := by
  have hcard := card_tally_update Phase.idle s.phase w p
  rw [← h.count] at hcard
  omega

theorem sample (h : s.Inv) {delay : UInt64} {m : TimerManager C} (hp : s.phase w = .entered)
    (hnext : s.manager.getNextTimer s.clock = some (delay, m)) :
    ({ s with manager := m }.goto w (.between s.clock delay)).Inv := by
  obtain ⟨delay', hspec, hcov⟩ := getNextTimer_spec h.manager s.clock
  rw [hspec] at hnext
  obtain ⟨rfl, rfl⟩ := Prod.mk.inj (Option.some.inj hnext)
  have hself : ({ s with manager := { s.manager with tickled := false } }.goto w
      (.between s.clock delay')).phase w = .between s.clock delay' := by simp [goto]
  refine ⟨inv_clear h.manager, h.begun, ?_, ?_, (fun htick => by cases htick), ?_⟩
  · exact h.sampled_goto fun sampled delay he => by
      cases he
      exact UInt64.le_refl _
  · exact h.count_goto (k := s.idleThreadCount) (by simp [hp, Phase.idle])
  · intro hne
    obtain ⟨hcovers, hedge⟩ := hcov hne
    by_cases hmax : delay' = ~~~0
    · obtain ⟨hzero, hall⟩ := hedge hmax
      refine .inr (.inr (.inr fun w' sampled delay hw => ?_))
      have hle := h.sampled_goto (w := w) (p := .between s.clock delay')
        (fun sampled delay he => by cases he; exact UInt64.le_refl _) w' sampled delay hw
      have heq : sampled = s.clock := by
        rw [UInt64.le_iff_toNat_le] at hle
        exact UInt64.toNat_inj.mp (by omega)
      rw [heq]
      exact hall delay
    · exact .inr (.inr (.inl ⟨w, s.clock, delay', hself, hmax, hcovers⟩))

theorem retire (h : s.Inv) {k : ℕ} (hsleep : (s.phase w).awake = false) (hp : p.inLoop = false)
    (hmax : ∀ sampled delay, s.phase w = .between sampled delay → delay = ~~~0)
    (hcount : k + (if (s.phase w).idle = true then 1 else 0) =
      s.idleThreadCount + if p.idle = true then 1 else 0) :
    ({ s with idleThreadCount := k }.goto w p).Inv := by
  have hother : ∀ {w'}, w' ≠ w →
      ({ s with idleThreadCount := k }.goto w p).phase w' = s.phase w' := fun hw => by
    simp [goto, hw]
  have hself : ({ s with idleThreadCount := k }.goto w p).phase w = p := by simp [goto]
  have hbetween : ∀ {w' sampled delay},
      ({ s with idleThreadCount := k }.goto w p).phase w' = .between sampled delay →
        s.phase w' = .between sampled delay := by
    intro w' sampled delay hw'
    by_cases hw : w' = w
    · rw [hw, hself] at hw'
      rw [hw'] at hp
      cases hp
    · rwa [hother hw] at hw'
  have hawake : s.Awake → ({ s with idleThreadCount := k }.goto w p).Awake := by
    rintro ⟨w', hw'⟩
    refine ⟨w', ?_⟩
    rwa [hother fun he => by simp [he, hsleep] at hw']
  refine ⟨h.manager, h.begun, fun w' _ _ hw' => h.sampled w' _ _ (hbetween hw'),
    h.count_goto hcount, ?_, ?_⟩
  · refine fun htick => (h.tickled htick).imp hawake (Or.imp_right fun hall w' => ?_)
    by_cases hw : w' = w
    · rw [hw, hself]
      exact hp
    · rw [hother hw]
      exact hall w'
  · intro hne
    refine (h.covered hne).imp hawake (Or.imp_right (Or.imp ?_ ?_))
    · rintro ⟨w', sampled, delay, hw', hdelay, hcovers⟩
      refine ⟨w', sampled, delay, ?_, hdelay, hcovers⟩
      rwa [hother fun he => hdelay (hmax sampled delay (he ▸ hw'))]
    · exact fun hall w' _ _ hw' => hall w' _ _ (hbetween hw')

theorem goto_awake (h : s.Inv) {k : ℕ} (hawake : p.awake = true)
    (hcount : k + (if (s.phase w).idle = true then 1 else 0) =
      s.idleThreadCount + if p.idle = true then 1 else 0) :
    ({ s with idleThreadCount := k }.goto w p).Inv := by
  refine .of_awake h.manager h.begun ?_ ?_ (awake_goto _ w hawake)
  · exact h.sampled_goto fun sampled delay he => by
      rw [he] at hawake
      cases hawake
  · exact h.count_goto hcount

theorem idle_pos (h : s.Inv) (hw : (s.phase w).idle = true) : 0 < s.idleThreadCount := by
  rw [h.count]
  exact tally_card_pos hw

theorem step (h : s.Inv) {a : Act C n} (ha : s.Enabled a) (hstep : s.step a = some t) : t.Inv := by
  cases a with
  | tick clock =>
    cases hstep
    refine ⟨h.manager, h.begun.mono ha, ?_, h.count, h.tickled, h.covered⟩
    exact fun w sampled delay hw => UInt64.le_trans (h.sampled w sampled delay hw) ha
  | op op =>
    obtain ⟨⟨r, m⟩, hexec, rfl⟩ := Option.map_eq_some_iff.mp hstep
    exact h.op ha.2.1 ha.2.2 ha.1 hexec
  | stopping =>
    obtain ⟨⟨delay, m⟩, hnext, rfl⟩ := Option.map_eq_some_iff.mp hstep
    obtain ⟨delay', hspec, -⟩ := getNextTimer_spec h.manager s.clock
    rw [hspec] at hnext
    obtain ⟨-, rfl⟩ := Prod.mk.inj (Option.some.inj hnext)
    exact ⟨inv_clear h.manager, h.begun, h.sampled, h.count, (fun htick => by cases htick),
      h.covered⟩
  | enter w =>
    simp only [System.step] at hstep
    split at hstep
    · rename_i hp
      cases hstep
      exact h.goto_awake rfl (by simp [hp, Phase.idle])
    · cases hstep
  | sample w =>
    simp only [System.step] at hstep
    split at hstep
    · rename_i hp
      obtain ⟨⟨delay, m⟩, hnext, rfl⟩ := Option.map_eq_some_iff.mp hstep
      exact h.sample hp hnext
    · cases hstep
  | giveUp w =>
    simp only [System.step] at hstep
    split at hstep
    · rename_i sampled delay hp
      split_ifs at hstep with hmax
      cases hstep
      exact h.retire (k := s.idleThreadCount) (by simp [hp, Phase.awake]) rfl
        (fun _ _ he => by simp_all) (by simp [hp, Phase.idle])
    · cases hstep
  | wake w =>
    simp only [System.step] at hstep
    split at hstep
    · rename_i hp
      cases hstep
      exact h.goto_awake (k := s.idleThreadCount) rfl (by simp [hp, Phase.idle])
    · cases hstep
  | read w =>
    simp only [System.step] at hstep
    split at hstep
    · rename_i hp
      split_ifs at hstep
      cases hstep
      exact .of_awake h.manager h.begun h.sampled h.count ⟨w, by simp [hp, Phase.awake]⟩
    · cases hstep
  | list w now x =>
    simp only [System.step] at hstep
    split at hstep
    · rename_i hp
      obtain ⟨⟨r, m⟩, hexec, rfl⟩ := Option.map_eq_some_iff.mp hstep
      have hyields := (h.manager.step_eq (e := (.listExpiredCb now x, r)) ⟨ha.1, hexec⟩).2
      exact .of_awake hyields.inv (h.begun.yields ha.2 hyields) h.sampled h.count
        ⟨w, by simp [withManager, hp, Phase.awake]⟩
    · cases hstep
  | leave w =>
    simp only [System.step] at hstep
    split at hstep
    · rename_i hp
      cases hstep
      have hpos := h.idle_pos (w := w) (by simp [hp, Phase.idle])
      exact h.goto_awake rfl (by simp [hp, Phase.idle, Nat.sub_add_cancel hpos])
    · rename_i hp
      cases hstep
      have hpos := h.idle_pos (w := w) (by simp [hp, Phase.idle])
      exact h.retire (by simp [hp, Phase.awake]) rfl (by simp [hp])
        (by simp [hp, Phase.idle, Nat.sub_add_cancel hpos])
    · cases hstep
  | check =>
    simp only [System.step] at hstep
    split_ifs at hstep with hpend hidle
    · cases hstep
      exact h.of_signals rfl rfl rfl rfl fun _ => .inr (.inl (.inr (.inr (Nat.succ_pos _))))
    · cases hstep
      refine h.of_signals rfl rfl rfl rfl fun _ => ?_
      have hnone := eq_false_of_tally_card (h.count.symm.trans (Nat.eq_zero_of_not_pos hidle))
      by_cases hloop : ∀ w, (s.phase w).inLoop = false
      · exact .inr (.inr hloop)
      · obtain ⟨w, hw⟩ := not_forall.mp hloop
        refine .inl ⟨w, ?_⟩
        have hout := hnone w
        cases hphase : s.phase w <;> simp_all [Phase.idle, Phase.awake, Phase.inLoop]
  | otherCheck =>
    simp only [System.step] at hstep
    split_ifs at hstep
    cases hstep
    exact h.of_signals rfl rfl rfl rfl fun hsig => .inr (.inl hsig)
  | write | otherWrite =>
    simp only [System.step] at hstep
    split_ifs at hstep
    cases hstep
    exact h.of_signals rfl rfl rfl rfl fun _ => .inr (.inl (.inl (Nat.succ_pos _)))

end Inv

end System
/-- With a timer in the set and a worker in the loop, some worker in the loop is not between its
sample and its return from `epoll_wait`, or a tickle is in the pipe or to come, or some worker that
is between them sampled a delay of 0 or one that ends no later than the earliest `m_next`. -/
theorem no_lost_wakeup (n : ℕ) (start : UInt64) (acts : List (Act C n)) (s : System C n)
    (hrun : Run (fun s a t => s.Enabled a ∧ s.step a = some t) (initial C n start) acts s)
    (htimers : s.manager.timers ≠ []) (hloop : ∃ w, (s.phase w).inLoop = true) :
    (∃ w, (s.phase w).inLoop = true ∧ ∀ sampled delay, s.phase w ≠ .between sampled delay) ∨
      (0 < s.pipe ∨ 0 < s.pending ∨ 0 < s.writing) ∨
      ∃ w sampled delay, s.phase w = .between sampled delay ∧
        (delay = 0 ∨ ∀ a ∈ s.manager.timers,
          sampled.toNat + delay.toNat ≤ (nextOf s.manager.heap a).toNat) := by
  have hinv : s.Inv :=
    hrun.invariant (fun _ _ _ h hstep => h.step hstep.1 hstep.2) (.initial C n start)
  rcases hinv.covered htimers with ⟨w, hw⟩ | hsig | ⟨w, sampled, delay, hw, -, hcovers⟩ | hall
  · refine .inl ⟨w, ?_, ?_⟩ <;> cases hphase : s.phase w <;>
      simp_all [Phase.awake, Phase.inLoop]
  · exact .inr (.inl hsig)
  · exact .inr (.inr ⟨w, sampled, delay, hw, hcovers⟩)
  · obtain ⟨w, hw⟩ := hloop
    by_cases hb : ∃ sampled delay, s.phase w = .between sampled delay
    · obtain ⟨sampled, delay, hb⟩ := hb
      exact .inr (.inr ⟨w, sampled, delay, hb, hall w sampled delay hb⟩)
    · exact .inl ⟨w, hw, fun sampled delay he => hb ⟨sampled, delay, he⟩⟩

-- The only worker sleeps when a timer is put at the front and the thread that put it has not yet
-- called `tickle()`.
theorem no_lost_wakeup_pending :
    ∃ s : System ℕ 1,
      Run (fun s a t => s.Enabled a ∧ s.step a = some t) (initial ℕ 1 10)
        [.enter 0, .sample 0, .tick 12, .op (.addTimer 7 11 30 (some 5) false)] s ∧
      s.manager.timers = [7] ∧ s.phase 0 = .between 10 (~~~0) ∧
      (0 < s.pipe ∨ 0 < s.pending ∨ 0 < s.writing) := by
  have hrun : ∃ s : System ℕ 1,
      Run (fun s a t => s.Enabled a ∧ s.step a = some t) (initial ℕ 1 10)
        [.enter 0, .sample 0, .tick 12, .op (.addTimer 7 11 30 (some 5) false)] s ∧
      s.manager.timers = [7] ∧ s.phase 0 = .between 10 (~~~0) ∧
      (nextOf s.manager.heap 7).toNat = 41 := by
    have htick : (10 : UInt64) ≤ 12 := by decide
    have hnow : (11 : UInt64) ≤ 12 := by decide
    have hwrap : (11 : UInt64).toNat + (30 : UInt64).toNat < 2 ^ 64 := by decide
    exact ⟨_, .cons ⟨trivial, rfl⟩ (.cons ⟨trivial, rfl⟩ (.cons ⟨htick, rfl⟩
      (.cons ⟨⟨rfl, rfl, hnow, hwrap⟩, rfl⟩ (.nil _)))), rfl, rfl, rfl⟩
  obtain ⟨s, hrun, htimers, hphase, hnext⟩ := hrun
  refine ⟨s, hrun, htimers, hphase, ?_⟩
  rcases no_lost_wakeup 1 10 _ s hrun (by simp [htimers]) ⟨0, by rw [hphase]; rfl⟩ with
    ⟨w, -, hw⟩ | hsig | ⟨w, sampled, delay, hw, hcovers⟩
  · rw [Subsingleton.elim w 0] at hw
    exact absurd hphase (hw _ _)
  · exact hsig
  · rw [Subsingleton.elim w 0, hphase] at hw
    obtain ⟨rfl, rfl⟩ := Phase.between.inj hw
    rcases hcovers with hzero | hall
    · exact absurd hzero (by decide)
    · have := hall 7 (by simp [htimers])
      rw [hnext] at this
      exact absurd this (by decide)

end ApexStorm.Wakeup
