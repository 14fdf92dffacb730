import ApexStorm.Timer.Expiry

/-!
# The readings from which timers count

A timer keeps its delay and the time it is due, not the clock reading it counts from.
`Timed` keeps these readings beside the manager; `m_next` is the reading plus the
delay, modulo `2 ^ 64`, and `reset` recovers the reading from it. A sum that wraps is
due too early.
-/

namespace ApexStorm.TimerManager
open Lib

variable {C : Type}

def Op.reading (m : TimerManager C) : Op C → Option UInt64
  | .addTimer _ now _ _ _ | .listExpiredCb now _ => some now
  | .refresh a now => if (cbOf m.heap a).isSome then some now else none
  | .reset a _ from_now now => if from_now ∧ (cbOf m.heap a).isSome then some now else none
  | .cancel _ | .release _ => none

def Op.starts (m : TimerManager C) (starts : Addr → UInt64) : Op C → Addr → UInt64
  | .addTimer a now _ _ _ => Function.update starts a now
  | .refresh a now =>
    Function.update starts a (if (cbOf m.heap a).isSome then now else starts a)
  | .reset a _ from_now now =>
    Function.update starts a (if from_now ∧ (cbOf m.heap a).isSome then now else starts a)
  | .listExpiredCb now x => fun a =>
    if a ∈ m.expired now x ∧ recurs m.heap a then now else starts a
  | .cancel _ | .release _ => starts

structure Timed (C : Type) where
  manager : TimerManager C
  starts : Addr → UInt64
  clock : UInt64

namespace Timed

def new (start : UInt64) : Timed C := ⟨.new start, fun _ => 0, start⟩

def Step (s : Timed C) (e : Op C × Result C) (s' : Timed C) : Prop :=
  s.manager.Step e s'.manager ∧ s'.starts = e.1.starts s.manager s.starts ∧
    s'.clock = (e.1.reading s.manager).getD s.clock

def Forward (s : Timed C) (e : Op C × Result C) (s' : Timed C) : Prop :=
  s.Step e s' ∧ s.clock ≤ s'.clock

end Timed

def Counts (heap : Addr → Option (Timer C)) (starts : Addr → UInt64) : Prop :=
  ∀ a t, heap a = some t → t.next = starts a + t.ms

namespace Counts
variable {heap : Addr → Option (Timer C)} {starts : Addr → UInt64} {m : TimerManager C}

theorem update (h : Counts heap starts) {a : Addr} {x : Option (Timer C)} {v : UInt64}
    (hx : ∀ t, x = some t → t.next = v + t.ms) :
    Counts (Function.update heap a x) (Function.update starts a v) := by
  intro b t ht
  by_cases hb : b = a
  · subst hb
    rw [Function.update_self] at ht ⊢
    exact hx t ht
  · rw [Function.update_of_ne hb] at ht ⊢
    exact h b t ht

theorem keep (h : Counts heap starts) {a : Addr} {x : Option (Timer C)}
    (hx : ∀ t, x = some t → t.next = starts a + t.ms) :
    Counts (Function.update heap a x) starts := by
  have hupdate := h.update (a := a) hx
  rwa [Function.update_eq_self] at hupdate

theorem restart (h : Counts heap starts) {a : Addr} {ms start : Timer C → UInt64} {v : UInt64}
    (hstart : ∀ t, heap a = some t → v = if t.cb.isSome then start t else starts a) :
    Counts (Function.update heap a ((heap a).map fun t => restarted (ms t) (start t) t))
      (Function.update starts a v) := by
  refine h.update fun u hu => ?_
  obtain ⟨t, ht, rfl⟩ := Option.map_eq_some_iff.mp hu
  rw [hstart t ht, restarted]
  split_ifs
  · rfl
  · exact h a t ht

theorem sub_eq (h : Counts heap starts) {a : Addr} {t : Timer C} (ht : heap a = some t) :
    t.next - t.ms = starts a := by
  rw [h a t ht, UInt64.add_sub_cancel]

theorem effect (h : Counts m.heap starts) (op : Op C) :
    Counts (op.effect m) (op.starts m starts) := by
  cases op with
  | addTimer a now ms cb recurring =>
    refine h.update fun t ht => ?_
    cases ht
    rfl
  | cancel a =>
    refine h.keep fun u hu => ?_
    obtain ⟨t, ht, rfl⟩ := Option.map_eq_some_iff.mp hu
    exact h a t ht
  | refresh a now => exact h.restart fun t ht => by rw [InvExcept.cbOf_eq ht]
  | reset a ms from_now now =>
    refine h.restart fun t ht => ?_
    rw [InvExcept.cbOf_eq ht, h.sub_eq ht]
    cases from_now <;> simp
  | listExpiredCb now x =>
    intro b u hu
    simp only [Op.effect, Op.starts] at hu ⊢
    by_cases hb : b ∈ m.expired now x
    · rw [if_pos hb] at hu
      obtain ⟨t, ht, rfl⟩ := Option.map_eq_some_iff.mp hu
      rw [fired, recurs, ht, Option.any_some]
      by_cases hrec : t.recurring
      · rw [if_pos hrec, if_pos ⟨hb, hrec⟩]
      · rw [if_neg hrec, if_neg fun hall => hrec hall.2]
        exact h b t ht
    · rw [if_neg hb] at hu
      rw [if_neg fun hall => hb hall.1]
      exact h b u hu
  | release a => exact h.keep fun t ht => by cases ht

end Counts

namespace Timed
variable {s s' : Timed C} {start : UInt64} {es : List (Op C × Result C)}

theorem Step.of_exec {op : Op C} {r : Result C} {m : TimerManager C}
    (hop : op.Enabled s.manager) (hexec : exec s.manager op = some (r, m)) :
    s.Step (op, r)
      ⟨m, op.starts s.manager s.starts, (op.reading s.manager).getD s.clock⟩ :=
  ⟨⟨hop, hexec⟩, rfl, rfl⟩

theorem Forward.of_exec {op : Op C} {r : Result C} {m : TimerManager C}
    (hop : op.Enabled s.manager) (hexec : exec s.manager op = some (r, m))
    (hle : s.clock ≤ (op.reading s.manager).getD s.clock) :
    s.Forward (op, r)
      ⟨m, op.starts s.manager s.starts, (op.reading s.manager).getD s.clock⟩ :=
  ⟨.of_exec hop hexec, hle⟩

structure Good (s : Timed C) : Prop where
  inv : Inv s.manager
  counts : Counts s.manager.heap s.starts

theorem Good.step {e : Op C × Result C} (h : s.Good) (hstep : s.Step e s') : s'.Good := by
  have hyields := (h.inv.step_eq hstep.1).2
  refine ⟨hyields.inv, ?_⟩
  rw [hyields.heap_eq, hstep.2.1]
  exact h.counts.effect e.1

theorem Good.new (start : UInt64) : (new start : Timed C).Good :=
  ⟨InvExcept.new start, fun _ _ ht => by cases ht⟩

theorem Good.of_run (hrun : Run Step (Timed.new start) es s) : s.Good :=
  hrun.invariant (fun _ _ _ hs hstep => hs.step hstep) (Good.new start)

/-- The readings are no constraint: every run of the manager is one of the two together. -/
theorem exists_of_run {m : TimerManager C} (hrun : Run TimerManager.Step (.new start) es m) :
    ∃ s : Timed C, Run Step (Timed.new start) es s ∧ s.manager = m := by
  refine hrun.simulate (R := fun m (s : Timed C) => s.manager = m) ?_ rfl
  rintro m e m' s rfl hstep
  exact ⟨_, .of_exec hstep.1 hstep.2, rfl⟩

theorem previousTime_step {e : Op C × Result C} (h : s.Good) (hstep : s.Forward e s')
    (hle : s.manager.previousTime ≤ s.clock) : s'.manager.previousTime ≤ s'.clock := by
  obtain ⟨⟨hmanager, -, hclock⟩, hforward⟩ := hstep
  rw [(h.inv.step_eq hmanager).2.previous]
  have hkeep : s.manager.previousTime ≤ s'.clock := UInt64.le_trans hle hforward
  obtain ⟨op, r⟩ := e
  cases op with
  | listExpiredCb now x =>
    rw [Op.previousTime]
    split_ifs
    · exact hkeep
    · rw [hclock]
      exact UInt64.le_refl _
  | addTimer a now ms cb recurring => exact hkeep
  | cancel a => exact hkeep
  | refresh a now => exact hkeep
  | reset a ms from_now now => exact hkeep
  | release a => exact hkeep

theorem of_forward (hrun : Run Forward (Timed.new start) es s) :
    s.Good ∧ s.manager.previousTime ≤ s.clock := by
  refine hrun.invariant (P := fun s => s.Good ∧ s.manager.previousTime ≤ s.clock) ?_
    ⟨Good.new start, UInt64.le_refl _⟩
  rintro s e t ⟨hgood, hle⟩ hstep
  exact ⟨hgood.step hstep.1, previousTime_step hgood hstep hle⟩

/-- Along readings that never go back, a timer is listed no earlier than its delay after the
reading it counts from exactly if that time is below `2 ^ 64`. -/
theorem not_early_iff (start : UInt64) (es : List (Op C × Result C)) (s s' : Timed C)
    (now : UInt64) (x : Addr) (r : Result C) (hrun : Run Forward (Timed.new start) es s)
    (hstep : s.Forward (.listExpiredCb now x, r) s') :
    r = .cbs ((s.manager.expired now x).map (cbOf s.manager.heap)) ∧
    ∀ a ∈ s.manager.expired now x, ∃ t, s.manager.heap a = some t ∧
      ((s.starts a).toNat + t.ms.toNat ≤ now.toNat ↔
        (s.starts a).toNat + t.ms.toNat < 2 ^ 64) := by
  obtain ⟨hgood, hprevious⟩ := of_forward hrun
  obtain ⟨⟨hmanager, -, hclock⟩, hforward⟩ := hstep
  refine ⟨(hgood.inv.step_eq hmanager).1, fun a ha => ?_⟩
  have hnow : s'.clock = now := hclock
  have hroll : (s.manager.detectClockRollover now).1 = false := by
    have hle : s.manager.previousTime ≤ now := hnow ▸ UInt64.le_trans hprevious hforward
    exact decide_eq_false fun hback => absurd hback.1 (UInt64.not_lt.mpr hle)
  rw [hgood.inv.expired_eq hmanager.1 hroll, List.mem_filter, decide_eq_true_iff] at ha
  obtain ⟨t, ht⟩ := hgood.inv.live a ha.1
  have hdue : (t.next).toNat ≤ now.toNat := by
    have hle := UInt64.le_iff_toNat_le.mp ha.2
    rwa [nextOf, ht] at hle
  refine ⟨t, ht, fun hle => hle.trans_lt now.toNat_lt, fun hwrap => ?_⟩
  rwa [hgood.counts a t ht, toNat_add_of_lt hwrap] at hdue

theorem not_early_iff_recurring :
    ∃ s s' : Timed ℕ, Run Forward (Timed.new 0) [(.addTimer 1 5 3 (some 7) true, .done),
        (.listExpiredCb 10 9, .cbs [some 7])] s ∧
      s.Forward (.listExpiredCb 14 9, .cbs [some 7]) s' ∧
      ∀ a ∈ s.manager.expired 14 9, ∃ t, s.manager.heap a = some t ∧
        ((s.starts a).toNat + t.ms.toNat ≤ (14 : UInt64).toNat ↔
          (s.starts a).toNat + t.ms.toNat < 2 ^ 64) := by
  have hrun : ∃ s s' : Timed ℕ, Run Forward (Timed.new 0)
      [(.addTimer 1 5 3 (some 7) true, .done), (.listExpiredCb 10 9, .cbs [some 7])] s ∧
      s.Forward (.listExpiredCb 14 9, .cbs [some 7]) s' :=
    ⟨_, _, .cons (.of_exec rfl rfl (by decide)) (.cons (.of_exec rfl rfl (by decide)) (.nil _)),
      .of_exec rfl rfl (by decide)⟩
  obtain ⟨s, s', hrun, hstep⟩ := hrun
  exact ⟨s, s', hrun, hstep, (not_early_iff 0 _ s s' 14 9 _ hrun hstep).2⟩

/-- A timer with the longest delay, added at `5`, is due at `4` and listed at once. -/
theorem longest_delay_fires_early :
    ∃ s s' : Timed ℕ,
      Run Forward (Timed.new 0) [(.addTimer 1 5 18446744073709551615 (some 7) false, .done)] s ∧
      s.Forward (.listExpiredCb 5 9, .cbs [some 7]) s' ∧ s.manager.expired 5 9 = [1] ∧
      s.starts 1 = 5 ∧ s.manager.heap 1 = some ⟨false, 18446744073709551615, 4, some 7⟩ ∧
      ¬ 5 + 18446744073709551615 ≤ 5 :=
  ⟨_, _, .cons (.of_exec rfl rfl (by decide)) (.nil _), .of_exec rfl rfl (by decide),
    rfl, rfl, rfl, by decide⟩

end Timed

end ApexStorm.TimerManager
