import ApexStorm.Timer.Start

/-!
# The answers of the calls on a timer

`cancel`, `refresh` and `reset` answer by the callback of the timer, not by the set. The
two differ for a timer that was added without a callback. `reset` with the delay in force
answers before it looks at either.
-/

namespace ApexStorm.TimerManager
open Lib

variable {C : Type}

inductive Control
  | cancel
  | refresh (now : UInt64)
  | reset (ms : UInt64) (from_now : Bool) (now : UInt64)

namespace Control

def op (a : Addr) : Control → Op C
  | .cancel => .cancel a
  | .refresh now => .refresh a now
  | .reset ms from_now now => .reset a ms from_now now

def outcome (start : UInt64) (t : Timer C) : Control → Timer C
  | .cancel => { t with cb := none }
  | .refresh now => { t with next := now + t.ms }
  | .reset ms from_now now => { t with ms := ms, next := (if from_now then now else start) + ms }

def Truthful (s : Timed C) (a : Addr) (t : Timer C) (c : Control) : Prop :=
  ∃ b m', exec s.manager (c.op a) = some (.flag b, m') ∧
    (b = true ↔ a ∈ s.manager.timers) ∧
    (b = true → m'.heap a = some (c.outcome (s.starts a) t) ∧ (a ∈ m'.timers ↔ c ≠ .cancel) ∧
      ∀ d, d ≠ a → m'.heap d = s.manager.heap d ∧ (d ∈ m'.timers ↔ d ∈ s.manager.timers)) ∧
    (b = false → m' = s.manager)

/-- `reset` with the delay in force, which returns before it takes the lock. -/
def idle (t : Timer C) : Control → Bool
  | .reset ms from_now _ => decide (ms = t.ms ∧ from_now = false)
  | _ => false

def answer (t : Timer C) (c : Control) : Bool := c.idle t || t.cb.isSome

variable {m : TimerManager C} {s : Timed C} {a : Addr} {t : Timer C}

theorem exec_eq (h : Inv m) (ht : m.heap a = some t) (c : Control) :
    ∃ m', exec m (c.op a) = some (.flag (c.answer t), m') ∧ (c.op a).Yields m m' ∧
      (c.answer t = false → m' = m) := by
  have hsame : ∀ {r : Option (Bool × TimerManager C)} {b m'}, r = some (b, m') →
      r = some (false, m) → m' = m := by
    intro r b m' hr hkeep
    exact (Prod.mk.inj (Option.some.inj (hr.symm.trans hkeep))).2
  have hnone : t.cb.isSome = false → t.cb = none := by simp
  cases c with
  | cancel =>
    obtain ⟨m', hrun, hyields⟩ := h.cancel ht
    refine ⟨m', by rw [op, exec, hrun]; rfl, hyields, fun hno => ?_⟩
    exact hsame hrun (InvExcept.cancel_eq ht (hnone hno))
  | refresh now =>
    obtain ⟨m', hrun, hyields⟩ := h.refresh ht now
    refine ⟨m', by rw [op, exec, hrun]; rfl, hyields, fun hno => ?_⟩
    exact hsame hrun (InvExcept.refresh_eq ht (hnone hno) now)
  | reset ms from_now now =>
    obtain ⟨m', hrun, hyields⟩ := h.reset ht ms from_now now
    refine ⟨m', by rw [op, exec, hrun]; rfl, hyields, fun hno => ?_⟩
    obtain ⟨hidle, hcb⟩ := Bool.or_eq_false_iff.mp hno
    exact hsame hrun (InvExcept.reset_eq ht (hnone hcb) (of_decide_eq_false hidle))

theorem effect_self (h : s.Good) (ht : s.manager.heap a = some t) {c : Control}
    (hyes : c.answer t = true) :
    (c.op a).effect s.manager a = some (c.outcome (s.starts a) t) := by
  have hstart := h.counts.sub_eq ht
  cases c with
  | cancel => rw [op, Op.effect, Function.update_self, ht]; rfl
  | refresh now =>
    have hcb : t.cb.isSome = true := hyes
    rw [op, Op.effect, Function.update_self, ht, Option.map_some, restarted, if_pos hcb, outcome]
  | reset ms from_now now =>
    rw [op, Op.effect, Function.update_self, ht, Option.map_some, restarted, hstart, outcome]
    by_cases hcb : t.cb.isSome = true
    · rw [if_pos hcb]
    · -- nothing was done, and the timer is as it should be
      rw [if_neg hcb]
      rw [answer, Bool.eq_false_iff.mpr hcb, Bool.or_false] at hyes
      obtain ⟨rfl, rfl⟩ := of_decide_eq_true hyes
      have hnext := h.counts a t ht
      simp only [Bool.false_eq_true, if_false, ← hnext]

theorem armed_self (ht : m.heap a = some t) (ha : a ∈ m.timers) {c : Control}
    (hyes : c.answer t = true) : (c.op a).armed m a ↔ c ≠ .cancel := by
  cases c with
  | cancel =>
    have hcb : (cbOf m.heap a).isSome = true := by
      rw [InvExcept.cbOf_eq ht]
      exact hyes
    exact iff_of_false (fun hin => hin.2 ⟨rfl, hcb⟩) fun hne => hne rfl
  | refresh now => exact iff_of_true ha Control.noConfusion
  | reset ms from_now now => exact iff_of_true ha Control.noConfusion

theorem frame {d : Addr} (hd : d ≠ a) (c : Control) :
    (c.op a).effect m d = m.heap d ∧ ((c.op a).armed m d ↔ d ∈ m.timers) := by
  cases c with
  | cancel => exact ⟨Function.update_of_ne hd _ _, and_iff_left fun he => hd he.1⟩
  | refresh now => exact ⟨Function.update_of_ne hd _ _, Iff.rfl⟩
  | reset ms from_now now => exact ⟨Function.update_of_ne hd _ _, Iff.rfl⟩

theorem truthful_iff_answer (h : s.Good) (ht : s.manager.heap a = some t) (c : Control) :
    c.Truthful s a t ↔ (c.answer t = true ↔ a ∈ s.manager.timers) := by
  obtain ⟨m', hexec, hyields, hno⟩ := exec_eq h.inv ht c
  constructor
  · rintro ⟨b, m'', hexec', hiff, -⟩
    obtain ⟨hflag, -⟩ := Prod.mk.inj (Option.some.inj (hexec.symm.trans hexec'))
    rw [Result.flag.inj hflag]
    exact hiff
  · intro hiff
    refine ⟨_, m', hexec, hiff, fun hyes => ⟨?_, ?_, fun d hd => ?_⟩, hno⟩
    · rw [hyields.heap_eq]
      exact effect_self h ht hyes
    · rw [hyields.mem_iff]
      exact armed_self ht (hiff.mp hyes) hyes
    · rw [hyields.heap_eq, hyields.mem_iff]
      exact frame hd c

/-- In every reachable state a call on a timer is truthful unless it is a `reset` with the delay
in force of a timer that is not armed, or any other call on an armed timer that was added without
a callback. -/
theorem truthful_iff (start : UInt64) (es : List (Op C × Result C)) (s : Timed C)
    (hrun : Run Timed.Step (Timed.new start) es s) (a : Addr) (t : Timer C)
    (ht : s.manager.heap a = some t) (c : Control) :
    c.Truthful s a t ↔ (c.idle t = true → a ∈ s.manager.timers) ∧
      (a ∈ s.manager.timers → c.idle t = true ∨ t.cb.isSome) := by
  have h := Timed.Good.of_run hrun
  have hin := h.inv.mem_of_cb ht
  rw [truthful_iff_answer h ht, answer, Bool.or_eq_true]
  tauto

theorem truthful_iff_armed :
    ∃ s : Timed ℕ, Run Timed.Step (Timed.new 0) [(.addTimer 1 5 3 (some 7) false, .done)] s ∧
      ∃ t, s.manager.heap 1 = some t ∧ (Control.reset 9 false 6).Truthful s 1 t := by
  have hrun : ∃ s : Timed ℕ, Run Timed.Step (Timed.new 0)
      [(.addTimer 1 5 3 (some 7) false, .done)] s ∧ s.manager.timers = [1] ∧
      s.manager.heap 1 = some ⟨false, 3, 8, some 7⟩ :=
    ⟨_, .cons (.of_exec rfl rfl) (.nil _), rfl, rfl⟩
  obtain ⟨s, hrun, htimers, ht⟩ := hrun
  refine ⟨s, hrun, _, ht, (truthful_iff 0 _ s hrun 1 _ ht _).mpr ⟨?_, ?_⟩⟩
  · exact fun _ => by simp [htimers]
  · exact fun _ => .inr rfl

/-- A cancelled timer answers true to a `reset` with its delay, and a timer that was added without
a callback is armed and answers false to `cancel`. -/
theorem reset_cancelled_untruthful :
    (∃ m : TimerManager ℕ, Run Step (new 0)
      [(.addTimer 1 5 3 (some 7) false, .done), (.cancel 1, .flag true)] m ∧ m.timers = [] ∧
      exec m (.reset 1 3 false 6) = some (.flag true, m)) ∧
    ∃ m : TimerManager ℕ, Run Step (new 0) [(.addTimer 1 5 3 none false, .done)] m ∧
      m.timers = [1] ∧ exec m (.cancel 1) = some (.flag false, m) :=
  ⟨⟨_, .cons ⟨rfl, rfl⟩ (.cons ⟨rfl, rfl⟩ (.nil _)), rfl, rfl⟩,
    ⟨_, .cons ⟨rfl, rfl⟩ (.nil _), rfl, rfl⟩⟩

end Control
end ApexStorm.TimerManager
