import ApexStorm.IOManager.Basic
import ApexStorm.IOManager.Wakeup

/-!
# The timeout of `epoll_wait`

An iteration of `idle` takes its delay from `stopping`, clamps it and narrows it to
`int` for every call of `epoll_wait`, and an interrupted call starts over from the
clamped value. The comparison with `MAX_TIMEOUT` narrows the delay as well, so it is
made on the low half of the delay.
-/

namespace ApexStorm.IOManager
open Lib TimerManager

variable {C : Type} {m m' : TimerManager C} {now : UInt64}

def MAX_TIMEOUT : UInt64 := 5000

/-- `stopping(timeout)`; `quiet` says that no event is pending and `Scheduler::stopping()`. -/
def stopping (m : TimerManager C) (now : UInt64) (quiet : Bool) :
    Option (UInt64 × Bool × TimerManager C) := do
  let (timeout, m) ← m.getNextTimer now
  return (timeout, timeout == ~~~0 && quiet, m)

def clamp (next_timeout : UInt64) : UInt64 :=
  if next_timeout ≠ ~~~0 then
    if toInt next_timeout.toNat > toInt MAX_TIMEOUT.toNat then MAX_TIMEOUT else next_timeout
  else MAX_TIMEOUT

structure EpollWait where
  rt : ℤ
  errno : ℤ
  deriving DecidableEq, Repr

def EpollWait.interrupted (r : EpollWait) : Bool := r.rt < 0 && r.errno == 4

/-- The timeouts passed to `epoll_wait`, given the results of the calls that returned. After the
last of them, if it was interrupted, one more call is in progress. -/
def wait (next_timeout : UInt64) : List EpollWait → List ℤ
  | [] => [toInt (clamp next_timeout).toNat]
  | r :: results =>
    toInt (clamp next_timeout).toNat ::
      if r.interrupted then wait (clamp next_timeout) results else []

def idle (m : TimerManager C) (now : UInt64) (quiet : Bool) (results : List EpollWait) :
    Option (List ℤ × TimerManager C) := do
  let (next_timeout, stops, m) ← stopping m now quiet
  return (if stops then [] else wait next_timeout results, m)

theorem toInt_eq (n : ℕ) :
    toInt n =
      if (n : ℤ) % 2 ^ 32 < 2 ^ 31 then (n : ℤ) % 2 ^ 32 else (n : ℤ) % 2 ^ 32 - 2 ^ 32 := by
  unfold toInt
  rw [Int.bmod_def]
  norm_num

theorem clamp_eq_or (d : UInt64) : clamp d = MAX_TIMEOUT ∨ clamp d = d := by
  unfold clamp
  split_ifs <;> simp

theorem clamp_MAX_TIMEOUT : clamp MAX_TIMEOUT = MAX_TIMEOUT := by decide

theorem clamp_clamp (d : UInt64) : clamp (clamp d) = clamp d := by
  rcases clamp_eq_or d with h | h
  · rw [h, clamp_MAX_TIMEOUT]
  · rw [h, h]

theorem mem_wait (d : UInt64) (results : List EpollWait) (v : ℤ) :
    v ∈ wait d results ↔ v = toInt (clamp d).toNat := by
  induction results generalizing d with
  | nil => simp [wait]
  | cons r results ih =>
    rw [wait, List.mem_cons]
    split_ifs
    · rw [ih, clamp_clamp, or_self]
    · simp

theorem toInt_clamp {d : UInt64} (h : d ≠ ~~~0) :
    toInt (clamp d).toNat = if toInt d.toNat > 5000 then 5000 else toInt d.toNat := by
  have hmax : toInt MAX_TIMEOUT.toNat = 5000 := by decide
  rw [clamp, if_pos h, hmax]
  split_ifs
  · exact hmax
  · rfl

theorem toInt_clamp_max : toInt (clamp (~~~0)).toNat = 5000 := by decide

/-- The delay survives the two conversions to `int`. -/
def Narrows (d : UInt64) : Prop :=
  d = ~~~0 ∨ d.toNat ≤ 5000 ∨ 5000 ≤ d.toNat % 2 ^ 32 ∧ d.toNat % 2 ^ 32 < 2 ^ 31

theorem toInt_clamp_eq_iff (d : UInt64) :
    toInt (clamp d).toNat = min (d.toNat : ℤ) 5000 ↔ Narrows d := by
  by_cases h : d = ~~~0
  · subst h
    exact iff_of_true (by decide) (.inl rfl)
  · rw [toInt_clamp h, toInt_eq, Narrows]
    simp only [h, false_or]
    have := d.toNat_lt
    split_ifs <;> omega

theorem toInt_clamp_nonneg_iff (d : UInt64) :
    0 ≤ toInt (clamp d).toNat ↔ d = ~~~0 ∨ d.toNat % 2 ^ 32 < 2 ^ 31 := by
  by_cases h : d = ~~~0
  · subst h
    exact iff_of_true (by decide) (.inl rfl)
  · rw [toInt_clamp h, toInt_eq]
    simp only [h, false_or]
    split_ifs <;> omega

inductive Call (C : Type)
  | op (op : TimerManager.Op C) (result : TimerManager.Result C)
  | getNextTimer (now : UInt64)

def Call.Step (m : TimerManager C) (c : Call C) (m' : TimerManager C) : Prop :=
  match c with
  | .op o result => TimerManager.Step m (o, result) m'
  | .getNextTimer now => (m.getNextTimer now).map Prod.snd = some m'

theorem Call.Step.inv {c : Call C} (h : m.Inv) (hstep : Call.Step m c m') : m'.Inv := by
  cases c with
  | op o result => exact h.of_step hstep
  | getNextTimer now =>
    obtain ⟨delay, hnext, -⟩ := getNextTimer_spec h now
    rw [Call.Step, hnext] at hstep
    cases hstep
    exact Wakeup.System.inv_clear h

theorem inv_of_run {start : UInt64} {cs : List (Call C)}
    (hrun : Run (fun m c m' => Call.Step m c m') (new start) cs m) : m.Inv :=
  hrun.invariant (fun _ _ _ h hstep => hstep.inv h) (InvExcept.new start)

def timeoutOf (m : TimerManager C) (d : UInt64) : ℤ :=
  if m.timers = [] then 5000 else min (d.toNat : ℤ) 5000

theorem timeoutOf_eq {d : UInt64} (hnext : (m.getNextTimer now).map Prod.fst = some d) :
    timeoutOf m d = min (d.toNat : ℤ) 5000 := by
  rw [timeoutOf]
  split_ifs with hnil
  · rw [getNextTimer, hnil] at hnext
    obtain rfl : ~~~0 = d := Option.some.inj hnext
    decide
  · rfl

theorem forall_mem_idle {d : UInt64} (hnext : m.getNextTimer now = some (d, m')) (quiet : Bool)
    (results : List EpollWait) :
    ∃ passed, idle m now quiet results = some (passed, m') ∧
      ∀ P : ℤ → Prop, (d = ~~~0 → P 5000) →
        ((∀ v ∈ passed, P v) ↔ P (toInt (clamp d).toNat)) := by
  refine ⟨if d == ~~~0 && quiet then [] else wait d results, ?_, fun P hP => ?_⟩
  · rw [idle, stopping, hnext]
    rfl
  split_ifs with hstop
  · have hd : d = ~~~0 := eq_of_beq (Bool.and_eq_true_iff.mp hstop).1
    subst hd
    rw [toInt_clamp_max]
    exact iff_of_true (by simp) (hP rfl)
  · simp only [mem_wait, forall_eq]

/-- Every timeout is the clamped delay if and only if the low half of the delay is read as the
delay itself, or as more than the bound; none is negative if and only if the low half is
not. -/
theorem idle_timeout_iff (start : UInt64) (cs : List (Call C)) (m : TimerManager C)
    (hrun : Run (fun m c m' => Call.Step m c m') (new start) cs m) (now : UInt64) (quiet : Bool)
    (results : List EpollWait) :
    ∃ d passed m', m.getNextTimer now = some (d, m') ∧
      idle m now quiet results = some (passed, m') ∧
      ((∀ v ∈ passed, v = timeoutOf m d) ↔ Narrows d) ∧
      ((∀ v ∈ passed, 0 ≤ v) ↔ d = ~~~0 ∨ d.toNat % 2 ^ 32 < 2 ^ 31) := by
  obtain ⟨d, hnext, -⟩ := getNextTimer_spec (inv_of_run hrun) now
  obtain ⟨passed, hidle, hall⟩ := forall_mem_idle hnext quiet results
  have hdelay : (m.getNextTimer now).map Prod.fst = some d := by rw [hnext, Option.map_some]
  refine ⟨d, passed, _, hnext, hidle, ?_, ?_⟩
  · rw [timeoutOf_eq hdelay, hall, toInt_clamp_eq_iff]
    rintro rfl
    decide
  · rw [hall, toInt_clamp_nonneg_iff]
    exact fun _ => by decide

theorem idle_timeout_one_second :
    ∃ m : TimerManager ℕ, Run (fun m c m' => Call.Step m c m') (new 0)
        [.op (.addTimer 1 5 1000 (some 7) false) .done] m ∧
      (m.getNextTimer 5).map Prod.fst = some 1000 ∧
      ∃ passed m', idle m 5 false [⟨-1, 4⟩, ⟨0, 0⟩] = some (passed, m') ∧
        ∀ v ∈ passed, v = timeoutOf m 1000 := by
  have hrun : ∃ m : TimerManager ℕ, Run (fun m c m' => Call.Step m c m') (new 0)
      [.op (.addTimer 1 5 1000 (some 7) false) .done] m ∧
      m.getNextTimer 5 = some (1000, { m with tickled := false }) :=
    ⟨_, .cons ⟨rfl, rfl⟩ (.nil _), rfl⟩
  obtain ⟨m, hrun, hnext⟩ := hrun
  obtain ⟨d, passed, m', hnext', hidle, htimeout, -⟩ :=
    idle_timeout_iff 0 _ m hrun 5 false [⟨-1, 4⟩, ⟨0, 0⟩]
  obtain rfl : 1000 = d := (Prod.mk.inj (Option.some.inj (hnext.symm.trans hnext'))).1
  exact ⟨m, hrun, by rw [hnext]; rfl, passed, m', hidle, htimeout.mpr (.inr (.inl (by decide)))⟩

/-- A timer of 2^31 milliseconds makes the wait unbounded, one of 2^32 + 1 wakes after one. -/
theorem idle_timeout_narrowed :
    ∃ m m' : TimerManager ℕ,
      Run (fun m c m' => Call.Step m c m') (new 0)
        [.op (.addTimer 1 0 2147483648 (some 7) false) .done] m ∧
      (idle m 0 false []).map Prod.fst = some [-2147483648] ∧
      Run (fun m c m' => Call.Step m c m') (new 0)
        [.op (.addTimer 1 0 4294967297 (some 7) false) .done] m' ∧
      (idle m' 0 false []).map Prod.fst = some [1] :=
  ⟨_, _, .cons ⟨rfl, rfl⟩ (.nil _), by decide +kernel, .cons ⟨rfl, rfl⟩ (.nil _),
    by decide +kernel⟩

end ApexStorm.IOManager
