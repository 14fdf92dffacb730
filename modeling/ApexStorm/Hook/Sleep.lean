import Mathlib.Algebra.Order.Floor.Div
import ApexStorm.Hook.Transparency

/-!
# How long the hooked sleeps last

`sleep` multiplies in 32 bits, `usleep` rounds down, and `nanosleep` multiplies in
`long`, narrows the product to `int` and widens it to `uint64_t` again. What is
requested is counted in nanoseconds and rounded up to a millisecond.
-/

namespace ApexStorm.Hook

variable {env : Env} {w : World} {ms : ℕ}

def Lasts (w : World) (run : Option (ℤ × World)) (nanoseconds : ℕ) : Prop :=
  ∃ rt w' delay, run = some (rt, w') ∧
    w'.trace = w.trace ++ [.addTimer delay, .yieldToHold] ∧ nanoseconds ⌈/⌉ 1000000 ≤ delay

theorem sleepFor_lasts_iff {nanoseconds : ℕ} :
    Lasts w (sleepFor env ms w) nanoseconds ↔
      env.hasIOManager = true ∧ nanoseconds ≤ 1000000 * ms := by
  by_cases h : env.hasIOManager
  · have hrun : sleepFor env ms w =
        some (0, { w with trace := w.trace ++ [.addTimer ms, .yieldToHold] }) := by
      simp [sleepFor, iom, emit, h]
    rw [hrun, ← ceilDiv_le_iff_le_mul (by decide)]
    constructor
    · rintro ⟨rt, w', delay, heq, htrace, hle⟩
      cases heq
      have hdelay : delay = ms := by simpa using htrace.symm
      exact ⟨h, hdelay ▸ hle⟩
    · rintro ⟨-, hle⟩
      exact ⟨_, _, ms, rfl, rfl, hle⟩
  · have hrun : sleepFor env ms w = none := by
      simp only [sleepFor, iom, h]
      rfl
    rw [hrun]
    simp [Lasts, h]

theorem on_eq (hon : w.hookEnable = true) (m m' : Hooked ℤ) :
    (do if !(← isHookEnable) then m else m' : Hooked ℤ) w = m' w := by
  have hflag : isHookEnable w = some (true, w) := by rw [← hon]; rfl
  rw [bind_apply, hflag]
  rfl

theorem sleep_on (hon : w.hookEnable = true) (seconds : ℕ) :
    sleep env seconds w = sleepFor env (seconds * 1000 % 2 ^ 32) w :=
  on_eq hon _ _

theorem usleep_on (hon : w.hookEnable = true) (usec : ℕ) :
    usleep env usec w = sleepFor env (usec / 1000) w :=
  on_eq hon _ _

def wholeMs (sec nsec : ℤ) : ℤ := sec * 1000 + nsec / 1000000

theorem nanosleep_on (hon : w.hookEnable = true) {req rem fuel : ℕ} {sec nsec : ℤ}
    (hreq : env.timespec req = some (sec, nsec)) (hsec : 0 ≤ sec) (hnsec : 0 ≤ nsec) :
    nanosleep env req rem (fuel + 1) w =
      if wholeMs sec nsec < 2 ^ 63 then
        sleepFor env ((wholeMs sec nsec).bmod (2 ^ 32) % 2 ^ 64).toNat w
      else none := by
  have hdiv : (nsec.tdiv 1000).tdiv 1000 = nsec / 1000000 := by
    rw [Int.tdiv_eq_ediv_of_nonneg hnsec, Int.tdiv_eq_ediv_of_nonneg (by omega),
      Int.ediv_ediv_of_nonneg (by decide)]
    rfl
  have hwhole : wholeMs sec nsec = sec * 1000 + nsec / 1000000 := rfl
  rw [nanosleep, on_eq hon]
  simp only [bind_apply, lift_apply, hreq, Option.map_some, Option.bind_some, hdiv, long]
  by_cases hlong : wholeMs sec nsec < 2 ^ 63
  · rw [if_pos hlong, if_pos (by omega), Option.map_some, Option.bind_some, if_pos (by omega)]
    rfl
  · rw [if_neg hlong]
    by_cases hproduct : sec * 1000 < 2 ^ 63
    · rw [if_pos (by omega), Option.map_some, Option.bind_some, if_neg (by omega)]
      rfl
    · rw [if_neg (by omega)]
      rfl

/-- A delay that stays an `int` must be whole milliseconds; one that becomes a negative `int` is
widened to almost 2^64 milliseconds. -/
theorem narrowed_le_iff {sec nsec : ℤ} (hsec : 0 ≤ sec) (hnsec : 0 ≤ nsec)
    (hlong : wholeMs sec nsec < 2 ^ 63) :
    (sec * 1000000000 + nsec).toNat ≤
        1000000 * ((wholeMs sec nsec).bmod (2 ^ 32) % 2 ^ 64).toNat ↔
      (wholeMs sec nsec < 2 ^ 31 ∧ nsec % 1000000 = 0) ∨
        2 ^ 31 ≤ wholeMs sec nsec % 2 ^ 32 := by
  have hwhole : wholeMs sec nsec = sec * 1000 + nsec / 1000000 := rfl
  rw [Int.bmod_def]
  norm_num
  split_ifs <;> omega

/-- The arguments for which a hooked sleep is not shorter than requested. -/
theorem sleeps_last_iff (env : Env) (w : World) (hon : w.hookEnable = true) :
    (∀ seconds : UInt32, Lasts w (sleep env seconds.toNat w) (seconds.toNat * 1000000000) ↔
      env.hasIOManager = true ∧ seconds.toNat * 1000 < 2 ^ 32) ∧
    (∀ usec : UInt32, Lasts w (usleep env usec.toNat w) (usec.toNat * 1000) ↔
      env.hasIOManager = true ∧ usec.toNat % 1000 = 0) ∧
    ∀ (req rem fuel : ℕ) (sec nsec : ℤ), env.timespec req = some (sec, nsec) →
      0 ≤ sec → 0 ≤ nsec →
      (Lasts w (nanosleep env req rem (fuel + 1) w) (sec * 1000000000 + nsec).toNat ↔
        env.hasIOManager = true ∧ wholeMs sec nsec < 2 ^ 63 ∧
          ((wholeMs sec nsec < 2 ^ 31 ∧ nsec % 1000000 = 0) ∨
            2 ^ 31 ≤ wholeMs sec nsec % 2 ^ 32)) := by
  refine ⟨fun seconds => ?_, fun usec => ?_, fun req rem fuel sec nsec hreq hsec hnsec => ?_⟩
  · rw [sleep_on hon, sleepFor_lasts_iff]
    have harith : seconds.toNat * 1000000000 ≤ 1000000 * (seconds.toNat * 1000 % 2 ^ 32) ↔
        seconds.toNat * 1000 < 2 ^ 32 := by omega
    rw [harith]
  · rw [usleep_on hon, sleepFor_lasts_iff]
    have harith : usec.toNat * 1000 ≤ 1000000 * (usec.toNat / 1000) ↔ usec.toNat % 1000 = 0 := by
      omega
    rw [harith]
  · rw [nanosleep_on hon hreq hsec hnsec]
    split_ifs with hlong
    · simp only [sleepFor_lasts_iff, narrowed_le_iff hsec hnsec hlong, hlong, true_and]
    · exact iff_of_false (by simp [Lasts]) fun h => hlong h.2.1

def Env.requesting (sec nsec : ℤ) : Env :=
  { Env.answering 0 with hasIOManager := true, timespec := fun _ => some (sec, nsec) }

def World.hooking : World := ⟨true, 0, FdManager.initial, []⟩

theorem sleeps_last_two_seconds :
    Lasts .hooking (sleep (.requesting 2 0) 2 .hooking) 2000000000 ∧
      Lasts .hooking (usleep (.requesting 2 0) 2000000 .hooking) 2000000000 ∧
      Lasts .hooking (nanosleep (.requesting 2 0) 0 0 1 .hooking) 2000000000 := by
  obtain ⟨hsleep, husleep, hnanosleep⟩ := sleeps_last_iff (.requesting 2 0) .hooking rfl
  refine ⟨(hsleep 2).mpr ⟨rfl, by decide⟩, (husleep 2000000).mpr ⟨rfl, by decide⟩, ?_⟩
  exact (hnanosleep 0 0 0 2 0 rfl (by decide) (by decide)).mpr ⟨rfl, by decide, .inl (by decide)⟩

/-- A sleep of 4294968 seconds lasts 0.704 seconds, one of a microsecond or a nanosecond none. -/
theorem sleeps_cut_short :
    ((sleep (.requesting 0 1) 4294968 .hooking).map fun r => r.2.trace) =
      some [.addTimer 704, .yieldToHold] ∧
    ((usleep (.requesting 0 1) 1 .hooking).map fun r => r.2.trace) =
      some [.addTimer 0, .yieldToHold] ∧
    ((nanosleep (.requesting 0 1) 0 0 1 .hooking).map fun r => r.2.trace) =
      some [.addTimer 0, .yieldToHold] ∧
    ((nanosleep (.requesting 4294968 0) 0 0 1 .hooking).map fun r => r.2.trace) =
      some [.addTimer 704, .yieldToHold] := by
  decide +kernel

end ApexStorm.Hook
