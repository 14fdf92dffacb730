import Mathlib.Tactic

/-!
# Numbers written in digits

`numeral b n` is `n` as a stream prints it in base `b`, most significant digit first
and without leading zeros, `value b` reads digits of either case back.
-/

namespace ApexStorm.Lib.Numeral

def numeral (b n : ℕ) : List UInt8 := (Nat.toDigits b n).map fun c => c.toNat.toUInt8

def digitValue (c : UInt8) : Option ℕ :=
  if 48 ≤ c ∧ c ≤ 57 then some (c.toNat - 48)
  else if 97 ≤ c ∧ c ≤ 102 then some (c.toNat - 87)
  else if 65 ≤ c ∧ c ≤ 70 then some (c.toNat - 55)
  else none

def value (b : ℕ) (xs : List UInt8) : Option ℕ :=
  xs.foldlM (fun v c => (digitValue c).bind fun d => if d < b then some (b * v + d) else none) 0

def digit (d : ℕ) : UInt8 := d.digitChar.toNat.toUInt8

variable {b n : ℕ}

theorem digitValue_digit {d : ℕ} (h : d < 16) : digitValue (digit d) = some d := by
  interval_cases d <;> rfl

theorem numeral_eq (hb : 1 < b) (n : ℕ) :
    numeral b n = (if n < b then [] else numeral b (n / b)) ++ [digit (n % b)] := by
  rw [numeral, Nat.toDigits_eq_if hb]
  split_ifs with h
  · rw [Nat.mod_eq_of_lt h]
    rfl
  · simp [numeral, digit]

theorem value_append_one (xs : List UInt8) (c : UInt8) :
    value b (xs ++ [c]) = (value b xs).bind fun v =>
      (digitValue c).bind fun d => if d < b then some (b * v + d) else none := by
  simp [value, List.foldlM_append]

theorem value_numeral (hb : 1 < b) (hle : b ≤ 16) (n : ℕ) : value b (numeral b n) = some n := by
  induction n using Nat.strong_induction_on with
  | _ n ih =>
    have hmod : n % b < b := Nat.mod_lt _ (by omega)
    have hvalue : value b (if n < b then [] else numeral b (n / b)) = some (n / b) := by
      split_ifs with h
      · rw [Nat.div_eq_of_lt h]
        rfl
      · exact ih _ (Nat.div_lt_self (by omega) hb)
    rw [numeral_eq hb, value_append_one, hvalue, digitValue_digit (by omega)]
    simp [hmod, Nat.div_add_mod]

theorem numeral_ne_nil (hb : 1 < b) : numeral b n ≠ [] := by
  rw [numeral_eq hb]
  simp

theorem length_numeral_le (hb : 1 < b) {k : ℕ} (hk : n < b ^ (k + 1)) :
    (numeral b n).length ≤ k + 1 := by
  induction k generalizing n with
  | zero =>
    rw [numeral_eq hb, if_pos (by simpa using hk)]
    simp
  | succ k ih =>
    rw [numeral_eq hb]
    split_ifs
    · simp
    · have hdiv : n / b < b ^ (k + 1) :=
        Nat.div_lt_of_lt_mul (by rwa [← pow_succ'])
      simpa using ih hdiv

theorem exists_digit_of_mem (hb : 1 < b) {c : UInt8} (h : c ∈ numeral b n) :
    ∃ d < b, c = digit d := by
  induction n using Nat.strong_induction_on with
  | _ n ih =>
    rw [numeral_eq hb] at h
    rcases List.mem_append.mp h with h | h
    · split_ifs at h with hlt
      · cases h
      · exact ih _ (Nat.div_lt_self (by omega) hb) h
    · exact ⟨n % b, Nat.mod_lt _ (by omega), by simpa using h⟩

theorem digit_ne {d : ℕ} (h : d < 16) : digit d ≠ 58 ∧ digit d ≠ 93 := by
  interval_cases d <;> decide

end ApexStorm.Lib.Numeral
