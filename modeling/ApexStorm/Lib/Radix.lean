import Mathlib.Data.Nat.Size
import Mathlib.Tactic

/-!
# Positional codes for natural numbers

`leBytes n v` writes `v` in exactly `n` bytes, lowest first. A variable-length
code writes seven bits per byte, lowest group first, and sets the top bit of every
byte but the last; `groupValue` is the number such a code stands for.
-/

namespace ApexStorm.Lib.Radix

def leBytes : ℕ → ℕ → List UInt8
  | 0, _ => []
  | n + 1, v => UInt8.ofNat v :: leBytes n (v / 256)

def ofLeBytes : List UInt8 → ℕ
  | [] => 0
  | x :: xs => x.toNat + 256 * ofLeBytes xs

@[simp] theorem leBytes_length (n v : ℕ) : (leBytes n v).length = n := by
  induction n generalizing v with
  | zero => rfl
  | succ n ih => simp [leBytes, ih]

theorem ofLeBytes_leBytes {n v : ℕ} (h : v < 256 ^ n) : ofLeBytes (leBytes n v) = v := by
  induction n generalizing v with
  | zero =>
    have h0 : v = 0 := by simpa using h
    rw [h0]
    rfl
  | succ n ih =>
    have hv : v / 256 < 256 ^ n := Nat.div_lt_of_lt_mul (by rwa [← pow_succ'])
    rw [leBytes, ofLeBytes, ih hv, UInt8.toNat_ofNat']
    exact Nat.mod_add_div v 256

theorem leBytes_ofLeBytes (xs : List UInt8) : leBytes xs.length (ofLeBytes xs) = xs := by
  induction xs with
  | nil => rfl
  | cons x xs ih =>
    have hx : x.toNat < 256 := x.toNat_lt
    have hdiv : (x.toNat + 256 * ofLeBytes xs) / 256 = ofLeBytes xs := by omega
    have hhead : UInt8.ofNat (x.toNat + 256 * ofLeBytes xs) = x := by
      apply UInt8.toNat_inj.mp
      rw [UInt8.toNat_ofNat']
      omega
    rw [List.length_cons, ofLeBytes, leBytes, hdiv, ih, hhead]

theorem leBytes_succ_eq_append (n v : ℕ) :
    leBytes (n + 1) v = leBytes n v ++ [UInt8.ofNat (v / 256 ^ n)] := by
  induction n generalizing v with
  | zero => simp [leBytes]
  | succ n ih => rw [leBytes, ih, Nat.div_div_eq_div_mul, ← pow_succ', leBytes, List.cons_append]

theorem ofLeBytes_lt (xs : List UInt8) : ofLeBytes xs < 256 ^ xs.length := by
  induction xs with
  | nil => exact Nat.one_pos
  | cons x xs ih =>
    have hx : x.toNat < 256 := x.toNat_lt
    rw [ofLeBytes, List.length_cons, pow_succ]
    omega

theorem leBytes_getElem? {n i : ℕ} (v : ℕ) (h : i < n) :
    (leBytes n v)[i]? = some (UInt8.ofNat (v / 256 ^ i)) := by
  induction n generalizing v i with
  | zero => exact absurd h (Nat.not_lt_zero i)
  | succ n ih =>
    cases i with
    | zero => simp [leBytes]
    | succ i =>
      rw [leBytes, List.getElem?_cons_succ, ih _ (Nat.lt_of_succ_lt_succ h),
        Nat.div_div_eq_div_mul, ← pow_succ']

theorem testBit_ofLeBytes (xs : List UInt8) (i : ℕ) :
    (ofLeBytes xs).testBit i = ((xs[i / 8]?).getD 0).toNat.testBit (i % 8) := by
  induction xs generalizing i with
  | nil => simp [ofLeBytes]
  | cons x xs ih =>
    have hx : x.toNat < 2 ^ 8 := x.toNat_lt
    have hsum : x.toNat + 256 * ofLeBytes xs = 2 ^ 8 * ofLeBytes xs + x.toNat := by omega
    rw [ofLeBytes, hsum, Nat.testBit_two_pow_mul_add _ hx]
    split_ifs with hi
    · rw [Nat.div_eq_of_lt hi, Nat.mod_eq_of_lt hi]
      rfl
    · have hdiv : i / 8 = (i - 8) / 8 + 1 := by omega
      have hmod : i % 8 = (i - 8) % 8 := by omega
      rw [ih, hdiv, hmod, List.getElem?_cons_succ]

theorem testBit_byte (v j : ℕ) {r : ℕ} (hr : r < 8) :
    (UInt8.ofNat (v / 256 ^ j)).toNat.testBit r = v.testBit (8 * j + r) := by
  have hpow : 256 ^ j = 2 ^ (8 * j) := by
    rw [pow_mul]
    rfl
  have hbyte : (UInt8.ofNat (v / 256 ^ j)).toNat = v / 256 ^ j % 2 ^ 8 := UInt8.toNat_ofNat'
  rw [hbyte, Nat.testBit_mod_two_pow, hpow, Nat.testBit_div_two_pow, add_comm]
  simp [hr]

theorem testBit_ofLeBytes_reverse {n i : ℕ} (v : ℕ) (h : i < 8 * n) :
    (ofLeBytes (leBytes n v).reverse).testBit i = v.testBit (8 * (n - 1 - i / 8) + i % 8) := by
  have hi : i / 8 < n := by omega
  rw [testBit_ofLeBytes, List.getElem?_reverse (by simpa using hi), leBytes_length,
    leBytes_getElem? v (by omega), Option.getD_some, testBit_byte _ _ (Nat.mod_lt _ (by decide))]

def groupValue : List UInt8 → ℕ
  | [] => 0
  | x :: xs => x.toNat % 128 + 128 * groupValue xs

theorem groupValue_lt (xs : List UInt8) : groupValue xs < 128 ^ xs.length := by
  induction xs with
  | nil => exact Nat.one_pos
  | cons x xs ih =>
    have hx := Nat.mod_lt x.toNat (show 128 > 0 by decide)
    rw [groupValue, List.length_cons, pow_succ]
    omega

theorem groupValue_append_zero (xs : List UInt8) : groupValue (xs ++ [0]) = groupValue xs := by
  induction xs with
  | nil => rfl
  | cons x xs ih => rw [List.cons_append, groupValue, groupValue, ih]

/-- All bytes but the last carry the continuation bit. -/
def IsGroupCode : List UInt8 → Prop
  | [] => False
  | [x] => x.toNat < 128
  | x :: y :: xs => 128 ≤ x.toNat ∧ IsGroupCode (y :: xs)

def continued : List UInt8 → ℕ
  | [] => 0
  | x :: xs => if 128 ≤ x.toNat then continued xs + 1 else 0

theorem continued_le (xs : List UInt8) : continued xs ≤ xs.length := by
  induction xs with
  | nil => exact le_rfl
  | cons x xs ih =>
    rw [continued]
    split_ifs
    · exact Nat.succ_le_succ ih
    · exact Nat.zero_le _

theorem le_of_lt_continued {xs : List UInt8} {i : ℕ} {x : UInt8} (hi : i < continued xs)
    (hx : xs[i]? = some x) : 128 ≤ x.toNat := by
  induction xs generalizing i with
  | nil => cases hx
  | cons y ys ih =>
    rw [continued] at hi
    split_ifs at hi with hy
    · cases i with
      | zero =>
        cases hx
        exact hy
      | succ i => exact ih (Nat.lt_of_succ_lt_succ hi) hx
    · exact absurd hi (Nat.not_lt_zero i)

theorem exists_lt_at_continued {xs : List UInt8} (h : continued xs < xs.length) :
    ∃ x, xs[continued xs]? = some x ∧ x.toNat < 128 := by
  induction xs with
  | nil => exact absurd h (Nat.not_lt_zero 0)
  | cons y ys ih =>
    rw [continued] at h ⊢
    split_ifs at h ⊢ with hy
    · exact ih (Nat.lt_of_succ_lt_succ h)
    · exact ⟨y, rfl, not_le.mp hy⟩

theorem IsGroupCode.ne_nil {xs : List UInt8} (h : IsGroupCode xs) : xs ≠ [] := by
  rintro rfl
  exact h

theorem IsGroupCode.cons {x : UInt8} {xs : List UInt8} (hx : 128 ≤ x.toNat)
    (h : IsGroupCode xs) : IsGroupCode (x :: xs) := by
  cases xs with
  | nil => exact h.elim
  | cons y ys => exact ⟨hx, h⟩

/-- A code ends at its first byte without a continuation bit, so none goes on behind another. -/
theorem IsGroupCode.eq_of_prefix {xs ys : List UInt8} (hxs : IsGroupCode xs)
    (hys : IsGroupCode ys) (h : xs <+: ys) : xs = ys := by
  induction xs generalizing ys with
  | nil => exact hxs.elim
  | cons x xs ih =>
    obtain ⟨y, ys, rfl⟩ := List.exists_cons_of_ne_nil hys.ne_nil
    obtain ⟨rfl, hrest⟩ := List.cons_prefix_cons.mp h
    cases xs with
    | nil =>
      cases ys with
      | nil => rfl
      | cons y ys =>
        have hlast : x.toNat < 128 := hxs
        exact absurd hys.1 (not_le.mpr hlast)
    | cons x' xs =>
      cases ys with
      | nil => exact absurd (List.prefix_nil.mp hrest) (List.cons_ne_nil x' xs)
      | cons y ys => rw [ih hxs.2 hys.2 hrest]

/-- How many groups of seven bits a number takes; zero takes one. -/
def groups (v : ℕ) : ℕ := max 1 ((v.size + 6) / 7)

theorem eq_groups {n v : ℕ} (hn : 0 < n) (hlow : 128 ^ (n - 1) ≤ max v 1) (hhigh : v < 128 ^ n) :
    n = groups v := by
  have hpow : ∀ k, 128 ^ k = 2 ^ (7 * k) := fun k => (pow_mul 2 7 k).symm
  rw [hpow] at hlow hhigh
  have hsize : v.size ≤ 7 * n := Nat.size_le.mpr hhigh
  rw [groups]
  rcases Nat.eq_zero_or_pos v with rfl | hpos
  · have hone : 7 * (n - 1) = 0 := by
      by_contra hne
      exact absurd hlow (not_le.mpr (Nat.one_lt_two_pow hne))
    rw [Nat.size_zero]
    omega
  · rw [max_eq_left (by omega)] at hlow
    have hlt : 7 * (n - 1) < v.size := Nat.lt_size.mpr hlow
    omega

end ApexStorm.Lib.Radix
