import Mathlib.Data.List.Lex
import Mathlib.Order.Lattice

/-!
# Comparing a common part and then the lengths

The first elements of two lists are compared one by one, as many as both have. If none
differ, the shorter list comes first. This is the lexicographic order.
-/

namespace ApexStorm.Lib.Lexicographic
variable {α : Type*} [LinearOrder α]

def compareFirst : ℕ → List α → List α → Ordering
  | n + 1, x :: xs, y :: ys =>
    match compare x y with
    | .lt => .lt
    | .eq => compareFirst n xs ys
    | .gt => .gt
  | _, _, _ => .eq

def less (xs ys : List α) : Bool :=
  match compareFirst (min xs.length ys.length) xs ys with
  | .lt => true
  | .eq => xs.length < ys.length
  | .gt => false

theorem less_cons (x y : α) (xs ys : List α) :
    less (x :: xs) (y :: ys) = true ↔ x < y ∨ x = y ∧ less xs ys = true := by
  rw [less, less, List.length_cons, List.length_cons, Nat.succ_min_succ, compareFirst]
  rcases lt_trichotomy x y with h | h | h
  · simp [compare_lt_iff_lt.mpr h, h]
  · subst h
    simp
  · simp [compare_gt_iff_gt.mpr h, h.not_gt, h.ne']

theorem less_iff_lt (xs ys : List α) : less xs ys = true ↔ xs < ys := by
  induction xs generalizing ys with
  | nil =>
    cases ys with
    | nil => exact iff_of_false Bool.false_ne_true (List.lt_irrefl [])
    | cons y ys => exact iff_of_true rfl (List.nil_lt_cons y ys)
  | cons x xs ih =>
    cases ys with
    | nil => exact iff_of_false Bool.false_ne_true (List.not_lt_nil _)
    | cons y ys => rw [less_cons, ih, List.cons_lt_cons_iff]

end ApexStorm.Lib.Lexicographic
