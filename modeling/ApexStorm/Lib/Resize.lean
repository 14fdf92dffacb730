import Mathlib.Tactic

/-!
# Resizing a vector

`resize new l n` cuts the vector `l` to length `n` or fills it up with the elements
`new i` at the new indices. A vector of slots is resized with empty ones.
-/

namespace ApexStorm.Lib

variable {α : Type*} {new : ℕ → α} {l : List α} {n i : ℕ}

def resize (new : ℕ → α) (l : List α) (n : ℕ) : List α :=
  l.take n ++ (List.range' l.length (n - l.length)).map new

theorem length_resize (new : ℕ → α) (l : List α) (n : ℕ) : (resize new l n).length = n := by
  simp only [resize, List.length_append, List.length_take, List.length_map, List.length_range']
  omega

theorem getElem?_resize (h : l.length ≤ n) (i : ℕ) :
    (resize new l n)[i]? =
      if i < l.length then l[i]? else if i < n then some (new i) else none := by
  rw [resize, List.take_of_length_le h, List.getElem?_append, List.getElem?_map]
  split_ifs with hl hn
  · rfl
  · rw [List.getElem?_range' (by omega)]
    simp [show l.length + (i - l.length) = i by omega]
  · rw [List.getElem?_eq_none (by simp; omega)]
    rfl

theorem getElem?_resize_old (h : l.length ≤ n) {a : α} (hi : l[i]? = some a) :
    (resize new l n)[i]? = some a := by
  rw [getElem?_resize h, if_pos (List.getElem?_eq_some_iff.mp hi).1, hi]

section Slots
variable {slots : List (Option α)}

theorem join_getElem?_set {a : Option α} (h : i < slots.length) (j : ℕ) :
    ((slots.set i a)[j]?).join = if j = i then a else (slots[j]?).join := by
  rw [List.getElem?_set]
  split_ifs with heq heq' heq'
  · rfl
  · exact absurd heq.symm heq'
  · exact absurd heq'.symm heq
  · rfl

theorem join_getElem?_resize (h : slots.length ≤ n) (j : ℕ) :
    ((resize (fun _ => none) slots n)[j]?).join = (slots[j]?).join := by
  rw [getElem?_resize h]
  split_ifs with hj hn
  · rfl
  · rw [List.getElem?_eq_none (not_lt.mp hj)]
    rfl
  · rw [List.getElem?_eq_none (not_lt.mp hj)]

end Slots

theorem map_resize {β : Type*} (f : α → β) (new : ℕ → α) (l : List α) (n : ℕ) :
    (resize new l n).map f = resize (fun i => f (new i)) (l.map f) n := by
  simp [resize, List.map_take]

end ApexStorm.Lib
