import Mathlib.Tactic

/-!
# Ordered sets under a comparator

A `std::set` with comparator `lt` is the list of its elements in iteration order,
and a search ends at the first element that is not less than the key. When `lt`
compares values of a key in a linear order, searches in a list that is strictly
increasing in the key find every element, and insertion and erasure keep it so.
-/

namespace ApexStorm.Lib.SortedSet

variable {α κ : Type*} [LinearOrder κ] {lt : α → α → Bool} {k : α → κ} {a : α} {l : List α}

def find (lt : α → α → Bool) (a : α) (l : List α) : Option α :=
  match l.dropWhile (lt · a) with
  | [] => none
  | b :: _ => if lt a b then none else some b

/-- Erases the element at which the search for `a` ends. -/
def erase (lt : α → α → Bool) (a : α) (l : List α) : List α :=
  l.takeWhile (lt · a) ++ (l.dropWhile (lt · a)).tail

def insert (lt : α → α → Bool) (a : α) (l : List α) : List α :=
  l.takeWhile (lt · a) ++
    match l.dropWhile (lt · a) with
    | [] => [a]
    | b :: rest => if lt a b then a :: b :: rest else b :: rest

def Sorted (k : α → κ) (l : List α) : Prop := l.Pairwise fun a b => k a < k b

theorem Sorted.nodup (h : Sorted k l) : l.Nodup := by
  refine List.Pairwise.imp ?_ h
  intro a b hlt heq
  rw [heq] at hlt
  exact lt_irrefl _ hlt

theorem Sorted.congr {k' : α → κ} (h : Sorted k l) (hk : ∀ a ∈ l, k' a = k a) : Sorted k' l := by
  refine h.imp_of_mem fun ha hb hlt => ?_
  rw [hk _ ha, hk _ hb]
  exact hlt

theorem takeWhile_eq_filter {p : α → Bool} (h : l.Pairwise fun a b => p b = true → p a = true) :
    l.takeWhile p = l.filter p := by
  induction l with
  | nil => rfl
  | cons a l ih =>
    obtain ⟨ha, hl⟩ := List.pairwise_cons.mp h
    by_cases hp : p a = true
    · rw [List.takeWhile_cons_of_pos hp, List.filter_cons_of_pos hp, ih hl]
    · rw [List.takeWhile_cons_of_neg hp, List.filter_cons_of_neg hp, eq_comm,
        List.filter_eq_nil_iff]
      exact fun b hb hpb => hp (ha b hb hpb)

section search
variable (hk : ∀ a b, lt a b = true ↔ k a < k b)
include hk

theorem split_of_mem (hs : Sorted k l) (ha : a ∈ l) :
    ∃ front back, l = front ++ a :: back ∧ a ∉ front ∧
      l.takeWhile (lt · a) = front ∧ l.dropWhile (lt · a) = a :: back := by
  obtain ⟨front, back, rfl⟩ := List.append_of_mem ha
  have hfront : ∀ b ∈ front, lt b a = true := by
    intro b hb
    rw [hk]
    exact (List.pairwise_append.mp hs).2.2 b hb a (by simp)
  have hself : ¬ lt a a = true := by
    rw [hk]
    exact lt_irrefl _
  refine ⟨front, back, rfl, fun hmem => hself (hfront a hmem), ?_, ?_⟩
  · rw [List.takeWhile_append_of_pos hfront, List.takeWhile_cons_of_neg (p := (lt · a)) hself,
      List.append_nil]
  · rw [List.dropWhile_append_of_pos hfront, List.dropWhile_cons_of_neg (p := (lt · a)) hself]

theorem find_of_mem (hs : Sorted k l) (ha : a ∈ l) : find lt a l = some a := by
  obtain ⟨front, back, -, -, -, hdrop⟩ := split_of_mem hk hs ha
  have hself : ¬ lt a a = true := by
    rw [hk]
    exact lt_irrefl _
  simp only [find, hdrop, if_neg hself]

theorem erase_of_mem [DecidableEq α] (hs : Sorted k l) (ha : a ∈ l) :
    erase lt a l = l.erase a := by
  obtain ⟨front, back, heq, hnot, htake, hdrop⟩ := split_of_mem hk hs ha
  rw [erase, htake, hdrop, heq, List.erase_append_right _ hnot, List.erase_cons_head,
    List.tail_cons]

theorem split_of_ne (hs : Sorted k l) (hne : ∀ b ∈ l, k b ≠ k a) :
    (∀ b ∈ l.takeWhile (lt · a), k b < k a) ∧ ∀ b ∈ l.dropWhile (lt · a), k a < k b := by
  refine ⟨fun b hb => (hk b a).mp (List.all_eq_true.mp List.all_takeWhile b hb), ?_⟩
  induction l with
  | nil => simp
  | cons c l ih =>
    have hs' := List.pairwise_cons.mp hs
    by_cases hc : lt c a = true
    · rw [List.dropWhile_cons_of_pos (p := (lt · a)) hc]
      exact ih hs'.2 fun b hb => hne b (by simp [hb])
    · rw [List.dropWhile_cons_of_neg (p := (lt · a)) hc]
      have hca : k a < k c := by
        rw [hk] at hc
        exact lt_of_le_of_ne (not_lt.mp hc) (hne c (by simp)).symm
      intro b hb
      rcases List.mem_cons.mp hb with rfl | hb
      · exact hca
      · exact hca.trans (hs'.1 b hb)

theorem insert_of_ne (hs : Sorted k l) (hne : ∀ b ∈ l, k b ≠ k a) :
    insert lt a l = l.takeWhile (lt · a) ++ a :: l.dropWhile (lt · a) := by
  obtain ⟨-, hgt⟩ := split_of_ne hk hs hne
  rw [insert]
  cases hdrop : l.dropWhile (lt · a) with
  | nil => rfl
  | cons b rest =>
    have hab : lt a b = true := (hk a b).mpr (hgt b (by simp [hdrop]))
    simp only [if_pos hab]

theorem sorted_insert (hs : Sorted k l) (hne : ∀ b ∈ l, k b ≠ k a) : Sorted k (insert lt a l) := by
  obtain ⟨hlt, hgt⟩ := split_of_ne hk hs hne
  rw [insert_of_ne hk hs hne]
  have hsplit : Sorted k (l.takeWhile (lt · a) ++ l.dropWhile (lt · a)) := by
    rwa [List.takeWhile_append_dropWhile]
  obtain ⟨hfront, hback, hcross⟩ := List.pairwise_append.mp hsplit
  refine List.pairwise_append.mpr ⟨hfront, List.pairwise_cons.mpr ⟨hgt, hback⟩, ?_⟩
  intro b hb c hc
  rcases List.mem_cons.mp hc with rfl | hc
  · exact hlt b hb
  · exact hcross b hb c hc

theorem mem_insert (hs : Sorted k l) (hne : ∀ b ∈ l, k b ≠ k a) {b : α} :
    b ∈ insert lt a l ↔ b = a ∨ b ∈ l := by
  rw [insert_of_ne hk hs hne, ← List.perm_middle.symm.mem_iff, List.mem_cons,
    List.takeWhile_append_dropWhile]

theorem insert_of_mem (hs : Sorted k l) (ha : a ∈ l) : insert lt a l = l := by
  obtain ⟨front, back, heq, -, htake, hdrop⟩ := split_of_mem hk hs ha
  have hself : ¬ lt a a = true := by
    rw [hk]
    exact lt_irrefl _
  simp only [insert, hdrop, htake, if_neg hself]
  exact heq.symm

end search

end ApexStorm.Lib.SortedSet
