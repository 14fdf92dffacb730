import Mathlib.Tactic

/-!
# Counting the members of a finite family

`tally p f` collects the indices whose member satisfies `p`. Its size, like any sum
over the family, follows a change of one member.
-/

namespace ApexStorm.Lib

variable {ι α : Type*}

theorem sum_add_of_ne [DecidableEq ι] {s : Finset ι} {a b : ι → ℕ} {i : ι} (hi : i ∈ s)
    (h : ∀ j, j ≠ i → a j = b j) : ∑ j ∈ s, a j + b i = ∑ j ∈ s, b j + a i := by
  have hrest : ∑ j ∈ s.erase i, a j = ∑ j ∈ s.erase i, b j :=
    Finset.sum_congr rfl fun j hj => h j (Finset.ne_of_mem_erase hj)
  have ha := Finset.sum_erase_add s a hi
  have hb := Finset.sum_erase_add s b hi
  omega

variable [Fintype ι] {p : α → Bool} {f : ι → α}

def tally (p : α → Bool) (f : ι → α) : Finset ι :=
  Finset.univ.filter fun i => p (f i) = true

theorem mem_tally {i : ι} : i ∈ tally p f ↔ p (f i) = true := by
  simp [tally]

theorem tally_card_pos {i : ι} (h : p (f i) = true) : 0 < (tally p f).card :=
  Finset.card_pos.mpr ⟨i, mem_tally.mpr h⟩

theorem eq_false_of_tally_card (h : (tally p f).card = 0) (i : ι) : p (f i) = false := by
  by_contra hi
  exact absurd h (tally_card_pos (by simpa using hi)).ne'

theorem card_tally_update [DecidableEq ι] (p : α → Bool) (f : ι → α) (i : ι) (a : α) :
    (tally p (Function.update f i a)).card + (if p (f i) = true then 1 else 0) =
      (tally p f).card + if p a = true then 1 else 0 := by
  have hsum := sum_add_of_ne (a := fun j => if p (Function.update f i a j) = true then 1 else 0)
    (b := fun j => if p (f j) = true then 1 else 0) (Finset.mem_univ i)
    fun j hj => by rw [Function.update_of_ne hj]
  rw [tally, tally, Finset.card_filter, Finset.card_filter]
  simpa using hsum

end ApexStorm.Lib
