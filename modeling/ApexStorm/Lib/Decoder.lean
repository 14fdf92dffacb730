import Mathlib.Tactic

/-!
# Decoders that report what they consumed

A decoder maps the input to a value, or to none when the input ends too early, and
says how many elements it has consumed by then. A decoder that fails has consumed
nothing only if it is a single step or its first step fails.
-/

namespace ApexStorm.Lib

structure Decoded (α : Type*) where
  value : Option α
  used : ℕ
  deriving DecidableEq

abbrev Decoder (β α : Type*) := List β → Decoded α

namespace Decoder
variable {β α γ : Type*}

def pure (v : α) : Decoder β α := fun _ => ⟨some v, 0⟩

def take (n : ℕ) : Decoder β (List β) := fun l =>
  if n ≤ l.length then ⟨some (l.take n), n⟩ else ⟨none, 0⟩

def bind (f : Decoder β α) (g : α → Decoder β γ) : Decoder β γ := fun l =>
  match (f l).value with
  | none => ⟨none, (f l).used⟩
  | some v => ⟨(g v (l.drop (f l).used)).value, (f l).used + (g v (l.drop (f l).used)).used⟩

def map (h : α → γ) (f : Decoder β α) : Decoder β γ := fun l => ⟨(f l).value.map h, (f l).used⟩

def Tears (f : Decoder β α) (l : List β) : Prop := (f l).value = none ∧ 0 < (f l).used

theorem not_tears_take (n : ℕ) (l : List β) : ¬ (take n).Tears l := by
  rintro ⟨hnone, hused⟩
  rw [take] at hnone hused
  split_ifs at hnone hused
  exact lt_irrefl 0 hused

theorem tears_map (h : α → γ) (f : Decoder β α) (l : List β) : (f.map h).Tears l ↔ f.Tears l := by
  rw [Tears, Tears, map, Option.map_eq_none_iff]

theorem tears_bind_take {g : α → Decoder β γ} {n : ℕ} (size : List β → α) {len : α → ℕ}
    (hn : 0 < n) (hg : ∀ v l, (g v l).value = none ↔ l.length < len v) (l : List β) :
    (((take n).map size).bind g).Tears l ↔
      n ≤ l.length ∧ l.length - n < len (size (l.take n)) := by
  by_cases hfield : n ≤ l.length
  · have htake : ((take n).map size) l = ⟨some (size (l.take n)), n⟩ := by
      simp only [map, take, if_pos hfield, Option.map_some]
    rw [Tears, bind, htake]
    simp only [hg, List.length_drop, hfield, true_and]
    omega
  · have htake : ((take n).map size) l = ⟨none, 0⟩ := by
      simp only [map, take, if_neg hfield, Option.map_none]
    rw [Tears, bind, htake]
    simp [hfield]

end Decoder
end ApexStorm.Lib
