import Mathlib.Tactic

/-!
# Updating a map along a list of entries

Every entry `a` of the list replaces the value at its key `k a` by one that is made from
the entry and the value before, or fails. If the keys are distinct, the entries do not
see each other: each one is applied to the value of the first map.
-/

namespace ApexStorm.Lib.Keyed

variable {α β κ : Type*} [DecidableEq κ] {k : α → κ} {g : α → Option β → Option β}
  {m m' : κ → Option β} {l : List α}

def put (k : α → κ) (g : α → Option β → Option β) (m : κ → Option β) (a : α) :
    Option (κ → Option β) :=
  (g a (m (k a))).map fun b => Function.update m (k a) (some b)

theorem putAll_some (hnodup : (l.map k).Nodup) (h : l.foldlM (put k g) m = some m') :
    (∀ a ∈ l, ∃ b, g a (m (k a)) = some b ∧ m' (k a) = some b) ∧
      ∀ x ∉ l.map k, m' x = m x := by
  induction l generalizing m with
  | nil =>
    cases h
    exact ⟨fun a ha => absurd ha List.not_mem_nil, fun _ _ => rfl⟩
  | cons a l ih =>
    rw [List.map_cons, List.nodup_cons] at hnodup
    rw [List.foldlM_cons] at h
    obtain ⟨m₁, hput, h⟩ := Option.bind_eq_some_iff.mp h
    obtain ⟨b, hb, rfl⟩ := Option.map_eq_some_iff.mp hput
    obtain ⟨hmem, hother⟩ := ih hnodup.2 h
    have hne (x : κ) (hx : x ≠ k a) : Function.update m (k a) (some b) x = m x :=
      Function.update_of_ne hx _ _
    constructor
    · intro c hc
      rcases List.mem_cons.mp hc with rfl | hc
      · exact ⟨b, hb, by rw [hother _ hnodup.1, Function.update_self]⟩
      · have hkey : k c ≠ k a := fun heq => hnodup.1 (heq ▸ List.mem_map_of_mem hc)
        simpa only [hne _ hkey] using hmem c hc
    · intro x hx
      rw [List.map_cons, List.mem_cons, not_or] at hx
      rw [hother x hx.2, hne x hx.1]

theorem exists_putAll (hnodup : (l.map k).Nodup) (h : ∀ a ∈ l, (g a (m (k a))).isSome) :
    ∃ m', l.foldlM (put k g) m = some m' := by
  induction l generalizing m with
  | nil => exact ⟨m, rfl⟩
  | cons a l ih =>
    rw [List.map_cons, List.nodup_cons] at hnodup
    obtain ⟨b, hb⟩ := Option.isSome_iff_exists.mp (h a List.mem_cons_self)
    have hrest : ∀ c ∈ l, (g c (Function.update m (k a) (some b) (k c))).isSome := by
      intro c hc
      have hkey : k c ≠ k a := fun heq => hnodup.1 (heq ▸ List.mem_map_of_mem hc)
      rw [Function.update_of_ne hkey]
      exact h c (List.mem_cons_of_mem _ hc)
    obtain ⟨m', hm'⟩ := ih hnodup.2 hrest
    refine ⟨m', ?_⟩
    rw [List.foldlM_cons, put, hb]
    exact hm'

end ApexStorm.Lib.Keyed
