import Mathlib.Data.List.ReduceOption
import Mathlib.Tactic

/-!
# Finite runs of a labelled transition system

`Run step s es t` says that the steps labelled `es` lead from `s` to `t`. An
invariant is preserved by whole runs once every step preserves it, and a run is
matched step by step by any system that simulates it.
-/

namespace ApexStorm.Lib

variable {σ τ ε : Type*}

inductive Run (step : σ → ε → σ → Prop) : σ → List ε → σ → Prop where
  | nil (s : σ) : Run step s [] s
  | cons {s t u : σ} {e : ε} {es : List ε} :
      step s e t → Run step t es u → Run step s (e :: es) u

namespace Run
variable {step : σ → ε → σ → Prop} {s t : σ} {es : List ε}

theorem invariant {P : σ → Prop} (hstep : ∀ s e t, P s → step s e t → P t)
    (h : Run step s es t) (hs : P s) : P t := by
  induction h with
  | nil s => exact hs
  | cons hst _ ih => exact ih (hstep _ _ _ hs hst)

/-- An invariant that also speaks of the labels of the run so far. -/
theorem history {P : List ε → σ → Prop}
    (hstep : ∀ ds s e t, P ds s → step s e t → P (ds ++ [e]) t)
    (h : Run step s es t) (hs : P [] s) : P es t := by
  have hfrom : ∀ ds, P ds s → P (ds ++ es) t := by
    clear hs
    induction h with
    | nil s =>
      intro ds hs
      simpa using hs
    | cons hst _ ih =>
      intro ds hs
      simpa using ih _ (hstep _ _ _ _ hs hst)
  exact hfrom [] hs

theorem simulate {step' : τ → ε → τ → Prop} {R : σ → τ → Prop}
    (hsim : ∀ s e t x, R s x → step s e t → ∃ y, step' x e y ∧ R t y)
    (h : Run step s es t) {x : τ} (hx : R s x) : ∃ y, Run step' x es y ∧ R t y := by
  induction h generalizing x with
  | nil s => exact ⟨x, .nil x, hx⟩
  | cons hst _ ih =>
    obtain ⟨y, hy, hR⟩ := hsim _ _ _ _ hx hst
    obtain ⟨z, hz, hR'⟩ := ih hR
    exact ⟨z, .cons hy hz, hR'⟩

/-- As `simulate`, where steps without a label are matched by no step. -/
theorem simulate_silent {step : σ → Option ε → σ → Prop} {step' : τ → ε → τ → Prop}
    {R : σ → τ → Prop} {es : List (Option ε)}
    (hsome : ∀ s e t x, R s x → step s (some e) t → ∃ y, step' x e y ∧ R t y)
    (hnone : ∀ s t x, R s x → step s none t → R t x)
    (h : Run step s es t) {x : τ} (hx : R s x) :
    ∃ y, Run step' x es.reduceOption y ∧ R t y := by
  induction h generalizing x with
  | nil s => exact ⟨x, .nil x, hx⟩
  | @cons s t u e es hst _ ih =>
    cases e with
    | none =>
      rw [List.reduceOption_cons_of_none]
      exact ih (hnone _ _ _ hx hst)
    | some e =>
      rw [List.reduceOption_cons_of_some]
      obtain ⟨y, hy, hR⟩ := hsome _ _ _ _ hx hst
      obtain ⟨z, hz, hR'⟩ := ih hR
      exact ⟨z, .cons hy hz, hR'⟩

theorem concat {u : σ} {e : ε} (h : Run step s es t) (hstep : step t e u) :
    Run step s (es ++ [e]) u := by
  induction h with
  | nil s => exact .cons hstep (.nil u)
  | cons hst _ ih => exact .cons hst (ih hstep)

theorem mono {step' : σ → ε → σ → Prop} (hle : ∀ s e t, step s e t → step' s e t)
    (h : Run step s es t) : Run step' s es t := by
  induction h with
  | nil s => exact .nil s
  | cons hst _ ih => exact .cons (hle _ _ _ hst) ih

end Run

def iterate (f : σ → ε → Option σ) : σ → List ε → Option σ
  | s, [] => some s
  | s, e :: es =>
    match f s e with
    | none => none
    | some t => iterate f t es

theorem Run.of_iterate {f : σ → ε → Option σ} {s t : σ} {es : List ε}
    (h : iterate f s es = some t) : Run (fun s e t => f s e = some t) s es t := by
  induction es generalizing s with
  | nil =>
    cases h
    exact .nil _
  | cons e es ih =>
    rw [iterate] at h
    cases hf : f s e with
    | none =>
      rw [hf] at h
      cases h
    | some u =>
      rw [hf] at h
      exact .cons hf (ih h)

def guarded (g : σ → ε → Bool) (f : σ → ε → Option σ) (s : σ) (e : ε) : Option σ :=
  if g s e then f s e else none

theorem Run.of_guarded {g : σ → ε → Bool} {f : σ → ε → Option σ} {s t : σ} {es : List ε}
    (h : iterate (guarded g f) s es = some t) :
    Run (fun s e t => g s e = true ∧ f s e = some t) s es t := by
  refine (Run.of_iterate h).mono fun s e t hstep => ?_
  rw [guarded] at hstep
  split_ifs at hstep with hg
  exact ⟨hg, hstep⟩

/-! ## Infinite runs -/

structure Execution (step : σ → ε → σ → Prop) where
  state : ℕ → σ
  label : ℕ → ε
  steps : ∀ n, step (state n) (label n) (state (n + 1))

namespace Execution
variable {step : σ → ε → σ → Prop} (x : Execution step) {P Q R : σ → Prop} (rank : σ → ℕ)
  {n m : ℕ}

theorem invariant (hstep : ∀ s e t, P s → step s e t → P t) (h : P (x.state 0)) (n : ℕ) :
    P (x.state n) := by
  induction n with
  | zero => exact h
  | succ n ih => exact hstep _ _ _ ih (x.steps n)

/-- If no step raises the rank while `P` lasts, and every step that leaves it as it is keeps `R`,
then on the way from `n` to `m` the goal `Q` is met, the rank falls or `R` is kept. -/
theorem walk
    (hkeep : ∀ n, P (x.state n) → Q (x.state (n + 1)) ∨ P (x.state (n + 1)) ∧
      (rank (x.state (n + 1)) < rank (x.state n) ∨ rank (x.state (n + 1)) = rank (x.state n) ∧
        (R (x.state n) → R (x.state (n + 1)))))
    (hle : n ≤ m) (hP : P (x.state n)) (hR : R (x.state n)) :
    (∃ k, n ≤ k ∧ Q (x.state k)) ∨ P (x.state m) ∧
      (rank (x.state m) < rank (x.state n) ∨ rank (x.state m) = rank (x.state n) ∧
        R (x.state m)) := by
  induction m, hle using Nat.le_induction with
  | base => exact .inr ⟨hP, .inr ⟨rfl, hR⟩⟩
  | succ m hle ih =>
    rcases ih with hQ | ⟨hPm, hrank⟩
    · exact .inl hQ
    · rcases hkeep m hPm with hQ | ⟨hPm', hfall | ⟨hsame, hkept⟩⟩
      · exact .inl ⟨m + 1, by omega, hQ⟩
      · exact .inr ⟨hPm', .inl (by omega)⟩
      · refine .inr ⟨hPm', ?_⟩
        rcases hrank with hlt | ⟨heq, hRm⟩
        · exact .inl (by omega)
        · exact .inr ⟨by omega, hkept hRm⟩

/-- A goal is met if from every state before it either the goal or a lower rank lies ahead. -/
theorem leadsTo
    (hfall : ∀ n, P (x.state n) → ∃ m, n ≤ m ∧
      (Q (x.state m) ∨ P (x.state m) ∧ rank (x.state m) < rank (x.state n)))
    (h : P (x.state n)) : ∃ m, n ≤ m ∧ Q (x.state m) := by
  induction hr : rank (x.state n) using Nat.strong_induction_on generalizing n with
  | _ r ih =>
    obtain ⟨m, hnm, hQ | ⟨hPm, hlt⟩⟩ := hfall n h
    · exact ⟨m, hnm, hQ⟩
    · obtain ⟨k, hmk, hQ⟩ := ih _ (hr ▸ hlt) hPm rfl
      exact ⟨k, hnm.trans hmk, hQ⟩

end Execution
end ApexStorm.Lib
