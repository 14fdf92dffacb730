import Mathlib.Algebra.BigOperators.Group.Finset.Basic
import Mathlib.Algebra.Order.BigOperators.Group.Multiset
import Mathlib.Data.Fintype.Basic
import ApexStorm.Lib.Run

/-!
# Locks that are taken in a mode

A lock is a state with an attempt to take it, which may have to wait, and a way to
give it back. Its users are known by the mode in which they hold it. When every good
attempt and every return keeps the state in step with the multiset of modes held, it is
in step with its users after every run of good attempts.
-/

open scoped Finset

namespace ApexStorm.Lib

variable {ι ℓ μ : Type*}

structure Lock (ℓ μ : Type*) where
  initial : ℓ
  take : μ → ℓ → Option ℓ
  give : μ → ℓ → ℓ

namespace Lock

/-- The state `l` tells that the lock is held in the modes `ms` when `rep l ms`, as long as it is
taken only when `good` says so. -/
structure Keeps (k : Lock ℓ μ) (good : ℓ → μ → Prop) (rep : ℓ → Multiset μ → Prop) : Prop where
  initial : rep k.initial 0
  take {m : μ} {l l' : ℓ} {ms : Multiset μ} :
    rep l ms → good l m → k.take m l = some l' → rep l' (m ::ₘ ms)
  give {m : μ} {l : ℓ} {ms : Multiset μ} : rep l (m ::ₘ ms) → rep (k.give m l) ms

inductive Op (ι μ : Type*)
  | take (i : ι) (m : μ)
  | use (i : ι)
  | give (i : ι)

def Op.Good (good : ℓ → μ → Prop) (l : ℓ) (op : Op ι μ) : Prop :=
  ∀ i m, op = .take i m → good l m

structure Holders (ι ℓ μ : Type*) where
  lock : ℓ
  mode : ι → Option μ

variable [DecidableEq ι] (k : Lock ℓ μ)

inductive Holders.Step : Holders ι ℓ μ → Op ι μ → Holders ι ℓ μ → Prop
  | take {h : Holders ι ℓ μ} {i : ι} {m : μ} {l : ℓ} :
      h.mode i = none → k.take m h.lock = some l →
      Holders.Step h (.take i m) ⟨l, Function.update h.mode i (some m)⟩
  | use {h : Holders ι ℓ μ} {i : ι} {m : μ} : h.mode i = some m → Holders.Step h (.use i) h
  | give {h : Holders ι ℓ μ} {i : ι} {m : μ} :
      h.mode i = some m →
      Holders.Step h (.give i) ⟨k.give m h.lock, Function.update h.mode i none⟩

def Holders.start : Holders ι ℓ μ := ⟨k.initial, fun _ => none⟩

section held
variable [Fintype ι]

def held (mode : ι → Option μ) : Multiset μ := ∑ i, (mode i).elim 0 ({·})

variable {mode : ι → Option μ} {i : ι} {m : μ}

omit [DecidableEq ι] in
theorem mem_held : m ∈ held mode ↔ ∃ i, mode i = some m := by
  rw [held, Multiset.mem_sum]
  refine exists_congr fun i => ?_
  cases hi : mode i with
  | none => simp
  | some m' => simp [eq_comm]

omit [DecidableEq ι] in
theorem held_none : held (fun _ : ι => (none : Option μ)) = 0 := by simp [held]

omit [DecidableEq ι] in
theorem card_held : Multiset.card (held mode) = #{i | (mode i).isSome} := by
  rw [held, Multiset.card_sum, Finset.card_filter]
  refine Finset.sum_congr rfl fun i _ => ?_
  cases mode i with
  | none => rfl
  | some m => rfl

theorem held_update (x : Option μ) :
    held (Function.update mode i x) =
      x.elim 0 ({·}) + ∑ j ∈ Finset.univ.erase i, (mode j).elim 0 ({·}) := by
  rw [held, ← Finset.add_sum_erase _ _ (Finset.mem_univ i), Function.update_self]
  congr 1
  refine Finset.sum_congr rfl fun j hj => ?_
  rw [Function.update_of_ne (Finset.ne_of_mem_erase hj)]

theorem held_take (hi : mode i = none) :
    held (Function.update mode i (some m)) = m ::ₘ held mode := by
  have hself : held mode = held (Function.update mode i none) := by
    rw [← hi, Function.update_eq_self]
  rw [hself, held_update, held_update]
  simp

theorem held_give (hi : mode i = some m) :
    held mode = m ::ₘ held (Function.update mode i none) := by
  have hself : held mode = held (Function.update mode i (some m)) := by
    rw [← hi, Function.update_eq_self]
  rw [hself, held_update, held_update]
  simp

theorem eq_of_held_singleton {m' : μ} {j : ι} (h : held mode = {m'}) (hi : (mode i).isSome)
    (hj : (mode j).isSome) : i = j := by
  obtain ⟨mi, hi⟩ := Option.isSome_iff_exists.mp hi
  obtain ⟨mj, hj⟩ := Option.isSome_iff_exists.mp hj
  by_contra hne
  rw [held_give hi] at h
  have hnone := ((Multiset.singleton_eq_cons_iff _).mp h.symm).2
  have hmem : mj ∈ held (Function.update mode i none) :=
    mem_held.mpr ⟨j, by rw [Function.update_of_ne (Ne.symm hne), hj]⟩
  rw [hnone] at hmem
  exact Multiset.notMem_zero _ hmem

theorem Keeps.held {rep : ℓ → Multiset μ → Prop} {good : ℓ → μ → Prop} {k : Lock ℓ μ}
    (hk : k.Keeps good rep) {ops : List (Op ι μ)} {h : Holders ι ℓ μ}
    (hrun : Run (fun h op h' => op.Good good h.lock ∧ Holders.Step k h op h') (Holders.start k)
      ops h) :
    rep h.lock (Lock.held h.mode) := by
  refine hrun.invariant (P := fun h => rep h.lock (Lock.held h.mode)) ?_ ?_
  · rintro h op h' hrep ⟨hgood, hstep⟩
    cases hstep with
    | take hi htake =>
      rw [held_take hi]
      exact hk.take hrep (hgood _ _ rfl) htake
    | use _ => exact hrep
    | give hi =>
      rw [held_give hi] at hrep
      exact hk.give hrep
  · rw [Holders.start, held_none]
    exact hk.initial

end held

end Lock

end ApexStorm.Lib
