import Mathlib.Tactic

/-!
# Scanners

A scanner goes through a memory byte by byte. Every transition has a list of actions that
look at the memory and at the position and change the data. An action that stops ends the
scan behind its byte.
-/

namespace ApexStorm.Lib

structure Scanner (σ α π : Type) where
  next : σ → UInt8 → Option (List α × σ)
  act : (ℕ → UInt8) → ℕ → α → π → Option π
  stops : α → Bool

namespace Scanner
variable {σ α π : Type}

/-- Where a scan ends. There is no state if a byte had no transition. -/
structure End (σ π : Type) where
  state : Option σ
  data : π
  pos : ℕ

def acts (S : Scanner σ α π) (m : ℕ → UInt8) (pos : ℕ) : List α → π → Option π
  | [], d => some d
  | a :: as, d => do
    let d ← S.act m pos a d
    if S.stops a then return d else S.acts m pos as d

def run (S : Scanner σ α π) (m : ℕ → UInt8) : ℕ → ℕ → σ → π → Option (End σ π)
  | 0, pos, s, d => some ⟨some s, d, pos⟩
  | n + 1, pos, s, d =>
    match S.next s (m pos) with
    | none => some ⟨none, d, pos⟩
    | some (as, s) => do
      let d ← S.acts m pos as d
      if as.any S.stops then return ⟨some s, d, pos + 1⟩ else S.run m n (pos + 1) s d

def Steps (S : Scanner σ α π) (m : ℕ → UInt8) (pos : ℕ) (s : σ) (d : π) (xs : List UInt8) (s' : σ)
    (d' : π) : Prop :=
  ∀ n, S.run m (xs.length + n) pos s d = S.run m n (pos + xs.length) s' d'

def Stops (S : Scanner σ α π) (m : ℕ → UInt8) (pos : ℕ) (s : σ) (d : π) (xs : List UInt8) (s' : σ)
    (d' : π) : Prop :=
  ∀ n, S.run m (xs.length + n) pos s d = some ⟨some s', d', pos + xs.length⟩

def quiet (S : Scanner σ α π) : σ → List UInt8 → Option σ
  | s, [] => some s
  | s, c :: cs =>
    match S.next s c with
    | some ([], s') => S.quiet s' cs
    | _ => none

section
variable {S : Scanner σ α π} {m : ℕ → UInt8} {pos : ℕ} {s s' s'' : σ} {d d' d'' : π}
  {xs ys : List UInt8} {c : UInt8} {as : List α}

@[simp] theorem acts_nil : S.acts m pos [] d = some d := rfl

@[simp] theorem acts_singleton {a : α} : S.acts m pos [a] d = S.act m pos a d := by
  rw [acts]
  cases S.act m pos a d with
  | none => rfl
  | some d' => simp

theorem acts_cons {a : α} (hstops : S.stops a = false) (ha : S.act m pos a d = some d') :
    S.acts m pos (a :: as) d = S.acts m pos as d' := by
  rw [acts, ha, Option.bind_eq_bind, Option.bind_some, if_neg]
  rw [hstops]
  exact Bool.false_ne_true

theorem acts_append {bs : List α} (hstops : as.any S.stops = false)
    (has : S.acts m pos as d = some d') : S.acts m pos (as ++ bs) d = S.acts m pos bs d' := by
  induction as generalizing d with
  | nil =>
    cases has
    rfl
  | cons a as ih =>
    rw [List.any_cons, Bool.or_eq_false_iff] at hstops
    rw [acts, Option.bind_eq_bind] at has
    obtain ⟨d₁, ha, has⟩ := Option.bind_eq_some_iff.mp has
    rw [hstops.1, if_neg Bool.false_ne_true] at has
    rw [List.cons_append, acts_cons hstops.1 ha, ih hstops.2 has]

theorem Steps.nil : S.Steps m pos s d [] s d := by
  intro n
  rw [List.length_nil, Nat.zero_add, Nat.add_zero]

theorem Steps.append (h : S.Steps m pos s d xs s' d')
    (h' : S.Steps m (pos + xs.length) s' d' ys s'' d'') : S.Steps m pos s d (xs ++ ys) s'' d'' := by
  intro n
  rw [List.length_append, Nat.add_assoc, h, h', Nat.add_assoc]

theorem Steps.stops (h : S.Steps m pos s d xs s' d')
    (h' : S.Stops m (pos + xs.length) s' d' ys s'' d'') : S.Stops m pos s d (xs ++ ys) s'' d'' := by
  intro n
  rw [List.length_append, Nat.add_assoc, h, h', Nat.add_assoc]

theorem Steps.one (hc : m pos = c) (hnext : S.next s c = some (as, s'))
    (hstops : as.any S.stops = false) (hacts : S.acts m pos as d = some d') :
    S.Steps m pos s d [c] s' d' := by
  intro n
  rw [List.length_singleton, Nat.add_comm 1]
  simp [run, hc, hnext, hacts, hstops]

theorem Stops.one (hc : m pos = c) (hnext : S.next s c = some (as, s'))
    (hstops : as.any S.stops = true) (hacts : S.acts m pos as d = some d') :
    S.Stops m pos s d [c] s' d' := by
  intro n
  rw [List.length_singleton, Nat.add_comm 1]
  simp [run, hc, hnext, hacts, hstops]

theorem quiet_cons (h : S.next s c = some ([], s')) : S.quiet s (c :: xs) = S.quiet s' xs := by
  rw [quiet, h]

theorem quiet_append (h : S.quiet s xs = some s') : S.quiet s (xs ++ ys) = S.quiet s' ys := by
  induction xs generalizing s with
  | nil =>
    cases h
    rfl
  | cons c xs ih =>
    rw [quiet] at h
    rw [List.cons_append, quiet]
    split at h
    · exact ih h
    · cases h

theorem quiet_loop (hxs : ∀ c ∈ xs, S.next s c = some ([], s)) : S.quiet s xs = some s := by
  induction xs with
  | nil => rfl
  | cons c xs ih =>
    rw [List.forall_mem_cons] at hxs
    rw [quiet, hxs.1]
    exact ih hxs.2

theorem Steps.quiet (h : S.quiet s xs = some s')
    (hm : ∀ i (hi : i < xs.length), m (pos + i) = xs[i]) : S.Steps m pos s d xs s' d := by
  induction xs generalizing s pos with
  | nil =>
    cases h
    exact .nil
  | cons c xs ih =>
    rw [Scanner.quiet] at h
    split at h
    · next s₁ hnext =>
      have hone : S.Steps m pos s d [c] s₁ d := .one (hm 0 (Nat.succ_pos _)) hnext rfl rfl
      refine hone.append (ih h fun i hi => ?_)
      rw [List.length_singleton, Nat.add_assoc, Nat.add_comm 1]
      exact hm (i + 1) (Nat.succ_lt_succ hi)
    · cases h

theorem le_pos_of_run {n : ℕ} {e : End σ π} (hrun : S.run m n pos s d = some e) :
    pos ≤ e.pos := by
  induction n generalizing pos s d with
  | zero =>
    cases hrun
    exact le_rfl
  | succ n ih =>
    rw [run] at hrun
    split at hrun
    · cases hrun
      exact le_rfl
    · obtain ⟨d₁, -, hrun⟩ := Option.bind_eq_some_iff.mp hrun
      split_ifs at hrun
      · cases hrun
        exact Nat.le_succ pos
      · exact (Nat.le_succ pos).trans (ih hrun)

/-- What holds of the bytes read so far in each state holds where the scan ends. -/
theorem run_language {L : σ → List UInt8 → Prop} {n : ℕ} {e : End σ π}
    (hnext : ∀ s xs c as s', L s xs → S.next s c = some (as, s') → L s' (xs ++ [c]))
    (hrun : S.run m n pos s d = some e) (hs : L s xs) :
    ∀ s' ∈ e.state, L s' (xs ++ (List.range (e.pos - pos)).map fun i => m (pos + i)) := by
  induction n generalizing pos s d xs with
  | zero =>
    cases hrun
    intro s' hs'
    cases hs'
    simpa using hs
  | succ n ih =>
    rw [run] at hrun
    split at hrun
    · cases hrun
      exact fun s' hs' => absurd hs' (Option.not_mem_none s')
    · next as s₁ hs₁ =>
      obtain ⟨d₁, -, hrun⟩ := Option.bind_eq_some_iff.mp hrun
      have hone := hnext s xs (m pos) as s₁ hs hs₁
      split_ifs at hrun
      · cases hrun
        intro s' hs'
        cases hs'
        simpa using hone
      · intro s' hs'
        have hle := le_pos_of_run hrun
        have hrest := ih hrun hone s' hs'
        obtain ⟨k, hk⟩ := Nat.exists_eq_add_of_le hle
        rw [hk, show pos + 1 + k - pos = k + 1 by omega, List.range_succ_eq_map, List.map_cons,
          List.map_map]
        rw [hk, Nat.add_sub_cancel_left, List.append_assoc] at hrest
        have htail : (List.range k).map ((fun i => m (pos + i)) ∘ Nat.succ) =
            (List.range k).map fun i => m (pos + 1 + i) :=
          List.map_congr_left fun i _ => congrArg m (Nat.succ_add_eq_add_succ pos i).symm
        rw [htail]
        simpa using hrest

theorem exists_acts {I : π → Prop} (hact : ∀ a d, I d → ∃ d', S.act m pos a d = some d' ∧ I d')
    (as : List α) (h : I d) : ∃ d', S.acts m pos as d = some d' ∧ I d' := by
  induction as generalizing d with
  | nil => exact ⟨d, rfl, h⟩
  | cons a as ih =>
    obtain ⟨d₁, hd₁, h₁⟩ := hact a d h
    rw [acts, hd₁, Option.bind_eq_bind, Option.bind_some]
    split_ifs
    · exact ⟨d₁, rfl, h₁⟩
    · exact ih h₁

theorem exists_run {I : ℕ → π → Prop} {bound n : ℕ} (hmono : ∀ p q d, p ≤ q → I p d → I q d)
    (hact : ∀ p < bound, ∀ a d, I p d → ∃ d', S.act m p a d = some d' ∧ I p d')
    (hn : pos + n < bound) (h : I pos d) :
    ∃ e, S.run m (n + 1) pos s d = some e ∧ e.pos ≤ pos + (n + 1) ∧ I (pos + n) e.data := by
  induction n generalizing pos s d with
  | zero =>
    rw [run]
    split
    · exact ⟨_, rfl, Nat.le_add_right .., h⟩
    · next as s' _ =>
      obtain ⟨d', hd', h'⟩ := exists_acts (hact pos hn) as h
      refine ⟨⟨some s', d', pos + 1⟩, ?_, Nat.le_refl _, h'⟩
      rw [hd', Option.bind_eq_bind, Option.bind_some]
      split_ifs <;> rfl
  | succ n ih =>
    rw [run]
    split
    · exact ⟨_, rfl, Nat.le_add_right .., hmono _ _ _ (Nat.le_add_right ..) h⟩
    · next as s' _ =>
      obtain ⟨d', hd', h'⟩ := exists_acts (hact pos (by omega)) as h
      rw [hd', Option.bind_eq_bind, Option.bind_some]
      split_ifs
      · exact ⟨_, rfl, by dsimp only; omega, hmono _ _ _ (Nat.le_add_right ..) h'⟩
      · obtain ⟨e, he, hpos, hI⟩ :=
          ih (s := s') (by omega : pos + 1 + n < bound) (hmono _ _ _ (Nat.le_succ _) h')
        refine ⟨e, he, by omega, ?_⟩
        rwa [Nat.add_assoc, Nat.add_comm 1] at hI

end
end Scanner
end ApexStorm.Lib
