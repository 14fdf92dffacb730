import ApexStorm.Lib.Lock

/-!
# Scoped locks

`ScopedLockImpl`, `ReadScopedLockImpl` and `WriteScopedLockImpl` differ only in the
member of the mutex they call, so a guard here has a mode. Any number of guards on one
mutex are constructed, locked, unlocked and destroyed in any interleaving; one attempt
to take the mutex, one release and one access to `m_locked` are single steps.
-/

open scoped Finset

namespace ApexStorm.Sync
open Lib (Lock Run)
open Lib.Lock (Holders Keeps Op held)

/-- `CASLock` with its `atomic_flag`: `lock` repeats the test-and-set until it read `false`. -/
def casLock : Lock Bool Unit where
  initial := false
  take _ flag := if flag then none else some true
  give _ _ := false

inductive Mode
  | read | write
  deriving DecidableEq, Repr

structure RWState (θ : Type) where
  readers : ℕ
  writer : Option θ
  deriving DecidableEq, Repr

def EAGAIN : ℤ := 11
def EDEADLK : ℤ := 35

namespace RWState
variable {θ : Type} [DecidableEq θ]

/-- `pthread_rwlock_rdlock` in thread `t`: what it returns, unless it waits. -/
def rdlock (maxReaders : ℕ) (t : θ) (l : RWState θ) : Option (ℤ × RWState θ) :=
  if l.writer = some t then some (EDEADLK, l)
  else if l.writer.isSome then none
  else if maxReaders ≤ l.readers then some (EAGAIN, l)
  else some (0, { l with readers := l.readers + 1 })

/-- A thread that holds the lock for reading waits for itself. -/
def wrlock (t : θ) (l : RWState θ) : Option (ℤ × RWState θ) :=
  if l.writer = some t then some (EDEADLK, l)
  else if l.writer.isSome ∨ l.readers ≠ 0 then none
  else some (0, { l with writer := some t })

/-- `pthread_rwlock_unlock` is not told the mode. -/
def unlock (t : θ) (l : RWState θ) : RWState θ :=
  if l.writer = some t then { l with writer := none } else { l with readers := l.readers - 1 }

end RWState

/-- `RWMutex` does not look at what the functions of `pthread_rwlock_t` return. -/
def rwMutex {θ : Type} [DecidableEq θ] (maxReaders : ℕ) : Lock (RWState θ) (θ × Mode) where
  initial := ⟨0, none⟩
  take
    | (t, .read), l => (l.rdlock maxReaders t).map Prod.snd
    | (t, .write), l => (l.wrlock t).map Prod.snd
  give m l := l.unlock m.1

/-- Where a guard stands. `dying` is set while the destructor runs. -/
inductive Pc
  | absent
  | idle
  -- before `m_mutex.lock()` and before `m_locked = true`
  | taking | marking
  -- before `m_mutex.unlock()` and before `m_locked = false`
  | giving (dying : Bool) | clearing (dying : Bool)
  deriving DecidableEq, Repr

structure Guard where
  pc : Pc
  locked : Bool
  deriving DecidableEq, Repr

def Guard.holds (g : Guard) : Bool :=
  match g.pc with
  | .absent | .taking | .clearing _ => false
  | .idle => g.locked
  | .marking | .giving _ => true

inductive Move (ι : Type)
  | construct (i : ι) | lock (i : ι) | unlock (i : ι) | destroy (i : ι)
  -- user code that relies on the lock, between `lock` and `unlock`
  | use (i : ι)
  -- the guard's member function goes on
  | advance (i : ι)
  deriving DecidableEq, Repr

structure Guards (ι ℓ : Type) where
  lock : ℓ
  guards : ι → Guard

namespace Guards
variable {ι ℓ μ : Type} [DecidableEq ι] (k : Lock ℓ μ) (mode : ι → μ) (s : Guards ι ℓ)

def set (i : ι) (g : Guard) : Guards ι ℓ := { s with guards := Function.update s.guards i g }

def advance (i : ι) : Option (Option (Op ι μ) × Guards ι ℓ) :=
  let g := s.guards i
  match g.pc with
  | .absent | .idle => none
  | .taking =>
    match k.take (mode i) s.lock with
    | none => some (none, s)
    | some l => some (some (.take i (mode i)), { s.set i { g with pc := .marking } with lock := l })
  | .marking => some (none, s.set i ⟨.idle, true⟩)
  | .giving dying =>
    some (some (.give i),
      { s.set i { g with pc := .clearing dying } with lock := k.give (mode i) s.lock })
  | .clearing dying => some (none, s.set i ⟨if dying then .absent else .idle, false⟩)

def step : Move ι → Option (Option (Op ι μ) × Guards ι ℓ)
  | .construct i =>
    if (s.guards i).pc = .absent then some (none, s.set i { s.guards i with pc := .taking })
    else none
  | .lock i =>
    let g := s.guards i
    if g.pc = .idle then some (none, if g.locked then s else s.set i { g with pc := .taking })
    else none
  | .unlock i =>
    let g := s.guards i
    if g.pc = .idle then some (none, if g.locked then s.set i { g with pc := .giving false } else s)
    else none
  | .destroy i =>
    let g := s.guards i
    if g.pc = .idle then
      some (none, s.set i { g with pc := if g.locked then .giving true else .absent })
    else none
  | .use i =>
    let g := s.guards i
    if g.pc = .idle ∧ g.locked then some (some (.use i), s) else none
  | .advance i => s.advance k mode i

def Step (s : Guards ι ℓ) (op : Option (Op ι μ)) (t : Guards ι ℓ) : Prop :=
  ∃ m, s.step k mode m = some (op, t)

def GoodStep (good : ℓ → μ → Prop) (s : Guards ι ℓ) (op : Option (Op ι μ)) (t : Guards ι ℓ) :
    Prop :=
  (∀ o, op = some o → o.Good good s.lock) ∧ Step k mode s op t

/-- No guard is constructed; what `m_locked` holds before that does not matter. -/
def start (locked : ι → Bool) : Guards ι ℓ := ⟨k.initial, fun i => ⟨.absent, locked i⟩⟩

def holders : Holders ι ℓ μ :=
  ⟨s.lock, fun i => if (s.guards i).holds then some (mode i) else none⟩

section
variable {k mode s} {i : ι} {g : Guard} {t : Guards ι ℓ} {op : Option (Op ι μ)}

omit [DecidableEq ι] in
theorem holders_mode_pos (h : (s.guards i).holds = true) :
    (s.holders mode).mode i = some (mode i) := if_pos h

omit [DecidableEq ι] in
theorem holders_mode_neg (h : (s.guards i).holds = false) : (s.holders mode).mode i = none :=
  if_neg (by simp [h])

theorem holders_set (l : ℓ) :
    holders mode { s.set i g with lock := l } =
      ⟨l, Function.update (s.holders mode).mode i (if g.holds then some (mode i) else none)⟩ := by
  rw [holders, Holders.mk.injEq]
  refine ⟨rfl, funext fun j => ?_⟩
  by_cases hj : j = i
  · subst hj
    simp [set, holders]
  · simp [set, holders, hj]

theorem holders_set_same (h : g.holds = (s.guards i).holds) :
    (s.set i g).holders mode = s.holders mode := by
  have hset : holders mode { s.set i g with lock := s.lock } = _ := holders_set s.lock
  rw [h] at hset
  exact hset.trans (congrArg _ (Function.update_eq_self i (s.holders mode).mode))

theorem holders_step (h : Step k mode s op t) :
    match op with
    | none => t.holders mode = s.holders mode
    | some o => Holders.Step k (s.holders mode) o (t.holders mode) := by
  obtain ⟨m, hm⟩ := h
  cases m with
  | construct i =>
    simp only [step] at hm
    split at hm
    · rename_i hpc
      cases hm
      exact holders_set_same (by simp [Guard.holds, hpc])
    · cases hm
  | lock i =>
    simp only [step] at hm
    split at hm
    · rename_i hpc
      cases hm
      dsimp only
      split
      · rfl
      · rename_i hlocked
        exact holders_set_same (by simpa [Guard.holds, hpc] using hlocked)
    · cases hm
  | unlock i =>
    simp only [step] at hm
    split at hm
    · rename_i hpc
      cases hm
      dsimp only
      split
      · rename_i hlocked
        exact holders_set_same (by simp [Guard.holds, hpc, hlocked])
      · rfl
    · cases hm
  | destroy i =>
    simp only [step] at hm
    split at hm
    · rename_i hpc
      cases hm
      refine holders_set_same ?_
      cases hlocked : (s.guards i).locked <;> simp [Guard.holds, hpc, hlocked]
    · cases hm
  | use i =>
    simp only [step] at hm
    split at hm
    · rename_i hpc
      cases hm
      exact .use (holders_mode_pos (by simp [Guard.holds, hpc]))
    · cases hm
  | advance i =>
    simp only [step, advance] at hm
    cases hpc : (s.guards i).pc with
    | absent | idle =>
      rw [hpc] at hm
      cases hm
    | taking =>
      rw [hpc] at hm
      cases htake : k.take (mode i) s.lock with
      | none =>
        simp only [htake] at hm
        cases hm
        rfl
      | some l =>
        simp only [htake] at hm
        cases hm
        dsimp only
        rw [holders_set]
        exact .take (holders_mode_neg (by simp [Guard.holds, hpc])) htake
    | marking =>
      rw [hpc] at hm
      cases hm
      exact holders_set_same (by simp [Guard.holds, hpc])
    | giving dying =>
      rw [hpc] at hm
      cases hm
      dsimp only
      rw [holders_set]
      exact .give (holders_mode_pos (by simp [Guard.holds, hpc]))
    | clearing dying =>
      rw [hpc] at hm
      cases hm
      refine holders_set_same ?_
      cases dying <;> simp [Guard.holds, hpc]

theorem holders_run {good : ℓ → μ → Prop} {ops : List (Option (Op ι μ))} {locked : ι → Bool}
    (h : Run (GoodStep k mode good) (start k locked) ops s) :
    Run (fun h op h' => op.Good good h.lock ∧ Holders.Step k h op h') (Holders.start k)
      ops.reduceOption (s.holders mode) := by
  have hsim : ∃ x, Run (fun h op h' => op.Good good h.lock ∧ Holders.Step k h op h')
      (Holders.start k) ops.reduceOption x ∧ s.holders mode = x := by
    refine h.simulate_silent (R := fun s x => s.holders mode = x) ?_ ?_ rfl
    · rintro s o t x rfl ⟨hgood, hstep⟩
      exact ⟨_, ⟨hgood o rfl, holders_step hstep⟩, rfl⟩
    · intro s t x hx hstep
      exact (holders_step hstep.2).trans hx
  obtain ⟨x, hrun, rfl⟩ := hsim
  exact hrun

end

end Guards

section cas
variable {ι : Type} [DecidableEq ι] {s : Guards ι Bool} {locked : ι → Bool}
  {ops : List (Option (Op ι Unit))}

inductive OwnerStep : Option ι → Op ι Unit → Option ι → Prop
  | take (i : ι) : OwnerStep none (.take i ()) (some i)
  | use (i : ι) : OwnerStep (some i) (.use i) (some i)
  | give (i : ι) : OwnerStep (some i) (.give i) none

structure Owns (h : Holders ι Bool Unit) (owner : Option ι) : Prop where
  flag : h.lock = owner.isSome
  mode : ∀ i, h.mode i = some () ↔ owner = some i

theorem Owns.step {h h' : Holders ι Bool Unit} {owner : Option ι} {op : Op ι Unit}
    (ho : Owns h owner) (hstep : Holders.Step casLock h op h') :
    ∃ owner', OwnerStep owner op owner' ∧ Owns h' owner' := by
  cases hstep with
  | @take i m l hi htake =>
    have hfree : owner = none := by
      cases howner : owner with
      | none => rfl
      | some j => simp [casLock, ho.flag, howner] at htake
    subst hfree
    have hl : l = true := by simpa [casLock, ho.flag, eq_comm] using htake
    refine ⟨some i, .take i, hl, fun j => ?_⟩
    by_cases hj : j = i
    · subst hj
      simp
    · have hnone := ho.mode j
      simp only [Function.update_of_ne hj]
      simpa [Ne.symm hj] using hnone
  | @use i m hi =>
    obtain rfl : owner = some i := (ho.mode i).mp hi
    exact ⟨some i, .use i, ho⟩
  | @give i m hi =>
    obtain rfl : owner = some i := (ho.mode i).mp hi
    refine ⟨none, .give i, rfl, fun j => ?_⟩
    by_cases hj : j = i
    · subst hj
      simp
    · have hnone := ho.mode j
      simp only [Function.update_of_ne hj]
      simpa [Ne.symm hj] using hnone

/-- Guards on a `CASLock` take turns: the operations form runs of one owner at a time,
the flag tells whether there is an owner, and an attempt is repeated only while
another guard holds the lock. -/
theorem casLock_guards_take_turns
    (h : Run (Guards.Step casLock fun _ => ()) (Guards.start casLock locked) ops s) :
    ∃ owner, Run OwnerStep none ops.reduceOption owner ∧
      s.lock = owner.isSome ∧
      (∀ i, (s.guards i).holds = true ↔ owner = some i) ∧
      ∀ i, (s.guards i).pc = .taking →
        (casLock.take () s.lock = none ↔ ∃ j, j ≠ i ∧ (s.guards j).holds = true) := by
  have hstart : Owns (Holders.start casLock : Holders ι Bool Unit) none :=
    ⟨rfl, fun i => by simp [Holders.start]⟩
  have hgood : Run (Guards.GoodStep casLock (fun _ => ()) fun _ _ => True)
      (Guards.start casLock locked) ops s := h.mono fun _ _ _ h => ⟨fun _ _ _ _ _ => trivial, h⟩
  have hsim : ∃ owner, Run OwnerStep none ops.reduceOption owner ∧
      Owns (s.holders fun _ => ()) owner := by
    refine (Guards.holders_run hgood).simulate (R := Owns) ?_ hstart
    intro h op h' owner ho hstep
    exact ho.step hstep.2
  obtain ⟨owner, hrun, howns⟩ := hsim
  have hholds : ∀ i, (s.guards i).holds = true ↔ owner = some i := by
    intro i
    rw [← howns.mode i]
    simp [Guards.holders]
  have hflag : s.lock = owner.isSome := howns.flag
  refine ⟨owner, hrun, hflag, hholds, fun i hpc => ?_⟩
  have hnot : owner ≠ some i := by
    rw [ne_eq, ← hholds i]
    simp [Guard.holds, hpc]
  rw [hflag]
  cases owner with
  | none => simp [casLock, hholds]
  | some j =>
    have hj : j ≠ i := fun heq => hnot (heq ▸ rfl)
    simp only [casLock, Option.isSome_some, if_true, true_iff]
    exact ⟨j, hj, (hholds j).mpr rfl⟩

-- Two guards: the second one finds the flag set, and takes the lock once it is cleared.
theorem casLock_guards_take_turns_two :
    ∃ s : Guards Bool Bool,
      Run (Guards.Step casLock fun _ => ()) (Guards.start casLock fun _ => false)
        [none, none, some (.take false ()), none, none, some (.use false), none,
          some (.give false), some (.take true ())] s ∧
      (s.guards true).holds = true ∧ (s.guards false).holds = false := by
  have hrun : ∃ s : Guards Bool Bool,
      Run (Guards.Step casLock fun _ => ()) (Guards.start casLock fun _ => false)
        [none, none, some (.take false ()), none, none, some (.use false), none,
          some (.give false), some (.take true ())] s :=
    ⟨_, .cons ⟨.construct false, rfl⟩ <| .cons ⟨.construct true, rfl⟩ <|
      .cons ⟨.advance false, rfl⟩ <| .cons ⟨.advance true, rfl⟩ <|
      .cons ⟨.advance false, rfl⟩ <| .cons ⟨.use false, rfl⟩ <| .cons ⟨.destroy false, rfl⟩ <|
      .cons ⟨.advance false, rfl⟩ <| .cons ⟨.advance true, rfl⟩ <| .nil _⟩
  obtain ⟨s, hs⟩ := hrun
  obtain ⟨owner, howner, -, hholds, -⟩ := casLock_guards_take_turns hs
  have hlast : owner = some true := by
    cases howner with
    | cons h₁ h =>
      cases h₁
      cases h with
      | cons h₂ h =>
        cases h₂
        cases h with
        | cons h₃ h =>
          cases h₃
          cases h with
          | cons h₄ h =>
            cases h₄
            cases h
            rfl
  subst hlast
  refine ⟨s, hs, (hholds true).mpr rfl, ?_⟩
  rw [← Bool.not_eq_true, hholds false]
  simp

end cas

section rw
variable {ι θ : Type} [DecidableEq ι] [Fintype ι] [DecidableEq θ] {maxReaders : ℕ}

def RWState.Represents (l : RWState θ) (ms : Multiset (θ × Mode)) : Prop :=
  match l.writer with
  | some t => l.readers = 0 ∧ ms = {(t, .write)}
  | none => ms.map Prod.snd = .replicate l.readers .read

/-- The calling thread does not hold the lock for writing, and there may be another reader. -/
def RWState.Free (maxReaders : ℕ) (l : RWState θ) : θ × Mode → Prop
  | (t, .read) => l.writer ≠ some t ∧ l.readers < maxReaders
  | (t, .write) => l.writer ≠ some t

omit [DecidableEq θ] in
theorem RWState.Represents.all_read {l : RWState θ} {ms : Multiset (θ × Mode)}
    (h : l.Represents ms) (hw : l.writer = none) :
    ms.map Prod.snd = .replicate l.readers .read := by
  rwa [RWState.Represents, hw] at h

omit [DecidableEq θ] in
theorem RWState.Represents.one_write {l : RWState θ} {ms : Multiset (θ × Mode)}
    (h : l.Represents ms) {t : θ} (hw : l.writer = some t) :
    l.readers = 0 ∧ ms = {(t, .write)} := by
  rwa [RWState.Represents, hw] at h

theorem RWState.rdlock_free {l l' : RWState θ} {t : θ} (hfree : l.Free maxReaders (t, .read))
    (h : (rwMutex maxReaders).take (t, .read) l = some l') :
    l.writer = none ∧ l' = { l with readers := l.readers + 1 } := by
  simp only [rwMutex, rdlock, if_neg hfree.1] at h
  cases hw : l.writer with
  | some t' => simp [hw] at h
  | none =>
    simp only [hw, Option.isSome_none, Bool.false_eq_true, if_false, if_neg (not_le.mpr hfree.2),
      Option.map_some, Option.some.injEq] at h
    exact ⟨rfl, h.symm⟩

theorem RWState.wrlock_free {l l' : RWState θ} {t : θ} (hfree : l.Free maxReaders (t, .write))
    (h : (rwMutex maxReaders).take (t, .write) l = some l') :
    l.writer = none ∧ l.readers = 0 ∧ l' = { l with writer := some t } := by
  have hself : l.writer ≠ some t := hfree
  simp only [rwMutex, wrlock, if_neg hself] at h
  by_cases hheld : l.writer.isSome = true ∨ l.readers ≠ 0
  · simp [hheld] at h
  · simp only [if_neg hheld, Option.map_some, Option.some.injEq] at h
    simp only [not_or, Bool.not_eq_true, Option.isSome_eq_false_iff, Option.isNone_iff_eq_none,
      not_not] at hheld
    exact ⟨hheld.1, hheld.2, h.symm⟩

theorem RWState.take_vain {l l' : RWState θ} {m : θ × Mode}
    (hvain : ¬l.Free maxReaders m) (h : (rwMutex maxReaders).take m l = some l') :
    l' = l ∧ (l.writer = some m.1 ∨ m.2 = .read) := by
  obtain ⟨t, m⟩ := m
  cases m with
  | read =>
    refine ⟨?_, .inr rfl⟩
    simp only [rwMutex, RWState.rdlock] at h
    simp only [RWState.Free, not_and_or, not_not, not_lt] at hvain
    split_ifs at h <;> simp_all
  | write =>
    have hw : l.writer = some t := not_not.mp hvain
    simp only [rwMutex, RWState.wrlock, if_pos hw, Option.map_some, Option.some.injEq] at h
    exact ⟨h.symm, .inl hw⟩

theorem rwMutex_keeps : (rwMutex maxReaders).Keeps (RWState.Free maxReaders)
    (RWState.Represents (θ := θ)) where
  initial := rfl
  take {m l l' ms} hrep hfree htake := by
    obtain ⟨t, m⟩ := m
    cases m with
    | read =>
      obtain ⟨hw, rfl⟩ := RWState.rdlock_free hfree htake
      simp [RWState.Represents, hw, hrep.all_read hw, Multiset.replicate_succ]
    | write =>
      obtain ⟨hw, hreaders, rfl⟩ := RWState.wrlock_free hfree htake
      have hnone := hrep.all_read hw
      rw [hreaders, Multiset.replicate_zero, Multiset.map_eq_zero] at hnone
      subst hnone
      exact ⟨hreaders, rfl⟩
  give {m l ms} hrep := by
    cases hw : l.writer with
    | some t =>
      obtain ⟨hreaders, hms⟩ := hrep.one_write hw
      obtain ⟨rfl, hnone⟩ := (Multiset.singleton_eq_cons_iff _).mp hms.symm
      simp [rwMutex, RWState.unlock, hw, RWState.Represents, hreaders, hnone]
    | none =>
      obtain ⟨hcard, hread⟩ := Multiset.eq_replicate.mp (hrep.all_read hw)
      rw [Multiset.card_map, Multiset.card_cons] at hcard
      rw [Multiset.map_cons] at hread
      simp only [rwMutex, RWState.unlock, hw, reduceCtorEq, if_false, RWState.Represents]
      refine Multiset.eq_replicate.mpr ⟨?_, fun b hb => hread b (Multiset.mem_cons_of_mem hb)⟩
      rw [Multiset.card_map, ← hcard, Nat.add_sub_cancel]

variable {who : ι → θ × Mode} {s t : Guards ι (RWState θ)} {locked : ι → Bool}
  {ops : List (Option (Op ι (θ × Mode)))}

/-- A write guard that holds the mutex is alone, and the lock counts the read guards that hold it
and knows the thread of the write guard. -/
structure Guards.Agrees (who : ι → θ × Mode) (s : Guards ι (RWState θ)) : Prop where
  alone : ∀ i j, (s.guards i).holds = true → (s.guards j).holds = true → (who i).2 = .write → i = j
  readers : s.lock.readers = #{i | (s.guards i).holds = true ∧ (who i).2 = .read}
  writer : ∀ t, s.lock.writer = some t ↔ ∃ i, (s.guards i).holds = true ∧ who i = (t, .write)

namespace Guards

omit [DecidableEq ι] [Fintype ι] [DecidableEq θ] in
theorem isSome_holders (who : ι → θ × Mode) (i : ι) :
    ((s.holders who).mode i).isSome = (s.guards i).holds := by
  cases hi : (s.guards i).holds <;> simp [holders, hi]

omit [DecidableEq ι] [DecidableEq θ] in
theorem mem_held (who : ι → θ × Mode) {i : ι} (h : (s.guards i).holds = true) :
    who i ∈ held (s.holders who).mode :=
  Lib.Lock.mem_held.mpr ⟨i, holders_mode_pos h⟩

omit [DecidableEq θ] in
theorem Agrees.of_write {w : θ} (h : s.lock.Represents (held (s.holders who).mode))
    (hw : s.lock.writer = some w) : s.Agrees who := by
  obtain ⟨hreaders, hone⟩ := h.one_write hw
  have hwho : ∀ i, (s.guards i).holds = true → who i = (w, .write) := by
    intro i hi
    simpa [hone] using mem_held who hi
  obtain ⟨i₀, hi₀⟩ := Lib.Lock.mem_held.mp (hone ▸ Multiset.mem_singleton_self (w, Mode.write))
  have hheld : (s.guards i₀).holds = true := by
    rw [← isSome_holders who, hi₀]
    rfl
  refine ⟨fun i j hi hj _ => ?_, ?_, fun w' => ?_⟩
  · exact Lib.Lock.eq_of_held_singleton hone ((isSome_holders who i).trans hi)
      ((isSome_holders who j).trans hj)
  · rw [hreaders, eq_comm, Finset.card_eq_zero, Finset.filter_eq_empty_iff]
    rintro i - ⟨hi, hread⟩
    rw [hwho i hi] at hread
    cases hread
  · rw [hw]
    constructor
    · rintro ⟨⟩
      exact ⟨i₀, hheld, hwho i₀ hheld⟩
    · rintro ⟨i, hi, heq⟩
      rw [hwho i hi] at heq
      cases heq
      rfl

omit [DecidableEq ι] [DecidableEq θ] in
theorem Agrees.of_read (h : s.lock.Represents (held (s.holders who).mode))
    (hw : s.lock.writer = none) : s.Agrees who := by
  have hall := h.all_read hw
  have hread : ∀ i, (s.guards i).holds = true → (who i).2 = .read := by
    intro i hi
    have hmem := Multiset.mem_map_of_mem Prod.snd (mem_held who hi)
    rw [hall] at hmem
    exact Multiset.eq_of_mem_replicate hmem
  refine ⟨fun i j hi _ hwrite => ?_, ?_, fun w => ?_⟩
  · rw [hread i hi] at hwrite
    cases hwrite
  · have hcard := congrArg Multiset.card hall
    rw [Multiset.card_map, Lib.Lock.card_held, Multiset.card_replicate] at hcard
    rw [← hcard]
    congr 1
    refine Finset.filter_congr fun i _ => ?_
    rw [isSome_holders]
    exact ⟨fun hi => ⟨hi, hread i hi⟩, And.left⟩
  · rw [hw]
    refine ⟨nofun, ?_⟩
    rintro ⟨i, hi, heq⟩
    have hi := hread i hi
    rw [heq] at hi
    cases hi

omit [DecidableEq θ] in
theorem Agrees.of_represents (h : s.lock.Represents (held (s.holders who).mode)) :
    s.Agrees who := by
  cases hw : s.lock.writer with
  | some w => exact .of_write h hw
  | none => exact .of_read h hw

theorem Agrees.of_run
    (h : Run (GoodStep (rwMutex maxReaders) who (RWState.Free maxReaders))
      (start (rwMutex maxReaders) locked) ops s) : s.Agrees who :=
  .of_represents (rwMutex_keeps.held (holders_run h))

omit [DecidableEq ι] [DecidableEq θ] in
theorem Agrees.readers_ne_zero (h : s.Agrees who) :
    s.lock.readers ≠ 0 ↔ ∃ j, (s.guards j).holds = true ∧ (who j).2 = .read := by
  rw [h.readers, ← Nat.pos_iff_ne_zero, Finset.card_pos]
  exact ⟨fun ⟨j, hj⟩ => ⟨j, (Finset.mem_filter.mp hj).2⟩,
    fun ⟨j, hj⟩ => ⟨j, Finset.mem_filter.mpr ⟨Finset.mem_univ j, hj⟩⟩⟩

omit [DecidableEq ι] [DecidableEq θ] in
theorem Agrees.other_writer (h : s.Agrees who) (t : θ) :
    s.lock.writer ≠ some t ∧ s.lock.writer.isSome = true ↔
      ∃ j, (s.guards j).holds = true ∧ (who j).2 = .write ∧ (who j).1 ≠ t := by
  constructor
  · rintro ⟨hne, hsome⟩
    obtain ⟨t', ht'⟩ := Option.isSome_iff_exists.mp hsome
    obtain ⟨j, hj, hwho⟩ := (h.writer t').mp ht'
    refine ⟨j, hj, by rw [hwho], ?_⟩
    rw [hwho]
    rintro rfl
    exact hne ht'
  · rintro ⟨j, hj, hwrite, hne⟩
    have hw : s.lock.writer = some (who j).1 :=
      (h.writer _).mpr ⟨j, hj, Prod.ext rfl hwrite⟩
    rw [hw]
    exact ⟨fun heq => hne (Option.some.inj heq), rfl⟩

omit [DecidableEq ι] in
theorem Agrees.waits_iff (h : s.Agrees who) (i : ι) :
    (rwMutex maxReaders).take (who i) s.lock = none ↔
      ∃ j, (s.guards j).holds = true ∧ ((who j).2 = .write ∧ (who j).1 ≠ (who i).1 ∨
        (who j).2 = .read ∧ (who i).2 = .write) := by
  have hother := h.other_writer (who i).1
  cases hwho : who i with
  | mk t m =>
    rw [hwho] at hother
    cases m with
    | read =>
      have hwaits : (rwMutex maxReaders).take (t, .read) s.lock = none ↔
          s.lock.writer ≠ some t ∧ s.lock.writer.isSome = true := by
        simp only [rwMutex, RWState.rdlock]
        split_ifs <;> simp_all
      rw [hwaits, hother]
      simp
    | write =>
      have hwaits : (rwMutex maxReaders).take (t, .write) s.lock = none ↔
          s.lock.writer ≠ some t ∧ (s.lock.writer.isSome = true ∨ s.lock.readers ≠ 0) := by
        simp only [rwMutex, RWState.wrlock]
        split_ifs <;> simp_all
      rw [hwaits]
      constructor
      · rintro ⟨hne, hsome | hreaders⟩
        · obtain ⟨j, hj, hwrite⟩ := hother.mp ⟨hne, hsome⟩
          exact ⟨j, hj, .inl hwrite⟩
        · obtain ⟨j, hj, hread⟩ := h.readers_ne_zero.mp hreaders
          exact ⟨j, hj, .inr ⟨hread, rfl⟩⟩
      · rintro ⟨j, hj, hwrite | ⟨hread, -⟩⟩
        · obtain ⟨hne, hsome⟩ := hother.mpr ⟨j, hj, hwrite⟩
          exact ⟨hne, .inl hsome⟩
        · refine ⟨fun hw => ?_, .inr (h.readers_ne_zero.mpr ⟨j, hj, hread⟩)⟩
          obtain ⟨k, hk, hwhok⟩ := (h.writer t).mp hw
          have hkj := h.alone k j hk hj (by rw [hwhok])
          rw [← hkj, hwhok] at hread
          cases hread

omit [Fintype ι] in
/-- What an attempt of guard `i` does to the guards and the lock. -/
theorem guards_of_take {i : ι} {m : θ × Mode}
    (hstep : Step (rwMutex maxReaders) who s (some (.take i m)) t) :
    (rwMutex maxReaders).take m s.lock = some t.lock ∧ who i = m ∧
      (s.guards i).holds = false ∧ (t.guards i).holds = true ∧
      ∀ j, j ≠ i → (t.guards j).holds = (s.guards j).holds := by
  have hholders : Lib.Lock.Holders.Step (rwMutex maxReaders) (s.holders who) (.take i m)
    (t.holders who) := holders_step hstep
  generalize hx : t.holders who = x at hholders
  cases hholders with
  | @take _ _ l hi htake =>
    have hlock : t.lock = l := congrArg Lib.Lock.Holders.lock hx
    have hmode : (t.holders who).mode = Function.update (s.holders who).mode i (some m) :=
      congrArg Lib.Lock.Holders.mode hx
    have hself : (t.guards i).holds = true := by
      rw [← isSome_holders who, hmode, Function.update_self]
      rfl
    refine ⟨hlock ▸ htake, ?_, ?_, hself, fun j hj => ?_⟩
    · have hsome := congrFun hmode i
      rw [Function.update_self, holders_mode_pos hself] at hsome
      exact Option.some.inj hsome
    · rw [← isSome_holders who, hi]
      rfl
    · rw [← isSome_holders who, ← isSome_holders who, hmode, Function.update_of_ne hj]

/-- An attempt in vain adds a holder that the lock does not know. -/
theorem Agrees.good_of_step {op : Option (Op ι (θ × Mode))} (h : s.Agrees who)
    (hstep : Step (rwMutex maxReaders) who s op t) (ht : t.Agrees who) :
    ∀ o, op = some o → o.Good (RWState.Free maxReaders) s.lock := by
  rintro o rfl i m rfl
  obtain ⟨htake, rfl, hfree, hself, hothers⟩ := guards_of_take hstep
  by_contra hvain
  obtain ⟨hlock, hw | hread⟩ := RWState.take_vain hvain htake
  · obtain ⟨j, hj, hwhoj⟩ := (h.writer _).mp hw
    have hji : j ≠ i := by
      rintro rfl
      rw [hfree] at hj
      cases hj
    exact hji (ht.alone j i ((hothers j hji).trans hj) hself (by rw [hwhoj]))
  · have hinsert : ({j | (t.guards j).holds = true ∧ (who j).2 = .read} : Finset ι) =
        insert i ({j | (s.guards j).holds = true ∧ (who j).2 = .read} : Finset ι) := by
      ext j
      by_cases hji : j = i
      · subst hji
        simp [hself, hread]
      · simp [hji, hothers j hji]
    have hcount := ht.readers
    rw [hlock, hinsert, Finset.card_insert_of_notMem (by simp [hfree]), ← h.readers] at hcount
    omega

end Guards

/-- Guards of several threads on an `RWMutex`. As long as no thread takes the mutex while it holds
it for writing and no reader is one too many, a write guard that holds the mutex is alone, and the
lock counts the read guards and knows the write guard; a step breaks this exactly if it does not
meet that condition. An attempt waits only for guards it has to wait for. -/
theorem rwMutex_guards_share
    (h : Run (Guards.GoodStep (rwMutex maxReaders) who (RWState.Free maxReaders))
      (Guards.start (rwMutex maxReaders) locked) ops s) :
    s.Agrees who ∧
      (∀ i, (rwMutex maxReaders).take (who i) s.lock = none ↔
        ∃ j, (s.guards j).holds = true ∧ ((who j).2 = .write ∧ (who j).1 ≠ (who i).1 ∨
          (who j).2 = .read ∧ (who i).2 = .write)) ∧
      ∀ op t, Guards.Step (rwMutex maxReaders) who s op t →
        (t.Agrees who ↔ ∀ o, op = some o → o.Good (RWState.Free maxReaders) s.lock) := by
  have hagrees := Guards.Agrees.of_run h
  refine ⟨hagrees, hagrees.waits_iff, fun op t hstep => ?_⟩
  exact ⟨hagrees.good_of_step hstep, fun hgood => .of_run (h.concat ⟨hgood, hstep⟩)⟩

-- Two read guards hold the mutex together and the write guard of a third thread has to wait. The
-- thread of a write guard gets `EDEADLK` for its read guard, which then counts as a holder.
theorem rwMutex_guards_share_three :
    (∃ s : Guards (Fin 3) (RWState ℕ),
      Run (Guards.GoodStep (rwMutex 2) ![(7, .read), (8, .read), (9, .write)] (RWState.Free 2))
        (Guards.start (rwMutex 2) fun _ => false)
        [none, none, none, some (.take 0 (7, .read)), some (.take 1 (8, .read)), none] s ∧
      (rwMutex 2).take (9, .write) s.lock = none) ∧
    ∃ s t : Guards (Fin 2) (RWState ℕ),
      Run (Guards.GoodStep (rwMutex 2) ![(7, .write), (7, .read)] (RWState.Free 2))
        (Guards.start (rwMutex 2) fun _ => false) [none, none, some (.take 0 (7, .write))] s ∧
      Guards.Step (rwMutex 2) ![(7, .write), (7, .read)] s (some (.take 1 (7, .read))) t ∧
      ¬t.Agrees ![(7, .write), (7, .read)] := by
  have hread : ∃ s : Guards (Fin 3) (RWState ℕ),
      Run (Guards.GoodStep (rwMutex 2) ![(7, .read), (8, .read), (9, .write)] (RWState.Free 2))
        (Guards.start (rwMutex 2) fun _ => false)
        [none, none, none, some (.take 0 (7, .read)), some (.take 1 (8, .read)), none] s ∧
      (s.guards 0).holds = true := by
    refine ⟨_, .cons ⟨nofun, .construct 0, rfl⟩ <| .cons ⟨nofun, .construct 1, rfl⟩ <|
      .cons ⟨nofun, .construct 2, rfl⟩ <| .cons ⟨?_, .advance 0, rfl⟩ <|
      .cons ⟨?_, .advance 1, rfl⟩ <| .cons ⟨nofun, .advance 2, rfl⟩ <| .nil _, rfl⟩
    · rintro o ⟨⟩ i m ⟨⟩
      exact ⟨nofun, by decide⟩
    · rintro o ⟨⟩ i m ⟨⟩
      exact ⟨nofun, by decide⟩
  have hwrite : ∃ s t : Guards (Fin 2) (RWState ℕ),
      Run (Guards.GoodStep (rwMutex 2) ![(7, .write), (7, .read)] (RWState.Free 2))
        (Guards.start (rwMutex 2) fun _ => false) [none, none, some (.take 0 (7, .write))] s ∧
      Guards.Step (rwMutex 2) ![(7, .write), (7, .read)] s (some (.take 1 (7, .read))) t ∧
      s.lock.writer = some 7 := by
    refine ⟨_, _, .cons ⟨nofun, .construct 0, rfl⟩ <| .cons ⟨nofun, .construct 1, rfl⟩ <|
      .cons ⟨?_, .advance 0, rfl⟩ <| .nil _, ⟨.advance 1, rfl⟩, rfl⟩
    rintro o ⟨⟩ i m ⟨⟩
    exact nofun
  obtain ⟨s, hs, h₀⟩ := hread
  obtain ⟨u, v, hu, hstep, hself⟩ := hwrite
  refine ⟨⟨s, hs, ((rwMutex_guards_share hs).2.1 2).mpr ⟨0, h₀, .inr ⟨rfl, rfl⟩⟩⟩, u, v, hu, hstep,
    fun hagrees => ?_⟩
  have hgood := ((rwMutex_guards_share hu).2.2 _ v hstep).mp hagrees
  exact (hgood _ rfl 1 (7, .read) rfl).1 hself

end rw

end ApexStorm.Sync
