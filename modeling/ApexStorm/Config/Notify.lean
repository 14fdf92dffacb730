import ApexStorm.Lib.Run
import ApexStorm.Lib.SortedSet

/-!
# Change notifications of a configuration variable

`ConfigVar::setValue` compares and notifies its listeners under the read lock and
stores the value under the write lock. Calls between the two are in `storing`, and
`log` notes what each listener was told. As long as a call that changes the value finds
no other one between its two sections, what a listener was told is a chain of changes
from the first value to the current one.
-/

namespace ApexStorm.Config
open Lib

variable {T : Type}

def Chained : T → List (T × T) → T → Prop
  | a, [], b => a = b
  | a, (o, n) :: rest, b => o = a ∧ Chained n rest b

theorem chained_concat (a : T) (l : List (T × T)) (o n b : T) :
    Chained a (l ++ [(o, n)]) b ↔ Chained a l o ∧ n = b := by
  induction l generalizing a with
  | nil => simp [Chained, eq_comm]
  | cons c l ih => simp [Chained, ih, and_assoc]

theorem Chained.unique {a b c : T} {l : List (T × T)} (hb : Chained a l b)
    (hc : Chained a l c) : b = c := by
  induction l generalizing a with
  | nil => exact hb.symm.trans hc
  | cons d l ih => exact ih hb.2 hc.2

/-- The keys of `m_callbacks` in order, and per call of a listener its key and arguments. -/
structure ConfigVar (T : Type) where
  val : T
  callbacks : List ℕ
  storing : List T
  log : List (ℕ × T × T)

/-- `setValue` and `fromString` stand for the read-locked section. The number `s_fun_id` is shared
by all variables of a type, so a new key may be any. -/
inductive Act (T : Type)
  | setValue (v : T)
  | fromString (val : String)
  | store (v : T)
  | addListener (key : ℕ)
  | delListener (key : ℕ)
  | clearListener

namespace ConfigVar

variable [DecidableEq T]

/-- The read-locked section of `setValue`. -/
def notify (c : ConfigVar T) (v : T) : ConfigVar T :=
  if v = c.val then c
  else
    { c with
      log := c.log ++ c.callbacks.map fun key => (key, c.val, v)
      storing := v :: c.storing }

/-- The write-locked section of `setValue`. -/
def store (c : ConfigVar T) (v : T) : ConfigVar T :=
  { c with val := v, storing := c.storing.erase v }

def setValue (c : ConfigVar T) (v : T) : ConfigVar T :=
  if v = c.val then c else (c.notify v).store v

/-- An exception of the conversion is caught, and the result is always false. -/
def fromString (fromStr : String → Option T) (c : ConfigVar T) (val : String) :
    Bool × ConfigVar T :=
  match fromStr val with
  | some v => (false, c.setValue v)
  | none => (false, c)

def step (fromStr : String → Option T) (c : ConfigVar T) : Act T → Option (ConfigVar T)
  | .setValue v => some (c.notify v)
  | .fromString val => some (((fromStr val).map c.notify).getD c)
  | .store v => if v ∈ c.storing then some (c.store v) else none
  | .addListener key =>
    some { c with callbacks := SortedSet.insert (fun a b => decide (a < b)) key c.callbacks }
  | .delListener key => some { c with callbacks := c.callbacks.erase key }
  | .clearListener => some { c with callbacks := [] }

def told (c : ConfigVar T) (key : ℕ) : List (T × T) :=
  (c.log.filter (·.1 = key)).map (·.2)

def Consistent (c : ConfigVar T) (init : T) (key : ℕ) : Prop :=
  c.storing = [] → Chained init (c.told key) c.val

/-- However the calls in progress end, the listener was told a chain. -/
def Settles (fromStr : String → Option T) (c : ConfigVar T) (init : T) (key : ℕ) : Prop :=
  ∀ vs d, Run (fun c v d => c.step fromStr (.store v) = some d) c vs d → d.Consistent init key

/-- A call that changes the value finds no other one between its two sections. -/
def alone (fromStr : String → Option T) (c : ConfigVar T) : Act T → Bool
  | .setValue v => v = c.val ∨ c.storing = []
  | .fromString val => fromStr val = none ∨ fromStr val = some c.val ∨ c.storing = []
  | _ => true

end ConfigVar

def Act.removes (key : ℕ) : Act T → Bool
  | .delListener k => k = key
  | .clearListener => true
  | _ => false

namespace ConfigVar
variable {c d : ConfigVar T} {init v : T} {key : ℕ}

structure Inv (init : T) (key : ℕ) (c : ConfigVar T) : Prop where
  sorted : SortedSet.Sorted id c.callbacks
  registered : key ∈ c.callbacks
  chained : c.storing = [] ∧ Chained init (c.told key) c.val ∨
    ∃ v, c.storing = [v] ∧ v ≠ c.val ∧ Chained init (c.told key) v

theorem Inv.consistent (h : c.Inv init key) : c.Consistent init key := by
  intro hstoring
  rcases h.chained with ⟨-, hchained⟩ | ⟨v, hv, -⟩
  · exact hchained
  · rw [hstoring] at hv
    cases hv

theorem Inv.callbacks (h : c.Inv init key) {callbacks : List ℕ}
    (hsorted : SortedSet.Sorted id callbacks) (hkey : key ∈ callbacks) :
    Inv init key { c with callbacks := callbacks } :=
  ⟨hsorted, hkey, h.chained⟩

variable [DecidableEq T] {fromStr : String → Option T}

/-- Without other threads the two sections make up `setValue`. -/
theorem setValue_eq (hstoring : c.storing = []) (v : T) :
    (c.setValue v).storing = [] ∧ (c.setValue v).val = v ∧
      (c.setValue v).log = (c.notify v).log := by
  rw [setValue]
  split_ifs with hv
  · exact ⟨hstoring, hv.symm, by rw [notify, if_pos hv]⟩
  · refine ⟨?_, rfl, rfl⟩
    simp [store, notify, if_neg hv, hstoring]

theorem told_notify (hnodup : c.callbacks.Nodup) (hkey : key ∈ c.callbacks) (hv : v ≠ c.val) :
    (c.notify v).told key = c.told key ++ [(c.val, v)] := by
  have hone : c.callbacks.filter (· = key) = [key] := by
    rw [List.filter_eq, List.count_eq_one_of_mem hnodup hkey]
    rfl
  simp only [told, notify, if_neg hv, List.filter_append, List.map_append, List.filter_map]
  rw [show ((fun x : ℕ × T × T => decide (x.1 = key)) ∘ fun key => (key, c.val, v)) =
    fun k => decide (k = key) from rfl, hone]
  rfl

namespace Inv

theorem notify (h : c.Inv init key) (halone : v = c.val ∨ c.storing = []) :
    (c.notify v).Inv init key := by
  by_cases hv : v = c.val
  · rwa [ConfigVar.notify, if_pos hv]
  · have hstoring := halone.resolve_left hv
    have hchained := h.consistent hstoring
    have htold := told_notify h.sorted.nodup h.registered hv
    have hnotify : (c.notify v).callbacks = c.callbacks ∧ (c.notify v).val = c.val ∧
        (c.notify v).storing = [v] := by
      rw [ConfigVar.notify, if_neg hv, hstoring]
      exact ⟨rfl, rfl, rfl⟩
    obtain ⟨hcallbacks, hval, hstoring'⟩ := hnotify
    refine ⟨hcallbacks ▸ h.sorted, hcallbacks ▸ h.registered, .inr ⟨v, hstoring', ?_, ?_⟩⟩
    · rwa [hval]
    · rw [htold, chained_concat]
      exact ⟨hchained, rfl⟩

theorem store (h : c.Inv init key) (hv : v ∈ c.storing) : (c.store v).Inv init key := by
  rcases h.chained with ⟨hnil, -⟩ | ⟨v', hstoring, -, hchained⟩
  · rw [hnil] at hv
    cases hv
  · rw [hstoring, List.mem_singleton] at hv
    subst hv
    refine ⟨h.sorted, h.registered, .inl ⟨?_, hchained⟩⟩
    simp [ConfigVar.store, hstoring]

theorem step (h : c.Inv init key) {a : Act T} (hremoves : a.removes key = false)
    (halone : c.alone fromStr a = true) (hstep : c.step fromStr a = some d) :
    d.Inv init key := by
  have hlt : ∀ a b : ℕ, decide (a < b) = true ↔ id a < id b := fun a b => decide_eq_true_iff
  cases a with
  | setValue v =>
    cases hstep
    exact h.notify (by simpa [alone] using halone)
  | fromString val =>
    cases hstep
    cases hval : fromStr val with
    | none => exact h
    | some v => exact h.notify (by simpa [alone, hval] using halone)
  | store v =>
    rw [ConfigVar.step] at hstep
    split_ifs at hstep with hv
    cases hstep
    exact h.store hv
  | addListener k =>
    cases hstep
    by_cases hk : k ∈ c.callbacks
    · rw [SortedSet.insert_of_mem hlt h.sorted hk]
      exact h
    · have hne : ∀ b ∈ c.callbacks, id b ≠ id k := by
        intro b hb heq
        obtain rfl : b = k := heq
        exact hk hb
      exact h.callbacks (SortedSet.sorted_insert hlt h.sorted hne)
        ((SortedSet.mem_insert hlt h.sorted hne).mpr (.inr h.registered))
  | delListener k =>
    cases hstep
    have hne : key ≠ k := by simpa [Act.removes, eq_comm] using hremoves
    exact h.callbacks (List.Pairwise.sublist List.erase_sublist h.sorted)
      ((List.mem_erase_of_ne hne).mpr h.registered)
  | clearListener => cases hremoves

theorem settles (h : c.Inv init key) : c.Settles fromStr init key := by
  intro vs d hrun
  have hd : d.Inv init key := hrun.invariant (fun _ v _ hc hstep => hc.step rfl rfl hstep) h
  exact hd.consistent

end Inv

theorem exists_settled (fromStr : String → Option T) (c : ConfigVar T) :
    ∃ vs d, Run (fun c v d => c.step fromStr (.store v) = some d) c vs d ∧ d.storing = [] ∧
      d.log = c.log := by
  induction hn : c.storing.length generalizing c with
  | zero => exact ⟨[], c, .nil c, List.length_eq_zero_iff.mp hn, rfl⟩
  | succ n ih =>
    obtain ⟨v, rest, hv⟩ := List.exists_cons_of_length_eq_add_one hn
    have hstoring : (c.store v).storing = rest := by simp [store, hv]
    obtain ⟨vs, d, hrun, hd, hlog⟩ := ih (c.store v) (by rw [hstoring]; simpa [hv] using hn)
    refine ⟨v :: vs, d, .cons ?_ hrun, hd, hlog⟩
    rw [step, if_pos (by simp [hv])]

theorem Inv.alone_of_settles (h : c.Inv init key) (hv : v ≠ c.val)
    (hsettles : (c.notify v).Settles fromStr init key) : c.storing = [] := by
  rcases h.chained with ⟨hnil, -⟩ | ⟨v', -, hne, hchained⟩
  · exact hnil
  · obtain ⟨vs, d, hrun, hd, hlog⟩ := exists_settled fromStr (c.notify v)
    have hbroken := hsettles vs d hrun hd
    have htold : d.told key = c.told key ++ [(c.val, v)] := by
      rw [← told_notify h.sorted.nodup h.registered hv, told, told, hlog]
    rw [htold, chained_concat] at hbroken
    exact absurd (hchained.unique hbroken.1) hne

theorem Inv.alone_iff (h : c.Inv init key) {a : Act T} (hremoves : a.removes key = false)
    (hstep : c.step fromStr a = some d) :
    d.Settles fromStr init key ↔ c.alone fromStr a = true := by
  refine ⟨fun hsettles => ?_, fun halone => (h.step hremoves halone hstep).settles⟩
  cases a with
  | setValue v =>
    cases hstep
    by_cases hv : v = c.val
    · simp [alone, hv]
    · simp [alone, h.alone_of_settles hv hsettles]
  | fromString val =>
    cases hstep
    cases hval : fromStr val with
    | none => simp [alone, hval]
    | some v =>
      rw [hval] at hsettles
      by_cases hv : v = c.val
      · simp [alone, hval, hv]
      · simp [alone, h.alone_of_settles hv hsettles]
  | _ => rfl

end ConfigVar

/-- In every run in which changes of the value do not overlap, a listener that stays registered was
told a chain of changes from the first value to the current one whenever no call is in progress, and
a step breaks this, once the calls in progress have ended, exactly if it overlaps another change. -/
theorem told_chained_iff_alone {T : Type} [DecidableEq T] (fromStr : String → Option T) (init : T)
    (callbacks : List ℕ) (hsorted : callbacks.Pairwise (· < ·)) (key : ℕ) (hkey : key ∈ callbacks)
    (as : List (Act T)) (c : ConfigVar T)
    (hrun : Run (fun c a d => a.removes key = false ∧ c.alone fromStr a = true ∧
      c.step fromStr a = some d) ⟨init, callbacks, [], []⟩ as c) :
    c.Consistent init key ∧ ∀ a d, a.removes key = false → c.step fromStr a = some d →
      (d.Settles fromStr init key ↔ c.alone fromStr a = true) := by
  have h : c.Inv init key :=
    hrun.invariant (fun _ _ _ hc hstep => hc.step hstep.1 hstep.2.1 hstep.2.2)
      ⟨hsorted, hkey, .inl ⟨rfl, rfl⟩⟩
  exact ⟨h.consistent, fun a d hremoves hstep => h.alone_iff hremoves hstep⟩

-- Two changes one after the other.
theorem told_chained_iff_alone_twice :
    ∃ c : ConfigVar ℕ,
      Run (fun c a d => a.removes 1 = false ∧ c.alone String.toNat? a = true ∧
        c.step String.toNat? a = some d) ⟨0, [1], [], []⟩
        [.setValue 5, .store 5, .setValue 7, .store 7] c ∧
      c.told 1 = [(0, 5), (5, 7)] ∧ c.Consistent 0 1 := by
  have hrun : Run (fun c a d => a.removes 1 = false ∧ c.alone String.toNat? a = true ∧
      c.step String.toNat? a = some d) (⟨0, [1], [], []⟩ : ConfigVar ℕ)
      [.setValue 5, .store 5, .setValue 7, .store 7] ⟨7, [1], [], [(1, 0, 5), (1, 5, 7)]⟩ :=
    .cons ⟨rfl, rfl, rfl⟩ (.cons ⟨rfl, rfl, rfl⟩ (.cons ⟨rfl, rfl, rfl⟩
      (.cons ⟨rfl, rfl, rfl⟩ (.nil _))))
  exact ⟨_, hrun, rfl,
    (told_chained_iff_alone String.toNat? 0 [1] (by decide) 1 (by decide) _ _ hrun).1⟩

/-- Two threads notify in one order and store in the other. -/
theorem told_against_stored :
    ∃ c : ConfigVar ℕ,
      Run (fun c a d => c.step String.toNat? a = some d) ⟨0, [1], [], []⟩
        [.setValue 5, .setValue 7, .store 7, .store 5] c ∧
      c.storing = [] ∧ c.told 1 = [(0, 5), (0, 7)] ∧ c.val = 5 ∧ ¬c.Consistent 0 1 := by
  refine ⟨⟨5, [1], [], [(1, 0, 5), (1, 0, 7)]⟩, ?_, rfl, rfl, rfl, ?_⟩
  · exact .cons rfl (.cons rfl (.cons rfl (.cons rfl (.nil _))))
  · intro h
    obtain ⟨-, hold, -⟩ := h rfl
    cases hold

end ApexStorm.Config
