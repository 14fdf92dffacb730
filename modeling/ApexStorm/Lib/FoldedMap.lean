import Mathlib.Tactic

/-!
# Maps whose keys are compared through a fold

The entries of a map are a list in the order in which their keys came in. Two keys are the
same if the fold `f` takes them to the same value, and a key that is written again keeps
its first spelling. What the map says is the function `entry` from folded keys to entries:
every operation is an update of it, and entries that are traversed in the order of their
folded keys are traversed in an order that the function determines.
-/

namespace ApexStorm.Lib.FoldedMap

variable {κ φ β : Type*}

def Distinct (f : κ → φ) (m : List (κ × β)) : Prop := m.Pairwise fun a b => f a.1 ≠ f b.1

section Entries
variable [BEq φ]

def entry (f : κ → φ) (m : List (κ × β)) (x : φ) : Option (κ × β) := m.find? (f ·.1 == x)

variable {f : κ → φ} {m m' : List (κ × β)} {e : κ × β} {k : κ} {x : φ}

theorem any_eq_isSome : m.any (f ·.1 == f k) = (entry f m (f k)).isSome := by
  rw [entry, List.isSome_find?]

variable [LawfulBEq φ]

theorem fold_of_entry (h : entry f m x = some e) : f e.1 = x := by
  simpa using List.find?_some h

theorem entry_eq_none : entry f m x = none ↔ ∀ e ∈ m, f e.1 ≠ x := by
  rw [entry, List.find?_eq_none]
  simp

theorem mem_iff_entry (h : Distinct f m) : e ∈ m ↔ entry f m (f e.1) = some e := by
  constructor
  · intro he
    induction m with
    | nil => cases he
    | cons a m ih =>
      obtain ⟨ha, hm⟩ := List.pairwise_cons.mp h
      rcases List.mem_cons.mp he with rfl | he
      · exact List.find?_cons_of_pos (by simp)
      · rw [entry, List.find?_cons_of_neg (by simpa using ha e he)]
        exact ih hm he
  · exact List.mem_of_find?_eq_some

theorem perm_of_entry (h : Distinct f m) (h' : Distinct f m') (heq : entry f m = entry f m') :
    m.Perm m' := by
  have hnodup {l : List (κ × β)} (hl : Distinct f l) : l.Nodup :=
    hl.imp fun hne heq => hne (congrArg (f ·.1) heq)
  refine (List.perm_ext_iff_of_nodup (hnodup h) (hnodup h')).mpr fun e => ?_
  rw [mem_iff_entry h, mem_iff_entry h', heq]

theorem sort_eq_of_entry {le : φ → φ → Prop} [DecidableRel le] [Std.Total le] [IsTrans φ le]
    [Std.Antisymm le] (h : Distinct f m) (h' : Distinct f m') (heq : entry f m = entry f m') :
    m.insertionSort (fun a b => le (f a.1) (f b.1)) =
      m'.insertionSort fun a b => le (f a.1) (f b.1) := by
  have : Std.Total fun a b : κ × β => le (f a.1) (f b.1) := ⟨fun a b => Std.Total.total _ _⟩
  have : IsTrans (κ × β) fun a b => le (f a.1) (f b.1) := ⟨fun a b c => trans_of le⟩
  have hperm := perm_of_entry h h' heq
  refine List.Perm.eq_of_pairwise ?_ (List.pairwise_insertionSort _ m)
    (List.pairwise_insertionSort _ m') ?_
  · intro a b ha hb hab hba
    have hfold : f a.1 = f b.1 := Std.Antisymm.antisymm _ _ hab hba
    rw [List.mem_insertionSort] at ha hb
    rw [mem_iff_entry h, heq, hfold] at ha
    rw [mem_iff_entry h', ha] at hb
    exact Option.some_injective _ hb
  · exact (List.perm_insertionSort _ m).trans (hperm.trans (List.perm_insertionSort _ m').symm)

end Entries

section Updates
variable [DecidableEq φ] {f : κ → φ} {m : List (κ × β)} {k : κ} {v : β}

def erase (f : κ → φ) (m : List (κ × β)) (k : κ) : List (κ × β) := m.filter fun e => f e.1 ≠ f k

/-- An update of the entries that are meant; the spelling of a key that is there stays. -/
def setEntry (f : κ → φ) (g : φ → Option (κ × β)) (k : κ) (v : β) : φ → Option (κ × β) :=
  Function.update g (f k) (some (((g (f k)).map Prod.fst).getD k, v))

def eraseEntry (f : κ → φ) (g : φ → Option (κ × β)) (k : κ) : φ → Option (κ × β) :=
  Function.update g (f k) none

theorem distinct_erase (h : Distinct f m) : Distinct f (erase f m k) := List.Pairwise.filter _ h

variable [BEq φ]

def set (f : κ → φ) (m : List (κ × β)) (k : κ) (v : β) : List (κ × β) :=
  if m.any (f ·.1 == f k) then m.map fun e => if f e.1 = f k then (e.1, v) else e
  else m ++ [(k, v)]

variable [LawfulBEq φ]

theorem entry_set : entry f (set f m k v) = setEntry f (entry f m) k v := by
  funext x
  rw [set, any_eq_isSome, setEntry]
  cases hk : entry f m (f k) with
  | none =>
    rw [if_neg (by simp), entry, List.find?_append]
    by_cases hx : x = f k
    · subst hx
      have hnone : m.find? (f ·.1 == f k) = none := hk
      simp [hnone]
    · rw [Function.update_of_ne hx, List.find?_cons_of_neg (by simpa using Ne.symm hx)]
      simp [entry]
  | some e =>
    rw [if_pos Option.isSome_some, entry, List.find?_map]
    have hcomp : ((f ·.1 == x) ∘ fun e : κ × β => if f e.1 = f k then (e.1, v) else e) =
        (f ·.1 == x) := by
      funext e
      dsimp only [Function.comp_apply]
      split_ifs <;> rfl
    rw [hcomp]
    by_cases hx : x = f k
    · subst hx
      have hsome : m.find? (f ·.1 == f k) = some e := hk
      rw [hsome, Function.update_self, Option.map_some, if_pos (fold_of_entry hk)]
      rfl
    · rw [Function.update_of_ne hx]
      change (entry f m x).map _ = entry f m x
      cases he : entry f m x with
      | none => rfl
      | some e' =>
        have hne : f e'.1 ≠ f k := by
          rw [fold_of_entry he]
          exact hx
        rw [Option.map_some, if_neg hne]

theorem entry_erase : entry f (erase f m k) = eraseEntry f (entry f m) k := by
  funext x
  rw [erase, eraseEntry]
  by_cases hx : x = f k
  · subst hx
    rw [Function.update_self, entry_eq_none]
    intro e he
    simpa using (List.mem_filter.mp he).2
  · rw [Function.update_of_ne hx, entry, List.find?_filter, entry]
    congr 1
    funext e
    by_cases he : f e.1 = x
    · simp [he, hx]
    · simp [he]

theorem distinct_set (h : Distinct f m) : Distinct f (set f m k v) := by
  rw [set]
  split_ifs with hany
  · have hfold (e : κ × β) : f (if f e.1 = f k then (e.1, v) else e).1 = f e.1 := by
      split_ifs <;> rfl
    rw [Distinct, List.pairwise_map]
    simp only [hfold]
    exact h
  · refine List.pairwise_append.mpr ⟨h, List.pairwise_singleton .., ?_⟩
    intro a ha b hb
    rw [List.mem_singleton.mp hb]
    rw [any_eq_isSome, Bool.not_eq_true, Option.isSome_eq_false_iff, Option.isNone_iff_eq_none]
      at hany
    exact entry_eq_none.mp hany a ha

end Updates

end ApexStorm.Lib.FoldedMap
