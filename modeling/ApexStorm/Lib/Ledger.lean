import Mathlib.Tactic

/-!
# A ledger of posted and taken entries

Every entry gets a ticket when it is posted, the length of the log at that moment.
The ledger keeps the tickets that wait, in the order of posting, and for every
ticket taken who took it, the latest first. In a sound ledger each ticket ever
issued waits or has been taken, once.
-/

namespace ApexStorm.Lib

structure Ledger (α ω : Type*) where
  log : List α
  waiting : List (ℕ × α)
  taken : List (ℕ × α × ω)

namespace Ledger
variable {α ω : Type*}

def empty : Ledger α ω := ⟨[], [], []⟩

def post (l : Ledger α ω) (e : α) : Ledger α ω :=
  { l with log := l.log ++ [e], waiting := l.waiting ++ [(l.log.length, e)] }

def postAll (l : Ledger α ω) (es : List α) : Ledger α ω :=
  es.foldl post l

def take (l : Ledger α ω) (i : ℕ) (w : ω) : Ledger α ω :=
  match l.waiting[i]? with
  | none => l
  | some (k, e) => { l with waiting := l.waiting.eraseIdx i, taken := (k, e, w) :: l.taken }

def entries (l : Ledger α ω) : List α := l.waiting.map Prod.snd

def latest [DecidableEq ω] (l : Ledger α ω) (w : ω) : Option (ℕ × α × ω) :=
  l.taken.find? fun x => x.2.2 = w

structure Sound (l : Ledger α ω) : Prop where
  once : (l.waiting.map Prod.fst ++ l.taken.map Prod.fst).Perm (List.range l.log.length)
  order : (l.waiting.map Prod.fst).Pairwise (· < ·)
  waiting_log : ∀ k e, (k, e) ∈ l.waiting → l.log[k]? = some e
  taken_log : ∀ k e w, (k, e, w) ∈ l.taken → l.log[k]? = some e

theorem Sound.empty : (empty : Ledger α ω).Sound :=
  ⟨.refl _, .nil, by simp [Ledger.empty], by simp [Ledger.empty]⟩

variable {l : Ledger α ω}

theorem Sound.lt_of_waiting (h : l.Sound) {k : ℕ} (hk : k ∈ l.waiting.map Prod.fst) :
    k < l.log.length :=
  List.mem_range.mp (h.once.mem_iff.mp (List.mem_append_left _ hk))

theorem getElem?_append_of_some {log : List α} {k : ℕ} {x e : α} (h : log[k]? = some x) :
    (log ++ [e])[k]? = some x := by
  rwa [List.getElem?_append_left (List.getElem?_eq_some_iff.mp h).1]

theorem Sound.post (h : l.Sound) (e : α) : (l.post e).Sound := by
  refine ⟨?_, ?_, ?_, ?_⟩
  · have hmove : (l.waiting.map Prod.fst ++ [l.log.length] ++ l.taken.map Prod.fst).Perm
        (l.waiting.map Prod.fst ++ l.taken.map Prod.fst ++ [l.log.length]) := by
      rw [List.append_assoc, List.append_assoc]
      exact List.perm_append_comm.append_left _
    simpa [Ledger.post, List.range_succ] using hmove.trans (h.once.append_right _)
  · simp only [Ledger.post, List.map_append, List.map_cons, List.map_nil]
    refine List.pairwise_append.mpr ⟨h.order, List.pairwise_singleton _ _, ?_⟩
    intro a ha b hb
    rw [List.mem_singleton.mp hb]
    exact h.lt_of_waiting ha
  · intro k x hk
    rcases List.mem_append.mp hk with hk | hk
    · exact getElem?_append_of_some (h.waiting_log k x hk)
    · obtain ⟨rfl, rfl⟩ := Prod.mk.inj (List.mem_singleton.mp hk)
      simp [Ledger.post]
  · intro k x w hk
    exact getElem?_append_of_some (h.taken_log k x w hk)

theorem Sound.take (h : l.Sound) (i : ℕ) (w : ω) : (l.take i w).Sound := by
  unfold Ledger.take
  split
  · exact h
  · rename_i k e hi
    have hsub : (l.waiting.eraseIdx i).Sublist l.waiting := List.eraseIdx_sublist _ _
    have hperm : ((l.waiting.eraseIdx i).map Prod.fst ++ k :: l.taken.map Prod.fst).Perm
        (l.waiting.map Prod.fst ++ l.taken.map Prod.fst) := by
      obtain ⟨hlt, hget⟩ := List.getElem?_eq_some_iff.mp hi
      have herase := (List.getElem_cons_eraseIdx_perm hlt).map Prod.fst
      rw [hget] at herase
      exact List.perm_middle.trans (herase.append_right _)
    refine ⟨hperm.trans h.once, h.order.sublist (hsub.map _), ?_, ?_⟩
    · exact fun k' e' hk' => h.waiting_log k' e' (hsub.mem hk')
    · intro k' e' w' hk'
      rcases List.mem_cons.mp hk' with hk' | hk'
      · simp only [Prod.mk.injEq] at hk'
        obtain ⟨rfl, rfl, -⟩ := hk'
        exact h.waiting_log k' e' (List.mem_of_getElem? hi)
      · exact h.taken_log k' e' w' hk'

theorem entries_post (l : Ledger α ω) (e : α) : (l.post e).entries = l.entries ++ [e] := by
  simp [entries, Ledger.post]

theorem entries_take (l : Ledger α ω) (i : ℕ) (w : ω) :
    (l.take i w).entries = l.entries.eraseIdx i := by
  unfold Ledger.take
  split
  · rename_i hi
    rw [List.eraseIdx_of_length_le]
    simpa [entries] using List.getElem?_eq_none_iff.mp hi
  · simp [entries, List.eraseIdx_map]

theorem Sound.postAll (h : l.Sound) (es : List α) : (l.postAll es).Sound := by
  induction es generalizing l with
  | nil => exact h
  | cons e es ih => exact ih (h.post e)

theorem entries_postAll (l : Ledger α ω) (es : List α) :
    (l.postAll es).entries = l.entries ++ es := by
  induction es generalizing l with
  | nil => simp [Ledger.postAll]
  | cons e es ih =>
    have hpost := ih (l.post e)
    rw [entries_post, List.append_assoc] at hpost
    exact hpost

theorem taken_postAll (l : Ledger α ω) (es : List α) : (l.postAll es).taken = l.taken := by
  induction es generalizing l with
  | nil => rfl
  | cons e es ih => exact ih (l.post e)

theorem taken_take {i : ℕ} {e : α} (h : l.entries[i]? = some e) (w : ω) :
    ∃ k, (l.take i w).taken = (k, e, w) :: l.taken := by
  rw [entries, List.getElem?_map] at h
  obtain ⟨⟨k, e'⟩, hk, rfl⟩ := Option.map_eq_some_iff.mp h
  exact ⟨k, by simp [Ledger.take, hk]⟩

end Ledger

end ApexStorm.Lib
