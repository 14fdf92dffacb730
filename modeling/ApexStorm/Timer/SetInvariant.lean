import ApexStorm.Timer.Basic
import Mathlib.Data.Prod.Lex

/-!
# What each call does to the timers and to their set

A timer whose `m_next` is about to change is taken out of the set first and put
back after; while it is out, the invariant holds of all other timers. `InvExcept e`
is the invariant with the timers `e` taken out. A timer with a callback is in the set.
The converse needs that no timer was added without one.
-/

namespace ApexStorm.TimerManager
open Lib

variable {C : Type}

def key (heap : Addr → Option (Timer C)) (a : Addr) : ℕ ×ₗ ℕ := toLex ((nextOf heap a).toNat, a)

theorem less_iff (heap : Addr → Option (Timer C)) (a b : Addr) :
    less heap a b = true ↔ key heap a < key heap b := by
  simp only [less, comparator, key, Prod.Lex.toLex_lt_toLex, gt_iff_lt, UInt64.lt_iff_toNat_lt]
  split_ifs with h₁ h₂
  · simp [h₁]
  · simp only [false_iff]
    omega
  · have heq : (nextOf heap a).toNat = (nextOf heap b).toNat := by omega
    simp [heq]

theorem key_ne {heap : Addr → Option (Timer C)} {a b : Addr} (h : b ≠ a) :
    key heap b ≠ key heap a := by
  intro he
  exact h (Prod.mk.inj (toLex.injective he)).2

theorem key_update {heap : Addr → Option (Timer C)} {a b : Addr} (x : Option (Timer C))
    (h : b ≠ a) : key (Function.update heap a x) b = key heap b := by
  simp only [key, nextOf, Function.update_of_ne h]

def cbOf (heap : Addr → Option (Timer C)) (a : Addr) : Option C := (heap a).bind Timer.cb

def expired (m : TimerManager C) (now : UInt64) (x : Addr) : List Addr :=
  match m.timers with
  | [] => []
  | first :: _ =>
    if (m.detectClockRollover now).1 = false ∧ nextOf m.heap first > now then []
    else if (m.detectClockRollover now).1 then m.timers else (m.splitDue now x).1

def fired (now : UInt64) (t : Timer C) : Timer C :=
  if t.recurring then { t with next := now + t.ms } else { t with cb := none }

def restarted (ms start : UInt64) (t : Timer C) : Timer C :=
  if t.cb.isSome then { t with ms := ms, next := start + ms } else t

def recurs (heap : Addr → Option (Timer C)) (a : Addr) : Bool := (heap a).any Timer.recurring

def Op.effect (m : TimerManager C) : Op C → Addr → Option (Timer C)
  | .addTimer a now ms cb recurring =>
    Function.update m.heap a (some ⟨recurring, ms, now + ms, cb⟩)
  | .cancel a => Function.update m.heap a ((m.heap a).map fun t => { t with cb := none })
  | .refresh a now => Function.update m.heap a ((m.heap a).map fun t => restarted t.ms now t)
  | .reset a ms from_now now =>
    Function.update m.heap a ((m.heap a).map fun t =>
      restarted ms (if from_now then now else t.next - t.ms) t)
  | .listExpiredCb now x => fun a =>
    if a ∈ m.expired now x then (m.heap a).map (fired now) else m.heap a
  | .release a => Function.update m.heap a none

def Op.armed (m : TimerManager C) (b : Addr) : Op C → Prop
  | .addTimer a _ _ _ _ => b = a ∨ b ∈ m.timers
  | .cancel a => b ∈ m.timers ∧ ¬ (b = a ∧ (cbOf m.heap a).isSome)
  | .listExpiredCb now x => b ∈ m.timers ∧ (b ∈ m.expired now x → recurs m.heap b)
  | .refresh _ _ | .reset _ _ _ _ | .release _ => b ∈ m.timers

def Op.previousTime (m : TimerManager C) : Op C → UInt64
  | .listExpiredCb now _ => if m.timers = [] then m.previousTime else now
  | _ => m.previousTime

def Op.result (m : TimerManager C) : Op C → Result C
  | .addTimer .. | .release _ => .done
  | .cancel a | .refresh a _ => .flag (cbOf m.heap a).isSome
  | .reset a ms from_now _ =>
    .flag (decide ((m.heap a).map Timer.ms = some ms ∧ from_now = false) ||
      (cbOf m.heap a).isSome)
  | .listExpiredCb now x => .cbs ((m.expired now x).map (cbOf m.heap))

structure InvExcept (e : List Addr) (m : TimerManager C) : Prop where
  sorted : SortedSet.Sorted (key m.heap) m.timers
  live : ∀ a ∈ m.timers, ∃ t, m.heap a = some t
  disarmed : ∀ a t, m.heap a = some t → a ∉ m.timers → a ∉ e → t.cb = none
  out : ∀ a ∈ e, a ∉ m.timers

abbrev Inv (m : TimerManager C) : Prop := InvExcept [] m

structure Op.Yields (m : TimerManager C) (op : Op C) (m' : TimerManager C) : Prop where
  inv : Inv m'
  heap_eq : m'.heap = op.effect m
  mem_iff : ∀ b, b ∈ m'.timers ↔ op.armed m b
  previous : m'.previousTime = op.previousTime m

namespace InvExcept
variable {m : TimerManager C} {e : List Addr} {a : Addr} {t : Timer C}

theorem new (now : UInt64) : Inv (new now : TimerManager C) where
  sorted := List.Pairwise.nil
  live := by simp [TimerManager.new]
  disarmed := by simp [TimerManager.new]
  out := by simp

theorem mem_of_cb (h : Inv m) (ht : m.heap a = some t) (hcb : t.cb.isSome) : a ∈ m.timers := by
  by_contra ha
  rw [h.disarmed a t ht ha (by simp)] at hcb
  cases hcb

theorem find_eq (h : InvExcept e m) (ha : a ∈ m.timers) : m.find a = some a :=
  SortedSet.find_of_mem (less_iff m.heap) h.sorted ha

theorem mem_erase (h : InvExcept e m) (ha : a ∈ m.timers) (b : Addr) :
    b ∈ (m.erase a).timers ↔ b ≠ a ∧ b ∈ m.timers := by
  rw [erase, SortedSet.erase_of_mem (less_iff m.heap) h.sorted ha, h.sorted.nodup.mem_erase_iff]

theorem take (h : InvExcept e m) (ha : a ∈ m.timers) : InvExcept (a :: e) (m.erase a) := by
  have hmem := h.mem_erase ha
  refine ⟨?_, ?_, ?_, ?_⟩
  · rw [erase, SortedSet.erase_of_mem (less_iff m.heap) h.sorted ha]
    exact h.sorted.erase a
  · intro b hb
    exact h.live b ((hmem b).mp hb).2
  · intro b t ht hb hbe
    rw [List.mem_cons, not_or] at hbe
    exact h.disarmed b t ht (fun hb' => hb ((hmem b).mpr ⟨hbe.1, hb'⟩)) hbe.2
  · intro b hb hb'
    rw [hmem] at hb'
    rcases List.mem_cons.mp hb with rfl | hb
    · exact hb'.1 rfl
    · exact h.out b hb hb'.2

theorem sorted_store (h : InvExcept e m) (ha : a ∉ m.timers) (x : Option (Timer C)) :
    SortedSet.Sorted (key (Function.update m.heap a x)) m.timers := by
  refine h.sorted.congr fun b hb => key_update x ?_
  rintro rfl
  exact ha hb

theorem key_store_ne (h : InvExcept (a :: e) m) (t : Timer C) :
    ∀ b ∈ m.timers, key (m.store a t).heap b ≠ key (m.store a t).heap a := by
  intro b hb
  apply key_ne
  rintro rfl
  exact h.out b (by simp) hb

theorem mem_put (h : InvExcept (a :: e) m) (t : Timer C) (b : Addr) :
    b ∈ ((m.store a t).insert a).timers ↔ b = a ∨ b ∈ m.timers :=
  SortedSet.mem_insert (less_iff _) (h.sorted_store (h.out a (by simp)) (some t)) (h.key_store_ne t)

theorem put (h : InvExcept (a :: e) m) (hae : a ∉ e) : InvExcept e ((m.store a t).insert a) := by
  have hsorted := h.sorted_store (h.out a (by simp)) (some t)
  have hmem := h.mem_put t
  refine ⟨SortedSet.sorted_insert (less_iff _) hsorted (h.key_store_ne t), ?_, ?_, ?_⟩
  · intro b hb
    by_cases hba : b = a
    · rw [hba]
      exact ⟨t, m.store_heap_self a t⟩
    · obtain ⟨u, hu⟩ := h.live b (((hmem b).mp hb).resolve_left hba)
      exact ⟨u, (m.store_heap_of_ne t hba).trans hu⟩
  · intro b u hu hb hbe
    rw [hmem, not_or] at hb
    have hu' : m.heap b = some u := (m.store_heap_of_ne t hb.1).symm.trans hu
    exact h.disarmed b u hu' hb.2 (by simp [hb.1, hbe])
  · intro b hb hb'
    rcases (hmem b).mp hb' with rfl | hb'
    · exact hae hb
    · exact h.out b (by simp [hb]) hb'

theorem disarm (h : InvExcept (a :: e) m) (hcb : t.cb = none) : InvExcept e (m.store a t) := by
  have ha : a ∉ m.timers := h.out a (by simp)
  refine ⟨h.sorted_store ha (some t), ?_, ?_, fun b hb => h.out b (by simp [hb])⟩
  · intro b hb
    obtain ⟨u, hu⟩ := h.live b hb
    have hba : b ≠ a := by
      rintro rfl
      exact ha hb
    exact ⟨u, (m.store_heap_of_ne t hba).trans hu⟩
  · intro b u hu hb hbe
    by_cases hba : b = a
    · rw [hba, store_heap_self] at hu
      cases hu
      exact hcb
    · rw [m.store_heap_of_ne t hba] at hu
      exact h.disarmed b u hu hb (by simp [hba, hbe])

theorem expire_cons (now : UInt64) (ht : m.heap a = some t) :
    expire now (a :: e) m =
      (expire now e (if t.recurring then (m.store a { t with next := now + t.ms }).insert a
        else m.store a { t with cb := none })).map fun r => (t.cb :: r.1, r.2) := by
  simp [expire, ht, Option.map_eq_bind]

structure Fires (now : UInt64) (e : List Addr) (m m' : TimerManager C) : Prop where
  inv : Inv m'
  heap_eq : m'.heap = fun a => if a ∈ e then (m.heap a).map (fired now) else m.heap a
  mem_iff : ∀ b, b ∈ m'.timers ↔ b ∈ m.timers ∨ b ∈ e ∧ recurs m.heap b
  previous : m'.previousTime = m.previousTime

theorem Fires.cons {now : UInt64} {m₁ m' : TimerManager C} (h : Fires now e m₁ m') (hae : a ∉ e)
    (ht : m.heap a = some t) (hheap : m₁.heap = (m.store a (fired now t)).heap)
    (hmem : ∀ b, b ∈ m₁.timers ↔ b ∈ m.timers ∨ b = a ∧ t.recurring = true)
    (hprevious : m₁.previousTime = m.previousTime) : Fires now (a :: e) m m' := by
  have hself : m₁.heap a = some (fired now t) := by rw [hheap, store_heap_self]
  have hkeep : ∀ b, b ≠ a → m₁.heap b = m.heap b := by
    intro b hb
    rw [hheap, m.store_heap_of_ne _ hb]
  refine ⟨h.inv, ?_, ?_, h.previous.trans hprevious⟩
  · rw [h.heap_eq]
    funext b
    by_cases hba : b = a
    · subst hba
      rw [if_neg hae, hself, if_pos (by simp), ht, Option.map_some]
    · simp only [hkeep b hba, List.mem_cons, hba, false_or]
  · intro b
    rw [h.mem_iff, hmem]
    by_cases hba : b = a
    · subst hba
      simp [hae, recurs, ht]
    · simp only [recurs, hkeep b hba, List.mem_cons, hba, false_and, or_false, false_or]

theorem expire_eq (now : UInt64) (h : InvExcept e m) (hnodup : e.Nodup)
    (hlive : ∀ a ∈ e, ∃ t, m.heap a = some t) :
    ∃ m', expire now e m = some (e.map (cbOf m.heap), m') ∧ Fires now e m m' := by
  induction e generalizing m with
  | nil => exact ⟨m, rfl, h, by simp, by simp, rfl⟩
  | cons a e ih =>
    obtain ⟨hae, hnodup'⟩ := List.nodup_cons.mp hnodup
    obtain ⟨t, ht⟩ := hlive a (by simp)
    have hne : ∀ b ∈ e, b ≠ a := by
      rintro b hb rfl
      exact hae hb
    have hkeep : ∀ u : Timer C, ∀ b ∈ e, (m.store a u).heap b = m.heap b :=
      fun u b hb => m.store_heap_of_ne u (hne b hb)
    have hrest : ∀ u : Timer C, ∀ b ∈ e, ∃ t, (m.store a u).heap b = some t := by
      intro u b hb
      rw [hkeep u b hb]
      exact hlive b (by simp [hb])
    have hcbs : ∀ u : Timer C, e.map (cbOf (m.store a u).heap) = e.map (cbOf m.heap) :=
      fun u => List.map_congr_left fun b hb => by rw [cbOf, cbOf, hkeep u b hb]
    have hhead : cbOf m.heap a = t.cb := by rw [cbOf, ht]; rfl
    rw [expire_cons now ht, List.map_cons, hhead]
    by_cases hrec : t.recurring
    · obtain ⟨m', hrun, hfires⟩ := ih (h.put hae) hnodup' (hrest { t with next := now + t.ms })
      rw [if_pos hrec, hrun]
      refine ⟨m', by rw [← hcbs]; rfl, hfires.cons hae ht ?_ ?_ rfl⟩
      · rw [fired, if_pos hrec]
        rfl
      · intro b
        rw [h.mem_put, hrec]
        tauto
    · obtain ⟨m', hrun, hfires⟩ := ih (h.disarm rfl) hnodup' (hrest { t with cb := none })
      rw [if_neg hrec, hrun]
      refine ⟨m', by rw [← hcbs]; rfl, hfires.cons hae ht ?_ ?_ rfl⟩
      · rw [fired, if_neg hrec]
      · intro b
        simp only [hrec, and_false, or_false, Bool.false_eq_true]
        rfl

theorem split (h : Inv m) {expired rest : List Addr} (hsplit : expired ++ rest = m.timers) :
    InvExcept expired { m with timers := rest } := by
  have hs := hsplit ▸ h.sorted
  obtain ⟨-, hrest, hcross⟩ := List.pairwise_append.mp hs
  refine ⟨hrest, ?_, ?_, ?_⟩
  · intro b hb
    exact h.live b (by simp only [← hsplit, List.mem_append]; exact .inr hb)
  · intro b u hu hb hbe
    refine h.disarmed b u hu ?_ (by simp)
    rw [← hsplit, List.mem_append, not_or]
    exact ⟨hbe, hb⟩
  · intro b hb hb'
    exact lt_irrefl _ (hcross b hb b hb')

theorem addTimerLocked (h : InvExcept e (m.insert a)) : InvExcept e (m.addTimerLocked a) := by
  rw [TimerManager.addTimerLocked]
  split_ifs
  · exact ⟨h.sorted, h.live, h.disarmed, h.out⟩
  · exact h

theorem addTimerLocked_eq (m : TimerManager C) (a : Addr) :
    (m.addTimerLocked a).heap = m.heap ∧ (m.addTimerLocked a).timers = (m.insert a).timers ∧
      (m.addTimerLocked a).previousTime = m.previousTime := by
  rw [TimerManager.addTimerLocked]
  split_ifs <;> exact ⟨rfl, rfl, rfl⟩

theorem out_of_dead (h : Inv m) (ha : m.heap a = none) : InvExcept [a] m := by
  refine ⟨h.sorted, h.live, fun b t ht hb _ => h.disarmed b t ht hb (by simp), ?_⟩
  intro b hb hmem
  obtain ⟨t, ht⟩ := h.live b hmem
  rw [List.mem_singleton.mp hb, ha] at ht
  cases ht

theorem addTimer (h : Inv m) (ha : m.heap a = none) (now ms : UInt64) (cb : Option C)
    (recurring : Bool) :
    (Op.addTimer a now ms cb recurring).Yields m (m.addTimer a now ms cb recurring) := by
  have hout := h.out_of_dead ha
  obtain ⟨hheap, htimers, hprevious⟩ :=
    addTimerLocked_eq (m.store a ⟨recurring, ms, now + ms, cb⟩) a
  refine ⟨addTimerLocked (hout.put (by simp)), hheap, fun b => ?_, hprevious⟩
  rw [TimerManager.addTimer, htimers]
  exact hout.mem_put _ b

theorem nextOf_store (ht : m.heap a = some t) (c : Option C) :
    nextOf (m.store a { t with cb := c }).heap = nextOf m.heap := by
  funext b
  by_cases hb : b = a
  · rw [hb, nextOf, nextOf, store_heap_self, ht]
  · rw [nextOf, nextOf, m.store_heap_of_ne _ hb]

theorem less_disarm (ht : m.heap a = some t) :
    less (m.store a { t with cb := none }).heap = less m.heap := by
  have hnext := nextOf_store ht none
  funext x y
  simp only [less, comparator, hnext]

theorem find_disarm (h : Inv m) (ht : m.heap a = some t) (ha : a ∈ m.timers) :
    (m.store a { t with cb := none }).find a = some a := by
  rw [find, less_disarm ht]
  exact h.find_eq ha

theorem update_self_of_eq {x : Option (Timer C)} (hx : m.heap a = x) :
    m.heap = Function.update m.heap a x := by
  rw [← hx, Function.update_eq_self]

theorem cancel_eq (ht : m.heap a = some t) (hcb : t.cb = none) : m.cancel a = some (false, m) := by
  simp [TimerManager.cancel, ht, hcb]

theorem refresh_eq (ht : m.heap a = some t) (hcb : t.cb = none) (now : UInt64) :
    m.refresh a now = some (false, m) := by
  simp [TimerManager.refresh, ht, hcb]

theorem reset_eq (ht : m.heap a = some t) (hcb : t.cb = none) {ms now : UInt64} {from_now : Bool}
    (hnew : ¬ (ms = t.ms ∧ from_now = false)) :
    m.reset a ms from_now now = some (false, m) := by
  simp only [TimerManager.reset, ht, Option.bind_eq_bind, Option.bind_some, if_neg hnew, hcb]
  rfl

theorem reset_eq_of_same (ht : m.heap a = some t) (now : UInt64) :
    m.reset a t.ms false now = some (true, m) := by
  simp [TimerManager.reset, ht]

theorem cbOf_eq (ht : m.heap a = some t) : cbOf m.heap a = t.cb := by
  rw [cbOf, ht]
  rfl

theorem cancel (h : Inv m) (ht : m.heap a = some t) :
    ∃ m', m.cancel a = some (t.cb.isSome, m') ∧ (Op.cancel a).Yields m m' := by
  have hin := h.mem_of_cb ht
  have hless := less_disarm ht
  have hof := cbOf_eq ht
  have heffect : (Op.cancel a).effect m =
      Function.update m.heap a (some { t with cb := none }) := by
    rw [Op.effect, ht]
    rfl
  cases hcb : t.cb with
  | none =>
    refine ⟨m, cancel_eq ht hcb, h, ?_, fun b => ?_, rfl⟩
    · rw [heffect, ← hcb]
      exact update_self_of_eq ht
    · simp [Op.armed, hof, hcb]
  | some c =>
    have ha : a ∈ m.timers := hin (by simp [hcb])
    have htimers : ((m.store a { t with cb := none }).erase a).timers = (m.erase a).timers := by
      rw [erase, hless]
      rfl
    refine ⟨(m.store a { t with cb := none }).erase a, ?_, ?_, heffect.symm, fun b => ?_, rfl⟩
    · simp [TimerManager.cancel, ht, hcb, h.find_disarm ht ha]
    · rw [erase, hless]
      exact (h.take ha).disarm rfl
    · rw [htimers, h.mem_erase ha, Op.armed, hof, hcb]
      simp [and_comm]

theorem mem_retake (h : Inv m) (ha : a ∈ m.timers) (u : Timer C) (b : Addr) :
    b ∈ (((m.erase a).store a u).insert a).timers ↔ b ∈ m.timers := by
  rw [(h.take ha).mem_put, h.mem_erase ha]
  by_cases hb : b = a
  · simp [hb, ha]
  · simp [hb]

theorem refresh (h : Inv m) (ht : m.heap a = some t) (now : UInt64) :
    ∃ m', m.refresh a now = some (t.cb.isSome, m') ∧ (Op.refresh a now).Yields m m' := by
  have hin := h.mem_of_cb ht
  have heffect : (Op.refresh a now).effect m =
      Function.update m.heap a (some (restarted t.ms now t)) := by
    rw [Op.effect, ht]
    rfl
  cases hcb : t.cb with
  | none =>
    refine ⟨m, refresh_eq ht hcb now, h, ?_, fun b => Iff.rfl, rfl⟩
    rw [heffect, restarted, if_neg (by simp [hcb])]
    exact update_self_of_eq ht
  | some c =>
    have ha : a ∈ m.timers := hin (by simp [hcb])
    refine ⟨((m.erase a).store a { t with next := now + t.ms }).insert a, ?_,
      (h.take ha).put (by simp), ?_, h.mem_retake ha _, rfl⟩
    · simp [TimerManager.refresh, ht, hcb, h.find_eq ha]
    · rw [heffect, restarted, if_pos (by simp [hcb])]
      rfl

theorem reset (h : Inv m) (ht : m.heap a = some t) (ms : UInt64) (from_now : Bool) (now : UInt64) :
    ∃ m', m.reset a ms from_now now =
        some (decide (ms = t.ms ∧ from_now = false) || t.cb.isSome, m') ∧
      (Op.reset a ms from_now now).Yields m m' := by
  have hin := h.mem_of_cb ht
  have heffect : (Op.reset a ms from_now now).effect m = Function.update m.heap a
      (some (restarted ms (if from_now then now else t.next - t.ms) t)) := by
    rw [Op.effect, ht]
    rfl
  by_cases hsame : ms = t.ms ∧ from_now = false
  · rw [decide_eq_true hsame, Bool.true_or]
    obtain ⟨rfl, rfl⟩ := hsame
    refine ⟨m, reset_eq_of_same ht now, h, ?_, fun b => Iff.rfl, rfl⟩
    rw [heffect]
    refine update_self_of_eq (ht.trans ?_)
    rw [restarted]
    simp
  · rw [decide_eq_false hsame, Bool.false_or]
    cases hcb : t.cb with
    | none =>
      refine ⟨m, reset_eq ht hcb hsame, h, ?_, fun b => Iff.rfl, rfl⟩
      rw [heffect, restarted, if_neg (by simp [hcb])]
      exact update_self_of_eq ht
    | some c =>
      have ha : a ∈ m.timers := hin (by simp [hcb])
      obtain ⟨start, hstart⟩ : ∃ start, start = if from_now then now else t.next - t.ms := ⟨_, rfl⟩
      obtain ⟨hheap, htimers, hprevious⟩ :=
        addTimerLocked_eq ((m.erase a).store a { t with ms := ms, next := start + ms }) a
      refine ⟨((m.erase a).store a { t with ms := ms, next := start + ms }).addTimerLocked a, ?_,
        addTimerLocked ((h.take ha).put (by simp)), ?_, fun b => ?_, hprevious⟩
      · simp only [TimerManager.reset, ht, Option.bind_eq_bind, Option.bind_some, if_neg hsame,
          hcb, h.find_eq ha, hstart]
        rfl
      · rw [hheap, heffect, restarted, if_pos (by simp [hcb]), hstart]
        rfl
      · rw [htimers]
        exact h.mem_retake ha _ b

theorem release (h : Inv m) (ha : a ∉ m.timers) : (Op.release a).Yields m (m.release a) := by
  refine ⟨⟨h.sorted_store ha none, ?_, ?_, by simp⟩, rfl, fun b => Iff.rfl, rfl⟩
  · intro b hb
    have hba : b ≠ a := by
      rintro rfl
      exact ha hb
    obtain ⟨t, ht⟩ := h.live b hb
    exact ⟨t, (Function.update_of_ne hba _ _).trans ht⟩
  · intro b t ht hb _
    by_cases hba : b = a
    · rw [hba] at ht
      cases (Function.update_self ..).symm.trans ht
    · exact h.disarmed b t ((Function.update_of_ne hba _ _).symm.trans ht) hb (by simp)

theorem splitDue_append (m : TimerManager C) (now : UInt64) (x : Addr) :
    (m.splitDue now x).1 ++ (m.splitDue now x).2 = m.timers := by
  simp only [splitDue, List.append_assoc, List.takeWhile_append_dropWhile]

theorem expire_front (h : Inv m) {now : UInt64} {x : Addr} (hne : m.timers ≠ []) {rest : List Addr}
    (hsplit : m.expired now x ++ rest = m.timers) :
    ∃ m', expire now (m.expired now x) { m with timers := rest, previousTime := now } =
        some ((m.expired now x).map (cbOf m.heap), m') ∧
      (Op.listExpiredCb now x).Yields m m' := by
  have h' : Inv { m with previousTime := now } := ⟨h.sorted, h.live, h.disarmed, h.out⟩
  have hnodup := h.sorted.nodup
  rw [← hsplit, List.nodup_append'] at hnodup
  obtain ⟨m', hrun, hinv, hheap, hmem, hprev⟩ := (h'.split hsplit).expire_eq now hnodup.1
    fun a ha => h.live a (hsplit ▸ List.mem_append_left rest ha)
  refine ⟨m', hrun, hinv, hheap, fun b => ?_, ?_⟩
  · have hdisjoint : b ∈ m.expired now x → b ∉ rest := fun hb hb' => hnodup.2.2 hb hb'
    rw [hmem, Op.armed, ← hsplit, List.mem_append]
    tauto
  · rw [hprev, Op.previousTime, if_neg hne]

theorem listExpiredCb (h : Inv m) (now : UInt64) (x : Addr) :
    ∃ m', m.listExpiredCb now x = some ((m.expired now x).map (cbOf m.heap), m') ∧
      (Op.listExpiredCb now x).Yields m m' := by
  cases htimers : m.timers with
  | nil =>
    have hnone : m.expired now x = [] := by rw [expired, htimers]
    refine ⟨m, by simp [TimerManager.listExpiredCb, htimers, hnone], h, ?_, fun b => ?_, ?_⟩
    · simp [Op.effect, hnone]
    · simp [Op.armed, hnone]
    · rw [Op.previousTime, if_pos htimers]
  | cons first rest =>
    obtain ⟨t, ht⟩ := h.live first (by simp [htimers])
    have hne : m.timers ≠ [] := by simp [htimers]
    have hfirst : nextOf m.heap first = t.next := by rw [nextOf, ht]
    obtain ⟨rollover, hrollover⟩ : ∃ b, m.detectClockRollover now =
      (b, { m with previousTime := now }) := ⟨_, rfl⟩
    have hexpired : m.expired now x = if rollover = false ∧ t.next > now then []
        else if rollover then m.timers else (m.splitDue now x).1 := by
      rw [expired, htimers, hrollover]
      simp only [hfirst]
    simp only [TimerManager.listExpiredCb, htimers, hrollover, ht, Option.bind_eq_bind,
      Option.bind_some]
    rw [← htimers]
    by_cases hlate : rollover = false ∧ t.next > now
    · rw [if_pos hlate] at hexpired ⊢
      refine ⟨{ m with previousTime := now }, by rw [hexpired]; rfl,
        ⟨h.sorted, h.live, h.disarmed, h.out⟩, ?_, fun b => ?_, ?_⟩
      · simp [Op.effect, hexpired]
      · simp [Op.armed, hexpired]
      · rw [Op.previousTime, if_neg hne]
    · rw [if_neg hlate] at hexpired ⊢
      cases rollover with
      | true =>
        have hall : m.expired now x = m.timers := hexpired
        have hsplit : m.expired now x ++ [] = m.timers := by rw [hall, List.append_nil]
        have hrun := h.expire_front hne hsplit
        rw [hall] at hrun ⊢
        exact hrun
      | false =>
        have hdue : m.expired now x = (m.splitDue now x).1 := hexpired
        have hsplit := splitDue_append m now x
        rw [← hdue] at hsplit
        have hrun := h.expire_front hne hsplit
        rw [hdue] at hrun ⊢
        exact hrun

theorem exec_eq (h : Inv m) {op : Op C} (hop : op.Enabled m) :
    ∃ m', exec m op = some (op.result m, m') ∧ op.Yields m m' := by
  cases op with
  | addTimer a now ms cb recurring => exact ⟨_, rfl, h.addTimer hop now ms cb recurring⟩
  | cancel a =>
    obtain ⟨t, ht⟩ := Option.isSome_iff_exists.mp hop
    obtain ⟨m', hrun, hyields⟩ := h.cancel ht
    refine ⟨m', ?_, hyields⟩
    rw [exec, hrun, Op.result, cbOf_eq ht]
    rfl
  | refresh a now =>
    obtain ⟨t, ht⟩ := Option.isSome_iff_exists.mp hop
    obtain ⟨m', hrun, hyields⟩ := h.refresh ht now
    refine ⟨m', ?_, hyields⟩
    rw [exec, hrun, Op.result, cbOf_eq ht]
    rfl
  | reset a ms from_now now =>
    obtain ⟨t, ht⟩ := Option.isSome_iff_exists.mp hop
    obtain ⟨m', hrun, hyields⟩ := h.reset ht ms from_now now
    refine ⟨m', ?_, hyields⟩
    rw [exec, hrun, Op.result, cbOf_eq ht, ht]
    simp [eq_comm]
  | listExpiredCb now x =>
    obtain ⟨m', hrun, hyields⟩ := h.listExpiredCb now x
    exact ⟨m', by rw [exec, hrun]; rfl, hyields⟩
  | release a => exact ⟨_, rfl, h.release hop⟩

theorem step_eq {e : Op C × Result C} {m' : TimerManager C} (h : Inv m) (hstep : Step m e m') :
    e.2 = e.1.result m ∧ e.1.Yields m m' := by
  obtain ⟨m'', hrun, hyields⟩ := h.exec_eq hstep.1
  obtain ⟨hresult, rfl⟩ := Prod.mk.inj (Option.some.inj (hstep.2.symm.trans hrun))
  exact ⟨hresult, hyields⟩

theorem of_step {e : Op C × Result C} {m' : TimerManager C} (h : Inv m) (hstep : Step m e m') :
    Inv m' := (h.step_eq hstep).2.inv

theorem of_run {start : UInt64} {es : List (Op C × Result C)}
    (hrun : Run Step (TimerManager.new start) es m) : Inv m :=
  hrun.invariant (fun _ _ _ hs hstep => hs.of_step hstep) (InvExcept.new start)

end InvExcept

def Op.Filled : Op C → Prop
  | .addTimer _ _ _ cb _ => cb.isSome
  | _ => True

def Full (m : TimerManager C) : Prop := ∀ a ∈ m.timers, (cbOf m.heap a).isSome

theorem restarted_cb (ms start : UInt64) (t : Timer C) : (restarted ms start t).cb = t.cb := by
  rw [restarted]
  split_ifs <;> rfl

theorem cbOf_update {heap : Addr → Option (Timer C)} {f : Timer C → Timer C}
    (hf : ∀ t, (f t).cb = t.cb) (a b : Addr) :
    cbOf (Function.update heap a ((heap a).map f)) b = cbOf heap b := by
  by_cases hb : b = a
  · subst hb
    rw [cbOf, cbOf, Function.update_self, Option.bind_map]
    exact Option.bind_congr fun t _ => hf t
  · rw [cbOf, cbOf, Function.update_of_ne hb]

theorem cbOf_update_of_ne {heap : Addr → Option (Timer C)} {a b : Addr} (u : Option (Timer C))
    (h : b ≠ a) : cbOf (Function.update heap a u) b = cbOf heap b := by
  rw [cbOf, cbOf, Function.update_of_ne h]

theorem Full.step {m m' : TimerManager C} {op : Op C} (h : m.Full) (hop : op.Enabled m)
    (hfilled : op.Filled) (hyields : op.Yields m m') : m'.Full := by
  intro b hb
  rw [hyields.mem_iff] at hb
  rw [hyields.heap_eq]
  cases op with
  | addTimer a now ms cb recurring =>
    by_cases hba : b = a
    · subst hba
      rw [Op.effect, cbOf, Function.update_self]
      exact hfilled
    · rw [Op.effect, cbOf_update_of_ne _ hba]
      exact h b (hb.resolve_left hba)
  | cancel a =>
    obtain ⟨hb, hkeep⟩ := hb
    have hba : b ≠ a := by
      rintro rfl
      exact hkeep ⟨rfl, h b hb⟩
    rw [Op.effect, cbOf_update_of_ne _ hba]
    exact h b hb
  | refresh a now =>
    rw [Op.effect, cbOf_update fun t => restarted_cb _ _ t]
    exact h b hb
  | reset a ms from_now now =>
    rw [Op.effect, cbOf_update fun t => restarted_cb _ _ t]
    exact h b hb
  | listExpiredCb now x =>
    obtain ⟨hb, hkeep⟩ := hb
    have hcb := h b hb
    simp only [Op.effect, cbOf] at hcb ⊢
    split_ifs with hin
    · have hrec := hkeep hin
      cases ht : m.heap b with
      | none => simp [ht] at hcb
      | some t =>
        rw [recurs, ht, Option.any_some] at hrec
        rw [ht, Option.bind_some] at hcb
        rw [Option.map_some, Option.bind_some, fired, if_pos hrec]
        exact hcb
    · exact hcb
  | release a =>
    have hba : b ≠ a := by
      rintro rfl
      exact hop hb
    rw [Op.effect, cbOf_update_of_ne _ hba]
    exact h b hb

theorem full_of_run {start : UInt64} {es : List (Op C × Result C)} {m : TimerManager C}
    (hrun : Run Step (new start) es m) (hcb : ∀ e ∈ es, e.1.Filled) : m.Full := by
  have hfull : (∀ e ∈ es, e.1.Filled) → Inv m ∧ m.Full := by
    clear hcb
    refine hrun.history (P := fun ds s => (∀ e ∈ ds, e.1.Filled) → Inv s ∧ s.Full) ?_ ?_
    · intro ds s e t hs hstep hall
      obtain ⟨hinv, hfull⟩ := hs fun d hd => hall d (by simp [hd])
      have hyields := (hinv.step_eq hstep).2
      exact ⟨hyields.inv, hfull.step hstep.1 (hall e (by simp)) hyields⟩
    · exact fun _ => ⟨InvExcept.new start, by simp [Full, new]⟩
  exact (hfull hcb).2

theorem Op.Yields.armed {m m' : TimerManager C} {op : Op C} (h : op.Yields m m') {b : Addr} {cb : C}
    (hb : b ∈ m'.timers) (hcb : cbOf m'.heap b = some cb) :
    (b ∈ m.timers ∧ cbOf m.heap b = some cb) ∨
      ∃ now ms recurring, op = .addTimer b now ms (some cb) recurring := by
  rw [h.mem_iff] at hb
  rw [h.heap_eq] at hcb
  cases op with
  | addTimer a now ms cb' recurring =>
    by_cases hba : b = a
    · subst hba
      simp only [Op.effect, cbOf, Function.update_self, Option.bind_some] at hcb
      exact .inr ⟨now, ms, recurring, by rw [hcb]⟩
    · rw [Op.effect, cbOf_update_of_ne _ hba] at hcb
      exact .inl ⟨hb.resolve_left hba, hcb⟩
  | cancel a =>
    have hba : b ≠ a := by
      rintro rfl
      simp [Op.effect, cbOf, Option.bind_map] at hcb
    rw [Op.effect, cbOf_update_of_ne _ hba] at hcb
    exact .inl ⟨hb.1, hcb⟩
  | refresh a now =>
    rw [Op.effect, cbOf_update fun t => restarted_cb _ _ t] at hcb
    exact .inl ⟨hb, hcb⟩
  | reset a ms from_now now =>
    rw [Op.effect, cbOf_update fun t => restarted_cb _ _ t] at hcb
    exact .inl ⟨hb, hcb⟩
  | listExpiredCb now x =>
    refine .inl ⟨hb.1, ?_⟩
    simp only [Op.effect, cbOf] at hcb ⊢
    split_ifs at hcb with hin
    · obtain ⟨t, ht, htcb⟩ := Option.bind_eq_some_iff.mp hcb
      obtain ⟨u, hu, rfl⟩ := Option.map_eq_some_iff.mp ht
      rw [hu, Option.bind_some, ← htcb, fired]
      split_ifs with hrec
      · rfl
      · simp [fired, hrec] at htcb
    · exact hcb
  | release a =>
    have hba : b ≠ a := by
      rintro rfl
      simp [Op.effect, cbOf] at hcb
    rw [Op.effect, cbOf_update_of_ne _ hba] at hcb
    exact .inl ⟨hb, hcb⟩

theorem Op.Yields.live {m m' : TimerManager C} {op : Op C} (h : op.Yields m m') {b : Addr}
    (hb : (m.heap b).isSome) (hop : op ≠ .release b) : (m'.heap b).isSome := by
  rw [h.heap_eq]
  have hupdate : ∀ (a : Addr) (f : Timer C → Timer C),
      (Function.update m.heap a ((m.heap a).map f) b).isSome := by
    intro a f
    by_cases hba : b = a
    · subst hba
      simpa using hb
    · simpa [Function.update_of_ne hba] using hb
  cases op with
  | addTimer a now ms cb recurring =>
    by_cases hba : b = a
    · simp [Op.effect, hba]
    · simpa [Op.effect, Function.update_of_ne hba] using hb
  | cancel a => exact hupdate a _
  | refresh a now => exact hupdate a _
  | reset a ms from_now now => exact hupdate a _
  | listExpiredCb now x =>
    simp only [Op.effect]
    split_ifs
    · simpa using hb
    · exact hb
  | release a =>
    have hba : b ≠ a := by
      rintro rfl
      exact hop rfl
    simpa [Op.effect, Function.update_of_ne hba] using hb

theorem Op.Yields.stays {m m' : TimerManager C} {op : Op C} (h : op.Yields m m')
    (hop : op.Enabled m) {b : Addr} {cb : C} (hb : b ∈ m.timers) (hcb : cbOf m.heap b = some cb)
    (hcancel : op ≠ .cancel b)
    (hexpired : ∀ now x, op = .listExpiredCb now x → b ∉ m.expired now x) :
    b ∈ m'.timers ∧ cbOf m'.heap b = some cb := by
  rw [h.mem_iff, h.heap_eq]
  cases op with
  | addTimer a now ms cb' recurring =>
    have hba : b ≠ a := by
      rintro rfl
      rw [cbOf, show m.heap b = none from hop] at hcb
      cases hcb
    rw [Op.effect, cbOf_update_of_ne _ hba]
    exact ⟨.inr hb, hcb⟩
  | cancel a =>
    have hba : b ≠ a := by
      rintro rfl
      exact hcancel rfl
    rw [Op.effect, cbOf_update_of_ne _ hba]
    exact ⟨⟨hb, fun heq => hba heq.1⟩, hcb⟩
  | refresh a now =>
    rw [Op.effect, cbOf_update fun t => restarted_cb _ _ t]
    exact ⟨hb, hcb⟩
  | reset a ms from_now now =>
    rw [Op.effect, cbOf_update fun t => restarted_cb _ _ t]
    exact ⟨hb, hcb⟩
  | listExpiredCb now x =>
    have hout := hexpired now x rfl
    refine ⟨⟨hb, fun hin => absurd hin hout⟩, ?_⟩
    simp only [Op.effect, cbOf, if_neg hout]
    exact hcb
  | release a =>
    have hba : b ≠ a := by
      rintro rfl
      exact hop hb
    rw [Op.effect, cbOf_update_of_ne _ hba]
    exact ⟨hb, hcb⟩

theorem recurs_update {heap : Addr → Option (Timer C)} {f : Timer C → Timer C}
    (hf : ∀ t, (f t).recurring = t.recurring) (a b : Addr) :
    recurs (Function.update heap a ((heap a).map f)) b = recurs heap b := by
  by_cases hb : b = a
  · subst hb
    rw [recurs, recurs, Function.update_self, Option.any_map]
    congr 1
    exact funext hf
  · rw [recurs, recurs, Function.update_of_ne hb]

theorem restarted_recurring (ms start : UInt64) (t : Timer C) :
    (restarted ms start t).recurring = t.recurring := by
  rw [restarted]
  split_ifs <;> rfl

theorem fired_recurring (now : UInt64) (t : Timer C) : (fired now t).recurring = t.recurring := by
  rw [fired]
  split_ifs <;> rfl

theorem Op.Yields.recurs_eq {m m' : TimerManager C} {op : Op C} (h : op.Yields m m')
    (hop : op.Enabled m) {b : Addr} {cb : C} (hb : b ∈ m.timers) (hcb : cbOf m.heap b = some cb) :
    recurs m'.heap b = recurs m.heap b := by
  rw [h.heap_eq]
  cases op with
  | addTimer a now ms cb' recurring =>
    have hba : b ≠ a := by
      rintro rfl
      rw [cbOf, show m.heap b = none from hop] at hcb
      cases hcb
    rw [Op.effect, recurs, recurs, Function.update_of_ne hba]
  | cancel a =>
    rw [Op.effect]
    exact recurs_update (fun _ => by rfl) a b
  | refresh a now => exact recurs_update (fun t => restarted_recurring _ _ t) a b
  | reset a ms from_now now => exact recurs_update (fun t => restarted_recurring _ _ t) a b
  | listExpiredCb now x =>
    simp only [Op.effect, recurs]
    split_ifs
    · rw [Option.any_map]
      congr 1
      exact funext (fired_recurring now)
    · rfl
  | release a =>
    have hba : b ≠ a := by
      rintro rfl
      exact hop hb
    rw [Op.effect, recurs, recurs, Function.update_of_ne hba]

theorem Op.Yields.finite {m m' : TimerManager C} {op : Op C} (h : op.Yields m m')
    (hfinite : {a | m.heap a ≠ none}.Finite) : {a | m'.heap a ≠ none}.Finite := by
  rw [h.heap_eq]
  have hupdate : ∀ (a : Addr) (u : Option (Timer C)),
      {b | Function.update m.heap a u b ≠ none}.Finite := by
    intro a u
    refine (hfinite.insert a).subset fun b hb => ?_
    by_cases hba : b = a
    · exact .inl hba
    · exact .inr fun hnone => hb ((Function.update_of_ne hba u m.heap).trans hnone)
  cases op with
  | addTimer a now ms cb recurring => exact hupdate a _
  | cancel a => exact hupdate a _
  | refresh a now => exact hupdate a _
  | reset a ms from_now now => exact hupdate a _
  | listExpiredCb now x =>
    refine hfinite.subset fun b hb hnone => hb ?_
    simp only [Op.effect, hnone, Option.map_none, ite_self]
  | release a => exact hupdate a _

/-- In every reachable state the set holds the armed timers, once each and in the order of their
current `(m_next, address)`; the search for an armed timer finds it, and no call erases or
dereferences the end of the set. -/
theorem timer_set_invariant (start : UInt64) (es : List (Op C × Result C)) (m : TimerManager C)
    (hrun : Run Step (new start) es m) (hcb : ∀ e ∈ es, e.1.Filled) :
    (∀ a t, m.heap a = some t → (a ∈ m.timers ↔ t.cb.isSome)) ∧
    (∀ a ∈ m.timers, (m.heap a).isSome) ∧ m.timers.Nodup ∧
    m.timers.Pairwise (fun a b => nextOf m.heap a < nextOf m.heap b ∨
      nextOf m.heap a = nextOf m.heap b ∧ a < b) ∧
    (∀ a t, m.heap a = some t → t.cb.isSome → m.find a = some a) ∧
    ∀ op : Op C, op.Enabled m → ∃ r m', exec m op = some (r, m') := by
  have h : Inv m := InvExcept.of_run hrun
  refine ⟨?_, ?_, h.sorted.nodup, ?_, ?_, ?_⟩
  · intro a t ht
    refine ⟨fun ha => ?_, h.mem_of_cb ht⟩
    rw [← InvExcept.cbOf_eq ht]
    exact full_of_run hrun hcb a ha
  · intro a ha
    obtain ⟨t, ht⟩ := h.live a ha
    simp [ht]
  · refine h.sorted.imp fun hlt => ?_
    simpa only [key, Prod.Lex.toLex_lt_toLex, ← UInt64.lt_iff_toNat_lt, UInt64.toNat_inj] using hlt
  · intro a t ht hcb
    exact h.find_eq (h.mem_of_cb ht hcb)
  · intro op hop
    obtain ⟨m', hexec, -⟩ := h.exec_eq hop
    exact ⟨_, m', hexec⟩

theorem timer_set_invariant_expired :
    ∃ m : TimerManager ℕ, Run Step (new 0)
        [(.addTimer 10 5 3 (some 100) true, .done), (.addTimer 4 5 3 (some 200) false, .done),
          (.listExpiredCb 8 99, .cbs [some 200, some 100])] m ∧
      m.timers = [10] ∧ (∀ t, m.heap 4 = some t → (4 ∈ m.timers ↔ t.cb.isSome)) ∧
      ∃ r m', exec m (.cancel 10) = some (r, m') := by
  have hrun : ∃ m : TimerManager ℕ, Run Step (new 0)
      [(.addTimer 10 5 3 (some 100) true, .done), (.addTimer 4 5 3 (some 200) false, .done),
        (.listExpiredCb 8 99, .cbs [some 200, some 100])] m ∧ m.timers = [10] ∧
      (m.heap 10).isSome :=
    ⟨_, .cons ⟨rfl, rfl⟩ (.cons ⟨rfl, rfl⟩ (.cons ⟨rfl, rfl⟩ (.nil _))), rfl, rfl⟩
  obtain ⟨m, hrun, htimers, hlive⟩ := hrun
  obtain ⟨hiff, -, -, -, -, hexec⟩ := timer_set_invariant 0 _ m hrun (by simp [Op.Filled])
  exact ⟨m, hrun, htimers, fun t ht => hiff 4 t ht, hexec (.cancel 10) hlive⟩

end ApexStorm.TimerManager
