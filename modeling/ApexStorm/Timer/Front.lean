import ApexStorm.Timer.SetInvariant

/-!
# What a change of the timer set tells the workers

A call of another thread leaves the earliest timer no earlier, or finds `m_tickled`
set, or sets it and reports the insertion at the front. For `refresh`, which never
reports, this rests on the clock: a timer was started no later than now, so it is
put no earlier.
-/

namespace ApexStorm.TimerManager
open Lib

variable {C : Type} {m m' : TimerManager C} {a : Addr} {t : Timer C}

def getNextTimer (m : TimerManager C) (now : UInt64) : Option (UInt64 × TimerManager C) :=
  let m := { m with tickled := false }
  match m.timers with
  | [] => some (~~~0, m)
  | first :: _ => do
    let next ← m.heap first
    return (if now ≥ next.next then 0 else next.next - now, m)

inductive Notice (m m' : TimerManager C) : Prop
  | later (hnext : ∀ b ∈ m'.timers, ∃ c ∈ m.timers, nextOf m.heap c ≤ nextOf m'.heap b)
      (htickled : m'.tickled = m.tickled) (hcalls : m'.atFrontCalls = m.atFrontCalls)
  | hushed (hold : m.tickled = true) (htickled : m'.tickled = true)
      (hcalls : m'.atFrontCalls = m.atFrontCalls)
  | reported (htickled : m'.tickled = true) (hcalls : m'.atFrontCalls = m.atFrontCalls + 1)

theorem nextOf_store_of_ne (m : TimerManager C) (t : Timer C) {b : Addr} (h : b ≠ a) :
    nextOf (m.store a t).heap b = nextOf m.heap b := by
  rw [nextOf, nextOf, m.store_heap_of_ne t h]

theorem nextOf_le_of_head (h : Inv m) {rest : List Addr} (htimers : m.timers = a :: rest) {b : Addr}
    (hb : b ∈ m.timers) : nextOf m.heap a ≤ nextOf m.heap b := by
  rw [htimers] at hb
  rcases List.mem_cons.mp hb with rfl | hb
  · exact UInt64.le_refl _
  · have hsorted := h.sorted
    rw [htimers] at hsorted
    have hlt := (List.pairwise_cons.mp hsorted).1 b hb
    rw [key, key, Prod.Lex.toLex_lt_toLex] at hlt
    rw [UInt64.le_iff_toNat_le]
    omega

theorem notice_addTimerLocked {m₀ : TimerManager C} (h : InvExcept [a] m)
    (hsub : ∀ b ∈ m.timers, b ∈ m₀.timers ∧ nextOf m.heap b = nextOf m₀.heap b)
    (htickled : m.tickled = m₀.tickled) (hcalls : m.atFrontCalls = m₀.atFrontCalls) :
    Notice m₀ ((m.store a t).addTimerLocked a) := by
  have hinv : Inv ((m.store a t).insert a) := h.put (by simp)
  rw [addTimerLocked]
  split_ifs with hfront
  · exact .reported rfl (by simp [insert, store, hcalls])
  · have hold : m.tickled = true ∨ ((m.store a t).insert a).timers.head? ≠ some a := by
      by_contra hnot
      rw [not_or, not_not] at hnot
      have hsame : ((m.store a t).insert a).tickled = m.tickled := rfl
      exact hfront (by simp [hnot.2, hsame, hnot.1])
    rcases hold with hold | hhead
    · exact .hushed (htickled ▸ hold) hold hcalls
    · refine .later ?_ htickled hcalls
      intro b hb
      cases htimers : ((m.store a t).insert a).timers with
      | nil => simp [htimers] at hb
      | cons c rest =>
        have hca : c ≠ a := by simpa [htimers] using hhead
        have hc : c ∈ m.timers := ((h.mem_put t c).mp (by simp [htimers])).resolve_left hca
        refine ⟨c, (hsub c hc).1, ?_⟩
        rw [← (hsub c hc).2, ← nextOf_store_of_ne m t hca]
        exact nextOf_le_of_head hinv htimers hb

theorem notice_addTimer (h : Inv m) (ha : m.heap a = none) (now ms : UInt64)
    (cb : Option C) (recurring : Bool) : Notice m (m.addTimer a now ms cb recurring) :=
  notice_addTimerLocked (h.out_of_dead ha) (fun _ hb => ⟨hb, rfl⟩) rfl rfl

theorem notice_reset (h : Inv m) (ht : m.heap a = some t) {ms now : UInt64} {from_now b : Bool}
    (hreset : m.reset a ms from_now now = some (b, m')) : Notice m m' := by
  have hkeep : Notice m m := .later (fun b hb => ⟨b, hb, UInt64.le_refl _⟩) rfl rfl
  simp only [reset, ht, Option.bind_eq_bind, Option.bind_some] at hreset
  by_cases hsame : ms = t.ms ∧ from_now = false
  · rw [if_pos hsame] at hreset
    cases hreset
    exact hkeep
  · rw [if_neg hsame] at hreset
    cases hcb : t.cb with
    | none =>
      simp only [hcb] at hreset
      cases hreset
      exact hkeep
    | some c =>
      have ha : a ∈ m.timers := h.mem_of_cb ht (by simp [hcb])
      simp only [hcb, h.find_eq ha, Option.bind_some] at hreset
      cases hreset
      exact notice_addTimerLocked (h.take ha)
        (fun b hb => ⟨((h.mem_erase ha b).mp hb).2, rfl⟩) rfl rfl

theorem notice_cancel (h : Inv m) (ht : m.heap a = some t) {b : Bool}
    (hcancel : m.cancel a = some (b, m')) : Notice m m' := by
  simp only [cancel, ht, Option.bind_eq_bind, Option.bind_some] at hcancel
  cases hcb : t.cb with
  | none =>
    simp only [hcb] at hcancel
    cases hcancel
    exact .later (fun b hb => ⟨b, hb, UInt64.le_refl _⟩) rfl rfl
  | some c =>
    have ha : a ∈ m.timers := h.mem_of_cb ht (by simp [hcb])
    have hnext := InvExcept.nextOf_store ht none
    simp only [hcb, h.find_disarm ht ha, Option.bind_some] at hcancel
    cases hcancel
    refine .later (fun b hb => ?_) rfl rfl
    rw [erase, InvExcept.less_disarm ht] at hb
    refine ⟨b, ((h.mem_erase ha b).mp hb).2, ?_⟩
    simp only [erase, hnext]
    exact UInt64.le_refl _

def Begun (clock : UInt64) (heap : Addr → Option (Timer C)) : Prop :=
  ∀ a t, heap a = some t → t.cb.isSome →
    t.ms.toNat ≤ t.next.toNat ∧ t.next.toNat ≤ clock.toNat + t.ms.toNat

theorem toNat_add_of_lt {x y : UInt64} (h : x.toNat + y.toNat < 2 ^ 64) :
    (x + y).toNat = x.toNat + y.toNat := by
  rw [UInt64.toNat_add]
  exact Nat.mod_eq_of_lt h

theorem notice_refresh (h : Inv m) {now : UInt64} (hbegun : Begun now m.heap)
    (ht : m.heap a = some t) (hwrap : now.toNat + t.ms.toNat < 2 ^ 64) {b : Bool}
    (hrefresh : m.refresh a now = some (b, m')) : Notice m m' := by
  simp only [refresh, ht, Option.bind_eq_bind, Option.bind_some] at hrefresh
  cases hcb : t.cb with
  | none =>
    simp only [hcb] at hrefresh
    cases hrefresh
    exact .later (fun b hb => ⟨b, hb, UInt64.le_refl _⟩) rfl rfl
  | some c =>
    have ha : a ∈ m.timers := h.mem_of_cb ht (by simp [hcb])
    simp only [hcb, h.find_eq ha] at hrefresh
    cases hrefresh
    refine .later (fun b hb => ?_) rfl rfl
    rcases (InvExcept.mem_put (h.take ha) _ b).mp hb with rfl | hb
    · refine ⟨b, ha, ?_⟩
      have hnew := (hbegun b t ht (by simp [hcb])).2
      rw [UInt64.le_iff_toNat_le, insert, nextOf, nextOf, ht]
      simpa [toNat_add_of_lt hwrap] using hnew
    · refine ⟨b, ((h.mem_erase ha b).mp hb).2, ?_⟩
      have hba : b ≠ a := fun he => (h.take ha).out a (by simp) (he ▸ hb)
      rw [insert, nextOf_store_of_ne _ _ hba]
      exact UInt64.le_refl _

/-- The clock readings of a call and the sums it forms: `addTimer` and `listExpiredCb` read the
clock before they take the lock, `refresh` and `reset` after. -/
def Op.Timely (clock : UInt64) (m : TimerManager C) : Op C → Prop
  | .addTimer _ now ms _ _ => now ≤ clock ∧ now.toNat + ms.toNat < 2 ^ 64
  | .refresh a now =>
    now = clock ∧ ∀ t, m.heap a = some t → now.toNat + t.ms.toNat < 2 ^ 64
  | .reset _ ms _ now => now = clock ∧ now.toNat + ms.toNat < 2 ^ 64
  | .listExpiredCb now _ =>
    now ≤ clock ∧ ∀ a t, m.heap a = some t → now.toNat + t.ms.toNat < 2 ^ 64
  | .cancel _ | .release _ => True

def Op.outside : Op C → Bool
  | .listExpiredCb _ _ => false
  | _ => true

theorem notice_exec (h : Inv m) {clock : UInt64} (hbegun : Begun clock m.heap) {op : Op C}
    (hop : op.Enabled m) (htime : op.Timely clock m) (hout : op.outside = true) {r : Result C}
    (hexec : exec m op = some (r, m')) : Notice m m' := by
  cases op with
  | addTimer a now ms cb recurring =>
    cases hexec
    exact notice_addTimer h hop now ms cb recurring
  | cancel a =>
    obtain ⟨t, ht⟩ := Option.isSome_iff_exists.mp hop
    obtain ⟨⟨b, m''⟩, hcancel, heq⟩ := Option.map_eq_some_iff.mp hexec
    cases heq
    exact notice_cancel h ht hcancel
  | refresh a now =>
    obtain ⟨t, ht⟩ := Option.isSome_iff_exists.mp hop
    obtain ⟨⟨b, m''⟩, hrefresh, heq⟩ := Option.map_eq_some_iff.mp hexec
    cases heq
    exact notice_refresh h (htime.1 ▸ hbegun) ht (htime.2 t ht) hrefresh
  | reset a ms from_now now =>
    obtain ⟨t, ht⟩ := Option.isSome_iff_exists.mp hop
    obtain ⟨⟨b, m''⟩, hreset, heq⟩ := Option.map_eq_some_iff.mp hexec
    cases heq
    exact notice_reset h ht hreset
  | listExpiredCb now x => cases hout
  | release a =>
    cases hexec
    refine .later (fun b hb => ⟨b, hb, ?_⟩) rfl rfl
    have hba : b ≠ a := fun he => hop (he ▸ hb)
    have hheap : (m.release a).heap b = m.heap b := Function.update_of_ne hba _ _
    rw [nextOf, nextOf, hheap]
    exact UInt64.le_refl _

namespace Begun
variable {clock now : UInt64}

theorem mono {clock' : UInt64} {heap : Addr → Option (Timer C)} (h : Begun clock heap)
    (hle : clock ≤ clock') : Begun clock' heap := by
  intro a t ht hcb
  obtain ⟨hms, hnext⟩ := h a t ht hcb
  exact ⟨hms, hnext.trans (Nat.add_le_add_right (UInt64.le_iff_toNat_le.mp hle) _)⟩

theorem started {ms : UInt64} (hnow : now ≤ clock) (hwrap : now.toNat + ms.toNat < 2 ^ 64) :
    ms.toNat ≤ (now + ms).toNat ∧ (now + ms).toNat ≤ clock.toNat + ms.toNat := by
  have hle := UInt64.le_iff_toNat_le.mp hnow
  rw [toNat_add_of_lt hwrap]
  omega

theorem update {heap : Addr → Option (Timer C)} {x : Option (Timer C)} (h : Begun clock heap)
    (hx : ∀ t, x = some t → t.cb.isSome →
      t.ms.toNat ≤ t.next.toNat ∧ t.next.toNat ≤ clock.toNat + t.ms.toNat) :
    Begun clock (Function.update heap a x) := by
  intro b u hu hcb
  by_cases hb : b = a
  · subst hb
    rw [Function.update_self] at hu
    exact hx u hu hcb
  · rw [Function.update_of_ne hb] at hu
    exact h b u hu hcb

theorem restart {heap : Addr → Option (Timer C)} {ms start : Timer C → UInt64}
    (h : Begun clock heap) (hstart : ∀ t, heap a = some t → t.cb.isSome →
      start t ≤ clock ∧ (start t).toNat + (ms t).toNat < 2 ^ 64) :
    Begun clock (Function.update heap a ((heap a).map fun t => restarted (ms t) (start t) t)) := by
  refine h.update fun u hu hcb => ?_
  obtain ⟨t, ht, rfl⟩ := Option.map_eq_some_iff.mp hu
  rw [restarted_cb] at hcb
  rw [restarted, if_pos hcb]
  obtain ⟨hle, hwrap⟩ := hstart t ht hcb
  exact started hle hwrap

theorem yields (h : Begun clock m.heap) {op : Op C} (htime : op.Timely clock m)
    (hyields : op.Yields m m') : Begun clock m'.heap := by
  rw [hyields.heap_eq]
  cases op with
  | addTimer a now ms cb recurring =>
    refine h.update fun t ht _ => ?_
    cases ht
    exact started htime.1 htime.2
  | cancel a =>
    refine h.update fun u hu hcb => ?_
    obtain ⟨t, -, rfl⟩ := Option.map_eq_some_iff.mp hu
    cases hcb
  | refresh a now =>
    exact h.restart fun t ht _ => ⟨htime.1 ▸ UInt64.le_refl _, htime.2 t ht⟩
  | reset a ms from_now now =>
    obtain ⟨rfl, hwrap⟩ := htime
    refine h.restart fun t ht hcb => ?_
    obtain ⟨hms, hnext⟩ := h a t ht hcb
    have hstart : (if from_now then now else t.next - t.ms).toNat ≤ now.toNat := by
      split_ifs
      · exact le_rfl
      · rw [UInt64.toNat_sub_of_le _ _ (UInt64.le_iff_toNat_le.mpr hms)]
        omega
    exact ⟨UInt64.le_iff_toNat_le.mpr hstart, by omega⟩
  | listExpiredCb now x =>
    intro b u hu hcb
    simp only [Op.effect] at hu
    split_ifs at hu
    · obtain ⟨t, ht, rfl⟩ := Option.map_eq_some_iff.mp hu
      rw [fired] at hcb ⊢
      split_ifs at hcb ⊢
      · exact started htime.1 (htime.2 b t ht)
      · cases hcb
    · exact h b u hu hcb
  | release a => exact h.update fun t ht _ => by cases ht

end Begun

/-- A worker that waits for `delay` from `now` on does not oversleep the earliest timer. -/
def Covers (m : TimerManager C) (now delay : UInt64) : Prop :=
  delay = 0 ∨ ∀ a ∈ m.timers, now.toNat + delay.toNat ≤ (nextOf m.heap a).toNat

theorem Covers.later {now delay : UInt64} (h : m.Covers now delay)
    (hnext : ∀ b ∈ m'.timers, ∃ c ∈ m.timers, nextOf m.heap c ≤ nextOf m'.heap b) :
    m'.Covers now delay := by
  refine h.imp_right fun hall b hb => ?_
  obtain ⟨c, hc, hle⟩ := hnext b hb
  exact (hall c hc).trans (UInt64.le_iff_toNat_le.mp hle)

/-- A sample covers the set. It is `~0ull` for a set that is not empty only if the clock stands
at zero and the earliest timer is due at the end of time; then every earlier sample covers it. -/
theorem getNextTimer_spec (h : Inv m) (now : UInt64) :
    ∃ delay, m.getNextTimer now = some (delay, { m with tickled := false }) ∧
      (m.timers ≠ [] → m.Covers now delay ∧
        (delay = ~~~0 → now.toNat = 0 ∧ ∀ d : UInt64, m.Covers now d)) := by
  cases htimers : m.timers with
  | nil => exact ⟨~~~0, by simp [getNextTimer, htimers], by simp⟩
  | cons first rest =>
    obtain ⟨t, ht⟩ := h.live first (by simp [htimers])
    have hle : ∀ b ∈ m.timers, t.next.toNat ≤ (nextOf m.heap b).toNat := by
      intro b hb
      have hfirst : nextOf m.heap first = t.next := by rw [nextOf, ht]
      exact hfirst ▸ UInt64.le_iff_toNat_le.mp (nextOf_le_of_head h htimers hb)
    refine ⟨if now ≥ t.next then 0 else t.next - now, by simp [getNextTimer, htimers, ht], ?_⟩
    intro _
    split_ifs with hdue
    · exact ⟨.inl rfl, fun hzero => absurd hzero (by decide)⟩
    · have hlt : now.toNat < t.next.toNat := by
        rw [ge_iff_le, UInt64.le_iff_toNat_le] at hdue
        omega
      have hsub : (t.next - now).toNat = t.next.toNat - now.toNat :=
        UInt64.toNat_sub_of_le _ _ (UInt64.le_iff_toNat_le.mpr hlt.le)
      refine ⟨.inr fun b hb => ?_, fun hmax => ?_⟩
      · have := hle b hb
        omega
      · have hmax' : t.next.toNat - now.toNat = 2 ^ 64 - 1 := by
          rw [← hsub, hmax]
          rfl
        have htop := t.next.toNat_lt
        refine ⟨by omega, fun d => .inr fun b hb => ?_⟩
        have := hle b hb
        have := d.toNat_lt
        omega

end ApexStorm.TimerManager
