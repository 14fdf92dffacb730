import ApexStorm.Timer.Front

/-!
# Which timers an expiry takes

The cut of the set is found with a temporary timer that is due now. Its address takes
part in the comparison, so timers that are due at the same time may stand on either side
of it; the scan that follows picks up those behind. Only `addTimer` puts a timer into the
set that was not in it, so a timer that has fired once or was cancelled stays out.
-/

namespace ApexStorm.TimerManager
open Lib

variable {C : Type} {m m' : TimerManager C} {a x : Addr} {now : UInt64}

theorem key_temporary (heap : Addr → Option (Timer C)) (now : UInt64) (x : Addr) :
    key (Function.update heap x (some (Timer.ofNext now))) x = toLex (now.toNat, x) := by
  simp only [key, nextOf, Function.update_self, Timer.ofNext]

theorem key_lt_toLex {heap : Addr → Option (Timer C)} {n : ℕ} :
    key heap a < toLex (n, x) ↔
      (nextOf heap a).toNat < n ∨ (nextOf heap a).toNat = n ∧ a < x := by
  rw [key, Prod.Lex.toLex_lt_toLex]

theorem toLex_lt_key {heap : Addr → Option (Timer C)} {n : ℕ} :
    toLex (n, x) < key heap a ↔
      n < (nextOf heap a).toNat ∨ n = (nextOf heap a).toNat ∧ x < a := by
  rw [key, Prod.Lex.toLex_lt_toLex]

theorem nextOf_le_of_key_lt {heap : Addr → Option (Timer C)} {b : Addr}
    (h : key heap a < key heap b) : (nextOf heap a).toNat ≤ (nextOf heap b).toNat := by
  rw [key, key, Prod.Lex.toLex_lt_toLex] at h
  omega

theorem scan_eq {heap : Addr → Option (Timer C)} {l : List Addr}
    (hsorted : SortedSet.Sorted (key heap) l)
    (hge : ∀ b ∈ l, now.toNat ≤ (nextOf heap b).toNat) :
    l.takeWhile (nextOf heap · == now) = l.filter fun a => nextOf heap a ≤ now := by
  rw [SortedSet.takeWhile_eq_filter]
  · refine List.filter_congr fun b hb => ?_
    have hle := hge b hb
    rw [Bool.eq_iff_iff, beq_iff_eq, decide_eq_true_iff, UInt64.le_iff_toNat_le,
      ← UInt64.toNat_inj]
    omega
  · refine hsorted.imp_of_mem fun {b c} hb hc hlt => ?_
    have hle := nextOf_le_of_key_lt hlt
    have hle' := hge b hb
    simp only [beq_iff_eq, ← UInt64.toNat_inj]
    omega

namespace InvExcept

theorem splitDue_eq (h : Inv m) (hx : m.heap x = none) (now : UInt64) :
    (m.splitDue now x).1 = m.timers.filter fun a => nextOf m.heap a ≤ now := by
  have hne : ∀ b ∈ m.timers, b ≠ x := by
    rintro b hb rfl
    obtain ⟨t, ht⟩ := h.live b hb
    rw [hx] at ht
    cases ht
  set heap := Function.update m.heap x (some (Timer.ofNext now)) with hheap
  have hkey : ∀ b ∈ m.timers, key heap b = key m.heap b := fun b hb => key_update _ (hne b hb)
  have hsorted : SortedSet.Sorted (key heap) m.timers := h.sorted.congr hkey
  obtain ⟨hfront, hback⟩ := SortedSet.split_of_ne (less_iff heap) hsorted
    fun b hb => key_ne (hne b hb)
  have hsplit := List.takeWhile_append_dropWhile (p := (less heap · x)) (l := m.timers)
  have hmem : ∀ b, b ∈ m.timers.takeWhile (less heap · x) ∨ b ∈ m.timers.dropWhile (less heap · x) →
      b ∈ m.timers := by
    intro b hb
    rw [← hsplit]
    exact List.mem_append.mpr hb
  have hbefore : ∀ b ∈ m.timers.takeWhile (less heap · x), nextOf m.heap b ≤ now := by
    intro b hb
    have hlt := hfront b hb
    rw [hkey b (hmem b (.inl hb)), hheap, key_temporary, key_lt_toLex] at hlt
    rw [UInt64.le_iff_toNat_le]
    omega
  have hbehind : ∀ b ∈ m.timers.dropWhile (less heap · x),
      now.toNat ≤ (nextOf m.heap b).toNat := by
    intro b hb
    have hlt := hback b hb
    rw [hkey b (hmem b (.inr hb)), hheap, key_temporary, toLex_lt_key] at hlt
    omega
  have hscan := scan_eq (h.sorted.sublist (List.dropWhile_sublist (less heap · x))) hbehind
  have hall : (m.timers.takeWhile (less heap · x)).filter (fun a => nextOf m.heap a ≤ now) =
      m.timers.takeWhile (less heap · x) :=
    List.filter_eq_self.mpr fun b hb => decide_eq_true (hbefore b hb)
  conv_rhs => rw [← hsplit, List.filter_append, hall]
  rw [splitDue, ← hheap, hscan]

theorem expired_eq (h : Inv m) (hx : m.heap x = none)
    (hroll : (m.detectClockRollover now).1 = false) :
    m.expired now x = m.timers.filter fun a => nextOf m.heap a ≤ now := by
  cases htimers : m.timers with
  | nil => rw [expired, htimers, List.filter_nil]
  | cons first rest =>
    rw [expired, htimers, hroll]
    by_cases hlate : nextOf m.heap first > now
    · simp only [hlate, and_self, if_true]
      rw [eq_comm, List.filter_eq_nil_iff, ← htimers]
      intro b hb hdue
      have hle := nextOf_le_of_head h htimers hb
      rw [decide_eq_true_iff] at hdue
      exact absurd (UInt64.le_trans hle hdue) (UInt64.not_le.mpr hlate)
    · simp only [hlate, and_false, if_false, Bool.false_eq_true]
      rw [h.splitDue_eq hx now, htimers]

theorem mem_expired (h : Inv m) (hx : m.heap x = none) (ha : a ∈ m.timers)
    (hdue : nextOf m.heap a ≤ now) : a ∈ m.expired now x := by
  by_cases hroll : (m.detectClockRollover now).1 = false
  · rw [h.expired_eq hx hroll, List.mem_filter]
    exact ⟨ha, decide_eq_true hdue⟩
  · rw [expired]
    split
    next hnil =>
      rw [hnil] at ha
      cases ha
    next first rest htimers =>
      rw [if_neg fun hand => hroll hand.1, if_pos (Bool.not_eq_false _ ▸ hroll)]
      exact ha

theorem expired_sublist (m : TimerManager C) (now : UInt64) (x : Addr) :
    List.Sublist (m.expired now x) m.timers := by
  rw [expired]
  cases htimers : m.timers with
  | nil => exact List.Sublist.refl _
  | cons first rest =>
    dsimp only
    rw [← htimers]
    split_ifs
    · exact List.nil_sublist _
    · exact List.Sublist.refl _
    · conv_rhs => rw [← splitDue_append m now x]
      exact List.sublist_append_left _ _

end InvExcept

structure Expires (m : TimerManager C) (now : UInt64) (cbs : List (Option C))
    (m' : TimerManager C) (due : List Addr) : Prop where
  cbs_eq : cbs = due.map (cbOf m.heap)
  mem_iff : ∀ a, a ∈ due ↔ a ∈ m.timers ∧ nextOf m.heap a ≤ now
  nodup : due.Nodup
  ordered : due.Pairwise fun a b => nextOf m.heap a ≤ nextOf m.heap b
  once : ∀ a ∈ due, ∀ t, m.heap a = some t → t.recurring = false →
    a ∉ m'.timers ∧ m'.heap a = some { t with cb := none }
  again : ∀ a ∈ due, ∀ t, m.heap a = some t → t.recurring = true →
    a ∈ m'.timers ∧ m'.heap a = some { t with next := now + t.ms }
  others : ∀ a, a ∉ due → m'.heap a = m.heap a ∧ (a ∈ m'.timers ↔ a ∈ m.timers)

theorem InvExcept.expires (h : Inv m) (hx : m.heap x = none)
    (hroll : (m.detectClockRollover now).1 = false) :
    ∃ m', m.listExpiredCb now x = some ((m.expired now x).map (cbOf m.heap), m') ∧
      m.Expires now ((m.expired now x).map (cbOf m.heap)) m' (m.expired now x) := by
  obtain ⟨m', hrun, hyields⟩ := h.listExpiredCb now x
  have heq := h.expired_eq hx hroll
  have hmem : ∀ a, a ∈ m'.timers ↔ a ∈ m.timers ∧ (a ∈ m.expired now x → recurs m.heap a) :=
    hyields.mem_iff
  have hfired : ∀ a ∈ m.expired now x, m'.heap a = (m.heap a).map (fired now) := by
    intro a ha
    rw [hyields.heap_eq]
    exact if_pos ha
  refine ⟨m', hrun, rfl, ?_, ?_, ?_, ?_, ?_, ?_⟩
  · intro a
    rw [heq, List.mem_filter, decide_eq_true_iff]
  · rw [heq]
    exact h.sorted.nodup.filter _
  · rw [heq]
    refine (List.Pairwise.filter _ h.sorted).imp fun hlt => ?_
    exact UInt64.le_iff_toNat_le.mpr (nextOf_le_of_key_lt hlt)
  · intro a ha t ht hrec
    rw [hmem, hfired a ha, recurs, ht, Option.map_some, Option.any_some, fired, hrec]
    exact ⟨fun hin => Bool.false_ne_true (hin.2 ha), rfl⟩
  · intro a ha t ht hrec
    rw [hmem, hfired a ha, recurs, ht, Option.map_some, Option.any_some, fired, hrec]
    exact ⟨⟨(InvExcept.expired_sublist m now x).mem ha, fun _ => rfl⟩, rfl⟩
  · intro a ha
    rw [hmem, hyields.heap_eq]
    exact ⟨if_neg ha, and_iff_left fun hin => absurd hin ha⟩

def Op.adds (a : Addr) : Op C → Prop
  | .addTimer b _ _ _ _ => b = a
  | _ => False

/-- The call lists the one-shot timer at `a`, or cancels the timer there. -/
def Retires (m : TimerManager C) (a : Addr) (e : Op C × Result C) : Prop :=
  e = (.cancel a, .flag true) ∨
    ∃ now x, e.1 = .listExpiredCb now x ∧ a ∈ m.expired now x ∧ recurs m.heap a = false

theorem Op.Yields.not_mem {op : Op C} (hyields : op.Yields m m') (ha : a ∉ m.timers)
    (hadds : ¬ op.adds a) : a ∉ m'.timers := by
  rw [hyields.mem_iff]
  intro hin
  cases op with
  | addTimer b now ms cb recurring =>
    rcases hin with rfl | hin
    · exact hadds rfl
    · exact ha hin
  | cancel b => exact ha hin.1
  | listExpiredCb now x => exact ha hin.1
  | refresh b now => exact ha hin
  | reset b ms from_now now => exact ha hin
  | release b => exact ha hin

theorem Retires.not_mem {e : Op C × Result C} (h : Inv m) (hretires : m.Retires a e)
    (hstep : Step m e m') : a ∉ m'.timers := by
  obtain ⟨hresult, hyields⟩ := h.step_eq hstep
  rw [hyields.mem_iff]
  rcases hretires with rfl | ⟨now, x, hop, ha, hrec⟩
  · intro hin
    have hcb := Result.flag.inj hresult
    exact hin.2 ⟨rfl, hcb.symm⟩
  · rw [hop]
    intro hin
    exact Bool.false_ne_true (hrec.symm.trans (hin.2 ha))

theorem not_mem_of_run {es : List (Op C × Result C)} (h : Inv m) (ha : a ∉ m.timers)
    (hrun : Run Step m es m') (hadds : ∀ e ∈ es, ¬ e.1.adds a) : a ∉ m'.timers := by
  induction hrun with
  | nil m => exact ha
  | cons hstep _ ih =>
    obtain ⟨-, hyields⟩ := h.step_eq hstep
    exact ih hyields.inv (hyields.not_mem ha (hadds _ (by simp))) fun e he => hadds e (by simp [he])

/-- In every reachable state an expiry without a rollover of the clock takes exactly the timers
that are due. Whatever the clock does, a call lists the callbacks of the timers it takes, and a
one-shot timer that was listed, or a timer that was cancelled, is not taken again before another
timer is put at its address. -/
theorem expiry_exact (start : UInt64) (es : List (Op C × Result C)) (m : TimerManager C)
    (hrun : Run Step (new start) es m) :
    (∀ now x, m.heap x = none → (m.detectClockRollover now).1 = false →
      ∃ cbs m' due, m.listExpiredCb now x = some (cbs, m') ∧ m.Expires now cbs m' due) ∧
    (∀ now x r m', Step m (.listExpiredCb now x, r) m' →
      r = .cbs ((m.expired now x).map (cbOf m.heap)) ∧ (m.expired now x).Nodup) ∧
    ∀ a e m₁ es' m₂, Step m e m₁ → m.Retires a e → Run Step m₁ es' m₂ →
      (∀ e' ∈ es', ¬ e'.1.adds a) → ∀ now x, a ∉ m₂.expired now x := by
  have h := InvExcept.of_run hrun
  refine ⟨?_, ?_, ?_⟩
  · intro now x hx hroll
    obtain ⟨m', hlist, hexpires⟩ := h.expires hx hroll
    exact ⟨_, m', _, hlist, hexpires⟩
  · intro now x r m' hstep
    exact ⟨(h.step_eq hstep).1, h.sorted.nodup.sublist (InvExcept.expired_sublist m now x)⟩
  · intro a e m₁ es' m₂ hstep hretires hrun' hadds now x hin
    exact not_mem_of_run (h.of_step hstep) (hretires.not_mem h hstep) hrun' hadds
      ((InvExcept.expired_sublist m₂ now x).mem hin)

theorem expiry_exact_tie :
    ∃ m : TimerManager ℕ, Run Step (new 0) [(.addTimer 10 5 3 (some 100) true, .done),
        (.addTimer 4 5 3 (some 200) false, .done), (.addTimer 2 5 4 none false, .done)] m ∧
      (∃ cbs m' due, m.listExpiredCb 8 7 = some (cbs, m') ∧ m.Expires 8 cbs m' due) ∧
      ∀ m' es m₂, Step m (.cancel 4, .flag true) m' → Run Step m' es m₂ →
        (∀ e ∈ es, ¬ e.1.adds 4) → 4 ∉ m₂.expired 8 7 := by
  have hrun : ∃ m : TimerManager ℕ, Run Step (new 0) [(.addTimer 10 5 3 (some 100) true, .done),
      (.addTimer 4 5 3 (some 200) false, .done), (.addTimer 2 5 4 none false, .done)] m ∧
      m.heap 7 = none ∧ (m.detectClockRollover 8).1 = false :=
    ⟨_, .cons ⟨rfl, rfl⟩ (.cons ⟨rfl, rfl⟩ (.cons ⟨rfl, rfl⟩ (.nil _))), rfl, rfl⟩
  obtain ⟨m, hrun, hfree, hroll⟩ := hrun
  obtain ⟨hdue, -, hretired⟩ := expiry_exact 0 _ m hrun
  exact ⟨m, hrun, hdue 8 7 hfree hroll, fun m' es m₂ hstep hrun' hadds =>
    hretired 4 _ m' es m₂ hstep (.inl rfl) hrun' hadds 8 7⟩

end ApexStorm.TimerManager
