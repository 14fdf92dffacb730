import ApexStorm.Scheduler.Basic

/-!
# When a fiber runs on one thread at a time

A fiber belongs to a worker that has it in its hands, keeps it as callback fiber or
uses it as idle fiber. It is waiting when the queue or an event holds it. A waiting
fiber belongs to no worker, except to one that has released it: from the
registration on until that worker has done with the fiber after `swapIn`. The test
for `EXEC` protects a released fiber only up to its own state write in
`YieldToHold`; `Clean` rules out a dequeue after that write.
-/

namespace ApexStorm.Scheduler
open Lib

variable {n : ℕ}

def Point.running : Point → Bool
  | .switchIn | .user _ => true
  | _ => false

/-- The stretch between the fiber's state write and the last step of its worker. -/
def Point.leaving : Point → Bool
  | .switchOut | .decrement | .readReady | .readTerm | .readExcept | .writeHold => true
  | _ => false

def Point.released (x : State) : Point → Bool
  | .user registered => registered
  | .switchOut | .decrement | .readReady | .readTerm | .readExcept => x = .hold
  | .writeHold => true
  | _ => false

def FiberAndThread.fiber? (e : FiberAndThread) : Option FiberId :=
  match e.task with
  | .fiber f => some f
  | .cb _ => none

namespace System
variable {s t : System n} {w : Fin n} {f g : FiberId} {r : Role} {p : Point}

def waitCount (s : System n) (f : FiberId) : ℕ :=
  (s.queue.filterMap FiberAndThread.fiber?).count f + s.armed.count f

def Mine (s : System n) (w : Fin n) (f : FiberId) : Prop :=
  f = idleFiber w ∨ s.cbFiber w = some f ∨ ∃ r p, s.pc w = .inside f r p

structure Local (s : System n) (w : Fin n) : Prop where
  idle_iff : ∀ {f r p}, s.pc w = .inside f r p → (r = .idle ↔ f = idleFiber w)
  callback_iff : ∀ {f r p}, s.pc w = .inside f r p → (r = .callback ↔ s.cbFiber w = some f)
  cb_ne_idle : s.cbFiber w ≠ some (idleFiber w)
  running : ∀ {f r p}, s.pc w = .inside f r p → p.running → s.state f = .exec
  released : ∀ {f}, 0 < s.waitCount f → s.Mine w f →
    ∃ r p, s.pc w = .inside f r p ∧ r ≠ .idle ∧ p.released (s.state f)

theorem Local.of_inside {q : Point} (hself : t.pc w = .inside g r q)
    (hidle : r = .idle ↔ g = idleFiber w) (hcall : r = .callback ↔ t.cbFiber w = some g)
    (hne : t.cbFiber w ≠ some (idleFiber w)) (hrun : q.running → t.state g = .exec)
    (hrel : ∀ f, 0 < t.waitCount f → t.Mine w f → f = g ∧ r ≠ .idle ∧ q.released (t.state g)) :
    t.Local w := by
  refine ⟨?_, ?_, hne, ?_, ?_⟩
  · intro f r' p' hp'
    cases hself.symm.trans hp'
    exact hidle
  · intro f r' p' hp'
    cases hself.symm.trans hp'
    exact hcall
  · intro f r' p' hp'
    cases hself.symm.trans hp'
    exact hrun
  · intro f hf hm
    obtain ⟨rfl, hr, hrel'⟩ := hrel f hf hm
    exact ⟨r, q, hself, hr, hrel'⟩

theorem Local.of_outside (hout : ∀ f r p, t.pc w ≠ .inside f r p)
    (hne : t.cbFiber w ≠ some (idleFiber w)) (hfree : ∀ f, t.Mine w f → t.waitCount f = 0) :
    t.Local w := by
  refine ⟨?_, ?_, hne, ?_, ?_⟩
  · exact fun hp' => absurd hp' (hout _ _ _)
  · exact fun hp' => absurd hp' (hout _ _ _)
  · exact fun hp' => absurd hp' (hout _ _ _)
  · intro f hf hm
    have := hfree f hm
    omega

structure Inv (s : System n) : Prop where
  worker : ∀ w, s.Local w
  unique : ∀ {f w w'}, s.Mine w f → s.Mine w' f → w = w'
  once : ∀ f, s.waitCount f ≤ 1
  mine_lt : ∀ {f w}, s.Mine w f → f < s.fresh
  waiting_lt : ∀ {f}, 0 < s.waitCount f → f < s.fresh

namespace Inv

theorem of_moved (h : Inv s) (moved : Fin n → Prop) (hone : ∀ {w w'}, moved w → moved w' → w = w')
    (hpc : ∀ w, ¬ moved w → t.pc w = s.pc w) (hcb : ∀ w, ¬ moved w → t.cbFiber w = s.cbFiber w)
    (hfresh : s.fresh ≤ t.fresh)
    (hstate : ∀ f, t.state f ≠ s.state f → ∀ w, ¬ moved w → ¬ s.Mine w f)
    (hmine : ∀ w f, moved w → t.Mine w f → f < t.fresh ∧ ∀ w', ¬ moved w' → ¬ s.Mine w' f)
    (hwait : ∀ f, 0 < t.waitCount f →
      0 < s.waitCount f ∨ f < t.fresh ∧ ∀ w, ¬ moved w → ¬ s.Mine w f)
    (honce : ∀ f, t.waitCount f ≤ 1) (hlocal : ∀ w, moved w → t.Local w) : Inv t := by
  have hother : ∀ w, ¬ moved w → ∀ f, t.Mine w f → s.Mine w f := by
    intro w hw f hf
    simpa only [Mine, hpc w hw, hcb w hw] using hf
  refine ⟨?_, ?_, honce, ?_, ?_⟩
  · intro w
    by_cases hw : moved w
    · exact hlocal w hw
    have hkeep : ∀ f, s.Mine w f → t.state f = s.state f := by
      intro f hf
      by_contra hne
      exact hstate f hne w hw hf
    have hl := h.worker w
    refine ⟨?_, ?_, ?_, ?_, ?_⟩
    · intro f r p hp
      exact hl.idle_iff (hpc w hw ▸ hp)
    · intro f r p hp
      rw [hcb w hw]
      exact hl.callback_iff (hpc w hw ▸ hp)
    · rw [hcb w hw]
      exact hl.cb_ne_idle
    · intro f r p hp hrun
      rw [hpc w hw] at hp
      rw [hkeep f (.inr (.inr ⟨r, p, hp⟩))]
      exact hl.running hp hrun
    · intro f hf hm
      have hm' := hother w hw f hm
      have hwaits : 0 < s.waitCount f := by
        rcases hwait f hf with h' | ⟨-, h'⟩
        · exact h'
        · exact absurd hm' (h' w hw)
      obtain ⟨r, p, hp, hr, hrel⟩ := hl.released hwaits hm'
      exact ⟨r, p, (hpc w hw).trans hp, hr, by rwa [hkeep f hm']⟩
  · intro f w₁ w₂ h₁ h₂
    by_cases e₁ : moved w₁
    · by_cases e₂ : moved w₂
      · exact hone e₁ e₂
      · exact absurd (hother w₂ e₂ f h₂) ((hmine w₁ f e₁ h₁).2 w₂ e₂)
    · by_cases e₂ : moved w₂
      · exact absurd (hother w₁ e₁ f h₁) ((hmine w₂ f e₂ h₂).2 w₁ e₁)
      · exact h.unique (hother w₁ e₁ f h₁) (hother w₂ e₂ f h₂)
  · intro f w hf
    by_cases hw : moved w
    · exact (hmine w f hw hf).1
    · exact (h.mine_lt (hother w hw f hf)).trans_le hfresh
  · intro f hf
    rcases hwait f hf with h' | ⟨h', -⟩
    · exact (h.waiting_lt h').trans_le hfresh
    · exact h'

theorem of_worker (h : Inv s) (w : Fin n)
    (hpc : ∀ w' ≠ w, t.pc w' = s.pc w') (hcb : ∀ w' ≠ w, t.cbFiber w' = s.cbFiber w')
    (hfresh : s.fresh ≤ t.fresh)
    (hstate : ∀ f, t.state f ≠ s.state f → ∀ w' ≠ w, ¬ s.Mine w' f)
    (hmine : ∀ f, t.Mine w f → f < t.fresh ∧ ∀ w' ≠ w, ¬ s.Mine w' f)
    (hwait : ∀ f, 0 < t.waitCount f → 0 < s.waitCount f ∨ f < t.fresh ∧ ∀ w' ≠ w, ¬ s.Mine w' f)
    (honce : ∀ f, t.waitCount f ≤ 1) (hlocal : t.Local w) : Inv t := by
  refine h.of_moved (· = w) ?_ hpc hcb hfresh hstate ?_ hwait honce ?_
  · exact fun h₁ h₂ => h₁.trans h₂.symm
  · rintro w' f rfl hf
    exact hmine f hf
  · rintro w' rfl
    exact hlocal

theorem of_idle (h : Inv s) (hpc : t.pc = s.pc) (hcb : t.cbFiber = s.cbFiber)
    (hfresh : s.fresh ≤ t.fresh) (hstate : ∀ f, t.state f ≠ s.state f → ∀ w, ¬ s.Mine w f)
    (hwait : ∀ f, 0 < t.waitCount f → 0 < s.waitCount f ∨ f < t.fresh ∧ ∀ w, ¬ s.Mine w f)
    (honce : ∀ f, t.waitCount f ≤ 1) : Inv t := by
  refine h.of_moved (fun _ => False) False.elim (fun w _ => by rw [hpc]) (fun w _ => by rw [hcb])
    hfresh ?_ (fun _ _ hf => hf.elim) ?_ honce (fun _ hf => hf.elim)
  · exact fun f hf w _ => hstate f hf w
  · intro f hf
    rcases hwait f hf with h' | ⟨h', h''⟩
    · exact .inl h'
    · exact .inr ⟨h', fun w _ => h'' w⟩

theorem of_same (h : Inv s) (hpc : t.pc = s.pc) (hcb : t.cbFiber = s.cbFiber)
    (hstate : t.state = s.state) (hfresh : t.fresh = s.fresh)
    (hwait : ∀ f, t.waitCount f = s.waitCount f) : Inv t := by
  refine h.of_idle hpc hcb hfresh.ge ?_ ?_ ?_
  · exact fun f hf => absurd (congrFun hstate f) hf
  · exact fun f hf => .inl (hwait f ▸ hf)
  · exact fun f => (hwait f).le.trans (h.once f)

theorem mine_of_inside (hp : s.pc w = .inside f r p) : s.Mine w f := .inr (.inr ⟨r, p, hp⟩)

theorem not_mine (h : Inv s) (hm : s.Mine w f) : ∀ w' ≠ w, ¬ s.Mine w' f :=
  fun _ hne hm' => hne (h.unique hm' hm)

theorem released_of_waiting (h : Inv s) (hp : s.pc w = .inside f r p) (hg : 0 < s.waitCount g)
    (hm : s.Mine w g) : g = f ∧ r ≠ .idle ∧ p.released (s.state f) := by
  obtain ⟨r', p', hp', hr, hrel⟩ := (h.worker w).released hg hm
  rw [hp] at hp'
  cases hp'
  exact ⟨rfl, hr, hrel⟩

theorem not_waiting (h : Inv s) (hp : s.pc w = .inside f r p)
    (hrel : ¬ (r ≠ .idle ∧ p.released (s.state f))) : s.waitCount f = 0 := by
  by_contra hne
  exact hrel (h.released_of_waiting hp (Nat.pos_of_ne_zero hne) (mine_of_inside hp)).2

theorem not_waiting_of_outside (h : Inv s) (hp : ∀ f r p, s.pc w ≠ .inside f r p)
    (hm : s.Mine w g) : s.waitCount g = 0 := by
  by_contra hne
  obtain ⟨r, p, hp', -⟩ := (h.worker w).released (Nat.pos_of_ne_zero hne) hm
  exact hp _ _ _ hp'

theorem not_mine_fresh (h : Inv s) (w : Fin n) : ¬ s.Mine w s.fresh :=
  fun hm => lt_irrefl _ (h.mine_lt hm)

theorem not_waiting_fresh (h : Inv s) : s.waitCount s.fresh = 0 := by
  by_contra hwait
  exact lt_irrefl _ (h.waiting_lt (Nat.pos_of_ne_zero hwait))

theorem waits_once (h : Inv s) {P : FiberId → Prop} (hf : P f) (hnot : s.waitCount f = 0)
    (hcount : ∀ g, t.waitCount g = s.waitCount g + if g = f then 1 else 0) :
    (∀ g, 0 < t.waitCount g → 0 < s.waitCount g ∨ P g) ∧ ∀ g, t.waitCount g ≤ 1 := by
  constructor
  · intro g hg
    by_cases he : g = f
    · rw [he]
      exact .inr hf
    · rw [hcount, if_neg he] at hg
      exact .inl hg
  · intro g
    rw [hcount]
    by_cases he : g = f
    · rw [if_pos he, he, hnot]
    · rw [if_neg he]
      exact h.once g

theorem write_self (s : System n) (f : FiberId) : s.write f (s.state f) = s := by
  simp only [write, Function.update_eq_self]

theorem setCbFiber_self (s : System n) (w : Fin n) : s.setCbFiber w (s.cbFiber w) = s := by
  simp only [setCbFiber, Function.update_eq_self]

theorem move (h : Inv s) (hp : s.pc w = .inside f r p) {q : Point} {x : State}
    (hrun : q.running → x = .exec) (hrel : r ≠ .idle → p.released (s.state f) → q.released x) :
    Inv ((s.write f x).goto w (.inside f r q)) := by
  have hl := h.worker w
  have hsame : ∀ g, ((s.write f x).goto w (.inside f r q)).Mine w g ↔ s.Mine w g := by
    intro g
    simp only [Mine, goto, write, Function.update_self, hp, Pc.inside.injEq]
    grind
  refine h.of_worker w ?_ (fun _ _ => rfl) le_rfl ?_ ?_ (fun _ hf => .inl hf) h.once ?_
  · intro w' hw'
    exact Function.update_of_ne hw' _ _
  · intro g hg
    have hgf : g = f := by
      by_contra hne
      exact hg (Function.update_of_ne hne _ _)
    exact hgf ▸ h.not_mine (mine_of_inside hp)
  · intro g hg
    have hg' := (hsame g).mp hg
    exact ⟨h.mine_lt hg', h.not_mine hg'⟩
  · have hx : ((s.write f x).goto w (.inside f r q)).state f = x := Function.update_self ..
    refine Local.of_inside (Function.update_self ..) (hl.idle_iff hp) (hl.callback_iff hp)
      hl.cb_ne_idle (fun hq => hx.trans (hrun hq)) ?_
    intro g hg hm
    obtain ⟨rfl, hr, hrel'⟩ := h.released_of_waiting hp hg ((hsame g).mp hm)
    refine ⟨rfl, hr, ?_⟩
    rw [hx]
    exact hrel hr hrel'

theorem stay (h : Inv s) (hp : s.pc w = .inside f r p) {q : Point}
    (hrun : q.running → s.state f = .exec)
    (hrel : r ≠ .idle → p.released (s.state f) → q.released (s.state f)) :
    Inv (s.goto w (.inside f r q)) := by
  have hmove := h.move hp hrun hrel
  rwa [write_self] at hmove

theorem leave (h : Inv s) (hp : s.pc w = .inside f r p) {q : Pc} (hq : ∀ g r p, q ≠ .inside g r p)
    (x : State) {c : Option FiberId} (hc : c = none ∨ c = s.cbFiber w)
    (hrel : c = some f → ¬ p.released (s.state f)) :
    Inv (((s.write f x).setCbFiber w c).goto w q) := by
  have hl := h.worker w
  have hsub : ∀ g, (((s.write f x).setCbFiber w c).goto w q).Mine w g →
      s.Mine w g ∧ (g = idleFiber w ∨ c = some g) := by
    intro g hg
    simp only [Mine, goto, setCbFiber, write, Function.update_self] at hg ⊢
    rcases hg with hg | hg | ⟨r', p', hg⟩
    · exact ⟨.inl hg, .inl hg⟩
    · rcases hc with hc | hc
      · rw [hc] at hg
        exact absurd hg (by simp)
      · exact ⟨.inr (.inl (hc ▸ hg)), .inr hg⟩
    · exact absurd hg (hq _ _ _)
  refine h.of_worker w ?_ ?_ le_rfl ?_ ?_ (fun _ hf => .inl hf) h.once ?_
  · intro w' hw'
    exact Function.update_of_ne hw' _ _
  · intro w' hw'
    exact Function.update_of_ne hw' _ _
  · intro g hg
    have hgf : g = f := by
      by_contra hne
      exact hg (Function.update_of_ne hne _ _)
    exact hgf ▸ h.not_mine (mine_of_inside hp)
  · intro g hg
    have hg' := (hsub g hg).1
    exact ⟨h.mine_lt hg', h.not_mine hg'⟩
  · refine Local.of_outside ?_ ?_ ?_
    · intro g r' p' hp'
      exact hq _ _ _ ((Function.update_self ..).symm.trans hp')
    · simp only [goto, setCbFiber, Function.update_self]
      rcases hc with hc | hc
      · rw [hc]
        simp
      · rw [hc]
        exact hl.cb_ne_idle
    · intro g hm
      by_contra hg
      obtain ⟨hm', hkept⟩ := hsub g hm
      obtain ⟨rfl, hr, hrel'⟩ := h.released_of_waiting hp (Nat.pos_of_ne_zero hg) hm'
      rcases hkept with hkept | hkept
      · exact hr ((hl.idle_iff hp).mpr hkept)
      · exact hrel hkept hrel'

theorem waitCount_schedule (s : System n) (f g : FiberId) (thread : Option ℕ) :
    (s.schedule (some (.fiber f)) thread).waitCount g = s.waitCount g + if g = f then 1 else 0 := by
  simp only [waitCount, schedule, List.filterMap_append, List.count_append]
  by_cases hg : g = f
  · simp [FiberAndThread.fiber?, hg]
    omega
  · simp [FiberAndThread.fiber?, hg, Ne.symm hg]

theorem requeue (h : Inv s) (hp : s.pc w = .inside f r .reschedule) (hr : r ≠ .idle)
    {c : Option FiberId} (hc : c = none ∨ c = s.cbFiber w ∧ r ≠ .callback) :
    Inv (((s.schedule (some (.fiber f)) none).setCbFiber w c).goto w .scan) := by
  have hl := h.worker w
  have hnot : s.waitCount f = 0 := h.not_waiting hp fun hrel => by simp [Point.released] at hrel
  have hcount (g : FiberId) :
      (((s.schedule (some (.fiber f)) none).setCbFiber w c).goto w .scan).waitCount g =
        s.waitCount g + if g = f then 1 else 0 := waitCount_schedule s f g none
  have hsub : ∀ g, (((s.schedule (some (.fiber f)) none).setCbFiber w c).goto w .scan).Mine w g →
      s.Mine w g ∧ g ≠ f := by
    intro g hg
    simp only [Mine, goto, setCbFiber, schedule, Function.update_self] at hg ⊢
    rcases hg with hg | hg | ⟨r', p', hg⟩
    · exact ⟨.inl hg, fun he => hr ((hl.idle_iff hp).mpr (he ▸ hg))⟩
    · rcases hc with hc | ⟨hc, hcall⟩
      · rw [hc] at hg
        exact absurd hg (by simp)
      · rw [hc] at hg
        exact ⟨.inr (.inl hg), fun he => hcall ((hl.callback_iff hp).mpr (he ▸ hg))⟩
    · exact absurd hg (by simp)
  have hm := mine_of_inside hp
  obtain ⟨hwait, honce⟩ :=
    h.waits_once (P := fun g => g < s.fresh ∧ ∀ w' ≠ w, ¬ s.Mine w' g)
      ⟨h.mine_lt hm, h.not_mine hm⟩ hnot hcount
  refine h.of_worker w ?_ ?_ le_rfl (fun _ hg => absurd rfl hg) ?_ hwait honce ?_
  · intro w' hw'
    exact Function.update_of_ne hw' _ _
  · intro w' hw'
    exact Function.update_of_ne hw' _ _
  · intro g hg
    have hg' := (hsub g hg).1
    exact ⟨h.mine_lt hg', h.not_mine hg'⟩
  · refine Local.of_outside ?_ ?_ ?_
    · intro g r' p' hp'
      cases (Function.update_self ..).symm.trans hp'
    · simp only [goto, setCbFiber, Function.update_self]
      rcases hc with hc | ⟨hc, -⟩
      · rw [hc]
        simp
      · rw [hc]
        exact hl.cb_ne_idle
    · intro g hm
      obtain ⟨hm', hne⟩ := hsub g hm
      rw [hcount, if_neg hne]
      by_contra hg
      exact hne (h.released_of_waiting hp (Nat.pos_of_ne_zero hg) hm').1

theorem register (h : Inv s) (hp : s.pc w = .inside f r (.user false)) (hr : r ≠ .idle) :
    Inv ({ s with armed := s.armed ++ [f] }.goto w (.inside f r (.user true))) := by
  have hl := h.worker w
  have hnot : s.waitCount f = 0 := h.not_waiting hp fun hrel => by simp [Point.released] at hrel
  have hcount (g : FiberId) :
      ({ s with armed := s.armed ++ [f] }.goto w (.inside f r (.user true))).waitCount g =
        s.waitCount g + if g = f then 1 else 0 := by
    simp only [waitCount, goto, List.count_append, List.count_singleton, beq_iff_eq, Nat.add_assoc,
      eq_comm (a := f)]
  have hsame (g : FiberId) :
      ({ s with armed := s.armed ++ [f] }.goto w (.inside f r (.user true))).Mine w g ↔
        s.Mine w g := by
    simp only [Mine, goto, Function.update_self, hp, Pc.inside.injEq]
    grind
  have hm := mine_of_inside hp
  obtain ⟨hwait, honce⟩ :=
    h.waits_once (P := fun g => g < s.fresh ∧ ∀ w' ≠ w, ¬ s.Mine w' g)
      ⟨h.mine_lt hm, h.not_mine hm⟩ hnot hcount
  refine h.of_worker w ?_ (fun _ _ => rfl) le_rfl (fun _ hg => absurd rfl hg) ?_ hwait honce ?_
  · intro w' hw'
    exact Function.update_of_ne hw' _ _
  · intro g hg
    have hg' := (hsame g).mp hg
    exact ⟨h.mine_lt hg', h.not_mine hg'⟩
  · refine Local.of_inside (Function.update_self ..) (hl.idle_iff hp) (hl.callback_iff hp)
      hl.cb_ne_idle (fun _ => hl.running hp rfl) ?_
    intro g hg hm
    by_cases he : g = f
    · exact ⟨he, hr, rfl⟩
    · rw [hcount, if_neg he] at hg
      exact absurd (h.released_of_waiting hp hg ((hsame g).mp hm)).1 he

theorem enter (h : Inv s) (hout : ∀ f r p, s.pc w ≠ .inside f r p) {q : Point} {c : Option FiberId}
    (hpc : t.pc = Function.update s.pc w (.inside g r q))
    (hcb : t.cbFiber = Function.update s.cbFiber w c) (hfresh : s.fresh ≤ t.fresh)
    (hstate : ∀ f, f ≠ g → t.state f = s.state f) (hg : g < t.fresh)
    (hfree : ∀ w' ≠ w, ¬ s.Mine w' g) (hwait : ∀ f, t.waitCount f ≤ s.waitCount f)
    (hgone : t.waitCount g = 0) (hrun : ¬ q.running) (hidle : r = .idle ↔ g = idleFiber w)
    (hcall : r = .callback ↔ c = some g)
    (hc : c = s.cbFiber w ∨ c = some g ∧ g ≠ idleFiber w) : Inv t := by
  have hself : t.pc w = .inside g r q := by rw [hpc, Function.update_self]
  have hcself : t.cbFiber w = c := by rw [hcb, Function.update_self]
  have hsub : ∀ f, t.Mine w f → f = g ∨ s.Mine w f := by
    intro f hf
    rcases hf with hf | hf | ⟨r', p', hf⟩
    · exact .inr (.inl hf)
    · rw [hcself] at hf
      rcases hc with hc | ⟨hc, -⟩
      · exact .inr (.inr (.inl (hc ▸ hf)))
      · rw [hc] at hf
        exact .inl (Option.some.inj hf).symm
    · rw [hself] at hf
      cases hf
      exact .inl rfl
  refine h.of_worker w ?_ ?_ hfresh ?_ ?_ ?_ ?_ ?_
  · intro w' hw'
    rw [hpc, Function.update_of_ne hw']
  · intro w' hw'
    rw [hcb, Function.update_of_ne hw']
  · intro f hf
    have hfg : f = g := by
      by_contra hne
      exact hf (hstate f hne)
    exact hfg ▸ hfree
  · intro f hf
    rcases hsub f hf with rfl | hf'
    · exact ⟨hg, hfree⟩
    · exact ⟨(h.mine_lt hf').trans_le hfresh, h.not_mine hf'⟩
  · exact fun f hf => .inl (hf.trans_le (hwait f))
  · exact fun f => (hwait f).trans (h.once f)
  · refine Local.of_inside hself hidle (hcself ▸ hcall) ?_ (fun h' => absurd h' hrun) ?_
    · rw [hcself]
      rcases hc with hc | ⟨hc, hne⟩
      · exact hc ▸ (h.worker w).cb_ne_idle
      · rw [hc]
        exact fun he => hne (Option.some.inj he)
    · intro f hf hm
      rcases hsub f hm with rfl | hm'
      · omega
      · have := h.not_waiting_of_outside hout hm'
        have := hwait f
        omega

theorem enter_own (h : Inv s) (hout : ∀ f r p, s.pc w ≠ .inside f r p) (hm : s.Mine w g) {q : Point}
    (hpc : t.pc = Function.update s.pc w (.inside g r q)) (hcb : t.cbFiber = s.cbFiber)
    (hfresh : t.fresh = s.fresh) (hstate : ∀ f, f ≠ g → t.state f = s.state f)
    (hwait : ∀ f, t.waitCount f = s.waitCount f) (hrun : ¬ q.running)
    (hidle : r = .idle ↔ g = idleFiber w) (hcall : r = .callback ↔ s.cbFiber w = some g) :
    Inv t := by
  refine h.enter hout hpc ?_ hfresh.ge hstate ?_ (h.not_mine hm) (fun f => (hwait f).le) ?_ hrun
    hidle hcall (.inl rfl)
  · rw [hcb, Function.update_eq_self]
  · rw [hfresh]
    exact h.mine_lt hm
  · rw [hwait]
    exact h.not_waiting_of_outside hout hm

theorem pass (h : Inv s) (hout : ∀ f r p, s.pc w ≠ .inside f r p) {q : Pc}
    (hq : ∀ f r p, q ≠ .inside f r p) (hpc : t.pc = Function.update s.pc w q)
    (hcb : t.cbFiber = s.cbFiber) (hstate : t.state = s.state) (hfresh : t.fresh = s.fresh)
    (hwait : ∀ f, t.waitCount f = s.waitCount f) : Inv t := by
  have hself : t.pc w = q := by rw [hpc, Function.update_self]
  have hsub : ∀ f, t.Mine w f → s.Mine w f := by
    intro f hf
    rcases hf with hf | hf | ⟨r', p', hf⟩
    · exact .inl hf
    · exact .inr (.inl (hcb ▸ hf))
    · exact absurd (hself.symm.trans hf) (hq _ _ _)
  refine h.of_worker w ?_ (fun _ _ => by rw [hcb]) hfresh.ge
    (fun f hf => absurd (by rw [hstate]) hf) ?_ (fun f hf => .inl (hwait f ▸ hf))
    (fun f => (hwait f).le.trans (h.once f)) ?_
  · intro w' hw'
    rw [hpc, Function.update_of_ne hw']
  · intro f hf
    exact ⟨hfresh ▸ h.mine_lt (hsub f hf), h.not_mine (hsub f hf)⟩
  · refine Local.of_outside (fun f r' p' hp' => hq _ _ _ (hself.symm.trans hp'))
      (hcb ▸ (h.worker w).cb_ne_idle) ?_
    intro f hm
    rw [hwait]
    exact h.not_waiting_of_outside hout (hsub f hm)

theorem initial (n : ℕ) : Inv (initial n) := by
  have hmine : ∀ {w : Fin n} {f}, (System.initial n).Mine w f → f = idleFiber w := by
    intro w f hf
    rcases hf with hf | hf | ⟨r, p, hf⟩
    · exact hf
    · cases hf
    · cases hf
  refine ⟨fun w => Local.of_outside (fun _ _ _ => by simp [System.initial])
    (by simp [System.initial]) (fun _ _ => rfl), ?_, fun _ => Nat.zero_le 1, ?_,
    fun hf => absurd hf (lt_irrefl 0)⟩
  · intro f w w' h h'
    exact Fin.ext ((hmine h).symm.trans (hmine h'))
  · intro f w h
    rw [hmine h]
    exact w.isLt

end Inv

theorem takeFirst_spec {skip : FiberAndThread → Bool} {q rest : List FiberAndThread}
    {e : FiberAndThread} (h : takeFirst skip q = some (e, rest)) :
    ∃ front back, q = front ++ e :: back ∧ rest = front ++ back ∧ skip e = false ∧
      ∀ x ∈ front, skip x = true := by
  induction q generalizing rest with
  | nil => cases h
  | cons x q ih =>
    rw [takeFirst] at h
    by_cases hx : skip x
    · rw [if_pos hx] at h
      obtain ⟨⟨e', rest'⟩, he, heq⟩ := Option.map_eq_some_iff.mp h
      obtain ⟨rfl, rfl⟩ := Prod.mk.inj heq
      obtain ⟨front, back, rfl, rfl, hskip, hfront⟩ := ih he
      exact ⟨x :: front, back, rfl, rfl, hskip, by simpa using ⟨hx, hfront⟩⟩
    · rw [if_neg hx] at h
      cases h
      exact ⟨[], q, rfl, rfl, by simpa using hx, by simp⟩

theorem waitCount_dequeue_fiber {thread : Option ℕ} {rest : List FiberAndThread}
    (h : s.dequeue w = some (⟨.fiber f, thread⟩, rest)) (g : FiberId) :
    s.waitCount g = (rest.filterMap FiberAndThread.fiber?).count g + s.armed.count g +
      if g = f then 1 else 0 := by
  obtain ⟨front, back, hq, rfl, -, -⟩ := takeFirst_spec h
  simp only [waitCount, hq, List.filterMap_append, List.filterMap_cons, FiberAndThread.fiber?,
    List.count_append, List.count_cons, beq_iff_eq, eq_comm (a := f)]
  omega

theorem waitCount_dequeue_cb {c : ℕ} {thread : Option ℕ} {rest : List FiberAndThread}
    (h : s.dequeue w = some (⟨.cb c, thread⟩, rest)) (g : FiberId) :
    s.waitCount g = (rest.filterMap FiberAndThread.fiber?).count g + s.armed.count g := by
  obtain ⟨front, back, hq, rfl, -, -⟩ := takeFirst_spec h
  simp only [waitCount, hq, List.filterMap_append, List.filterMap_cons, FiberAndThread.fiber?]

theorem not_exec_of_dequeue {thread : Option ℕ} {rest : List FiberAndThread}
    (h : s.dequeue w = some (⟨.fiber f, thread⟩, rest)) : s.state f ≠ .exec := by
  obtain ⟨front, back, -, -, hskip, -⟩ := takeFirst_spec h
  simp only [skips, Bool.or_eq_false_iff] at hskip
  simpa using hskip.2

end System

def Pc.leaves (f : FiberId) : Pc → Bool
  | .inside g _ p => g == f && p.leaving
  | _ => false

def taken (s : System n) : Action n → Option FiberId
  | .work w =>
    match s.pc w, s.dequeue w with
    | .scan, some (⟨.fiber f, _⟩, _) => some f
    | _, _ => none
  | _ => none

/-- No dequeue takes a fiber that some worker is still leaving. -/
def clean (s : System n) (a : Action n) : Bool :=
  match taken s a with
  | none => true
  | some f => decide (∀ w, (s.pc w).leaves f = false)

namespace System.Inv
variable {s t : System n} {w : Fin n} {f : FiberId} {r : Role} {p : Point}

theorem free_of_clean (h : Inv s) (hpc : s.pc w = .scan) {thread : Option ℕ}
    {rest : List FiberAndThread} (hdeq : s.dequeue w = some (⟨.fiber f, thread⟩, rest))
    (hclean : clean s (.work w)) (w' : Fin n) : ¬ s.Mine w' f := by
  intro hm
  have hwait : 0 < s.waitCount f := by
    have := waitCount_dequeue_fiber hdeq f
    rw [if_pos rfl] at this
    omega
  obtain ⟨r, p, hp, -, hrel⟩ := (h.worker w').released hwait hm
  have hleave : (s.pc w').leaves f = false := by
    simp only [clean, taken, hpc, hdeq, decide_eq_true_eq] at hclean
    exact hclean w'
  have hexec := not_exec_of_dequeue hdeq
  rw [hp] at hleave
  cases p with
  | user b => exact hexec ((h.worker w').running hp rfl)
  | _ => simp_all [Point.released, Pc.leaves, Point.leaving]

theorem workReset (h : Inv s) {k : ResetPoint → Point} {q : ResetPoint} {next : Pc}
    (hk : ∀ q, (k q).running = false) (hrel : ∀ q x, (k q).released x = false)
    (hp : s.pc w = .inside f r (k q)) (hnext : Inv ((s.write f .init).goto w next)) :
    Inv (s.workReset w f (fun q => .inside f r (k q)) next q) := by
  have hstay : ∀ q', Inv (s.goto w (.inside f r (k q'))) := fun q' =>
    h.stay hp (fun hrun => by simp [hk] at hrun) (fun _ hrel' => by simp [hrel] at hrel')
  cases q with
  | isTerm => exact hstay _
  | isInit => exact hstay _
  | isExcept =>
    rw [System.workReset]
    split_ifs
    · exact hstay _
    · exact h.of_same rfl rfl rfl rfl fun _ => rfl
  | write => exact hnext

theorem drop (h : Inv s) (hp : s.pc w = .inside f r p) {q : Pc} (hq : ∀ g r p, q ≠ .inside g r p)
    (x : State) (hr : r = .callback → ¬ p.released (s.state f)) :
    Inv ((s.write f x).goto w q) := by
  have hleave := h.leave hp hq x (.inr rfl) fun hc => hr (((h.worker w).callback_iff hp).mpr hc)
  have hself : (s.write f x).setCbFiber w (s.cbFiber w) = s.write f x :=
    setCbFiber_self (s.write f x) w
  rwa [hself] at hleave

theorem quit (h : Inv s) (hp : s.pc w = .inside f r p) {q : Pc} (hq : ∀ g r p, q ≠ .inside g r p)
    (hr : r = .callback → ¬ p.released (s.state f)) : Inv (s.goto w q) := by
  have hdrop := h.drop hp hq (s.state f) hr
  rwa [write_self] at hdrop

theorem workInside (h : Inv s) (hp : s.pc w = .inside f r p)
    (ht : s.workInside w f r p = some t) : Inv t := by
  cases p with
  | checkTerm | checkExcept =>
    cases ht
    split_ifs
    · exact h.quit hp (by simp) (fun _ => by simp [Point.released])
    · exact h.stay hp (by simp [Point.running]) (by simp [Point.released])
  | prepare q =>
    cases ht
    exact h.workReset (fun _ => rfl) (fun _ _ => rfl) hp
      (h.move hp (by simp [Point.running]) (by simp [Point.released]))
  | assertNotExec =>
    simp only [System.workInside] at ht
    split_ifs at ht
    · cases ht
      exact h.of_same rfl rfl rfl rfl fun _ => rfl
    · cases ht
      exact h.stay hp (by simp [Point.running]) (by simp [Point.released])
  | writeExec =>
    cases ht
    exact h.move hp (fun _ => rfl) (by simp [Point.released])
  | switchIn =>
    cases ht
    exact h.stay hp (fun _ => (h.worker w).running hp rfl) (by simp [Point.released])
  | user b => cases ht
  | switchOut =>
    cases ht
    exact h.stay hp (by simp [Point.running]) (by simp [Point.released])
  | decrement =>
    cases r with
    | idle =>
      cases ht
      have hstay := h.stay hp (q := .readTerm) (by simp [Point.running]) (by simp [Point.released])
      exact hstay.of_same rfl rfl rfl rfl fun _ => rfl
    | task | callback =>
      cases ht
      have hstay := h.stay hp (q := .readReady) (by simp [Point.running]) (by simp [Point.released])
      exact hstay.of_same rfl rfl rfl rfl fun _ => rfl
  | readReady =>
    cases ht
    refine h.stay hp ?_ ?_
    · split_ifs <;> simp [Point.running]
    · intro _ hrel
      split_ifs <;> simp_all [Point.released]
  | reschedule =>
    cases r with
    | task =>
      cases ht
      have hreq := h.requeue hp (by simp) (.inr ⟨rfl, by simp⟩)
      have hself := setCbFiber_self (s.schedule (some (.fiber f)) none) w
      exact hself ▸ hreq
    | callback =>
      cases ht
      exact h.requeue hp (by simp) (.inl rfl)
    | idle => cases ht
  | readTerm =>
    cases r with
    | callback =>
      cases ht
      refine h.stay hp ?_ ?_
      · split_ifs <;> simp [Point.running]
      · intro _ hrel
        split_ifs <;> simp_all [Point.released]
    | task | idle =>
      cases ht
      split_ifs
      · exact h.quit hp (by simp) (by simp)
      · exact h.stay hp (by simp [Point.running]) (by simp [Point.released])
  | readExcept =>
    cases r with
    | callback =>
      cases ht
      refine h.stay hp ?_ ?_
      · split_ifs <;> simp [Point.running]
      · intro _ hrel
        split_ifs <;> simp_all [Point.released]
    | task | idle =>
      cases ht
      split_ifs
      · exact h.quit hp (by simp) (by simp)
      · exact h.stay hp (by simp [Point.running]) (by simp [Point.released])
  | writeHold =>
    cases r with
    | callback =>
      cases ht
      exact h.leave hp (by simp) .hold (.inl rfl) (by simp)
    | task | idle =>
      cases ht
      exact h.drop hp (by simp) .hold (by simp)
  | clear q =>
    cases ht
    exact h.workReset (fun _ => rfl) (fun _ _ => rfl) hp
      (h.drop hp (by simp) .init fun _ => by simp [Point.released])

theorem work (h : Inv s) (hclean : clean s (.work w)) (ht : s.work w = some t) : Inv t := by
  rw [System.work] at ht
  cases hpc : s.pc w with
  | scan =>
    have hout : ∀ f r p, s.pc w ≠ .inside f r p := by simp [hpc]
    simp only [hpc] at ht
    cases hdeq : s.dequeue w with
    | none =>
      rw [hdeq] at ht
      cases ht
      exact h.pass hout (by simp) rfl rfl rfl rfl fun _ => rfl
    | some e =>
      obtain ⟨⟨task, thread⟩, rest⟩ := e
      rw [hdeq] at ht
      cases task with
      | fiber f =>
        cases ht
        have hfree := h.free_of_clean hpc hdeq hclean
        have hcount := waitCount_dequeue_fiber hdeq
        have hself : ¬ s.Mine w f := hfree w
        refine h.enter hout rfl (Function.update_eq_self ..).symm le_rfl (fun _ _ => rfl) ?_
          (fun w' _ => hfree w') ?_ ?_ (by simp [Point.running]) ?_ ?_ (.inl rfl)
        · apply h.waiting_lt
          rw [hcount, if_pos rfl]
          omega
        · intro g
          rw [hcount]
          exact Nat.le_add_right _ _
        · have honce := h.once f
          rw [hcount, if_pos rfl] at honce
          simp only [waitCount, goto]
          omega
        · simp only [reduceCtorEq, false_iff]
          exact fun he => hself (.inl he)
        · simp only [reduceCtorEq, false_iff]
          exact fun he => hself (.inr (.inl he))
      | cb c =>
        cases ht
        exact h.pass hout (by simp) rfl rfl rfl rfl fun g => (waitCount_dequeue_cb hdeq g).symm
  | dropped =>
    simp only [hpc] at ht
    cases ht
    exact h.pass (by simp [hpc]) (by simp) rfl rfl rfl rfl fun _ => rfl
  | setup c =>
    have hout : ∀ f r p, s.pc w ≠ .inside f r p := by simp [hpc]
    simp only [hpc] at ht
    cases hcb : s.cbFiber w with
    | some g =>
      rw [hcb] at ht
      cases ht
      have hne : g ≠ idleFiber w := fun he => (h.worker w).cb_ne_idle (he ▸ hcb)
      exact h.enter_own hout (.inr (.inl hcb)) rfl rfl rfl (fun _ _ => rfl) (fun _ => rfl)
        (by simp [Point.running]) (by simpa using hne) ⟨fun _ => hcb, fun _ => rfl⟩
    | none =>
      rw [hcb] at ht
      cases ht
      have hne : s.fresh ≠ idleFiber w := fun he => h.not_mine_fresh w (.inl he)
      exact h.enter hout rfl rfl (Nat.le_succ _) (fun g hg => Function.update_of_ne hg _ _)
        (Nat.lt_succ_self _) (fun w' _ => h.not_mine_fresh w') (fun _ => le_rfl)
        h.not_waiting_fresh (by simp [Point.running]) (by simpa using hne) (by simp)
        (.inr ⟨rfl, hne⟩)
  | idleCheck =>
    have hout : ∀ f r p, s.pc w ≠ .inside f r p := by simp [hpc]
    simp only [hpc] at ht
    split_ifs at ht
    · cases ht
      exact h.pass hout (by simp) rfl rfl rfl rfl fun _ => rfl
    · cases ht
      exact h.enter_own hout (.inl rfl) rfl rfl rfl (fun _ _ => rfl) (fun _ => rfl)
        (by simp [Point.running]) (by simp)
        ⟨fun hr => (by cases hr), fun he => absurd he (h.worker w).cb_ne_idle⟩
  | inside f r p =>
    simp only [hpc] at ht
    exact h.workInside hpc ht
  | exited =>
    simp only [hpc] at ht
    cases ht

theorem user (h : Inv s) {a : UserAct} (ht : s.user w a = some t) : Inv t := by
  rw [System.user] at ht
  split at ht
  · rename_i f r b hp
    have hyield : ∀ x : State, (b = true → x = .hold) →
        Inv ((s.write f x).goto w (.inside f r .switchOut)) := by
      intro x hx
      refine h.move hp (by simp [Point.running]) ?_
      intro _ hb
      simpa [Point.released] using hx hb
    split at ht
    · cases ht
      exact hyield .hold fun _ => rfl
    · cases ht
      exact h.stay hp (by simp [Point.running]) (by simp)
    · split_ifs at ht
      cases ht
      exact hyield .term (by simp)
    · cases ht
    · rename_i hr
      cases ht
      exact h.register hp hr
    · cases ht
      exact hyield .ready (by simp)
    · cases ht
      exact hyield .term (by simp)
    · cases ht
      exact hyield .except (by simp)
    · cases ht
  · cases ht

theorem trigger (h : Inv s) (ht : s.trigger f = some t) : Inv t := by
  rw [System.trigger] at ht
  split_ifs at ht with hf
  cases ht
  refine h.of_same rfl rfl rfl rfl ?_
  intro g
  rw [waitCount_schedule]
  simp only [waitCount, List.count_erase]
  have hpos := List.count_pos_iff.mpr hf
  by_cases hg : g = f
  · subst hg
    simp
    omega
  · simp [hg, Ne.symm hg]

theorem submit (h : Inv s) (job : Job) (thread : Option ℕ) : Inv (s.submit job thread) := by
  cases job with
  | nothing => exact h
  | callback c =>
    refine h.of_same rfl rfl rfl rfl ?_
    intro g
    simp only [waitCount, System.submit, schedule, List.filterMap_append, List.count_append]
    rfl
  | newFiber =>
    have hcount : ∀ g, (s.submit .newFiber thread).waitCount g =
        s.waitCount g + if g = s.fresh then 1 else 0 :=
      fun g => waitCount_schedule s s.fresh g thread
    obtain ⟨hwait, honce⟩ := h.waits_once (P := fun f => f < s.fresh + 1 ∧ ∀ w, ¬ s.Mine w f)
      ⟨Nat.lt_succ_self _, h.not_mine_fresh⟩ h.not_waiting_fresh hcount
    refine h.of_idle rfl rfl (Nat.le_succ _) (fun f hf => ?_) hwait honce
    have hff : f = s.fresh := by
      by_contra hne
      exact hf (Function.update_of_ne hne _ _)
    exact hff ▸ h.not_mine_fresh

theorem of_step (h : Inv s) {a : Action n} (hclean : clean s a) (ht : step s a = some t) :
    Inv t := by
  unfold step at ht
  split_ifs at ht
  cases a with
  | work w => exact h.work hclean ht
  | user w a => exact h.user ht
  | trigger f => exact h.trigger ht
  | submit job thread =>
    cases ht
    exact h.submit job thread
  | stop =>
    cases ht
    exact h.of_same rfl rfl rfl rfl fun _ => rfl

end System.Inv

theorem Active.mine {s : System n} {w : Fin n} {f : FiberId} (h : Active s w f) : s.Mine w f := by
  obtain ⟨r, hp | ⟨b, hp⟩⟩ := h
  · exact System.Inv.mine_of_inside hp
  · exact System.Inv.mine_of_inside hp

/-- In every run in which no dequeue takes a fiber that its last worker is still leaving, the
context of a fiber is active on one thread at most. -/
theorem active_unique_of_clean (n : ℕ) (acts : List (Action n)) (s : System n)
    (hrun : Run (fun s a t => clean s a = true ∧ step s a = some t) (System.initial n) acts s)
    (f : FiberId) (w w' : Fin n) (h : Active s w f) (h' : Active s w' f) : w = w' := by
  have hinv : s.Inv :=
    hrun.invariant (fun _ _ _ hs hstep => hs.of_step hstep.1 hstep.2) (System.Inv.initial n)
  exact hinv.unique h.mine h'.mine

def registerAndHold : List (Action 2) :=
  [.submit (.callback 0) none, .work 0, .work 0, .work 0, .work 0, .work 0,
    .user 0 .register, .user 0 .yieldToHold]

theorem active_unique_of_clean_two :
    ∃ (acts : List (Action 2)) (s : System 2),
      Run (fun s a t => clean s a = true ∧ step s a = some t) (System.initial 2) acts s ∧
      Active s 1 2 ∧ ∀ w, Active s w 2 → w = 1 := by
  have hexec : (iterate (guarded clean step) (System.initial 2)
      (List.flatten [registerAndHold, List.replicate 6 (.work 0), [.trigger 2],
        List.replicate 6 (.work 1)])).map
      (fun s => s.pc 1) = some (.inside 2 .task (.user false)) := by decide
  obtain ⟨s, hs, hpc⟩ := Option.map_eq_some_iff.mp hexec
  have hrun := Run.of_guarded hs
  have hact : Active s 1 2 := ⟨_, .inr ⟨_, hpc⟩⟩
  exact ⟨_, s, hrun, hact, fun w hw => active_unique_of_clean 2 _ s hrun 2 w 1 hw hact⟩

/-- The event fires and another worker resumes the fiber after its state says `HOLD` but before it
has switched out. -/
theorem fiber_active_on_two_threads :
    ∃ (acts : List (Action 2)) (s : System 2),
      Run (fun s a t => step s a = some t) (System.initial 2) acts s ∧
      Active s 0 2 ∧ Active s 1 2 := by
  have hexec : (iterate step (System.initial 2)
      (registerAndHold ++ .trigger 2 :: List.replicate 6 (.work 1))).map
      (fun s => (s.pc 0, s.pc 1)) =
        some (.inside 2 .callback .switchOut, .inside 2 .task (.user false)) := by decide
  obtain ⟨s, hs, hpc⟩ := Option.map_eq_some_iff.mp hexec
  obtain ⟨h₀, h₁⟩ := Prod.mk.inj hpc
  exact ⟨_, s, Run.of_iterate hs, ⟨_, .inl h₀⟩, ⟨_, .inr ⟨_, h₁⟩⟩⟩

end ApexStorm.Scheduler
