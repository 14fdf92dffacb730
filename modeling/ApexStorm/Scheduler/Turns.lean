import ApexStorm.Lib.Tally
import ApexStorm.Scheduler.Worker

/-!
# The worker with a fiber in its hands

From the dequeue of a task to the return of `swapIn` and the worker's answer to the
state it finds then, every step reads or writes the one fiber in the worker's
hands. The table of expected states goes on at every point, so `swapIn` never meets
`EXEC` and `reset` meets `TERM`, `INIT` or `EXCEPT`; a recycled callback fiber
resumed through an old handle can only throw.
-/

namespace ApexStorm.Scheduler
open Lib

namespace Machine
variable {s t : Machine} {sys : System 1} {f g : FiberId} {r : Role} {p q : Point}

theorem moves_of_change (hc : Change s t f)
    (hf : f ≠ idleFiber → Moves (s.Resets f) (s.state f) (t.state f)) (g : FiberId)
    (hg : g ≠ idleFiber) : Moves (s.Resets g) (s.state g) (t.state g) := by
  by_cases hgf : g = f
  · subst hgf
    exact hf hg
  · rw [hc.state g hgf]
    exact .stay _

theorem sum_uncalled (hc : Change s t f) (hf : f < s.sys.fresh) (c : ℕ) :
    ∑ g ∈ Finset.range s.sys.fresh, t.uncalled c g + s.uncalled c f =
      ∑ g ∈ Finset.range s.sys.fresh, s.uncalled c g + t.uncalled c f := by
  refine sum_add_of_ne (Finset.mem_range.mpr hf) fun g hg => ?_
  rw [uncalled, uncalled, hc.cb g hg, hc.ctx g hg]

structure Within (s t : Machine) (f : FiberId) (r : Role) (p q : Point) : Prop where
  change : Change s t f
  here : s.pc = .inside f r p
  there : t.pc = .inside f r q
  kept : t.cbFiber = s.cbFiber
  queue : t.sys.queue = s.sys.queue
  fresh : t.sys.fresh = s.sys.fresh
  held : t.Held f r q
  moves : f ≠ idleFiber → Moves (s.Resets f) (s.state f) (t.state f)

namespace Within

theorem inv (hw : Within s t f r p q) (h : s.Inv) : t.Inv := by
  refine h.of_change hw.change ?_ ?_ ?_ ?_ ?_ ?_
  · simp [hw.here, Pc.fiber?]
  · simp [hw.there, Pc.fiber?]
  · rw [hw.kept, hw.fresh]
    exact h.kept f
  · rw [hw.queue]
    exact fun e he => known_mono hw.fresh.ge (h.queue e he)
  · simp [hw.there, Pc.fiber?]
  · intro r' p' hp'
    cases hw.there.symm.trans hp'
    exact hw.held

theorem uncalledAll (hw : Within s t f r p q) (hft : t.ft = s.ft) (c : ℕ) :
    t.uncalledAll c + s.uncalled c f = s.uncalledAll c + t.uncalled c f := by
  have hf : f < s.sys.fresh := hw.fresh ▸ hw.held.made
  have hsum := sum_uncalled hw.change hf c
  simp only [Machine.uncalledAll, hw.queue, hw.here, hw.there, hft, hw.fresh, reduceCtorEq,
    if_false]
  omega

theorem quiet (hw : Within s t f r p q) (h : s.Inv) (hlog : t.log = s.log) (hft : t.ft = s.ft)
    (hbefore : q.before → p.before)
    (hready : s.state f = .ready ∧ p.answering ↔ t.state f = .ready ∧ q.answering)
    (hcall : ∀ c, t.uncalled c f ≤ s.uncalled c f) : Advance s t [] := by
  refine ⟨hw.inv h, moves_of_change hw.change hw.moves, by simp [hlog], by simp, ?_, ?_, ?_⟩
  · intro g
    simp only [due, hw.queue, hw.here, hw.there]
    cases r with
    | task =>
      by_cases hb : q.before = true
      · simp [Pc.carriesEntry, hb, hbefore hb]
      · simp [Pc.carriesEntry, hb]
    | callback | idle => simp [Pc.carriesEntry]
  · intro g
    by_cases hg : f = g
    · subst hg
      simpa [owed, hw.here, hw.there, Pc.answers, and_comm] using by simp only [hready]
    · simp [owed, hw.here, hw.there, Pc.answers, hg]
  · intro c
    have := hw.uncalledAll hft c
    have := hcall c
    simp
    omega

end Within

structure Leaves (s t : Machine) (f : FiberId) (r : Role) (p : Point) : Prop where
  change : Change s t f
  here : s.pc = .inside f r p
  there : t.pc = .scan ∨ t.pc = .dropped
  kept : t.cbFiber = some f → s.cbFiber = some f
  fresh : t.sys.fresh = s.sys.fresh
  ft : t.ft = s.ft
  rest : t.Rest f
  moves : f ≠ idleFiber → Moves (s.Resets f) (s.state f) (t.state f)
  call : ∀ c, t.uncalled c f ≤ s.uncalled c f

namespace Leaves

theorem fiber? (hl : Leaves s t f r p) : t.pc.fiber? = none := by
  rcases hl.there with ht | ht <;> rw [ht] <;> rfl

theorem inv (hl : Leaves s t f r p) (h : s.Inv) (hqueue : ∀ e ∈ t.sys.queue, t.known e.task) :
    t.Inv := by
  refine h.of_change hl.change ?_ ?_ ?_ hqueue (fun _ => hl.rest) ?_
  · simp [hl.here, Pc.fiber?]
  · simp [hl.fiber?]
  · intro hf
    rw [hl.fresh]
    exact h.kept f (hl.kept hf)
  · intro r' p' hp'
    rcases hl.there with ht | ht <;> cases ht.symm.trans hp'

theorem carriesEntry (hl : Leaves s t f r p) (g : FiberId) : t.pc.carriesEntry g = false := by
  rcases hl.there with ht | ht <;> rw [ht] <;> rfl

theorem owed (hl : Leaves s t f r p) (g : FiberId) : t.owed g = 0 := by
  rcases hl.there with ht | ht <;> simp [Machine.owed, ht, Pc.answers]

theorem sum_uncalled (hl : Leaves s t f r p) (h : s.Inv) (c : ℕ) :
    (if t.pc = .setup c then 1 else 0) + (if t.ft = some c then 1 else 0) +
        ∑ g ∈ Finset.range t.sys.fresh, t.uncalled c g ≤
      (if s.ft = some c then 1 else 0) + ∑ g ∈ Finset.range s.sys.fresh, s.uncalled c g := by
  have hpc : t.pc ≠ .setup c := by
    rcases hl.there with ht | ht <;> simp [ht]
  have hsum := Machine.sum_uncalled hl.change (h.held hl.here).made c
  have := hl.call c
  rw [if_neg hpc, hl.ft, hl.fresh]
  omega

theorem quiet (hl : Leaves s t f r p) (h : s.Inv) (hqueue : t.sys.queue = s.sys.queue)
    (hlog : t.log = s.log) (hp : p.answering = false) : Advance s t [] := by
  have hknown : ∀ e ∈ t.sys.queue, t.known e.task := by
    rw [hqueue]
    exact fun e he => known_mono hl.fresh.ge (h.queue e he)
  refine ⟨hl.inv h hknown, moves_of_change hl.change hl.moves, by simp [hlog], by simp, ?_, ?_, ?_⟩
  · intro g
    simp [due, hqueue, hl.carriesEntry g]
  · intro g
    have hnone : s.owed g = 0 := by simp [Machine.owed, hl.here, Pc.answers, hp]
    rw [hnone, hl.owed g]
    rfl
  · intro c
    have := hl.sum_uncalled h c
    simp only [uncalledAll, hqueue, List.count_nil]
    omega

end Leaves

theorem Advance.pass (h : s.Inv) (hp : s.pc = .inside f r p) (hq : sys.pc 0 = .inside f r q)
    (hstate : sys.state = s.sys.state) (hcb : sys.cbFiber = s.sys.cbFiber)
    (hqueue : sys.queue = s.sys.queue) (hfresh : sys.fresh = s.sys.fresh)
    (hsafe : sys.aborted = s.sys.aborted) (hx : s.state f ∈ r.expected q)
    (hbefore : q.before → p.before)
    (hready : s.state f = .ready → q.answering = p.answering) :
    Advance s { s with sys := sys } [] := by
  have hs := h.held hp
  have hsame : ∀ g, ({ s with sys := sys } : Machine).state g = s.state g := by
    simp [state, hstate]
  have hkept : ({ s with sys := sys } : Machine).cbFiber = s.cbFiber := by
    simp [cbFiber, hcb]
  have hw : Within s { s with sys := sys } f r p q := by
    refine ⟨⟨?_, ?_, ?_, ?_, hfresh.ge, hsafe⟩, hp, hq, hkept, hqueue, hfresh, ?_, ?_⟩
    · exact fun g _ => hsame g
    · exact fun _ _ => rfl
    · exact fun _ _ => rfl
    · exact fun _ _ h => hkept ▸ h
    · refine ⟨hsame f ▸ hx, hs.idle, hfresh.symm ▸ hs.made, ?_, ?_, ?_⟩
      · rw [hsame f]
        exact hs.fits
      · rw [hkept]
        exact hs.own
      · rw [hkept, hsame f]
        exact hs.stale
    · intro _
      rw [hsame f]
      exact .stay _
  refine hw.quiet h rfl rfl hbefore ?_ fun _ => le_rfl
  rw [hsame f]
  exact and_congr_right fun hr => by rw [hready hr]

theorem Held.rest (hh : s.Held f r p) (hr : r ≠ .callback) (hx : s.state f ≠ .exec)
    (hidle : r = .idle → s.state f ∈ [.init, .hold, .term]) : s.Rest f := by
  refine ⟨fun hf => hidle (hh.idle.mpr hf), fun hf => ⟨hx, hh.fits hf⟩, ?_, ?_⟩
  · intro hkept
    obtain ⟨hnone, hstate | ⟨hstate, -⟩⟩ := hh.stale hr hkept
    · exact ⟨hnone, hstate⟩
    · exact absurd hstate hx
  · exact fun hle => absurd hh.made (not_lt.mpr hle)

theorem Advance.drop {pc : Pc} (h : s.Inv) (hp : s.pc = .inside f r p)
    (hpc : pc = .scan ∨ pc = .dropped) (hr : r ≠ .callback) (hx : s.state f ≠ .exec)
    (hidle : r = .idle → s.state f ∈ [.init, .hold, .term]) (ha : p.answering = false) :
    Advance s { s with sys := s.sys.goto 0 pc } [] := by
  have hl : Leaves s { s with sys := s.sys.goto 0 pc } f r p := by
    refine ⟨⟨?_, ?_, ?_, ?_, le_rfl, rfl⟩, hp, hpc, id, rfl, rfl, ?_, ?_, fun _ => le_rfl⟩
    · exact fun _ _ => rfl
    · exact fun _ _ => rfl
    · exact fun _ _ => rfl
    · exact fun _ _ => id
    · obtain ⟨h₁, h₂, h₃, h₄⟩ := (h.held hp).rest hr hx hidle
      exact ⟨h₁, h₂, h₃, h₄⟩
    · exact fun _ => .stay _
  exact hl.quiet h rfl rfl ha

@[simp]
theorem expected_switchIn (r : Role) : r.expected .switchIn = [.exec] := by
  cases r <;> rfl

@[simp]
theorem expected_user (r : Role) (b : Bool) : r.expected (.user b) = [.exec] := by
  cases r <;> rfl

theorem Change.of_write {x : State} {pc : Pc} (hsys : t.sys = (s.sys.write f x).goto 0 pc)
    (hcb : ∀ g, g ≠ f → t.cb g = s.cb g) (hctx : ∀ g, g ≠ f → t.ctx g = s.ctx g) :
    Change s t f := by
  refine ⟨?_, hcb, hctx, ?_, ?_, ?_⟩
  · intro g hg
    rw [Machine.state, hsys]
    exact Function.update_of_ne hg _ _
  · intro g _ hg
    rwa [cbFiber, hsys] at hg
  · rw [hsys]
    exact le_rfl
  · rw [hsys]
    rfl

theorem state_of_write {x : State} {pc : Pc} (hsys : t.sys = (s.sys.write f x).goto 0 pc) :
    t.state f = x := by
  rw [state, hsys]
  exact Function.update_self _ _ _

theorem Within.of_write {x : State} (h : s.Inv) (hp : s.pc = .inside f r p)
    (hsys : t.sys = (s.sys.write f x).goto 0 (.inside f r q))
    (hcb : ∀ g, g ≠ f → t.cb g = s.cb g) (hctx : ∀ g, g ≠ f → t.ctx g = s.ctx g)
    (hx : x ∈ r.expected q) (hfits : f ≠ idleFiber → x.fits (t.ctx f))
    (hstale : r ≠ .callback → s.cbFiber = some f →
      t.cb f = none ∧ (x ∈ [.init, .except] ∨ x = .exec ∧ t.ctx f = .entry))
    (hmoves : f ≠ idleFiber → Moves (s.Resets f) (s.state f) x) : Within s t f r p q := by
  have hs := h.held hp
  have hstate := state_of_write hsys
  have hkept : t.cbFiber = s.cbFiber := by
    rw [cbFiber, hsys]
    rfl
  have hpc : t.pc = .inside f r q := by
    rw [pc, hsys]
    rfl
  have hfresh : t.sys.fresh = s.sys.fresh := by
    rw [hsys]
    rfl
  refine ⟨.of_write hsys hcb hctx, hp, hpc, hkept, by rw [hsys]; rfl, hfresh, ?_, hstate ▸ hmoves⟩
  refine ⟨hstate ▸ hx, hs.idle, hfresh ▸ hs.made, hstate ▸ hfits, hkept ▸ hs.own, ?_⟩
  rw [hstate, hkept]
  exact hstale

end Machine

end ApexStorm.Scheduler
