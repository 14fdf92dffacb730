import ApexStorm.Scheduler.Turns

/-!
# The life of a fiber under one worker

The remaining steps take an entry from the queue, take up the callback fiber or the
idle fiber, and add entries and fibers from outside. With them the invariant and
the books hold along every run, whatever is scheduled, in which order and how
often.
-/

namespace ApexStorm.Scheduler
open Lib

namespace Machine
variable {s t : Machine} {f g : FiberId} {r : Role} {p : Point}

structure Same (s t : Machine) : Prop where
  state : t.sys.state = s.sys.state
  cb : t.cb = s.cb
  ctx : t.ctx = s.ctx
  kept : t.cbFiber = s.cbFiber
  fresh : t.sys.fresh = s.sys.fresh
  safe : t.sys.aborted = s.sys.aborted

namespace Same

theorem change (hsame : Same s t) (f : FiberId) : Change s t f := by
  refine ⟨?_, ?_, ?_, ?_, hsame.fresh.ge, hsame.safe⟩
  · exact fun g _ => congrFun hsame.state g
  · exact fun g _ => congrFun hsame.cb g
  · exact fun g _ => congrFun hsame.ctx g
  · exact fun g _ hg => hsame.kept ▸ hg

theorem moves (hsame : Same s t) (f : FiberId) (_ : f ≠ idleFiber) :
    Moves (s.Resets f) (s.state f) (t.state f) := by
  rw [Machine.state, Machine.state, hsame.state]
  exact .stay _

theorem rest (hsame : Same s t) (hf : s.Rest f) : t.Rest f :=
  hf.of_change (hsame.change (f + 1)) (Nat.ne_add_one f)

theorem sum_uncalled (hsame : Same s t) (c : ℕ) :
    ∑ f ∈ Finset.range t.sys.fresh, t.uncalled c f =
      ∑ f ∈ Finset.range s.sys.fresh, s.uncalled c f := by
  simp only [uncalled, hsame.fresh, hsame.cb, hsame.ctx]

theorem inv (hsame : Same s t) (h : s.Inv) (hpc : s.pc.fiber? = none ∨ t.pc = s.pc)
    (hqueue : ∀ e ∈ t.sys.queue, t.known e.task)
    (hheld : ∀ {f r p}, t.pc = .inside f r p → t.Held f r p) : t.Inv := by
  refine ⟨hsame.safe.trans h.safe, hsame.fresh ▸ h.fresh, ?_, hqueue, ?_, hheld⟩
  · rw [hsame.kept, hsame.fresh]
    exact h.kept
  · intro f hf
    refine hsame.rest (h.rest f ?_)
    rcases hpc with hpc | hpc
    · simp [hpc]
    · rwa [← hpc]

theorem advance (hsame : Same s t) (hinv : t.Inv) (hlog : t.log = s.log) (hft : t.ft = s.ft)
    (hqueue : t.sys.queue = s.sys.queue)
    (hcarry : ∀ f, t.pc.carriesEntry f = s.pc.carriesEntry f)
    (hanswer : ∀ f, t.pc.answers f = s.pc.answers f)
    (hsetup : ∀ c, t.pc = .setup c ↔ s.pc = .setup c) : Advance s t [] := by
  refine ⟨hinv, hsame.moves, by simp [hlog], by simp, ?_, ?_, ?_⟩
  · intro f
    simp [due, hqueue, hcarry f]
  · intro f
    rw [owed, owed, hanswer f, Machine.state, Machine.state, hsame.state]
    rfl
  · intro c
    simp [uncalledAll, hqueue, hft, hsetup c, hsame.sum_uncalled c]

end Same

theorem Held.of_change {g : FiberId} (hh : s.Held f r p) (hc : Change s t g) (hg : f ≠ g)
    (hkept : t.cbFiber = s.cbFiber) : t.Held f r p := by
  refine ⟨?_, hh.idle, hh.made.trans_le hc.fresh, ?_, ?_, ?_⟩
  · rw [hc.state f hg]
    exact hh.state
  · rw [hc.state f hg, hc.ctx f hg]
    exact hh.fits
  · rw [hkept]
    exact hh.own
  · rw [hkept, hc.state f hg, hc.cb f hg, hc.ctx f hg]
    exact hh.stale

theorem Same.held (hsame : Same s t) (hh : s.Held f r p) : t.Held f r p :=
  hh.of_change (hsame.change (f + 1)) (Nat.ne_add_one f) hsame.kept

theorem Rest.held_idle (hr : s.Rest idleFiber) (h : s.Inv) (hx : s.state idleFiber ≠ .term) :
    s.Held idleFiber .idle .assertNotExec := by
  refine ⟨?_, by simp, h.fresh, fun hne => absurd rfl hne, by simp, ?_⟩
  · have := hr.idle rfl
    simp_all [Role.expected]
  · exact fun _ hkept => absurd rfl (h.kept _ hkept).1

theorem Same.look (hsame : Same s t) (h : s.Inv)
    (hs : s.pc = .scan ∨ s.pc = .dropped ∨ s.pc = .idleCheck)
    (ht : t.pc = .scan ∨ t.pc = .idleCheck ∨ t.pc = .exited ∨
      t.pc = .inside idleFiber .idle .assertNotExec ∧ s.state idleFiber ≠ .term)
    (hlog : t.log = s.log) (hft : t.ft = s.ft) (hqueue : t.sys.queue = s.sys.queue) :
    Advance s t [] := by
  have hnone : s.pc.fiber? = none ∧ (∀ f, s.pc.carriesEntry f = false) ∧
      (∀ f, s.pc.answers f = false) ∧ ∀ c, s.pc ≠ .setup c := by
    rcases hs with hs | hs | hs <;> simp [hs, Pc.fiber?, Pc.carriesEntry, Pc.answers]
  obtain ⟨hfiber, hcarry, hanswer, hsetup⟩ := hnone
  have hnone' : (∀ f, t.pc.carriesEntry f = false) ∧ (∀ f, t.pc.answers f = false) ∧
      ∀ c, t.pc ≠ .setup c := by
    rcases ht with ht | ht | ht | ⟨ht, -⟩ <;>
      simp [ht, Pc.carriesEntry, Pc.answers, Point.answering]
  obtain ⟨hcarry', hanswer', hsetup'⟩ := hnone'
  have hknown : ∀ e ∈ t.sys.queue, t.known e.task := by
    rw [hqueue]
    exact fun e he => known_mono hsame.fresh.ge (h.queue e he)
  refine hsame.advance (hsame.inv h (.inl hfiber) hknown ?_) hlog hft hqueue ?_ ?_ ?_
  · intro f r p hp
    rcases ht with ht | ht | ht | ⟨ht, hx⟩
    · cases ht.symm.trans hp
    · cases ht.symm.trans hp
    · cases ht.symm.trans hp
    · cases ht.symm.trans hp
      exact hsame.held ((h.rest idleFiber (by simp [hfiber])).held_idle h hx)
  · exact fun f => (hcarry' f).trans (hcarry f).symm
  · exact fun f => (hanswer' f).trans (hanswer f).symm
  · exact fun c => iff_of_false (hsetup' c) (hsetup c)

theorem Inv.unmade (h : s.Inv) : s.state s.sys.fresh = .init := by
  by_cases hf : s.pc.fiber? = some s.sys.fresh
  · cases hp : s.pc with
    | inside f r p =>
      have hlt := (h.held hp).made
      rw [hp] at hf
      exact absurd (Option.some.inj hf ▸ hlt) (lt_irrefl _)
    | scan | dropped | setup | idleCheck | exited => simp [hp, Pc.fiber?] at hf
  · exact (h.rest _ hf).unmade le_rfl

theorem Inv.initial : Machine.initial.Inv := by
  refine ⟨rfl, Nat.one_pos, ?_, ?_, ?_, ?_⟩
  · exact fun f hf => nomatch hf
  · exact fun e he => nomatch he
  · exact fun f _ => ⟨fun _ => .head _, fun _ => ⟨nofun, rfl⟩, nofun, fun _ => rfl⟩
  · exact fun hp => nomatch hp

theorem Books.initial : Machine.initial.Books := by
  refine ⟨?_, ?_, ?_, ?_⟩
  · exact fun f r x hx => nomatch hx
  · exact fun f => le_rfl
  · exact fun f => rfl
  · exact fun c => le_rfl

end Machine

end ApexStorm.Scheduler
