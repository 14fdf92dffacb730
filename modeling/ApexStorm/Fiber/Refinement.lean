import ApexStorm.Fiber.Context

/-!
# Saved contexts implement coroutines

`swapIn` stores the running code in the scheduler's main fiber, `call` in the root
fiber, and a yield or the end of a callback loads one of the two, whoever resumed the
fiber. As long as only the main fiber swaps in, only the root fiber calls, and neither
of them yields, every switch goes back to where the running fiber was resumed.
-/

namespace ApexStorm.Context
open Scheduler (FiberId State)
open Lib (Run)
open Lib.Coroutine (Label Op Rest Solo System)

variable {κ ε : Type}

def Instr.op : Instr κ ε → Op FiberId κ ε
  | .act e k => .act e k
  | .yieldToReady k | .yieldToHold k => .yield k
  | .swapIn f k | .call f k => .resume f k
  | .reset f cb k => .restart f cb k
  | .ret | .throw => .finish

namespace Thread
variable (s : Thread κ)

/-- What `Scheduler::run` makes sure of before it resumes a fiber. -/
def Resumable (f : FiberId) : Prop :=
  (s.fibers f).state = .init ∨ (s.fibers f).state = .ready ∨ (s.fibers f).state = .hold

/-- The instruction keeps to the fibers that `fiber.cpp` is written for. -/
def Allowed : Instr κ ε → Prop
  | .act _ _ | .ret | .throw => True
  | .yieldToReady _ | .yieldToHold _ =>
    s.getFiberId ≠ rootId ∧ s.mainFiber ≠ some s.getFiberId
  | .swapIn f _ => s.mainFiber = some s.getFiberId ∧ s.Resumable f
  | .call f _ =>
    s.getFiberId = rootId ∧ s.Resumable f ∧
      (s.mainFiber = none ∨ s.mainFiber = some rootId ∨ s.mainFiber = some f)
  | .reset f _ _ =>
    f ≠ rootId ∧ s.mainFiber ≠ some f ∧
      ((s.fibers f).state = .term ∨ (s.fibers f).state = .init ∨ (s.fibers f).state = .except)

def Disciplined (next : κ → Instr κ ε) : Prop :=
  match s.pc with
  | .routine k | .callback _ _ k => s.Allowed (next k)
  | .entry _ | .neverReach => True

def Ended (next : κ → Instr κ ε) : Prop :=
  ∃ k, s.pc = .routine k ∧ (next k).op = .finish

end Thread

def ctxOf (main : Option FiberId) (f : FiberId) : Rest κ → Ctx κ
  | .fresh _ => .entry (decide (main = some f))
  | .code k => if f = rootId then .routine k else .callback f (decide (main = some f)) k
  | .ended => .neverReach

inductive Shape (main : Option FiberId) : List FiberId → Prop
  | routine : Shape main [rootId]
  | called {f : FiberId} : f ≠ rootId → main = none ∨ main = some rootId ∨ main = some f →
      Shape main [f, rootId]
  | nested {f r : FiberId} : f ≠ rootId → r ≠ rootId → f ≠ r → main = some r →
      Shape main [f, r, rootId]

structure Represents (main : Option FiberId) (stack : List FiberId) (f : FiberId) (r : Rest κ)
    (x : Fiber κ) : Prop where
  ctx : stack.head? ≠ some f → x.ctx = ctxOf main f r
  exec : x.state = .exec ↔ f ∈ stack
  ended : x.state = .term ∨ x.state = .except ↔ r = .ended
  init : f ∉ stack → (x.state = .init ↔ ∃ c, r = .fresh c)
  stack : x.stack = true ↔ f ≠ rootId
  cb : ∀ c, r = .fresh c → x.cb = c

structure Related (main : Option FiberId) (a : System FiberId κ) (s : Thread κ) : Prop where
  shape : Shape main a.stack
  tFiber : s.tFiber = a.stack.head?
  threadFiber : s.threadFiber = some rootId
  mainFiber : s.mainFiber = main
  pc : ∀ f, a.stack.head? = some f → s.pc = ctxOf main f (a.rest f)
  fibers : ∀ f, Represents main a.stack f (a.rest f) (s.fibers f)
  root : ∃ k, a.rest rootId = .code k

section shape
variable {main : Option FiberId} {stack below : List FiberId} {f g : FiberId}

theorem Shape.exists_running (h : Shape main stack) : ∃ f below, stack = f :: below := by
  cases h with
  | routine => exact ⟨_, _, rfl⟩
  | called _ _ => exact ⟨_, _, rfl⟩
  | nested _ _ _ _ => exact ⟨_, _, rfl⟩

theorem Shape.nodup (h : Shape main stack) : stack.Nodup := by
  cases h with
  | routine => simp
  | called hf _ => simpa using hf
  | nested hf hr hne _ => simp [hf, hr, hne]

theorem Shape.tail (h : Shape main (f :: g :: below)) : Shape main (g :: below) := by
  cases h with
  | called _ _ => exact .routine
  | nested _ hr _ hmain => exact .called hr (.inr (.inr hmain))

theorem Shape.exists_below (h : Shape main (f :: below)) (hf : f ≠ rootId) :
    ∃ g rest, below = g :: rest := by
  cases h with
  | routine => exact absurd rfl hf
  | called _ _ => exact ⟨_, _, rfl⟩
  | nested _ _ _ _ => exact ⟨_, _, rfl⟩

/-- What `swapOut` and `back` load is the fiber that resumed the running one. -/
theorem Shape.returns_to (h : Shape main (f :: g :: below)) :
    g = if main = some f then rootId else main.getD rootId := by
  cases h with
  | called hf hmain =>
    obtain rfl | rfl | rfl := hmain
    · rfl
    · rw [if_neg (by simpa using hf.symm)]
      rfl
    · rw [if_pos rfl]
  | nested _ _ hne hmain =>
    subst hmain
    rw [if_neg (by simpa using hne.symm)]
    rfl

theorem Shape.push_swapIn (h : Shape (some f) (f :: below)) (hg : g ∉ f :: below) :
    Shape (some f) (g :: f :: below) := by
  cases h with
  | routine =>
    rw [List.mem_singleton] at hg
    exact .called hg (.inr (.inl rfl))
  | called hf _ =>
    simp only [List.mem_cons, List.not_mem_nil, or_false, not_or] at hg
    exact .nested hg.2 hf hg.1 rfl
  | nested _ _ hne hmain => exact absurd (Option.some.inj hmain) hne

theorem Shape.push_call (h : Shape main (rootId :: below)) (hg : g ∉ rootId :: below)
    (hmain : main = none ∨ main = some rootId ∨ main = some g) :
    Shape main (g :: rootId :: below) := by
  cases h with
  | routine =>
    rw [List.mem_singleton] at hg
    exact .called hg hmain
  | called hf _ => exact absurd rfl hf
  | nested hf _ _ _ => exact absurd rfl hf

end shape

namespace Represents
variable {main : Option FiberId} {stack stack' : List FiberId} {f : FiberId} {r : Rest κ}
  {x : Fiber κ}

theorem of_stack (h : Represents main stack f r x)
    (hhead : stack'.head? = some f ∨ stack.head? ≠ some f) (hmem : f ∈ stack ↔ f ∈ stack') :
    Represents main stack' f r x where
  ctx hne := h.ctx (hhead.resolve_left hne)
  exec := h.exec.trans hmem
  ended := h.ended
  init hf := h.init (mt hmem.mp hf)
  stack := h.stack
  cb := h.cb

end Represents

section machine
variable {s : Thread κ} {f g h : FiberId} {k : Ctx κ} {u : Fiber κ → Fiber κ}

@[simp] theorem Thread.modify_self : (s.modify f u).fibers f = u (s.fibers f) :=
  Function.update_self ..

theorem Thread.modify_of_ne (hne : h ≠ f) : (s.modify f u).fibers h = s.fibers h :=
  Function.update_of_ne hne ..

theorem Thread.swapcontext_saved :
    (s.swapcontext f g k).fibers f = { s.fibers f with ctx := k } :=
  Function.update_self ..

theorem Thread.swapcontext_of_ne (hne : h ≠ f) : (s.swapcontext f g k).fibers h = s.fibers h :=
  Function.update_of_ne hne ..

theorem Thread.swapcontext_pc (hne : g ≠ f) : (s.swapcontext f g k).pc = (s.fibers g).ctx :=
  congrArg Fiber.ctx (Thread.modify_of_ne hne)

end machine

namespace Related
variable {main : Option FiberId} {a : System FiberId κ} {s : Thread κ} {f g : FiberId}
  {below : List FiberId} {c k : κ} {r : Rest κ}

theorem root_setRest (h : Related main a s) (hf : f = rootId → ∃ k, r = .code k) :
    ∃ k, (a.setRest f r).rest rootId = .code k := by
  by_cases hroot : f = rootId
  · subst hroot
    rw [System.setRest_self]
    exact hf rfl
  · rw [System.setRest_of_ne (Ne.symm hroot)]
    exact h.root

theorem advance (h : Related main a s) (hstack : a.stack = f :: below)
    (hf : a.rest f ≠ .ended) :
    Related main (a.setRest f (.code k)) { s with pc := ctxOf main f (.code k) } where
  shape := h.shape
  tFiber := h.tFiber
  threadFiber := h.threadFiber
  mainFiber := h.mainFiber
  pc f' hf' := by
    have hhead : a.stack.head? = some f' := hf'
    rw [hstack, List.head?_cons, Option.some.injEq] at hhead
    subst hhead
    rw [System.setRest_self]
  fibers f' := by
    by_cases hne : f' = f
    · subst hne
      have hrep := h.fibers f'
      have hmem : f' ∈ a.stack := by simp [hstack]
      rw [System.setRest_self]
      exact
        { ctx := fun hne => absurd (by simp [System.setRest, hstack]) hne
          exec := hrep.exec
          ended := by simpa [hf] using hrep.ended
          init := fun hnot => absurd hmem hnot
          stack := hrep.stack
          cb := by rintro c ⟨⟩ }
    · rw [System.setRest_of_ne hne]
      exact h.fibers f'
  root := h.root_setRest fun _ => ⟨k, rfl⟩

theorem push (h : Related main a s) (hstack : a.stack = f :: below) (hg : g ∉ a.stack)
    (hf : a.rest f = .code c) (hrest : a.rest g ≠ .ended) (hshape : Shape main (g :: a.stack)) :
    Related main { a.setRest f (.code k) with stack := g :: a.stack }
      (((s.setThis g).setState g .exec).swapcontext f g (ctxOf main f (.code k))) := by
  have hmem : f ∈ a.stack := by simp [hstack]
  have hne : g ≠ f := fun heq => hg (heq ▸ hmem)
  have hother : ∀ f', f' ≠ f → f' ≠ g →
      (((s.setThis g).setState g .exec).swapcontext f g (ctxOf main f (.code k))).fibers f' =
        s.fibers f' := by
    intro f' hf' hg'
    rw [Thread.swapcontext_of_ne hf', Thread.setState, Thread.modify_of_ne hg', Thread.setThis]
  have hsaved : (((s.setThis g).setState g .exec).swapcontext f g
      (ctxOf main f (.code k))).fibers f = { s.fibers f with ctx := ctxOf main f (.code k) } := by
    rw [Thread.swapcontext_saved, Thread.setState, Thread.modify_of_ne hne.symm, Thread.setThis]
  have hloaded : (((s.setThis g).setState g .exec).swapcontext f g
      (ctxOf main f (.code k))).fibers g = { s.fibers g with state := .exec } := by
    rw [Thread.swapcontext_of_ne hne, Thread.setState, Thread.modify_self, Thread.setThis]
  have hnot : a.stack.head? ≠ some g := by
    rw [hstack, List.head?_cons, ne_eq, Option.some.injEq]
    exact hne.symm
  refine ⟨hshape, rfl, h.threadFiber, h.mainFiber, ?_, ?_, h.root_setRest fun _ => ⟨k, rfl⟩⟩
  · intro f' hf'
    rw [List.head?_cons, Option.some.injEq] at hf'
    subst hf'
    rw [Thread.swapcontext_pc hne, System.setRest_of_ne hne, Thread.setState, Thread.modify_self]
    exact (h.fibers g).ctx hnot
  · intro f'
    by_cases hf' : f' = f
    · subst hf'
      have hrep := h.fibers f'
      rw [hsaved, System.setRest_self]
      exact
        { ctx := fun _ => rfl
          exec := by simpa [hmem] using hrep.exec
          ended := by simpa [hf] using hrep.ended
          init := fun hnot => absurd (List.mem_cons_of_mem _ hmem) hnot
          stack := hrep.stack
          cb := by rintro c ⟨⟩ }
    by_cases hg' : f' = g
    · subst hg'
      have hrep := h.fibers f'
      rw [hloaded, System.setRest_of_ne hne]
      exact
        { ctx := fun hhead => absurd rfl hhead
          exec := by simp
          ended := by simp [hrest]
          init := fun hnot => absurd List.mem_cons_self hnot
          stack := hrep.stack
          cb := hrep.cb }
    rw [hother f' hf' hg', System.setRest_of_ne hf']
    refine (h.fibers f').of_stack (.inr ?_) (by simp [hg'])
    rw [hstack, List.head?_cons, ne_eq, Option.some.injEq]
    exact Ne.symm hf'

theorem pop {u : Fiber κ → Fiber κ} (h : Related main a s) (hstack : a.stack = f :: g :: below)
    (hf : f ≠ rootId)
    (hu : Represents main (g :: below) f r { u (s.fibers f) with ctx := ctxOf main f r }) :
    Related main { a.setRest f r with stack := g :: below }
      (((s.modify f u).setThis g).swapcontext f g (ctxOf main f r)) := by
  have hshape := h.shape
  rw [hstack] at hshape
  have hnodup := hshape.nodup
  have hfmem : f ∉ g :: below := (List.nodup_cons.mp hnodup).1
  have hne : g ≠ f := fun heq => hfmem (heq ▸ List.mem_cons_self)
  have hnot : a.stack.head? ≠ some g := by
    rw [hstack, List.head?_cons, ne_eq, Option.some.injEq]
    exact hne.symm
  refine ⟨hshape.tail, rfl, h.threadFiber, h.mainFiber, ?_, ?_,
    h.root_setRest fun hroot => absurd hroot hf⟩
  · intro f' hf'
    rw [List.head?_cons, Option.some.injEq] at hf'
    subst hf'
    rw [Thread.swapcontext_pc hne, System.setRest_of_ne hne, Thread.setThis,
      Thread.modify_of_ne hne]
    exact (h.fibers g).ctx hnot
  · intro f'
    by_cases hf' : f' = f
    · subst hf'
      rw [Thread.swapcontext_saved, System.setRest_self, Thread.setThis, Thread.modify_self]
      exact hu
    rw [Thread.swapcontext_of_ne hf', System.setRest_of_ne hf', Thread.setThis,
      Thread.modify_of_ne hf']
    refine (h.fibers f').of_stack (.inr ?_) (by simp [hstack, hf'])
    rw [hstack, List.head?_cons, ne_eq, Option.some.injEq]
    exact Ne.symm hf'

end Related

section returning
variable {s : Thread κ} {main : Option FiberId} {f g : FiberId} {k : Ctx κ}

theorem Thread.yield_returns (hmain : s.mainFiber = main) (hthread : s.threadFiber = some rootId)
    (hg : g = main.getD rootId) :
    (if s.mainFiber.isSome then s.swapOut f k else s.back f k) =
      some ((s.setThis g).swapcontext f g k) := by
  subst hg
  cases main with
  | none => simp [hmain, hthread, Thread.back]
  | some m => simp [hmain, Thread.swapOut]

theorem Thread.leave_returns (hmain : s.mainFiber = main) (hthread : s.threadFiber = some rootId)
    (hg : g = if main = some f then rootId else main.getD rootId) :
    s.leave f (decide (main = some f)) = some ((s.setThis g).swapcontext f g .neverReach) := by
  rw [Thread.leave]
  by_cases hf : main = some f
  · rw [if_pos (by simpa using hf)]
    rw [if_pos hf] at hg
    subst hg
    simp [hthread, Thread.back]
  · rw [if_neg (by simpa using hf), hthread]
    rw [if_neg hf] at hg
    exact Thread.yield_returns hmain hthread hg

theorem Thread.step_code {next : κ → Instr κ ε} {c : κ} (hpc : s.pc = ctxOf main f (.code c))
    (hgo : (next c).op ≠ .finish) :
    s.step next = s.exec (fun k => ctxOf main f (.code k)) (next c) := by
  rw [Thread.step, hpc, ctxOf]
  by_cases hf : f = rootId
  · simp only [if_pos hf, ctxOf]
  · simp only [if_neg hf, ctxOf]
    cases hnext : next c with
    | ret | throw => exact absurd (by rw [hnext]; rfl) hgo
    | _ => rfl

theorem Thread.allowed_code {next : κ → Instr κ ε} {c : κ} (hpc : s.pc = ctxOf main f (.code c))
    (hd : s.Disciplined next) : s.Allowed (next c) := by
  rw [Thread.Disciplined, hpc, ctxOf] at hd
  by_cases hf : f = rootId
  · simpa only [if_pos hf] using hd
  · simpa only [if_neg hf] using hd

end returning

section steps
variable {main : Option FiberId} {a : System FiberId κ} {s : Thread κ} {f g : FiberId}
  {below : List FiberId} {next : κ → Instr κ ε} {c k : κ} {st : State}

def Matched (next : κ → Instr κ ε) (main : Option FiberId) (a : System FiberId κ)
    (s : Thread κ) : Prop :=
  ∃ l t b, s.step next = some (l, t) ∧ Lib.Coroutine.Step (fun c => (next c).op) a l b ∧
    Related main b t

namespace Related

theorem getFiberId (h : Related main a s) (hstack : a.stack = f :: below) :
    s.getFiberId = f := by
  rw [Thread.getFiberId, h.tFiber, hstack]
  rfl

theorem getThis (h : Related main a s) (hstack : a.stack = f :: below) : s.getThis = (f, s) := by
  have htFiber : s.tFiber = some f := by rw [h.tFiber, hstack]; rfl
  rw [Thread.getThis, htFiber]

theorem not_ended (h : Related main a s) (hf : f ∈ a.stack) : a.rest f ≠ .ended := by
  intro hend
  have hexec := (h.fibers f).exec.mpr hf
  have hover := (h.fibers f).ended.mpr hend
  rw [hexec] at hover
  simp at hover

theorem resumable (h : Related main a s) (hg : s.Resumable g) :
    g ∉ a.stack ∧ a.rest g ≠ .ended := by
  rw [Thread.Resumable] at hg
  rw [← (h.fibers g).exec, ne_eq, ← (h.fibers g).ended]
  obtain hg | hg | hg := hg <;> simp [hg]

theorem matched_yield (h : Related main a s) (hstack : a.stack = f :: below)
    (hf : a.rest f = .code c) (hop : (next c).op = .yield k) (hst : st = .ready ∨ st = .hold)
    (hroot : f ≠ rootId) (hmain : main ≠ some f)
    (hstep : s.step next = (s.yieldTo st (ctxOf main f (.code k))).map (.tau, ·)) :
    Matched next main a s := by
  have hshape := h.shape
  rw [hstack] at hshape
  obtain ⟨g, rest, rfl⟩ := hshape.exists_below hroot
  have hg := hshape.returns_to
  rw [if_neg hmain] at hg
  have hyield : s.yieldTo st (ctxOf main f (.code k)) =
      some (((s.setState f st).setThis g).swapcontext f g (ctxOf main f (.code k))) := by
    rw [Thread.yieldTo, h.getThis hstack]
    exact Thread.yield_returns (s := s.setState f st) h.mainFiber h.threadFiber hg
  rw [hyield] at hstep
  refine ⟨_, _, _, hstep, .yield hstack (by simp) hf hop, h.pop hstack hroot ?_⟩
  have hnot : f ∉ g :: rest := (List.nodup_cons.mp hshape.nodup).1
  exact
    { ctx := fun _ => rfl
      exec := by obtain rfl | rfl := hst <;> simpa using hnot
      ended := by obtain rfl | rfl := hst <;> simp
      init := fun _ => by obtain rfl | rfl := hst <;> simp
      stack := (h.fibers f).stack
      cb := by rintro c ⟨⟩ }

theorem matched_leave {u : Fiber κ → Fiber κ} (h : Related main a s)
    (hstack : a.stack = f :: below) (hroot : f ≠ rootId)
    (hop : a.rest f = .fresh none ∨ ∃ c, a.rest f = .code c ∧ (next c).op = .finish)
    (hst : st = .term ∨ st = .except) (hstate : (u (s.fibers f)).state = st)
    (hkeep : (u (s.fibers f)).stack = (s.fibers f).stack)
    (hstep : s.step next = ((s.modify f u).leave f (decide (main = some f))).map (.tau, ·)) :
    Matched next main a s := by
  have hshape := h.shape
  rw [hstack] at hshape
  obtain ⟨g, rest, rfl⟩ := hshape.exists_below hroot
  have hleave := Thread.leave_returns (s := s.modify f u) h.mainFiber h.threadFiber
    hshape.returns_to
  rw [hleave] at hstep
  have hnot : f ∉ g :: rest := (List.nodup_cons.mp hshape.nodup).1
  have hpop := h.pop (r := .ended) (u := u) hstack hroot
    { ctx := fun _ => rfl
      exec := by simpa [hstate, hnot] using by obtain rfl | rfl := hst <;> simp
      ended := by simpa [hstate] using hst
      init := fun _ => by simpa [hstate] using by obtain rfl | rfl := hst <;> simp
      stack := by simpa [hkeep] using (h.fibers f).stack
      cb := by rintro c ⟨⟩ }
  obtain hempty | ⟨c, hc, hop⟩ := hop
  · exact ⟨_, _, _, hstep, .empty hstack (by simp) hempty, hpop⟩
  · exact ⟨_, _, _, hstep, .finish hstack (by simp) hc hop, hpop⟩

theorem matched_resume (h : Related main a s) (hstack : a.stack = f :: below)
    (hf : a.rest f = .code c) (hop : (next c).op = .resume g k) (hg : s.Resumable g)
    (hshape : g ∉ a.stack → Shape main (g :: a.stack))
    (hstep : s.step next = some (.tau,
      ((s.setThis g).setState g .exec).swapcontext f g (ctxOf main f (.code k)))) :
    Matched next main a s := by
  obtain ⟨hnot, hend⟩ := h.resumable hg
  exact ⟨_, _, _, hstep, .resume hstack hf hop hnot hend,
    h.push hstack hnot hf hend (hshape hnot)⟩

theorem matched_reset {cb : Option κ} (h : Related main a s) (hstack : a.stack = f :: below)
    (hf : a.rest f = .code c) (hop : (next c).op = .restart g cb k) (hroot : g ≠ rootId)
    (hmain : main ≠ some g)
    (hst : (s.fibers g).state = .term ∨ (s.fibers g).state = .init ∨
      (s.fibers g).state = .except)
    (hstep : s.step next = (s.reset g cb).map fun s =>
      (.restart g cb, { s with pc := ctxOf main f (.code k) })) :
    Matched next main a s := by
  have hmem : f ∈ a.stack := by simp [hstack]
  have hnot : g ∉ a.stack := by
    rw [← (h.fibers g).exec]
    obtain hst | hst | hst := hst <;> simp [hst]
  have hne : g ≠ f := fun heq => hnot (heq ▸ hmem)
  rw [Thread.reset, if_pos ⟨(h.fibers g).stack.mpr hroot, hst⟩, Option.map_some] at hstep
  refine ⟨_, _, _, hstep, .restart hstack hf hop hnot, ?_⟩
  -- the running fiber advances, and the object of `g` is replaced
  have hadv := h.advance (k := k) hstack (h.not_ended hmem)
  refine ⟨hadv.shape, hadv.tFiber, hadv.threadFiber, hadv.mainFiber, ?_, ?_, ?_⟩
  · intro f' hf'
    have hhead : a.stack.head? = some f' := hf'
    rw [hstack, List.head?_cons, Option.some.injEq] at hhead
    subst hhead
    rw [System.setRest_of_ne hne.symm]
    exact hadv.pc f hf'
  · intro f'
    by_cases hf' : f' = g
    · subst hf'
      rw [System.setRest_self]
      dsimp only
      rw [Thread.modify_self]
      exact
        { ctx := fun _ => by simp [ctxOf, hmain]
          exec := by simpa using hnot
          ended := by simp
          init := fun _ => by simp
          stack := (h.fibers f').stack
          cb := by rintro c ⟨⟩; rfl }
    · rw [System.setRest_of_ne hf']
      dsimp only
      rw [Thread.modify_of_ne hf']
      exact hadv.fibers f'
  · rw [System.setRest_of_ne hroot.symm]
    exact hadv.root

theorem matched_fresh {cb : Option κ} (h : Related main a s) (hstack : a.stack = f :: below)
    (hf : a.rest f = .fresh cb) : Matched next main a s := by
  have hmem : f ∈ a.stack := by simp [hstack]
  have hroot : f ≠ rootId := by
    rintro rfl
    obtain ⟨k, hk⟩ := h.root
    rw [hf] at hk
    cases hk
  have hpc := h.pc f (by rw [hstack]; rfl)
  have hcb := (h.fibers f).cb cb hf
  have hstep : s.step next = (s.enter (decide (main = some f))).map (.tau, ·) := by
    rw [Thread.step, hpc, hf, ctxOf]
  rw [Thread.enter, h.getThis hstack] at hstep
  dsimp only at hstep
  rw [hcb] at hstep
  cases cb with
  | some k =>
    have hadv := h.advance (k := k) hstack (h.not_ended hmem)
    rw [ctxOf, if_neg hroot] at hadv
    exact ⟨_, _, _, hstep, .start hstack hf, hadv⟩
  | none => exact h.matched_leave hstack hroot (.inl hf) (.inr rfl) rfl rfl hstep

theorem matched_code (h : Related main a s) (hstack : a.stack = f :: below)
    (hf : a.rest f = .code c) (hd : s.Disciplined next) (hend : ¬ s.Ended next) :
    Matched next main a s := by
  have hmem : f ∈ a.stack := by simp [hstack]
  have hpc : s.pc = ctxOf main f (.code c) := by rw [h.pc f (by rw [hstack]; rfl), hf]
  have hallowed := Thread.allowed_code hpc hd
  have hgo : (next c).op ≠ .finish →
      s.step next = s.exec (fun k => ctxOf main f (.code k)) (next c) := Thread.step_code hpc
  have hroot : (next c).op = .finish → f ≠ rootId := by
    rintro hop rfl
    exact hend ⟨c, hpc, hop⟩
  have hcallback : f ≠ rootId → s.pc = .callback f (decide (main = some f)) c := by
    intro hne
    rw [hpc, ctxOf, if_neg hne]
  have hshape := h.shape
  rw [hstack] at hshape
  have hfiber := h.getFiberId hstack
  cases hnext : next c with
  | act e k =>
    have hstep := hgo (by simp [hnext, Instr.op])
    rw [hnext, Thread.exec, hfiber] at hstep
    exact ⟨_, _, _, hstep, .act hstack hf (by rw [hnext]; rfl),
      h.advance hstack (h.not_ended hmem)⟩
  | yieldToReady k =>
    have hstep := hgo (by simp [hnext, Instr.op])
    rw [hnext, Thread.Allowed, hfiber, h.mainFiber] at hallowed
    rw [hnext] at hstep
    exact h.matched_yield hstack hf (by rw [hnext]; rfl) (.inl rfl) hallowed.1 hallowed.2 hstep
  | yieldToHold k =>
    have hstep := hgo (by simp [hnext, Instr.op])
    rw [hnext, Thread.Allowed, hfiber, h.mainFiber] at hallowed
    rw [hnext] at hstep
    exact h.matched_yield hstack hf (by rw [hnext]; rfl) (.inr rfl) hallowed.1 hallowed.2 hstep
  | swapIn g k =>
    have hstep := hgo (by simp [hnext, Instr.op])
    rw [hnext, Thread.Allowed, hfiber, h.mainFiber] at hallowed
    obtain ⟨rfl, hg⟩ := hallowed
    have hexec : (s.fibers g).state ≠ .exec := by
      rw [ne_eq, (h.fibers g).exec]
      exact (h.resumable hg).1
    rw [hnext, Thread.exec, Thread.swapIn] at hstep
    refine h.matched_resume hstack hf (by rw [hnext]; rfl) hg ?_ (hstep.trans ?_)
    · intro hnot
      rw [hstack] at hnot ⊢
      exact hshape.push_swapIn hnot
    · simp [Thread.setThis, Thread.setState, Thread.modify, hexec, h.mainFiber]
  | call g k =>
    have hstep := hgo (by simp [hnext, Instr.op])
    rw [hnext, Thread.Allowed, hfiber, h.mainFiber] at hallowed
    obtain ⟨rfl, hg, hmain⟩ := hallowed
    rw [hnext, Thread.exec, Thread.call] at hstep
    refine h.matched_resume hstack hf (by rw [hnext]; rfl) hg ?_ (hstep.trans ?_)
    · intro hnot
      rw [hstack] at hnot ⊢
      exact hshape.push_call hnot hmain
    · simp [Thread.setThis, Thread.setState, Thread.modify, h.threadFiber]
  | reset g cb k =>
    have hstep := hgo (by simp [hnext, Instr.op])
    rw [hnext, Thread.Allowed, h.mainFiber] at hallowed
    rw [hnext] at hstep
    exact h.matched_reset hstack hf (by rw [hnext]; rfl) hallowed.1 hallowed.2.1 hallowed.2.2 hstep
  | ret =>
    have hop : (next c).op = .finish := by rw [hnext]; rfl
    refine h.matched_leave hstack (hroot hop) (.inr ⟨c, hf, hop⟩) (.inl rfl) rfl rfl
      (u := fun fiber => { fiber with cb := none, state := .term }) ?_
    rw [Thread.step, hcallback (hroot hop)]
    simp only [hnext]
    rfl
  | throw =>
    have hop : (next c).op = .finish := by rw [hnext]; rfl
    refine h.matched_leave hstack (hroot hop) (.inr ⟨c, hf, hop⟩) (.inr rfl) rfl rfl
      (u := fun fiber => { fiber with state := .except }) ?_
    rw [Thread.step, hcallback (hroot hop)]
    simp only [hnext]
    rfl

theorem matched (h : Related main a s) (hd : s.Disciplined next) (hend : ¬ s.Ended next) :
    Matched next main a s := by
  obtain ⟨f, below, hstack⟩ := h.shape.exists_running
  cases hf : a.rest f with
  | fresh cb => exact h.matched_fresh hstack hf
  | code c => exact h.matched_code hstack hf hd hend
  | ended => exact absurd hf (h.not_ended (by simp [hstack]))

end Related

end steps

def coroutines (cbs : FiberId → Option κ) (k : κ) : System FiberId κ where
  rest := Function.update (fun f => .fresh (cbs f)) rootId (.code k)
  stack := [rootId]

theorem related_start (main : Option FiberId) (cbs : FiberId → Option κ) (k : κ) :
    Related main (coroutines cbs k) (Thread.start main cbs k) where
  shape := .routine
  tFiber := rfl
  threadFiber := rfl
  mainFiber := rfl
  pc f hf := by
    cases hf
    rfl
  fibers f := by
    by_cases hf : f = rootId
    · subst hf
      exact
        { ctx := fun hne => absurd rfl hne
          exec := by simp [coroutines, Thread.start, Thread.getThis, Fiber.root]
          ended := by simp [coroutines, Thread.start, Thread.getThis, Fiber.root]
          init := fun hnot => absurd List.mem_cons_self hnot
          stack := by simp [Thread.start, Thread.getThis, Fiber.root]
          cb := fun c hc => by simp [coroutines] at hc }
    · have hrest : (coroutines cbs k).rest f = .fresh (cbs f) := by simp [coroutines, hf]
      have hfiber : (Thread.start main cbs k).fibers f =
          .new (cbs f) (decide (main = some f)) := Function.update_of_ne hf ..
      rw [hrest, hfiber]
      exact
        { ctx := fun _ => rfl
          exec := by simpa [coroutines, Fiber.new] using hf
          ended := by simp [Fiber.new]
          init := fun _ => by simp [Fiber.new]
          stack := by simpa [Fiber.new] using hf
          cb := by rintro c ⟨⟩; rfl }
  root := ⟨k, by simp [coroutines]⟩

section runs
variable {main : Option FiberId} {cbs : FiberId → Option κ} {k : κ} {next : κ → Instr κ ε}
  {ls : List (Label FiberId κ ε)} {s : Thread κ}

def Thread.Step (next : κ → Instr κ ε) (s : Thread κ) (l : Label FiberId κ ε) (t : Thread κ) :
    Prop :=
  s.Disciplined next ∧ s.step next = some (l, t)

theorem related_run (h : Run (Thread.Step next) (Thread.start main cbs k) ls s) :
    ∃ a, Run (Lib.Coroutine.Step fun c => (next c).op) (coroutines cbs k) ls a ∧
      Related main a s := by
  refine h.simulate (R := fun s a => Related main a s) ?_ (related_start main cbs k)
  intro s l t a hrel hstep
  by_cases hend : s.Ended next
  · obtain ⟨c, hpc, hop⟩ := hend
    have hnone : s.step next = none := by
      rw [Thread.step, hpc]
      cases hnext : next c with
      | ret => simp [hnext, Thread.exec]
      | throw => simp [hnext, Thread.exec]
      | _ => rw [hnext] at hop; cases hop
    rw [hstep.2] at hnone
    cases hnone
  · obtain ⟨l', t', b, hs, ha, hb⟩ := hrel.matched hstep.1 hend
    rw [hstep.2] at hs
    cases hs
    exact ⟨b, ha, hb⟩

-- The caller's thread: its own code calls the root fiber 1 of the scheduler, which swaps in
-- the task 2 twice; the task yields in between.
def sampleCode : ℕ → Instr ℕ ℕ
  | 0 => .call 1 1
  | 1 => .act 9 2
  | 10 => .swapIn 2 11
  | 11 => .act 8 12
  | 12 => .swapIn 2 13
  | 20 => .act 5 21
  | 21 => .yieldToHold 22
  | 22 => .act 6 23
  | _ => .ret

def sampleLabels : List (Label FiberId ℕ ℕ) :=
  [.tau, .tau, .tau, .tau, .event 2 5, .tau, .event 1 8, .tau, .event 2 6, .tau, .tau]

theorem sample_run :
    ∃ s, Run (Thread.Step sampleCode) (Thread.start (some 1) (fun f => some (10 * f)) 0)
      sampleLabels s ∧ s.pc = .routine 1 :=
  ⟨_, .cons ⟨⟨rfl, .inl rfl, .inr (.inr rfl)⟩, rfl⟩ <| .cons ⟨trivial, rfl⟩ <|
    .cons ⟨⟨rfl, .inl rfl⟩, rfl⟩ <| .cons ⟨trivial, rfl⟩ <| .cons ⟨trivial, rfl⟩ <|
    .cons ⟨⟨by decide, by decide⟩, rfl⟩ <| .cons ⟨trivial, rfl⟩ <|
    .cons ⟨⟨rfl, .inr (.inr rfl)⟩, rfl⟩ <| .cons ⟨trivial, rfl⟩ <| .cons ⟨trivial, rfl⟩ <|
    .cons ⟨trivial, rfl⟩ <| .nil _, rfl⟩

/-- What a thread does with saved contexts its fibers do as coroutines: control always
returns to the code that resumed the running fiber, `t_fiber` is the fiber whose code
runs, `m_state` says where each fiber stands, and each fiber runs through its own code. -/
theorem contexts_refine_coroutines
    (h : Run (Thread.Step next) (Thread.start main cbs k) ls s) :
    ∃ a, Run (Lib.Coroutine.Step fun c => (next c).op) (coroutines cbs k) ls a ∧
      Related main a s ∧
      ∀ f, Solo (fun c => (next c).op) ((coroutines cbs k).rest f)
        (ls.filterMap (Label.of f)) (a.rest f) := by
  obtain ⟨a, hrun, hrel⟩ := related_run h
  exact ⟨a, hrun, hrel, Lib.Coroutine.solo_of_run hrun⟩

theorem contexts_refine_coroutines_sample :
    ∃ s a, Run (Thread.Step sampleCode) (Thread.start (some 1) (fun f => some (10 * f)) 0)
        sampleLabels s ∧
      Related (some 1) a s ∧
      Solo (fun c => (sampleCode c).op) (.fresh (some 20)) [.inl 5, .inl 6] (a.rest 2) := by
  obtain ⟨s, hrun, -⟩ := sample_run
  obtain ⟨a, -, hrel, hsolo⟩ := contexts_refine_coroutines hrun
  exact ⟨s, a, hrun, hrel, hsolo 2⟩

/-- No assertion of `fiber.cpp` fails and no null fiber is followed. -/
theorem disciplined_never_aborts
    (h : Run (Thread.Step next) (Thread.start main cbs k) ls s) (hd : s.Disciplined next)
    (hend : ¬ s.Ended next) : (s.step next).isSome := by
  obtain ⟨a, -, hrel⟩ := related_run h
  obtain ⟨l, t, b, hstep, -, -⟩ := hrel.matched hd hend
  rw [hstep]
  rfl

theorem disciplined_never_aborts_sample :
    ∃ s, Run (Thread.Step sampleCode) (Thread.start (some 1) (fun f => some (10 * f)) 0)
        sampleLabels s ∧ (s.step sampleCode).isSome := by
  obtain ⟨s, hrun, hpc⟩ := sample_run
  refine ⟨s, hrun, disciplined_never_aborts hrun ?_ ?_⟩
  · rw [Thread.Disciplined, hpc]
    trivial
  · rintro ⟨k, hk, hop⟩
    rw [hpc] at hk
    cases hk
    cases hop

end runs

end ApexStorm.Context
