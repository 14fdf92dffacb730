import ApexStorm.Lib.Run

/-!
# Asymmetric coroutines

A coroutine is a piece of code with a name. One of them runs; it may resume another
one, which then runs until it yields or ends, and control is back behind the
resumption. What a coroutine has left to do changes only by its own steps, so its
events come in the order of its code however the coroutines are interleaved.
-/

namespace ApexStorm.Lib.Coroutine

variable {ι κ ε : Type*}

/-- What the code at a position does next, and where it goes on. -/
inductive Op (ι κ ε : Type*)
  | act (e : ε) (k : κ)
  | yield (k : κ)
  | resume (g : ι) (k : κ)
  | restart (g : ι) (c : Option κ) (k : κ)
  | finish

/-- What a coroutine has left to do. One without code ends as soon as it is resumed. -/
inductive Rest (κ : Type*)
  | fresh (c : Option κ)
  | code (c : κ)
  | ended

inductive Label (ι κ ε : Type*)
  | event (f : ι) (e : ε)
  | restart (f : ι) (c : Option κ)
  | tau

/-- The coroutines that wait for another one to return stand below it on the stack. -/
structure System (ι κ : Type*) where
  rest : ι → Rest κ
  stack : List ι

variable [DecidableEq ι]

def System.setRest (s : System ι κ) (f : ι) (r : Rest κ) : System ι κ :=
  { s with rest := Function.update s.rest f r }

inductive Step (op : κ → Op ι κ ε) : System ι κ → Label ι κ ε → System ι κ → Prop
  | act {s : System ι κ} {f : ι} {below : List ι} {c k : κ} {e : ε} :
      s.stack = f :: below → s.rest f = .code c → op c = .act e k →
      Step op s (.event f e) (s.setRest f (.code k))
  | yield {s : System ι κ} {f : ι} {below : List ι} {c k : κ} :
      s.stack = f :: below → below ≠ [] → s.rest f = .code c → op c = .yield k →
      Step op s .tau { s.setRest f (.code k) with stack := below }
  | resume {s : System ι κ} {f g : ι} {below : List ι} {c k : κ} :
      s.stack = f :: below → s.rest f = .code c → op c = .resume g k →
      g ∉ s.stack → s.rest g ≠ .ended →
      Step op s .tau { s.setRest f (.code k) with stack := g :: s.stack }
  | restart {s : System ι κ} {f g : ι} {below : List ι} {c k : κ} {d : Option κ} :
      s.stack = f :: below → s.rest f = .code c → op c = .restart g d k → g ∉ s.stack →
      Step op s (.restart g d) ((s.setRest f (.code k)).setRest g (.fresh d))
  | start {s : System ι κ} {f : ι} {below : List ι} {c : κ} :
      s.stack = f :: below → s.rest f = .fresh (some c) →
      Step op s .tau (s.setRest f (.code c))
  | empty {s : System ι κ} {f : ι} {below : List ι} :
      s.stack = f :: below → below ≠ [] → s.rest f = .fresh none →
      Step op s .tau { s.setRest f .ended with stack := below }
  | finish {s : System ι κ} {f : ι} {below : List ι} {c : κ} :
      s.stack = f :: below → below ≠ [] → s.rest f = .code c → op c = .finish →
      Step op s .tau { s.setRest f .ended with stack := below }

def Label.of (f : ι) : Label ι κ ε → Option (ε ⊕ Option κ)
  | .event g e => if g = f then some (.inl e) else none
  | .restart g c => if g = f then some (.inr c) else none
  | .tau => none

inductive Silent (op : κ → Op ι κ ε) : Rest κ → Rest κ → Prop
  | yield {c k : κ} : op c = .yield k → Silent op (.code c) (.code k)
  | resume {c k : κ} {g : ι} : op c = .resume g k → Silent op (.code c) (.code k)
  | restart {c k : κ} {g : ι} {d : Option κ} :
      op c = .restart g d k → Silent op (.code c) (.code k)
  | start (c : κ) : Silent op (.fresh (some c)) (.code c)
  | empty : Silent op (.fresh none) .ended
  | finish {c : κ} : op c = .finish → Silent op (.code c) .ended

/-- The coroutine on its own: its code, executed in order. -/
inductive Solo (op : κ → Op ι κ ε) (r : Rest κ) : List (ε ⊕ Option κ) → Rest κ → Prop
  | nil : Solo op r [] r
  | act {es : List (ε ⊕ Option κ)} {c k : κ} {e : ε} :
      Solo op r es (.code c) → op c = .act e k → Solo op r (es ++ [.inl e]) (.code k)
  | silent {es : List (ε ⊕ Option κ)} {r' r'' : Rest κ} :
      Solo op r es r' → Silent op r' r'' → Solo op r es r''
  | restart {es : List (ε ⊕ Option κ)} {r' : Rest κ} (c : Option κ) :
      Solo op r es r' → Solo op r (es ++ [.inr c]) (.fresh c)

section
variable {op : κ → Op ι κ ε} {s t : System ι κ} {l : Label ι κ ε} {f g : ι} {r : Rest κ}

@[simp] theorem System.setRest_stack : (s.setRest f r).stack = s.stack := rfl

theorem System.setRest_self : (s.setRest f r).rest f = r := Function.update_self ..

theorem System.setRest_of_ne (h : g ≠ f) : (s.setRest f r).rest g = s.rest g :=
  Function.update_of_ne h ..

theorem Solo.setRest {r₀ r' : Rest κ} {es : List (ε ⊕ Option κ)}
    (h : Solo op r₀ es (s.rest g)) (hf : s.rest f = r') (hr : Silent op r' r) :
    Solo op r₀ es ((s.setRest f r).rest g) := by
  by_cases hg : g = f
  · subst hg
    rw [System.setRest_self]
    rw [hf] at h
    exact h.silent hr
  · rwa [System.setRest_of_ne hg]

theorem Step.solo {r₀ : Rest κ} {ls : List (Label ι κ ε)} (h : Step op s l t)
    (hs : Solo op r₀ (ls.filterMap (Label.of g)) (s.rest g)) :
    Solo op r₀ ((ls ++ [l]).filterMap (Label.of g)) (t.rest g) := by
  have hlast : [l].filterMap (Label.of g) = (l.of g).toList := by
    cases hl : l.of g with
    | none => exact List.filterMap_cons_none hl
    | some x => exact List.filterMap_cons_some hl
  rw [List.filterMap_append, hlast]
  cases h with
  | @act f _ _ _ e _ hf hop =>
    by_cases hg : f = g
    · subst hg
      rw [System.setRest_self]
      rw [hf] at hs
      simpa [Label.of] using hs.act hop
    · rw [System.setRest_of_ne (Ne.symm hg)]
      simpa [Label.of, hg] using hs
  | @restart f g' _ _ _ d _ hf hop _ =>
    by_cases hg : g' = g
    · subst hg
      rw [System.setRest_self]
      simpa [Label.of] using hs.restart d
    · rw [System.setRest_of_ne (Ne.symm hg)]
      simpa [Label.of, hg] using hs.setRest hf (.restart hop)
  | yield _ _ hf hop => simpa [Label.of] using hs.setRest hf (.yield hop)
  | resume _ hf hop _ _ => simpa [Label.of] using hs.setRest hf (.resume hop)
  | start _ hf => simpa [Label.of] using hs.setRest hf (.start _)
  | empty _ _ hf => simpa [Label.of] using hs.setRest hf .empty
  | finish _ _ hf hop => simpa [Label.of] using hs.setRest hf (.finish hop)

/-- Every coroutine executes its own code in order, whatever runs in between. -/
theorem solo_of_run {ls : List (Label ι κ ε)} (h : Run (Step op) s ls t) (g : ι) :
    Solo op (s.rest g) (ls.filterMap (Label.of g)) (t.rest g) :=
  h.history (P := fun ls u => Solo op (s.rest g) (ls.filterMap (Label.of g)) (u.rest g))
    (fun _ _ _ _ hsolo hstep => hstep.solo hsolo) .nil

end

end ApexStorm.Lib.Coroutine
