import ApexStorm.IOManager.Bookkeeping

/-!
# When descriptor contexts stay in the vector

Threads look up `m_fdContexts[fd]`. An `addEvent` that finds the vector too short
under the read lock resizes it to `fd * 1.5` under the write lock, without looking
again, so a second thread that resizes for a smaller descriptor cuts off contexts
that are in use. An object is a number, and `found` notes the objects with which
calls went on.
-/

namespace ApexStorm.IOManager
open Lib

structure Contexts where
  fdContexts : List ℕ
  fresh : ℕ
  growing : List ℕ
  found : List (ℕ × ℕ)
  fault : Bool

inductive Access
  | check (fd : ℕ)
  | grow (fd : ℕ)
  | find (fd : ℕ)
  deriving DecidableEq, Repr

namespace Contexts

def resized (t : Contexts) (size : ℕ) : Contexts :=
  { t with
    fdContexts := resize (fun i => t.fresh + (i - t.fdContexts.length)) t.fdContexts size
    fresh := t.fresh + (size - t.fdContexts.length) }

def initial : Contexts := resized ⟨[], 0, [], [], false⟩ 32

def fetch (t : Contexts) (fd : ℕ) : Contexts :=
  match t.fdContexts[fd]? with
  | some o => { t with found := (fd, o) :: t.found }
  | none => { t with fault := true }

/-- The locked sections: the test of `addEvent`, its resize, and the lookup of `delEvent`,
`cancelEvent` and `cancelAll`. A descriptor is an `int`. -/
def step (t : Contexts) : Access → Option Contexts
  | .check fd =>
    if t.fault || 2 ^ 31 ≤ fd then none
    else if toInt t.fdContexts.length > fd then some (t.fetch fd)
    else some { t with growing := fd :: t.growing }
  | .grow fd =>
    if t.fault || !t.growing.contains fd then none
    else some (({ t with growing := t.growing.erase fd }.resized (fd * 3 / 2)).fetch fd)
  | .find fd =>
    if t.fault || 2 ^ 31 ≤ fd then none
    else if toInt t.fdContexts.length ≤ fd then some t
    else some (t.fetch fd)

/-- A resize does not make the vector shorter, and its size is an `int`. -/
def keeps (t : Contexts) : Access → Bool
  | .grow fd => t.fdContexts.length ≤ fd * 3 / 2 ∧ fd * 3 / 2 < 2 ^ 31
  | _ => true

/-- A later `delEvent`, `cancelEvent` or `cancelAll` on `fd` goes on with the object `o`. -/
def Reaches (t : Contexts) (fd o : ℕ) : Prop :=
  (fd : ℤ) < toInt t.fdContexts.length ∧ t.fdContexts[fd]? = some o

/-- The step loses no context: every one is still there as the same object, the objects with which
calls went on are found again, and no access is out of bounds. -/
structure Preserves (t u : Contexts) : Prop where
  same : ∀ fd o : ℕ, t.fdContexts[fd]? = some o → u.fdContexts[fd]? = some o
  reaches : ∀ fd o : ℕ, (fd, o) ∈ u.found → u.Reaches fd o
  inBounds : u.fault = false

structure Inv (t : Contexts) : Prop where
  size_ge : 32 ≤ t.fdContexts.length
  size_lt : t.fdContexts.length < 2 ^ 31
  found : ∀ fd o : ℕ, (fd, o) ∈ t.found → t.fdContexts[fd]? = some o
  growing : ∀ fd ∈ t.growing, fd < 2 ^ 31
  fault : t.fault = false

variable {t u : Contexts} {fd : ℕ}

theorem length_resized (t : Contexts) (size : ℕ) : (t.resized size).fdContexts.length = size :=
  length_resize _ _ _

theorem step_grow (h : t.step (.grow fd) = some u) :
    fd ∈ t.growing ∧
      u = ({ t with growing := t.growing.erase fd }.resized (fd * 3 / 2)).fetch fd := by
  simp only [step] at h
  split_ifs at h with hguard
  exact ⟨by simp_all, (Option.some.inj h).symm⟩

namespace Inv

theorem initial : initial.Inv := by
  refine ⟨?_, ?_, ?_, ?_, rfl⟩
  · simp [Contexts.initial, length_resized]
  · simp [Contexts.initial, length_resized]
  · intro fd o h
    cases h
  · intro fd h
    cases h

theorem toInt_size (h : t.Inv) : toInt t.fdContexts.length = t.fdContexts.length :=
  toInt_of_lt h.size_lt

theorem reaches (h : t.Inv) {o : ℕ} (hfd : (fd, o) ∈ t.found) : t.Reaches fd o := by
  have hget := h.found fd o hfd
  refine ⟨?_, hget⟩
  rw [h.toInt_size]
  exact_mod_cast (List.getElem?_eq_some_iff.mp hget).1

theorem preserves (h : u.Inv) (hsame : ∀ fd o : ℕ, t.fdContexts[fd]? = some o →
    u.fdContexts[fd]? = some o) : t.Preserves u :=
  ⟨hsame, fun _ _ => h.reaches, h.fault⟩

theorem fetch (h : t.Inv) (hfd : fd < t.fdContexts.length) :
    (t.fetch fd).Inv ∧ (t.fetch fd).fdContexts = t.fdContexts := by
  have hget : t.fdContexts[fd]? = some t.fdContexts[fd] := List.getElem?_eq_getElem hfd
  rw [Contexts.fetch, hget]
  refine ⟨⟨h.size_ge, h.size_lt, ?_, h.growing, h.fault⟩, rfl⟩
  intro fd' o hmem
  rcases List.mem_cons.mp hmem with heq | hmem
  · obtain ⟨rfl, rfl⟩ := Prod.mk.inj heq
    exact hget
  · exact h.found fd' o hmem

theorem resized (h : t.Inv) {size : ℕ} (hge : t.fdContexts.length ≤ size) (hlt : size < 2 ^ 31) :
    (t.resized size).Inv ∧ ∀ fd o : ℕ, t.fdContexts[fd]? = some o →
      (t.resized size).fdContexts[fd]? = some o := by
  have hsame : ∀ fd o : ℕ, t.fdContexts[fd]? = some o →
      (t.resized size).fdContexts[fd]? = some o := fun fd o hget => getElem?_resize_old hge hget
  refine ⟨⟨?_, ?_, fun fd o hfd => hsame fd o (h.found fd o hfd), h.growing, h.fault⟩, hsame⟩
  · rw [length_resized]
    exact h.size_ge.trans hge
  · rwa [length_resized]

theorem fetch_eq (t : Contexts) (fd : ℕ) :
    (t.fetch fd).fdContexts = t.fdContexts ∧
      ((t.fetch fd).fault = false → ∃ o, (fd, o) ∈ (t.fetch fd).found) := by
  rw [Contexts.fetch]
  split
  · exact ⟨rfl, fun _ => ⟨_, List.mem_cons_self⟩⟩
  · exact ⟨rfl, fun hfault => by cases hfault⟩

theorem grow (h : t.Inv) (hge : t.fdContexts.length ≤ fd * 3 / 2) (hlt : fd * 3 / 2 < 2 ^ 31) :
    ((t.resized (fd * 3 / 2)).fetch fd).Inv ∧
      t.Preserves ((t.resized (fd * 3 / 2)).fetch fd) := by
  obtain ⟨hinv, hsame⟩ := h.resized hge hlt
  have hfd : fd < (t.resized (fd * 3 / 2)).fdContexts.length := by
    have := h.size_ge
    rw [length_resized]
    omega
  obtain ⟨hinv', heq⟩ := hinv.fetch hfd
  refine ⟨hinv', hinv'.preserves fun fd' o hget => ?_⟩
  rw [heq]
  exact hsame fd' o hget

theorem step (h : t.Inv) {a : Access} (hstep : t.step a = some u) (hkeeps : keeps t a = true) :
    u.Inv ∧ t.Preserves u := by
  cases a with
  | check fd =>
    simp only [Contexts.step, h.toInt_size] at hstep
    split_ifs at hstep with hfault hfd
    · cases hstep
      obtain ⟨hinv, heq⟩ := h.fetch (by exact_mod_cast hfd)
      exact ⟨hinv, hinv.preserves fun fd' o hget => heq ▸ hget⟩
    · cases hstep
      have hinv : Inv { t with growing := fd :: t.growing } := by
        refine ⟨h.size_ge, h.size_lt, h.found, ?_, h.fault⟩
        simp only [h.fault, Bool.false_or, decide_eq_true_eq, not_le] at hfault
        exact List.forall_mem_cons.mpr ⟨hfault, h.growing⟩
      exact ⟨hinv, hinv.preserves fun _ _ => id⟩
  | grow fd =>
    obtain ⟨-, rfl⟩ := step_grow hstep
    simp only [keeps, decide_eq_true_eq] at hkeeps
    have herase : Inv { t with growing := t.growing.erase fd } :=
      ⟨h.size_ge, h.size_lt, h.found, fun fd' hfd => h.growing fd' (List.mem_of_mem_erase hfd),
        h.fault⟩
    obtain ⟨hinv, hpres⟩ := herase.grow hkeeps.1 hkeeps.2
    exact ⟨hinv, hpres.same, hpres.reaches, hpres.inBounds⟩
  | find fd =>
    simp only [Contexts.step, h.toInt_size] at hstep
    split_ifs at hstep with hfault hfd
    · cases hstep
      exact ⟨h, h.preserves fun _ _ => id⟩
    · cases hstep
      obtain ⟨hinv, heq⟩ := h.fetch (by exact_mod_cast not_le.mp hfd)
      exact ⟨hinv, hinv.preserves fun fd' o hget => heq ▸ hget⟩

/-- A resize that is not kept cuts off the last context or makes the size negative as an `int`. -/
theorem keeps_of_preserves (h : t.Inv) {a : Access} (hstep : t.step a = some u)
    (hpres : t.Preserves u) : keeps t a = true := by
  cases a with
  | check fd => rfl
  | find fd => rfl
  | grow fd =>
    obtain ⟨hmem, rfl⟩ := step_grow hstep
    have hfd : fd < 2 ^ 31 := h.growing fd hmem
    obtain ⟨hsize, hfound⟩ :=
      fetch_eq ({ t with growing := t.growing.erase fd }.resized (fd * 3 / 2)) fd
    obtain ⟨o, ho⟩ := hfound hpres.inBounds
    have hint := (hpres.reaches fd o ho).1
    rw [hsize, length_resized] at hint
    simp only [keeps, decide_eq_true_eq]
    constructor
    · by_contra hshort
      have hlast : t.fdContexts.length - 1 < t.fdContexts.length := by omega
      have hget := hpres.same _ _ (List.getElem?_eq_getElem hlast)
      rw [hsize] at hget
      have hlt := (List.getElem?_eq_some_iff.mp hget).1
      rw [length_resized] at hlt
      omega
    · by_contra hlarge
      rw [toInt_of_ge (by omega) (by omega)] at hint
      omega

end Inv

/-- An `addEvent` that no other thread interrupts leaves the vector as long as `reserve` does. -/
theorem reserve_alone (h : t.Inv) {m : IOManager}
    (hsize : m.fdContexts.length = t.fdContexts.length) (hfd : fd < 2 ^ 31) :
    ∃ as u, (as = [.check fd] ∨ as = [.check fd, .grow fd]) ∧ iterate step t as = some u ∧
      u.fdContexts.length = (m.reserve fd).fdContexts.length := by
  have hguard : (t.fault || decide (2 ^ 31 ≤ fd)) = false := by
    rw [h.fault, decide_eq_false (not_le.mpr hfd)]
    rfl
  rw [IOManager.reserve, hsize]
  by_cases hin : toInt t.fdContexts.length > fd
  · have hcheck : t.step (.check fd) = some (t.fetch fd) := by
      simp only [step, hguard, Bool.false_eq_true, if_false, if_pos hin]
    refine ⟨_, t.fetch fd, .inl rfl, by simp only [iterate, hcheck], ?_⟩
    rw [(Inv.fetch_eq t fd).1, if_pos hin, hsize]
  · have hcheck : t.step (.check fd) = some { t with growing := fd :: t.growing } := by
      simp only [step, hguard, Bool.false_eq_true, if_false, if_neg hin]
    have hgrow : step { t with growing := fd :: t.growing } (.grow fd) =
        some ((t.resized (fd * 3 / 2)).fetch fd) := by
      have hmem : (t.fault || !(fd :: t.growing).contains fd) = false := by simp [h.fault]
      simp only [step, hmem, Bool.false_eq_true, if_false, List.erase_cons_head]
    refine ⟨_, (t.resized (fd * 3 / 2)).fetch fd, .inr rfl, ?_, ?_⟩
    · simp only [iterate, hcheck, hgrow]
    · rw [(Inv.fetch_eq _ fd).1, length_resized, if_neg hin, length_contextResize]

end Contexts

/-- In every run whose resizes never make the vector shorter nor longer than an `int` can say, all
contexts of every earlier state are still there as the same objects, calls find again the objects
others went on with, and no access is out of bounds; and a step breaks this exactly if it does not
meet that condition. -/
theorem contexts_kept_iff (as bs : List Access) (s t : Contexts)
    (hfirst : Run (fun s a t => s.keeps a = true ∧ s.step a = some t) .initial as s)
    (hlater : Run (fun s a t => s.keeps a = true ∧ s.step a = some t) s bs t) :
    s.Preserves t ∧ ∀ a u, t.step a = some u → (t.Preserves u ↔ t.keeps a = true) := by
  have hs : s.Inv :=
    hfirst.invariant (fun _ _ _ h hstep => (h.step hstep.2 hstep.1).1) Contexts.Inv.initial
  have ht : t.Inv ∧ ∀ fd o : ℕ, s.fdContexts[fd]? = some o → t.fdContexts[fd]? = some o := by
    refine hlater.invariant (P := fun t => t.Inv ∧
      ∀ fd o : ℕ, s.fdContexts[fd]? = some o → t.fdContexts[fd]? = some o) ?_ ⟨hs, fun _ _ => id⟩
    rintro t a u ⟨ht, hsame⟩ hstep
    obtain ⟨hu, hpres⟩ := ht.step hstep.2 hstep.1
    exact ⟨hu, fun fd o hget => hpres.same fd o (hsame fd o hget)⟩
  refine ⟨ht.1.preserves ht.2, fun a u hstep => ⟨ht.1.keeps_of_preserves hstep, fun hkeeps => ?_⟩⟩
  exact (ht.1.step hstep hkeeps).2

-- One thread adds an event on descriptor 40 and another looks for it.
theorem contexts_kept_iff_forty :
    ∃ s t : Contexts,
      Run (fun s a t => s.keeps a = true ∧ s.step a = some t) .initial [.check 40, .grow 40] s ∧
      Run (fun s a t => s.keeps a = true ∧ s.step a = some t) s [.find 40] t ∧
      t.found = [(40, 40), (40, 40)] ∧ s.Preserves t := by
  have hexec : ((iterate (guarded Contexts.keeps Contexts.step) .initial
      [.check 40, .grow 40]).bind fun s =>
        (iterate (guarded Contexts.keeps Contexts.step) s [.find 40]).map fun t => t.found) =
          some [(40, 40), (40, 40)] := by decide +kernel
  obtain ⟨s, hs, hexec⟩ := Option.bind_eq_some_iff.mp hexec
  obtain ⟨t, ht, hfound⟩ := Option.map_eq_some_iff.mp hexec
  have hfirst := Run.of_guarded hs
  have hlater := Run.of_guarded ht
  exact ⟨s, t, hfirst, hlater, hfound, (contexts_kept_iff _ _ s t hfirst hlater).1⟩

/-- Two threads find the vector too short; the one for descriptor 40 resizes last and cuts off the
context of descriptor 100. -/
theorem context_lost_in_resize :
    ∃ s t : Contexts,
      Run (fun s a t => s.step a = some t) .initial [.check 100, .check 40, .grow 100] s ∧
      Run (fun s a t => s.step a = some t) s [.grow 40] t ∧
      s.found = [(100, 100)] ∧ s.fdContexts[100]? = some 100 ∧ t.fdContexts[100]? = none := by
  have hexec : ((iterate Contexts.step .initial [.check 100, .check 40, .grow 100]).bind fun s =>
      (iterate Contexts.step s [.grow 40]).map fun t =>
        (s.found, s.fdContexts[100]?, t.fdContexts[100]?)) =
          some ([(100, 100)], some 100, none) := by decide +kernel
  obtain ⟨s, hs, hexec⟩ := Option.bind_eq_some_iff.mp hexec
  obtain ⟨t, ht, hobs⟩ := Option.map_eq_some_iff.mp hexec
  simp only [Prod.mk.injEq] at hobs
  exact ⟨s, t, Run.of_iterate hs, Run.of_iterate ht, hobs⟩

end ApexStorm.IOManager
