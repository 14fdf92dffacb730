import ApexStorm.Hook.FdTable

/-!
# When threads share one context of a descriptor

The check of `FdManager::get` under the read lock and the creation under the write
lock are steps of their own here. A thread that found no context creates one without
looking again and replaces what another thread has stored in between. `returned` notes
the results of `get(fd, true)` since the last `del(fd)`.
-/

namespace ApexStorm.Hook
open Lib

namespace FdTable

def modify (t : FdTable) (o : ℕ) (f : FdCtx → FdCtx) : FdTable :=
  { t with ctxs := Function.update t.ctxs o ((t.ctxs o).map f) }

def settings (t : FdTable) (fd : ℕ) : Option FdCtx :=
  (t.check fd true).bind fun
    | .found o => o.bind t.ctxs
    | .missing => none

variable {t : FdTable} {fd o : ℕ}

theorem settings_of_check (h : t.check fd true = some (.found (some o))) :
    t.settings fd = t.ctxs o := by
  rw [settings, h, Option.bind_some]
  rfl

theorem Sized.check_of_slot (h : t.Sized) (hslot : t.slot fd = some o) :
    t.check fd true = some (.found (some o)) := by
  rw [h.check_eq (lt_of_slot hslot).ne, hslot]
  rfl

theorem ctxs_modify (t : FdTable) (o o' : ℕ) (f : FdCtx → FdCtx) :
    (t.modify o f).ctxs o' = if o' = o then (t.ctxs o).map f else t.ctxs o' :=
  Function.update_apply ..

theorem Sized.modify (h : t.Sized) (o : ℕ) (f : FdCtx → FdCtx) : (t.modify o f).Sized :=
  ⟨h.ge, h.lt⟩

theorem Alive.modify (h : t.Alive) (o : ℕ) (f : FdCtx → FdCtx) : (t.modify o f).Alive := by
  constructor
  · intro fd o' hslot
    have hsome := h.stored fd o' hslot
    rw [ctxs_modify]
    split_ifs with heq
    · rwa [Option.isSome_map, ← heq]
    · exact hsome
  · intro o' ho
    rw [ctxs_modify]
    split_ifs with heq
    · rw [← heq, h.fresh o' ho]
      rfl
    · exact h.fresh o' ho

end FdTable

structure Shared where
  table : FdTable
  creating : List ℕ
  returned : List (ℕ × Option ℕ)
  fault : Bool

inductive Shared.Act
  | check (fd : ℕ) (autoCreate : Bool)
  | create (fd : ℕ) (ctx : FdCtx)
  | del (fd : ℕ)
  | setUserNonblock (o : ℕ) (v : Bool)
  | setTimeout (o : ℕ) (type : ℤ) (v : ℕ)
  deriving DecidableEq

namespace Shared

def initial : Shared := ⟨.initial, [], [], false⟩

def Act.target : Act → Option ℕ
  | .setUserNonblock o _ | .setTimeout o _ _ => some o
  | _ => none

def checked (s : Shared) (fd : ℕ) (autoCreate : Bool) : Option Lookup → Shared
  | none => { s with fault := true }
  | some .missing => { s with creating := fd :: s.creating }
  | some (.found o) => if autoCreate then { s with returned := (fd, o) :: s.returned } else s

def created (s : Shared) (fd : ℕ) : Option (ℕ × FdTable) → Shared
  | none => { s with fault := true }
  | some (o, table) =>
    ⟨table, s.creating.erase fd, (fd, some o) :: s.returned, s.fault⟩

def deleted (s : Shared) (fd : ℕ) : Option FdTable → Shared
  | none => { s with fault := true }
  | some table => ⟨table, s.creating, s.returned.filter (·.1 ≠ fd), s.fault⟩

/-- The locked sections of `get` and `del`, and the setters of `FdCtx`. A descriptor is an `int`. -/
def step (s : Shared) : Act → Option Shared
  | .check fd autoCreate =>
    if s.fault || 2 ^ 31 ≤ fd then none
    else some (s.checked fd autoCreate (s.table.check fd autoCreate))
  | .create fd ctx =>
    if s.fault || !s.creating.contains fd then none
    else some (s.created fd (s.table.create fd ctx))
  | .del fd =>
    if s.fault || 2 ^ 31 ≤ fd then none else some (s.deleted fd (s.table.del fd))
  | .setUserNonblock o v =>
    if s.fault then none
    else some { s with table := s.table.modify o fun c => { c with userNonblock := v } }
  | .setTimeout o type v =>
    if s.fault then none
    else some { s with table := s.table.modify o fun c => c.setTimeout type v }

/-- A check is not at the end of the table. A creation finds no context of its descriptor and does
not grow the table past the range of `int`. -/
def sole (s : Shared) : Act → Bool
  | .check fd _ => fd ≠ s.table.datas.length
  | .create fd _ =>
    s.table.slot fd = none ∧ (fd < s.table.datas.length ∨ 3 * fd / 2 < 2 ^ 31)
  | _ => true

/-- All calls `get(fd, true)` have returned one object. It is the one stored, so a setting made
through it is what later calls find. -/
structure Agree (s : Shared) : Prop where
  inBounds : s.fault = false
  same : ∀ fd r r', (fd, r) ∈ s.returned → (fd, r') ∈ s.returned → r = r'
  stored : ∀ fd r, (fd, r) ∈ s.returned →
    ∃ o, r = some o ∧ s.table.check fd true = some (.found (some o))
  settings : ∀ fd o, (fd, some o) ∈ s.returned →
    ∃ c, s.table.ctxs o = some c ∧ ∀ f, (s.table.modify o f).settings fd = some (f c)

structure Inv (s : Shared) : Prop where
  sized : s.table.Sized
  alive : s.table.Alive
  creating : ∀ fd ∈ s.creating, fd < 2 ^ 31
  returned : ∀ fd r, (fd, r) ∈ s.returned → ∃ o, r = some o ∧ s.table.slot fd = some o
  stored : ∀ fd o, s.table.slot fd = some o → (fd, some o) ∈ s.returned
  fault : s.fault = false

variable {s t u : Shared} {a : Act} {fd : ℕ}

inductive Stepped (s : Shared) : Act → Shared → Prop where
  | check (fd : ℕ) (autoCreate : Bool) (hfd : fd < 2 ^ 31) :
      Stepped s (.check fd autoCreate) (s.checked fd autoCreate (s.table.check fd autoCreate))
  | create (fd : ℕ) (ctx : FdCtx) (hmem : fd ∈ s.creating) :
      Stepped s (.create fd ctx) (s.created fd (s.table.create fd ctx))
  | del (fd : ℕ) : Stepped s (.del fd) (s.deleted fd (s.table.del fd))
  | modify {a : Act} (o : ℕ) (f : FdCtx → FdCtx) (htarget : a.target = some o) :
      Stepped s a { s with table := s.table.modify o f }

theorem stepped (hstep : s.step a = some t) : Stepped s a t := by
  cases a with
  | check fd autoCreate =>
    simp only [step] at hstep
    split_ifs at hstep with hguard
    obtain rfl := Option.some.inj hstep
    simp only [Bool.or_eq_true, decide_eq_true_eq, not_or, not_le] at hguard
    exact .check fd autoCreate hguard.2
  | create fd ctx =>
    simp only [step] at hstep
    split_ifs at hstep with hguard
    obtain rfl := Option.some.inj hstep
    exact .create fd ctx (by simp_all)
  | del fd =>
    simp only [step] at hstep
    split_ifs at hstep
    obtain rfl := Option.some.inj hstep
    exact .del fd
  | setUserNonblock o v =>
    simp only [step] at hstep
    split_ifs at hstep
    obtain rfl := Option.some.inj hstep
    exact .modify o _ rfl
  | setTimeout o type v =>
    simp only [step] at hstep
    split_ifs at hstep
    obtain rfl := Option.some.inj hstep
    exact .modify o _ rfl

theorem sole_of_target {o : ℕ} (htarget : a.target = some o) : s.sole a = true := by
  cases a with
  | check fd autoCreate => cases htarget
  | create fd ctx => cases htarget
  | del fd => rfl
  | setUserNonblock o v => rfl
  | setTimeout o type v => rfl

namespace Inv

theorem initial : initial.Inv where
  sized := .initial
  alive := .initial
  creating fd h := by cases h
  returned fd r h := by cases h
  stored fd o h := by
    rw [Shared.initial, FdTable.slot_initial] at h
    cases h
  fault := rfl

theorem agree (h : s.Inv) : s.Agree where
  inBounds := h.fault
  same fd r r' hr hr' := by
    obtain ⟨o, rfl, ho⟩ := h.returned fd r hr
    obtain ⟨o', rfl, ho'⟩ := h.returned fd r' hr'
    rw [← ho, ← ho']
  stored fd r hr := by
    obtain ⟨o, rfl, ho⟩ := h.returned fd r hr
    exact ⟨o, rfl, h.sized.check_of_slot ho⟩
  settings fd o hr := by
    obtain ⟨o', heq, ho⟩ := h.returned fd (some o) hr
    cases heq
    obtain ⟨c, hc⟩ := Option.isSome_iff_exists.mp (h.alive.stored fd o ho)
    refine ⟨c, hc, fun f => ?_⟩
    have hcheck : (s.table.modify o f).check fd true = some (.found (some o)) :=
      h.sized.check_of_slot ho
    rw [FdTable.settings_of_check hcheck]
    simp [FdTable.modify, hc]

theorem checked (h : s.Inv) (hfd : fd < 2 ^ 31) (hend : fd ≠ s.table.datas.length)
    (autoCreate : Bool) : (s.checked fd autoCreate (s.table.check fd autoCreate)).Inv := by
  rw [h.sized.check_eq hend]
  split_ifs with hfound
  · rw [Shared.checked]
    split_ifs with hauto
    · refine ⟨h.sized, h.alive, h.creating, fun fd' r hr => ?_,
        fun fd' o ho => List.mem_cons_of_mem _ (h.stored fd' o ho), h.fault⟩
      rcases List.mem_cons.mp hr with heq | hr
      · obtain ⟨rfl, rfl⟩ := Prod.mk.inj heq
        simp only [hauto, Bool.not_true, Bool.or_false] at hfound
        obtain ⟨o, ho⟩ := Option.isSome_iff_exists.mp hfound
        exact ⟨o, ho, ho⟩
      · exact h.returned fd' r hr
    · exact h
  · exact ⟨h.sized, h.alive, List.forall_mem_cons.mpr ⟨hfd, h.creating⟩, h.returned, h.stored,
      h.fault⟩

theorem created (h : s.Inv) (hnone : s.table.slot fd = none)
    (hsize : fd < s.table.datas.length ∨ 3 * fd / 2 < 2 ^ 31) (ctx : FdCtx) :
    (s.created fd (s.table.create fd ctx)).Inv := by
  obtain ⟨table, hcreate, hsized, hfresh, hctxs, hslot⟩ := h.sized.create_spec hsize ctx
  rw [hcreate, Shared.created]
  refine ⟨hsized, h.alive.create hfresh hctxs hslot,
    fun fd' hfd => h.creating fd' (List.mem_of_mem_erase hfd), fun fd' r hr => ?_,
    fun fd' o ho => ?_, h.fault⟩
  · rcases List.mem_cons.mp hr with heq | hr
    · obtain ⟨rfl, rfl⟩ := Prod.mk.inj heq
      exact ⟨_, rfl, by rw [hslot, if_pos rfl]⟩
    · obtain ⟨o, rfl, ho⟩ := h.returned fd' r hr
      have hne : fd' ≠ fd := by
        rintro rfl
        rw [hnone] at ho
        cases ho
      exact ⟨o, rfl, by rw [hslot, if_neg hne, ho]⟩
  · rw [hslot] at ho
    split_ifs at ho with heq
    · cases ho
      rw [heq]
      exact List.mem_cons_self
    · exact List.mem_cons_of_mem _ (h.stored fd' o ho)

theorem deleted (h : s.Inv) (fd : ℕ) : (s.deleted fd (s.table.del fd)).Inv := by
  obtain ⟨table, hdel, hsized, hfresh, hctxs, hslot⟩ := h.sized.del_spec fd
  rw [hdel, Shared.deleted]
  refine ⟨hsized, h.alive.del hfresh hctxs hslot, h.creating, fun fd' r hr => ?_,
    fun fd' o ho => ?_, h.fault⟩
  · obtain ⟨hr, hne⟩ := List.mem_filter.mp hr
    obtain ⟨o, rfl, ho⟩ := h.returned fd' r hr
    exact ⟨o, rfl, by rw [hslot, if_neg (by simpa using hne), ho]⟩
  · rw [hslot] at ho
    split_ifs at ho with heq
    exact List.mem_filter.mpr ⟨h.stored fd' o ho, by simpa using heq⟩

theorem modify (h : s.Inv) (o : ℕ) (f : FdCtx → FdCtx) :
    Inv { s with table := s.table.modify o f } :=
  ⟨h.sized.modify o f, h.alive.modify o f, h.creating, h.returned, h.stored, h.fault⟩

theorem step (h : s.Inv) (hstep : s.step a = some t) (hsole : s.sole a = true) : t.Inv := by
  cases stepped hstep with
  | check fd autoCreate hfd => exact h.checked hfd (by simpa [sole] using hsole) autoCreate
  | create fd ctx hmem =>
    simp only [sole, decide_eq_true_eq] at hsole
    exact h.created hsole.1 hsole.2 ctx
  | del fd => exact h.deleted fd
  | modify o f htarget => exact h.modify o f

theorem sole_of_agree (h : s.Inv) (hstep : s.step a = some t) (hagree : t.Agree) :
    s.sole a = true := by
  cases stepped hstep with
  | check fd autoCreate hfd =>
    simp only [sole, decide_eq_true_eq]
    rintro rfl
    have hfault := hagree.inBounds
    rw [h.sized.check_end] at hfault
    cases hfault
  | create fd ctx hmem =>
    have hcreate := h.sized.create_eq fd ctx
    rw [hcreate] at hagree
    obtain ⟨o, ho, hfound⟩ := hagree.stored fd _ List.mem_cons_self
    cases ho
    have hsize : fd < s.table.datas.length ∨ 3 * fd / 2 < 2 ^ 31 := by
      by_contra hsize
      rw [not_or] at hsize
      obtain ⟨u, hlarge, -, hlost⟩ :=
        h.sized.create_large (h.creating fd hmem) hsize.1 hsize.2 ctx
      rw [hcreate] at hlarge
      obtain ⟨-, rfl⟩ := Prod.mk.inj (Option.some.inj hlarge)
      have hmissing := (hlost true).symm.trans hfound
      cases hmissing
    simp only [sole, decide_eq_true_eq]
    refine ⟨?_, hsize⟩
    cases hslot : s.table.slot fd with
    | none => rfl
    | some o =>
      have hsame := hagree.same fd _ _ List.mem_cons_self
        (List.mem_cons_of_mem _ (h.stored fd o hslot))
      exact absurd (Option.some.inj hsame).symm (h.alive.lt_fresh hslot).ne
  | del fd => rfl
  | modify o f htarget => exact sole_of_target htarget

theorem kept (h : s.Inv) (hstep : s.step a = some t) (hsole : s.sole a = true) {o : ℕ}
    (hmem : (fd, some o) ∈ s.returned) (hdel : a ≠ .del fd) (htarget : a.target ≠ some o) :
    (fd, some o) ∈ t.returned ∧ t.table.ctxs o = s.table.ctxs o := by
  cases stepped hstep with
  | check fd' autoCreate hfd =>
    rw [h.sized.check_eq (by simpa [sole] using hsole)]
    split_ifs
    · rw [Shared.checked]
      split_ifs
      · exact ⟨List.mem_cons_of_mem _ hmem, rfl⟩
      · exact ⟨hmem, rfl⟩
    · exact ⟨hmem, rfl⟩
  | create fd' ctx hcreating =>
    obtain ⟨o', heq, ho⟩ := h.returned fd (some o) hmem
    cases heq
    rw [h.sized.create_eq]
    exact ⟨List.mem_cons_of_mem _ hmem, Function.update_of_ne (h.alive.lt_fresh ho).ne _ _⟩
  | del fd' =>
    obtain ⟨table, hdel', -, -, hctxs, -⟩ := h.sized.del_spec fd'
    rw [hdel']
    have hne : fd ≠ fd' := fun heq => hdel (by rw [heq])
    exact ⟨List.mem_filter.mpr ⟨hmem, by simpa using hne⟩, by rw [Shared.deleted, hctxs]⟩
  | modify o' f htarget' =>
    rw [htarget'] at htarget
    exact ⟨hmem, Function.update_of_ne (fun heq => htarget (by rw [heq])) _ _⟩

end Inv

/-- Without `del(fd)`, later calls on `fd` find the object that was returned, with the settings it
has until a setter is called on it. -/
def Keeps (s : Shared) (as : List Act) (t : Shared) : Prop :=
  ∀ fd o, (fd, some o) ∈ s.returned → .del fd ∉ as → (∀ a ∈ as, a.target ≠ some o) →
    t.table.check fd true = some (.found (some o)) ∧ t.table.settings fd = s.table.settings fd

theorem run_inv {as : List Act} (h : s.Inv)
    (hrun : Run (fun s a t => s.sole a = true ∧ s.step a = some t) s as t) : t.Inv :=
  hrun.invariant (fun _ _ _ h hstep => h.step hstep.2 hstep.1) h

theorem run_kept {as : List Act} (h : s.Inv)
    (hrun : Run (fun s a t => s.sole a = true ∧ s.step a = some t) s as t) {o : ℕ}
    (hmem : (fd, some o) ∈ s.returned) (hdel : .del fd ∉ as)
    (htarget : ∀ a ∈ as, a.target ≠ some o) :
    (fd, some o) ∈ t.returned ∧ t.table.ctxs o = s.table.ctxs o := by
  induction hrun with
  | nil s => exact ⟨hmem, rfl⟩
  | @cons s t u a as hstep _ ih =>
    rw [List.mem_cons, not_or] at hdel
    rw [List.forall_mem_cons] at htarget
    obtain ⟨hmem', hctxs⟩ := h.kept hstep.2 hstep.1 hmem (Ne.symm hdel.1) htarget.1
    obtain ⟨hmem'', hctxs'⟩ := ih (h.step hstep.2 hstep.1) hmem' hdel.2 htarget.2
    exact ⟨hmem'', hctxs'.trans hctxs⟩

theorem Inv.settings_eq (h : s.Inv) {o : ℕ} (hmem : (fd, some o) ∈ s.returned) :
    s.table.check fd true = some (.found (some o)) ∧ s.table.settings fd = s.table.ctxs o := by
  obtain ⟨o', heq, hcheck⟩ := h.agree.stored fd (some o) hmem
  cases heq
  exact ⟨hcheck, FdTable.settings_of_check hcheck⟩

end Shared

/-- In every run whose creations are sole, all calls for one descriptor agree on the stored context
and its settings stay seen, and a step breaks this exactly if it is not sole. -/
theorem contexts_shared_iff_sole (as bs : List Shared.Act) (s t : Shared)
    (hfirst : Run (fun s a t => s.sole a = true ∧ s.step a = some t) .initial as s)
    (hlater : Run (fun s a t => s.sole a = true ∧ s.step a = some t) s bs t) :
    t.Agree ∧ s.Keeps bs t ∧ ∀ a u, t.step a = some u → (u.Agree ↔ t.sole a = true) := by
  have hs : s.Inv := Shared.run_inv .initial hfirst
  have ht : t.Inv := Shared.run_inv hs hlater
  refine ⟨ht.agree, fun fd o hmem hdel htarget => ?_, fun a u hstep => ?_⟩
  · obtain ⟨hmem', hctxs⟩ := Shared.run_kept hs hlater hmem hdel htarget
    obtain ⟨hcheck, hsettings⟩ := ht.settings_eq hmem'
    exact ⟨hcheck, by rw [hsettings, hctxs, (hs.settings_eq hmem).2]⟩
  · exact ⟨ht.sole_of_agree hstep, fun hsole => (ht.step hstep hsole).agree⟩

-- One thread creates the context of descriptor 5 and makes it non-blocking for the user, then
-- another one looks it up.
theorem contexts_shared_iff_sole_five :
    ∃ s t : Shared,
      Run (fun s a t => s.sole a = true ∧ s.step a = some t) .initial
        [.check 5 true, .create 5 ⟨true, true, true, false, false, 5, 0, 0⟩,
          .setUserNonblock 0 true] s ∧
      Run (fun s a t => s.sole a = true ∧ s.step a = some t) s [.check 5 true] t ∧
      t.returned = [(5, some 0), (5, some 0)] ∧
      t.table.settings 5 = some ⟨true, true, true, true, false, 5, 0, 0⟩ ∧ t.Agree := by
  have hexec : ((iterate (guarded Shared.sole Shared.step) .initial
      [.check 5 true, .create 5 ⟨true, true, true, false, false, 5, 0, 0⟩,
        .setUserNonblock 0 true]).bind fun s =>
        (iterate (guarded Shared.sole Shared.step) s [.check 5 true]).map fun t =>
          (t.returned, t.table.settings 5)) =
      some ([(5, some 0), (5, some 0)], some ⟨true, true, true, true, false, 5, 0, 0⟩) := by
    decide +kernel
  obtain ⟨s, hs, hexec⟩ := Option.bind_eq_some_iff.mp hexec
  obtain ⟨t, ht, hobs⟩ := Option.map_eq_some_iff.mp hexec
  obtain ⟨hreturned, hsettings⟩ := Prod.mk.inj hobs
  have hfirst := Run.of_guarded hs
  have hlater := Run.of_guarded ht
  exact ⟨s, t, hfirst, hlater, hreturned, hsettings,
    (contexts_shared_iff_sole _ _ s t hfirst hlater).1⟩

/-- Two threads find no context of descriptor 5 and both create one. The flag that the first one
sets through its context is lost. -/
theorem context_replaced_by_second_creator :
    ∃ t : Shared,
      Run (fun s a t => s.step a = some t) .initial
        [.check 5 true, .check 5 true, .create 5 ⟨true, true, true, false, false, 5, 0, 0⟩,
          .setUserNonblock 0 true, .create 5 ⟨true, true, true, false, false, 5, 0, 0⟩] t ∧
      t.returned = [(5, some 1), (5, some 0)] ∧
      t.table.settings 5 = some ⟨true, true, true, false, false, 5, 0, 0⟩ := by
  have hexec : (iterate Shared.step .initial
      [.check 5 true, .check 5 true, .create 5 ⟨true, true, true, false, false, 5, 0, 0⟩,
        .setUserNonblock 0 true, .create 5 ⟨true, true, true, false, false, 5, 0, 0⟩]).map
          (fun t => (t.returned, t.table.settings 5)) =
      some ([(5, some 1), (5, some 0)], some ⟨true, true, true, false, false, 5, 0, 0⟩) := by
    decide +kernel
  obtain ⟨t, ht, hobs⟩ := Option.map_eq_some_iff.mp hexec
  obtain ⟨hreturned, hsettings⟩ := Prod.mk.inj hobs
  exact ⟨t, Run.of_iterate ht, hreturned, hsettings⟩

end ApexStorm.Hook
