import ApexStorm.Lib.Resize
import ApexStorm.Lib.Run
import ApexStorm.Hook.FdManager

/-!
# The table of descriptor contexts as a map of objects

A context is an object that several threads may hold, so the table stores numbers of
objects here. `get` consists of a check under the read lock and a creation under the
write lock. It is first a function of the table, which is a map from descriptors to
objects as long as no call falls on the end of the table, and then two steps that
threads interleave.
-/

namespace ApexStorm.Hook
open Lib
open IOManager (toInt toInt_of_lt toInt_of_ge)

structure FdTable where
  datas : List (Option ℕ)
  fresh : ℕ
  ctxs : ℕ → Option FdCtx

inductive Lookup
  | found (ctx : Option ℕ)
  | missing
  deriving DecidableEq, Repr

namespace FdTable

def initial : FdTable := ⟨List.replicate 64 none, 0, fun _ => none⟩

def check (t : FdTable) (fd : ℕ) (autoCreate : Bool) : Option Lookup :=
  if toInt t.datas.length < fd then some (if autoCreate then .missing else .found none)
  else
    match t.datas[fd]? with
    | none => none
    | some ctx => some (if ctx.isSome || !autoCreate then .found ctx else .missing)

def grown (t : FdTable) (fd : ℕ) : List (Option ℕ) :=
  if (fd : ℤ) ≥ toInt t.datas.length then resize (fun _ => none) t.datas (3 * fd / 2)
  else t.datas

/-- The write-locked section of `get`, where `ctx` is what the constructor of `FdCtx` makes. -/
def create (t : FdTable) (fd : ℕ) (ctx : FdCtx) : Option (ℕ × FdTable) :=
  if fd < (t.grown fd).length then
    some (t.fresh,
      ⟨(t.grown fd).set fd (some t.fresh), t.fresh + 1,
        Function.update t.ctxs t.fresh (some ctx)⟩)
  else none

def get (t : FdTable) (fd : ℕ) (autoCreate : Bool) (ctx : FdCtx) :
    Option (Option ℕ × FdTable) :=
  (t.check fd autoCreate).bind fun
    | .found o => some (o, t)
    | .missing => (t.create fd ctx).map fun r => (some r.1, r.2)

def del (t : FdTable) (fd : ℕ) : Option FdTable :=
  if toInt t.datas.length ≤ fd then some t
  else if fd < t.datas.length then some { t with datas := t.datas.set fd none }
  else none

def slot (t : FdTable) (fd : ℕ) : Option ℕ := (t.datas[fd]?).join

structure Sized (t : FdTable) : Prop where
  ge : 64 ≤ t.datas.length
  lt : t.datas.length < 2 ^ 31

section Spec
variable {t u : FdTable} {fd : ℕ}

structure Alive (t : FdTable) : Prop where
  stored : ∀ fd o, t.slot fd = some o → (t.ctxs o).isSome
  fresh : ∀ o, t.fresh ≤ o → t.ctxs o = none

theorem get_of_found {autoCreate : Bool} {ctx : FdCtx} {o : Option ℕ}
    (h : t.check fd autoCreate = some (.found o)) : t.get fd autoCreate ctx = some (o, t) := by
  rw [get, h, Option.bind_some]

theorem get_of_missing {autoCreate : Bool} {ctx : FdCtx}
    (h : t.check fd autoCreate = some .missing) :
    t.get fd autoCreate ctx = (t.create fd ctx).map fun r => (some r.1, r.2) := by
  rw [get, h, Option.bind_some]

theorem slot_of_ge (h : t.datas.length ≤ fd) : t.slot fd = none := by
  rw [slot, List.getElem?_eq_none h]
  rfl

theorem lt_of_slot {o : ℕ} (h : t.slot fd = some o) : fd < t.datas.length := by
  by_contra hge
  rw [slot_of_ge (not_lt.mp hge)] at h
  cases h

theorem slot_initial (fd : ℕ) : initial.slot fd = none := by
  have hget : initial.datas[fd]? = if fd < 64 then some none else none :=
    List.getElem?_replicate
  rw [slot, hget]
  split_ifs <;> rfl

namespace Sized

theorem initial : initial.Sized := by
  constructor <;> simp [FdTable.initial]

theorem toInt_size (h : t.Sized) : toInt t.datas.length = t.datas.length := toInt_of_lt h.lt

theorem check_eq (h : t.Sized) (hfd : fd ≠ t.datas.length) (autoCreate : Bool) :
    t.check fd autoCreate =
      some (if (t.slot fd).isSome || !autoCreate then .found (t.slot fd) else .missing) := by
  rw [check, h.toInt_size]
  by_cases hin : fd < t.datas.length
  · have hget : t.datas[fd]? = some t.datas[fd] := List.getElem?_eq_getElem hin
    rw [if_neg (by omega)]
    simp [slot, hget]
  · rw [if_pos (by omega), slot_of_ge (not_lt.mp hin)]
    cases autoCreate <;> rfl

theorem check_end (h : t.Sized) (autoCreate : Bool) :
    t.check t.datas.length autoCreate = none := by
  rw [check, h.toInt_size, if_neg (lt_irrefl _), List.getElem?_eq_none le_rfl]

theorem length_grown (h : t.Sized) (fd : ℕ) :
    (t.grown fd).length = if fd < t.datas.length then t.datas.length else 3 * fd / 2 := by
  rw [grown, h.toInt_size]
  by_cases hin : fd < t.datas.length
  · rw [if_neg (by omega), if_pos hin]
  · rw [if_pos (by omega), if_neg hin, length_resize]

theorem slot_grown (h : t.Sized) (fd i : ℕ) : ((t.grown fd)[i]?).join = t.slot i := by
  have hge := h.ge
  rw [grown, h.toInt_size]
  by_cases hin : fd < t.datas.length
  · rw [if_neg (by omega)]
    rfl
  · rw [if_pos (by omega), join_getElem?_resize (by omega)]
    rfl

theorem lt_grown (h : t.Sized) (fd : ℕ) : fd < (t.grown fd).length := by
  have hge := h.ge
  rw [h.length_grown]
  split_ifs <;> omega

theorem create_eq (h : t.Sized) (fd : ℕ) (ctx : FdCtx) : t.create fd ctx = some (t.fresh,
    ⟨(t.grown fd).set fd (some t.fresh), t.fresh + 1,
      Function.update t.ctxs t.fresh (some ctx)⟩) :=
  if_pos (h.lt_grown fd)

theorem create_spec (h : t.Sized) (hfd : fd < t.datas.length ∨ 3 * fd / 2 < 2 ^ 31)
    (ctx : FdCtx) :
    ∃ u, t.create fd ctx = some (t.fresh, u) ∧ u.Sized ∧ u.fresh = t.fresh + 1 ∧
      u.ctxs = Function.update t.ctxs t.fresh (some ctx) ∧
      ∀ i, u.slot i = if i = fd then some t.fresh else t.slot i := by
  have hge := h.ge
  have hlt := h.lt
  rw [h.create_eq]
  refine ⟨_, rfl, ⟨?_, ?_⟩, rfl, rfl, fun i => ?_⟩
  · rw [List.length_set, h.length_grown]
    split_ifs <;> omega
  · rw [List.length_set, h.length_grown]
    split_ifs <;> omega
  · rw [slot, join_getElem?_set (h.lt_grown fd), h.slot_grown]

/-- A table that grows past the range of `int` finds none of its contexts again. -/
theorem create_large (h : t.Sized) (hfd : fd < 2 ^ 31) (hin : ¬fd < t.datas.length)
    (hlarge : ¬3 * fd / 2 < 2 ^ 31) (ctx : FdCtx) :
    ∃ u, t.create fd ctx = some (t.fresh, u) ∧ fd ≠ u.datas.length ∧
      ∀ autoCreate, u.check fd autoCreate =
        some (if autoCreate then .missing else .found none) := by
  have hsize : (t.grown fd).length = 3 * fd / 2 := by rw [h.length_grown, if_neg hin]
  rw [h.create_eq]
  refine ⟨_, rfl, ?_, fun autoCreate => ?_⟩
  · rw [List.length_set, hsize]
    omega
  · rw [check, List.length_set, hsize, toInt_of_ge (by omega) (by omega), if_pos (by omega)]

theorem del_spec (h : t.Sized) (fd : ℕ) :
    ∃ u, t.del fd = some u ∧ u.Sized ∧ u.fresh = t.fresh ∧ u.ctxs = t.ctxs ∧
      ∀ i, u.slot i = if i = fd then none else t.slot i := by
  rw [del, h.toInt_size]
  by_cases hin : fd < t.datas.length
  · rw [if_neg (by omega), if_pos hin]
    refine ⟨_, rfl, ⟨?_, ?_⟩, rfl, rfl, join_getElem?_set hin⟩
    · simpa using h.ge
    · simpa using h.lt
  · rw [if_pos (by omega)]
    refine ⟨t, rfl, h, rfl, rfl, fun i => ?_⟩
    split_ifs with heq
    · rw [heq, slot_of_ge (not_lt.mp hin)]
    · rfl

end Sized

namespace Alive

theorem initial : initial.Alive where
  stored fd o h := by
    rw [slot_initial] at h
    cases h
  fresh o _ := rfl

theorem lt_fresh (h : t.Alive) {o : ℕ} (hslot : t.slot fd = some o) : o < t.fresh := by
  by_contra hge
  have hsome := h.stored fd o hslot
  rw [h.fresh o (not_lt.mp hge)] at hsome
  cases hsome

theorem create (h : t.Alive) {ctx : FdCtx} (hfresh : u.fresh = t.fresh + 1)
    (hctxs : u.ctxs = Function.update t.ctxs t.fresh (some ctx))
    (hslot : ∀ i, u.slot i = if i = fd then some t.fresh else t.slot i) : u.Alive := by
  constructor
  · intro i o hi
    rw [hctxs, Function.update_apply]
    split_ifs with ho
    · rfl
    · rw [hslot] at hi
      split_ifs at hi
      · exact absurd (Option.some.inj hi).symm ho
      · exact h.stored i o hi
  · intro o ho
    rw [hfresh] at ho
    rw [hctxs, Function.update_of_ne (by omega)]
    exact h.fresh o (by omega)

theorem del (h : t.Alive) (hfresh : u.fresh = t.fresh) (hctxs : u.ctxs = t.ctxs)
    (hslot : ∀ i, u.slot i = if i = fd then none else t.slot i) : u.Alive := by
  constructor
  · intro i o hi
    rw [hslot] at hi
    split_ifs at hi
    rw [hctxs]
    exact h.stored i o hi
  · intro o ho
    rw [hctxs]
    exact h.fresh o (hfresh ▸ ho)

end Alive
end Spec

inductive Access
  | get (fd : ℕ) (autoCreate : Bool) (ctx : FdCtx)
  | del (fd : ℕ)
  deriving DecidableEq

def Access.fd : Access → ℕ
  | .get fd _ _ | .del fd => fd

def exec (t : FdTable) : Access → Option (Option ℕ × FdTable)
  | .get fd autoCreate ctx => t.get fd autoCreate ctx
  | .del fd => (t.del fd).map fun u => (none, u)

def record (map : ℕ → Option ℕ) : Access × Option ℕ → ℕ → Option ℕ
  | (.get fd true _, r) => Function.update map fd r
  | (.get _ false _, _) => map
  | (.del fd, _) => Function.update map fd none

def mapping (calls : List (Access × Option ℕ)) : ℕ → Option ℕ :=
  calls.foldl record fun _ => none

theorem mapping_concat (calls : List (Access × Option ℕ)) (e : Access × Option ℕ) :
    mapping (calls ++ [e]) = record (mapping calls) e := by
  simp [mapping]

/-- The result that a map from descriptors to objects gives: the object of the descriptor, and
without one null, or for a creating `get` an object that no call has returned before. -/
def Answers (calls : List (Access × Option ℕ)) (r : Option ℕ) : Access → Prop
  | .get fd autoCreate _ =>
    (∀ o, mapping calls fd = some o → r = some o) ∧
    (mapping calls fd = none → autoCreate = false → r = none) ∧
    (mapping calls fd = none → autoCreate = true → ∃ o, r = some o ∧ ∀ e ∈ calls, e.2 ≠ some o)
  | .del _ => r = none

theorem answers_found {calls : List (Access × Option ℕ)} {fd : ℕ} {autoCreate : Bool} {ctx : FdCtx}
    (h : ((mapping calls fd).isSome || !autoCreate) = true) :
    Answers calls (mapping calls fd) (.get fd autoCreate ctx) := by
  refine ⟨fun o ho => ho, fun hnone _ => hnone, fun hnone hauto => ?_⟩
  rw [hnone, hauto] at h
  cases h

theorem answers_created {calls : List (Access × Option ℕ)} {fd o : ℕ} {ctx : FdCtx}
    (hnone : mapping calls fd = none) (hfresh : ∀ e ∈ calls, e.2 ≠ some o) :
    Answers calls (some o) (.get fd true ctx) := by
  refine ⟨fun o' ho' => ?_, fun _ hauto => ?_, fun _ _ => ⟨o, rfl, hfresh⟩⟩
  · rw [hnone] at ho'
    cases ho'
  · cases hauto

def Represents (t : FdTable) (map : ℕ → Option ℕ) : Prop :=
  ∀ fd < 2 ^ 31, fd ≠ t.datas.length → t.check fd false = some (.found (map fd))

/-- The call stays inside the table, answers as a map does and leaves the table that represents the
map after the call. -/
def Correct (t : FdTable) (calls : List (Access × Option ℕ)) (c : Access) : Prop :=
  ∃ r u, t.exec c = some (r, u) ∧ Answers calls r c ∧ u.Represents (mapping (calls ++ [(c, r)]))

/-- The call does not look up the end of the table nor grows it past the range of `int`. -/
def fits (t : FdTable) : Access → Bool
  | .get fd autoCreate _ =>
    fd ≠ t.datas.length ∧ (autoCreate → fd < t.datas.length ∨ 3 * fd / 2 < 2 ^ 31)
  | .del _ => true

structure Models (calls : List (Access × Option ℕ)) (t : FdTable) : Prop extends Sized t where
  alive : t.Alive
  slot : ∀ fd, t.slot fd = mapping calls fd
  old : ∀ e ∈ calls, ∀ o, e.2 = some o → o < t.fresh

namespace Models

variable {t u : FdTable} {calls : List (Access × Option ℕ)} {c : Access} {r : Option ℕ}

theorem initial : Models [] initial where
  toSized := .initial
  slot := slot_initial
  alive := .initial
  old e he := by cases he

theorem represents (h : Models calls t) : t.Represents (mapping calls) := by
  intro fd _ hfd
  rw [h.check_eq hfd, h.slot]
  simp

theorem old_concat (h : Models calls t) (hle : t.fresh ≤ u.fresh)
    (hr : ∀ o, r = some o → o < u.fresh) :
    ∀ e ∈ calls ++ [(c, r)], ∀ o, e.2 = some o → o < u.fresh := by
  intro e he o ho
  rcases List.mem_append.mp he with he | he
  · exact (h.old e he o ho).trans_le hle
  · rw [List.mem_singleton.mp he] at ho
    exact hr o ho

theorem get_found (h : Models calls t) {fd : ℕ} {autoCreate : Bool} {ctx : FdCtx}
    (hfound : ((t.slot fd).isSome || !autoCreate) = true) :
    Answers calls (t.slot fd) (.get fd autoCreate ctx) ∧
      Models (calls ++ [(.get fd autoCreate ctx, t.slot fd)]) t := by
  have hmap : mapping (calls ++ [(.get fd autoCreate ctx, t.slot fd)]) = mapping calls := by
    rw [mapping_concat]
    cases autoCreate
    · rfl
    · rw [record, h.slot, Function.update_eq_self]
  constructor
  · rw [h.slot] at hfound ⊢
    exact answers_found hfound
  · exact ⟨h.toSized, h.alive, fun i => by rw [hmap, h.slot],
      h.old_concat le_rfl fun o ho => h.alive.lt_fresh ho⟩

theorem get_created (h : Models calls t) {fd : ℕ} (hnone : t.slot fd = none)
    (hsize : fd < t.datas.length ∨ 3 * fd / 2 < 2 ^ 31) (ctx : FdCtx) :
    ∃ u, t.create fd ctx = some (t.fresh, u) ∧
      Answers calls (some t.fresh) (.get fd true ctx) ∧
      Models (calls ++ [(.get fd true ctx, some t.fresh)]) u := by
  obtain ⟨u, hcreate, hu, hfresh, hctxs, hslot⟩ := h.create_spec hsize ctx
  rw [h.slot] at hnone
  have hnew : ∀ e ∈ calls, e.2 ≠ some t.fresh := by
    intro e he heq
    exact lt_irrefl _ (h.old e he _ heq)
  have hlt : t.fresh < u.fresh := hfresh ▸ Nat.lt_succ_self _
  refine ⟨u, hcreate, answers_created hnone hnew, hu, h.alive.create hfresh hctxs hslot, ?_, ?_⟩
  · intro i
    rw [mapping_concat, record, hslot, Function.update_apply, h.slot]
  · exact h.old_concat hlt.le fun o ho => Option.some.inj ho ▸ hlt

theorem get (h : Models calls t) {fd : ℕ} {autoCreate : Bool} {ctx : FdCtx}
    (hfd : fd ≠ t.datas.length)
    (hsize : autoCreate → fd < t.datas.length ∨ 3 * fd / 2 < 2 ^ 31) :
    ∃ r u, t.get fd autoCreate ctx = some (r, u) ∧ Answers calls r (.get fd autoCreate ctx) ∧
      Models (calls ++ [(.get fd autoCreate ctx, r)]) u := by
  have hcheck := h.check_eq hfd autoCreate
  by_cases hfound : ((t.slot fd).isSome || !autoCreate) = true
  · rw [if_pos hfound] at hcheck
    exact ⟨t.slot fd, t, get_of_found hcheck, h.get_found hfound⟩
  · rw [if_neg hfound] at hcheck
    simp only [Bool.or_eq_true, Bool.not_eq_true', not_or, Bool.not_eq_false,
      Bool.not_eq_true, Option.isSome_eq_false_iff, Option.isNone_iff_eq_none] at hfound
    obtain ⟨hnone, rfl⟩ := hfound
    obtain ⟨u, hcreate, hrest⟩ := h.get_created hnone (hsize rfl) ctx
    refine ⟨some t.fresh, u, ?_, hrest⟩
    rw [get_of_missing hcheck, hcreate]
    rfl

theorem del (h : Models calls t) (fd : ℕ) :
    ∃ u, t.del fd = some u ∧ Models (calls ++ [(.del fd, none)]) u := by
  obtain ⟨u, hdel, hu, hfresh, hctxs, hslot⟩ := h.del_spec fd
  refine ⟨u, hdel, hu, h.alive.del hfresh hctxs hslot, ?_, h.old_concat hfresh.ge nofun⟩
  intro i
  rw [mapping_concat, record, hslot, Function.update_apply, h.slot]

theorem exec (h : Models calls t) (hfits : t.fits c = true) :
    ∃ r u, t.exec c = some (r, u) ∧ Answers calls r c ∧ Models (calls ++ [(c, r)]) u := by
  cases c with
  | get fd autoCreate ctx =>
    simp only [fits, decide_eq_true_eq] at hfits
    exact h.get hfits.1 hfits.2
  | del fd =>
    obtain ⟨u, hdel, hu⟩ := h.del fd
    exact ⟨none, u, by simp [FdTable.exec, hdel], rfl, hu⟩

theorem correct (h : Models calls t) (hfits : t.fits c = true) : t.Correct calls c := by
  obtain ⟨r, u, hexec, hans, hu⟩ := h.exec hfits
  exact ⟨r, u, hexec, hans, hu.represents⟩

theorem step (h : Models calls t) (hfits : t.fits c = true) (hexec : t.exec c = some (r, u)) :
    Models (calls ++ [(c, r)]) u := by
  obtain ⟨r', u', hexec', -, hu⟩ := h.exec hfits
  rw [hexec] at hexec'
  cases hexec'
  exact hu

theorem fits_of_correct (h : Models calls t) (hc : c.fd < 2 ^ 31) (hcorrect : t.Correct calls c) :
    t.fits c = true := by
  obtain ⟨r, u, hexec, -, hu⟩ := hcorrect
  cases c with
  | del fd => rfl
  | get fd autoCreate ctx =>
    replace hc : fd < 2 ^ 31 := hc
    have hfd : fd ≠ t.datas.length := by
      rintro rfl
      rw [FdTable.exec, FdTable.get, h.check_end] at hexec
      cases hexec
    simp only [fits, decide_eq_true_eq]
    refine ⟨hfd, fun hauto => ?_⟩
    by_contra hsize
    rw [not_or] at hsize
    obtain ⟨u', hcreate, hend, hlost⟩ := h.create_large hc hsize.1 hsize.2 ctx
    have hmissing : t.check fd autoCreate = some .missing := by
      rw [h.check_eq hfd, slot_of_ge (not_lt.mp hsize.1), hauto]
      rfl
    rw [FdTable.exec, get_of_missing hmissing, hcreate] at hexec
    simp only [Option.map_some, Option.some.injEq, Prod.mk.injEq] at hexec
    obtain ⟨rfl, rfl⟩ := hexec
    have hseen := hu fd hc hend
    rw [hlost false, mapping_concat, hauto, record, Function.update_self] at hseen
    cases hseen

end Models
section View
variable {t : FdTable} {fd : ℕ} {w : World}

def view (t : FdTable) : List (Option FdCtx) := t.datas.map (·.bind t.ctxs)

theorem length_view (t : FdTable) : t.view.length = t.datas.length := by simp [view]

theorem index_view (t : FdTable) (fd : ℕ) : FdManager.index t.view fd =
    if fd < t.datas.length then some fd else none := by
  simp [FdManager.index, length_view]

theorem view_create (h : t.Alive) (hslot : ∀ i, ((t.grown fd)[i]?).join = t.slot i)
    (ctx : FdCtx) :
    ((t.grown fd).set fd (some t.fresh)).map
        (·.bind (Function.update t.ctxs t.fresh (some ctx))) =
      ((t.grown fd).map (·.bind t.ctxs)).set fd (some ctx) := by
  rw [List.map_set]
  have hsame : (t.grown fd).map (·.bind (Function.update t.ctxs t.fresh (some ctx))) =
      (t.grown fd).map (·.bind t.ctxs) := by
    refine List.map_congr_left fun a ha => ?_
    obtain ⟨i, hi⟩ := List.mem_iff_getElem?.mp ha
    cases a with
    | none => rfl
    | some o =>
      have hstored : t.slot i = some o := by rw [← hslot, hi]; rfl
      have hlt := h.lt_fresh hstored
      simp [Function.update_of_ne hlt.ne]
  rw [hsame]
  simp

theorem create_view (ht : t.Sized) (h : t.Alive) {env : Env} (hw : w.datas = t.view) :
    FdManager.create env fd w = (FdCtx.new env fd w).bind fun r =>
      (t.create fd r.1).map fun p => (some r.1, { r.2 with datas := p.2.view }) := by
  obtain ⟨ctx, w', hnew, hdatas⟩ := new_datas env fd w
  have hgrown : (if (fd : ℤ) ≥ toInt w'.datas.length
      then { w' with datas := FdManager.resize w'.datas (3 * (fd : ℤ).toNat / 2) } else w') =
        { w' with datas := (t.grown fd).map (·.bind t.ctxs) } := by
    rw [hdatas, hw, length_view, grown]
    split_ifs
    · rw [map_resize, FdManager.resize_eq]
      rfl
    · rw [← view, ← hw, ← hdatas]
  have hindex : FdManager.index ((t.grown fd).map (·.bind t.ctxs)) fd = some fd := by
    simp [FdManager.index, ht.lt_grown fd]
  rw [create_run, hnew, Option.bind_some, Option.bind_some, hgrown, setSlot_apply, hindex,
    ht.create_eq, Option.map_some, Option.map_some, Option.bind_some, view,
    view_create h (ht.slot_grown fd)]

/-- `FdManager::get` of the wrappers does on the contexts what `get` does on the objects. -/
theorem get_view (ht : t.Sized) (h : t.Alive) {env : Env} (hw : w.datas = t.view)
    (autoCreate : Bool) :
    FdManager.get env fd autoCreate w = (t.check fd autoCreate).bind fun
      | .found o => some (o.bind t.ctxs, w)
      | .missing => (FdCtx.new env fd w).bind fun r =>
          (t.create fd r.1).map fun p => (some r.1, { r.2 with datas := p.2.view }) := by
  rw [get_run, if_neg (by omega), check, slot_apply, hw, length_view, index_view,
    create_view ht h hw]
  split_ifs with hlarge hauto hin
  · rfl
  · rfl
  · have hget : t.datas[fd]? = some t.datas[fd] := List.getElem?_eq_getElem hin
    have hview : t.view[fd]? = some (t.datas[fd].bind t.ctxs) := by simp [view, hget]
    have hsome : (t.datas[fd].bind t.ctxs).isSome = t.datas[fd].isSome := by
      cases ho : t.datas[fd] with
      | none => rfl
      | some o => exact h.stored fd o (by rw [slot, hget, ho]; rfl)
    simp only [hget, hview, Option.map_some, Option.bind_some, Option.join_some, hsome]
    split_ifs
    · rfl
    · rw [create_view ht h hw]
  · rw [List.getElem?_eq_none (not_lt.mp hin)]
    rfl

theorem del_view (t : FdTable) (fd : ℕ) (hw : w.datas = t.view) :
    FdManager.del fd w = (t.del fd).map fun u => (⟨⟩, { w with datas := u.view }) := by
  rw [del_run, setSlot_apply, hw, length_view, index_view, del]
  split_ifs
  · rw [Option.map_some, ← hw]
  · simp [view, List.map_set]
  · rfl

end View
end FdTable

/-- In every run of calls that fit, each further call stays inside the table, answers as a map from
descriptors to contexts does and changes nothing else, exactly if it fits as well. -/
theorem fd_table_map_iff_fits (calls : List (FdTable.Access × Option ℕ)) (t : FdTable)
    (hrun : Run (fun t e u => e.1.fd < 2 ^ 31 ∧ t.fits e.1 = true ∧ t.exec e.1 = some (e.2, u))
      FdTable.initial calls t)
    (c : FdTable.Access) (hc : c.fd < 2 ^ 31) : t.Correct calls c ↔ t.fits c = true := by
  have h : FdTable.Models calls t :=
    hrun.history (P := FdTable.Models)
      (fun _ _ _ _ h hstep => h.step hstep.2.1 hstep.2.2) .initial
  exact ⟨h.fits_of_correct hc, h.correct⟩

-- Descriptor 100 gets a context, which a later lookup finds.
theorem fd_table_map_iff_fits_hundred :
    FdTable.initial.Correct [] (.get 100 true ⟨true, true, true, false, false, 100, 0, 0⟩) ∧
    ∃ t : FdTable,
      Run (fun t e u => e.1.fd < 2 ^ 31 ∧ t.fits e.1 = true ∧ t.exec e.1 = some (e.2, u))
        FdTable.initial [(.get 100 true ⟨true, true, true, false, false, 100, 0, 0⟩, some 0)] t ∧
      t.Correct [(.get 100 true ⟨true, true, true, false, false, 100, 0, 0⟩, some 0)]
        (.get 100 false ⟨true, true, true, false, false, 100, 0, 0⟩) := by
  have hexec : (FdTable.initial.exec
      (.get 100 true ⟨true, true, true, false, false, 100, 0, 0⟩)).map
        (fun r => (r.1, r.2.datas.length)) = some (some 0, 150) := by decide +kernel
  obtain ⟨⟨r, t⟩, hstep, hobs⟩ := Option.map_eq_some_iff.mp hexec
  obtain ⟨rfl, hsize⟩ := Prod.mk.inj hobs
  have hrun : Run (fun t e u => e.1.fd < 2 ^ 31 ∧ t.fits e.1 = true ∧ t.exec e.1 = some (e.2, u))
      FdTable.initial [(.get 100 true ⟨true, true, true, false, false, 100, 0, 0⟩, some 0)] t :=
    .cons ⟨by decide, by decide +kernel, hstep⟩ (.nil t)
  refine ⟨(fd_table_map_iff_fits [] _ (.nil _) _ (by decide)).mpr (by decide +kernel), t, hrun,
    (fd_table_map_iff_fits _ t hrun _ (by decide)).mpr ?_⟩
  simp only at hsize
  simp [FdTable.fits, hsize]

/-- In the table of 64 slots, the lookup of descriptor 64 reads behind the last slot. -/
theorem fd_table_end_out_of_bounds :
    FdTable.initial.exec (.get 64 false ⟨true, true, true, false, false, 64, 0, 0⟩) = none ∧
      FdTable.mapping [] 64 = none ∧
      ¬FdTable.initial.Correct [] (.get 64 false ⟨true, true, true, false, false, 64, 0, 0⟩) := by
  have hexec : FdTable.initial.exec
      (.get 64 false ⟨true, true, true, false, false, 64, 0, 0⟩) = none := by decide +kernel
  refine ⟨hexec, rfl, ?_⟩
  rintro ⟨r, u, hsome, -⟩
  rw [hexec] at hsome
  cases hsome

end ApexStorm.Hook
