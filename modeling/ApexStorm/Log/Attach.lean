import ApexStorm.Lib.Run
import ApexStorm.Log.Logger

/-!
# Which formatter an attached appender uses

Appenders and formatters are shared through pointers. A logger hands its formatter to an
appender when the appender is attached without one, and again when the formatter is set.
An appender that comes from another logger keeps the formatter it got there, and one
whose formatter is reset, or whose logger has none, is left without.
-/

namespace ApexStorm.Log.Shared
open Lib

structure Appender where
  sink : Sink
  level : Level
  formatter : Option ℕ
  hasFormatter : Bool

structure Node where
  name : String
  level : Level
  appenders : List ℕ
  formatter : Option ℕ

/-- The objects by their addresses. A formatter is there once it has been made. -/
structure Heap where
  formatters : ℕ → Option LogFormatter
  appenders : ℕ → Appender
  loggers : ℕ → Node

/-- `setFormatterString` makes the new formatter at an address of its own. -/
inductive Act
  | addAppender (l a : ℕ)
  | delAppender (l a : ℕ)
  | clearAppenders (l : ℕ)
  | setFormatter (l : ℕ) (val : Option ℕ)
  | setFormatterString (l : ℕ) (val : String) (p : ℕ)
  | setAppenderFormatter (a : ℕ) (val : Option ℕ)
  | newFormatter (p : ℕ) (pattern : String)

namespace Heap

def setLogger (s : Heap) (l : ℕ) (n : Node) : Heap :=
  { s with loggers := Function.update s.loggers l n }

def setAppender (s : Heap) (a : ℕ) (x : Appender) : Heap :=
  { s with appenders := Function.update s.appenders a x }

def addAppender (s : Heap) (l a : ℕ) : Heap :=
  let s := if (s.appenders a).formatter = none then
    s.setAppender a { s.appenders a with formatter := (s.loggers l).formatter } else s
  s.setLogger l { s.loggers l with appenders := (s.loggers l).appenders ++ [a] }

def delAppender (s : Heap) (l a : ℕ) : Heap :=
  s.setLogger l { s.loggers l with appenders := (s.loggers l).appenders.erase a }

def clearAppenders (s : Heap) (l : ℕ) : Heap :=
  s.setLogger l { s.loggers l with appenders := [] }

def setFormatter (s : Heap) (l : ℕ) (val : Option ℕ) : Heap :=
  { s.setLogger l { s.loggers l with formatter := val } with
    appenders := fun a =>
      if a ∈ (s.loggers l).appenders ∧ (s.appenders a).hasFormatter = false then
        { s.appenders a with formatter := val }
      else s.appenders a }

def newFormatter (s : Heap) (p : ℕ) (pattern : String) : Heap :=
  { s with formatters := Function.update s.formatters p (some ⟨pattern⟩) }

def setFormatterString (s : Heap) (l : ℕ) (val : String) (p : ℕ) : Heap :=
  if (LogFormatter.mk val).isError then s else (s.newFormatter p val).setFormatter l (some p)

def setAppenderFormatter (s : Heap) (a : ℕ) (val : Option ℕ) : Heap :=
  s.setAppender a { s.appenders a with formatter := val, hasFormatter := val.isSome }

def step (s : Heap) : Act → Heap
  | .addAppender l a => s.addAppender l a
  | .delAppender l a => s.delAppender l a
  | .clearAppenders l => s.clearAppenders l
  | .setFormatter l val => s.setFormatter l val
  | .setFormatterString l val p => s.setFormatterString l val p
  | .setAppenderFormatter a val => s.setAppenderFormatter a val
  | .newFormatter p pattern => s.newFormatter p pattern

def Valid (s : Heap) (val : Option ℕ) : Prop := ∀ p, val = some p → s.formatters p ≠ none

/-- An appender is attached to one logger at a time, and pointers lead to formatters. -/
def Enabled (s : Heap) : Act → Prop
  | .addAppender l a => ∀ l', a ∈ (s.loggers l').appenders → l' = l
  | .setFormatter _ val | .setAppenderFormatter _ val => s.Valid val
  | .setFormatterString _ _ p | .newFormatter p _ => s.formatters p = none
  | _ => True

structure Initial (s : Heap) : Prop where
  logger : ∀ l, (s.loggers l).appenders = [] ∧
    ∃ p, (s.loggers l).formatter = some p ∧ s.formatters p = some ⟨defaultPattern⟩
  appender : ∀ a, (s.appenders a).formatter = none ∧ (s.appenders a).hasFormatter = false

def formatterOf (s : Heap) (a : ℕ) : Option LogFormatter :=
  (s.appenders a).formatter.bind s.formatters

def Fits (s : Heap) (l a : ℕ) : Prop :=
  (s.appenders a).formatter ≠ none ∧
    ((s.appenders a).hasFormatter = false → (s.appenders a).formatter = (s.loggers l).formatter)

def Right (s : Heap) : Prop := ∀ l, ∀ a ∈ (s.loggers l).appenders, s.Fits l a

def Proper (s : Heap) : Act → Prop
  | .addAppender l a =>
    if (s.appenders a).formatter = none then (s.loggers l).formatter ≠ none else s.Fits l a
  | .setFormatter l none => ∀ a ∈ (s.loggers l).appenders, (s.appenders a).hasFormatter = true
  | .setAppenderFormatter a none => ∀ l, a ∉ (s.loggers l).appenders
  | _ => True

structure Inv (s : Heap) : Prop where
  own : ∀ a, (s.appenders a).hasFormatter = true → (s.appenders a).formatter ≠ none
  sole : ∀ l l' a, a ∈ (s.loggers l).appenders → a ∈ (s.loggers l').appenders → l = l'
  appender : ∀ a, s.Valid (s.appenders a).formatter
  logger : ∀ l, s.Valid (s.loggers l).formatter

variable {s : Heap} {l a : ℕ}

theorem Initial.inv (h : s.Initial) : s.Inv where
  own a ha := by
    rw [(h.appender a).2] at ha
    cases ha
  sole l l' a ha := by
    rw [(h.logger l).1] at ha
    cases ha
  appender a p hp := by
    rw [(h.appender a).1] at hp
    cases hp
  logger l p hp := by
    obtain ⟨-, q, hq, hformatter⟩ := h.logger l
    rw [hq] at hp
    cases hp
    rw [hformatter]
    nofun

theorem Initial.right (h : s.Initial) : s.Right := by
  intro l a ha
  rw [(h.logger l).1] at ha
  cases ha

/-! ## Fields after an update -/

@[simp] theorem setLogger_appenders (n : Node) : (s.setLogger l n).appenders = s.appenders := rfl

@[simp] theorem setLogger_formatters (n : Node) : (s.setLogger l n).formatters = s.formatters := rfl

theorem setLogger_loggers (n : Node) (l' : ℕ) :
    (s.setLogger l n).loggers l' = if l' = l then n else s.loggers l' := by
  simp [setLogger, Function.update_apply]

theorem addAppender_appenders (b : ℕ) :
    (s.addAppender l a).appenders b =
      if b = a ∧ (s.appenders a).formatter = none then
        { s.appenders a with formatter := (s.loggers l).formatter }
      else s.appenders b := by
  by_cases hnull : (s.appenders a).formatter = none
  · simp [addAppender, hnull, setAppender, setLogger, Function.update_apply]
  · simp [addAppender, hnull, setLogger]

theorem addAppender_loggers (l' : ℕ) :
    (s.addAppender l a).loggers l' =
      if l' = l then { s.loggers l with appenders := (s.loggers l).appenders ++ [a] }
      else s.loggers l' := by
  by_cases hnull : (s.appenders a).formatter = none
  · simp [addAppender, hnull, setAppender, setLogger_loggers]
  · simp [addAppender, hnull, setLogger_loggers]

theorem addAppender_attached {l' b : ℕ} :
    b ∈ ((s.addAppender l a).loggers l').appenders ↔
      b ∈ (s.loggers l').appenders ∨ l' = l ∧ b = a := by
  rw [addAppender_loggers]
  split_ifs with hl
  · subst hl
    simp
  · simp [hl]

theorem addAppender_formatter (l' : ℕ) :
    ((s.addAppender l a).loggers l').formatter = (s.loggers l').formatter := by
  rw [addAppender_loggers]
  split_ifs with hl
  · rw [hl]
  · rfl

theorem addAppender_formatters : (s.addAppender l a).formatters = s.formatters := by
  rw [addAppender]
  split_ifs <;> rfl

@[simp] theorem setFormatter_formatters (val : Option ℕ) :
    (s.setFormatter l val).formatters = s.formatters := rfl

theorem setFormatter_attached (val : Option ℕ) (l' : ℕ) :
    ((s.setFormatter l val).loggers l').appenders = (s.loggers l').appenders := by
  rw [setFormatter, setLogger_loggers]
  split_ifs with hl
  · rw [hl]
  · rfl

theorem setFormatter_formatter (val : Option ℕ) (l' : ℕ) :
    ((s.setFormatter l val).loggers l').formatter =
      if l' = l then val else (s.loggers l').formatter := by
  rw [setFormatter, setLogger_loggers]
  split_ifs <;> rfl

theorem setFormatter_appenders (val : Option ℕ) (b : ℕ) :
    (s.setFormatter l val).appenders b =
      if b ∈ (s.loggers l).appenders ∧ (s.appenders b).hasFormatter = false then
        { s.appenders b with formatter := val }
      else s.appenders b := rfl

theorem setAppenderFormatter_appenders (val : Option ℕ) (b : ℕ) :
    (s.setAppenderFormatter a val).appenders b =
      if b = a then { s.appenders a with formatter := val, hasFormatter := val.isSome }
      else s.appenders b := by
  simp [setAppenderFormatter, setAppender, Function.update_apply]

/-! ## The formatters of attached appenders -/

theorem right_addAppender_iff (h : s.Right) :
    (s.addAppender l a).Right ↔ s.Proper (.addAppender l a) := by
  constructor
  · intro hright
    have hfits := hright l a (addAppender_attached.mpr (.inr ⟨rfl, rfl⟩))
    rw [Fits, addAppender_appenders, addAppender_formatter] at hfits
    rw [Proper]
    split_ifs with hnull
    · rw [if_pos ⟨rfl, hnull⟩] at hfits
      exact hfits.1
    · rw [if_neg fun hcond => hnull hcond.2] at hfits
      exact hfits
  · intro hproper l' b hb
    rw [Fits, addAppender_appenders, addAppender_formatter]
    rw [Proper] at hproper
    rcases addAppender_attached.mp hb with hb | ⟨rfl, rfl⟩
    · -- An appender that was attached before had a formatter, so it keeps it.
      have hfits := h l' b hb
      rw [if_neg]
      · exact hfits
      · rintro ⟨rfl, hnull⟩
        exact hfits.1 hnull
    · split_ifs at hproper with hnull
      · rw [if_pos ⟨rfl, hnull⟩]
        exact ⟨hproper, fun _ => rfl⟩
      · rw [if_neg fun hcond => hnull hcond.2]
        exact hproper

theorem right_setFormatter_iff (h : s.Right) (hinv : s.Inv) (val : Option ℕ) :
    (s.setFormatter l val).Right ↔ s.Proper (.setFormatter l val) := by
  constructor
  · intro hright
    cases val with
    | some p => trivial
    | none =>
      intro b hb
      have hfits := hright l b (by rwa [setFormatter_attached])
      rw [Fits, setFormatter_appenders] at hfits
      by_contra hown
      rw [if_pos ⟨hb, Bool.eq_false_iff.mpr hown⟩] at hfits
      exact hfits.1 rfl
  · intro hproper l' b hb
    rw [setFormatter_attached] at hb
    have hfits := h l' b hb
    rw [Fits, setFormatter_appenders, setFormatter_formatter]
    by_cases hl : l' = l
    · subst hl
      rw [if_pos rfl]
      split_ifs with hpushed
      · refine ⟨?_, fun _ => rfl⟩
        rintro rfl
        exact absurd (hproper b hb) (Bool.eq_false_iff.mp hpushed.2)
      · refine ⟨hfits.1, fun hown => ?_⟩
        exact absurd ⟨hb, hown⟩ hpushed
    · rw [if_neg hl, if_neg fun hpushed => hl (hinv.sole _ _ _ hb hpushed.1)]
      exact hfits

theorem right_setAppenderFormatter_iff (h : s.Right) (val : Option ℕ) :
    (s.setAppenderFormatter a val).Right ↔ s.Proper (.setAppenderFormatter a val) := by
  constructor
  · intro hright
    cases val with
    | some p => trivial
    | none =>
      intro l ha
      have hfits := hright l a ha
      rw [Fits, setAppenderFormatter_appenders, if_pos rfl] at hfits
      exact hfits.1 rfl
  · intro hproper l b hb
    have hfits := h l b hb
    rw [Fits, setAppenderFormatter_appenders]
    split_ifs with hba
    · subst hba
      cases val with
      | some p => exact ⟨nofun, nofun⟩
      | none => exact absurd hb (hproper l)
    · exact hfits

theorem Right.setLogger (h : s.Right) {n : Node} (hsub : n.appenders ⊆ (s.loggers l).appenders)
    (hformatter : n.formatter = (s.loggers l).formatter) : (s.setLogger l n).Right := by
  intro l' b hb
  rw [setLogger_loggers] at hb
  rw [Fits, setLogger_appenders, setLogger_loggers]
  split_ifs at hb ⊢ with hl
  · subst hl
    rw [hformatter]
    exact h l' b (hsub hb)
  · exact h l' b hb

namespace Inv

theorem setLogger (h : s.Inv) {n : Node} (hsub : n.appenders ⊆ (s.loggers l).appenders)
    (hformatter : n.formatter = (s.loggers l).formatter) : (s.setLogger l n).Inv where
  own := h.own
  sole := by
    have hattached : ∀ l' b, b ∈ ((s.setLogger l n).loggers l').appenders →
        b ∈ (s.loggers l').appenders := by
      intro l' b hb
      rw [setLogger_loggers] at hb
      split_ifs at hb with hl
      · subst hl
        exact hsub hb
      · exact hb
    exact fun l₁ l₂ b h₁ h₂ => h.sole l₁ l₂ b (hattached _ _ h₁) (hattached _ _ h₂)
  appender := h.appender
  logger l' := by
    rw [setLogger_loggers]
    split_ifs with hl
    · rw [hformatter]
      exact h.logger l
    · exact h.logger l'

theorem addAppender (h : s.Inv) (hsole : ∀ l', a ∈ (s.loggers l').appenders → l' = l) :
    (s.addAppender l a).Inv where
  own b hb := by
    rw [addAppender_appenders] at hb ⊢
    split_ifs at hb ⊢ with hnull
    · exact absurd hnull.2 (h.own a hb)
    · exact h.own b hb
  sole l₁ l₂ b h₁ h₂ := by
    rcases addAppender_attached.mp h₁ with hold₁ | ⟨rfl, rfl⟩
    · rcases addAppender_attached.mp h₂ with hold₂ | ⟨rfl, rfl⟩
      · exact h.sole l₁ l₂ b hold₁ hold₂
      · exact hsole l₁ hold₁
    · rcases addAppender_attached.mp h₂ with hold₂ | ⟨rfl, -⟩
      · exact (hsole l₂ hold₂).symm
      · rfl
  appender b := by
    rw [Valid, addAppender_appenders, addAppender_formatters]
    split_ifs
    · exact h.logger l
    · exact h.appender b
  logger l' := by
    rw [Valid, addAppender_formatter, addAppender_formatters]
    exact h.logger l'

theorem setFormatter (h : s.Inv) {val : Option ℕ} (hval : s.Valid val) :
    (s.setFormatter l val).Inv where
  own b hb := by
    rw [setFormatter_appenders] at hb ⊢
    split_ifs at hb ⊢ with hpushed
    · exact absurd hb (Bool.eq_false_iff.mp hpushed.2)
    · exact h.own b hb
  sole l₁ l₂ b h₁ h₂ := by
    rw [setFormatter_attached] at h₁ h₂
    exact h.sole l₁ l₂ b h₁ h₂
  appender b := by
    rw [setFormatter_appenders]
    split_ifs
    · exact hval
    · exact h.appender b
  logger l' := by
    rw [setFormatter_formatter]
    split_ifs
    · exact hval
    · exact h.logger l'

theorem setAppenderFormatter (h : s.Inv) {val : Option ℕ} (hval : s.Valid val) :
    (s.setAppenderFormatter a val).Inv where
  own b hb := by
    rw [setAppenderFormatter_appenders] at hb ⊢
    split_ifs at hb ⊢ with hba
    · exact Option.isSome_iff_ne_none.mp hb
    · exact h.own b hb
  sole := h.sole
  appender b := by
    rw [setAppenderFormatter_appenders]
    split_ifs
    · exact hval
    · exact h.appender b
  logger := h.logger

theorem newFormatter (h : s.Inv) (p : ℕ) (pattern : String) : (s.newFormatter p pattern).Inv := by
  have hvalid : ∀ val, s.Valid val → (s.newFormatter p pattern).Valid val := by
    intro val hval q hq
    rw [Heap.newFormatter]
    by_cases hqp : q = p
    · subst hqp
      simp
    · simpa [hqp] using hval q hq
  exact ⟨h.own, h.sole, fun a => hvalid _ (h.appender a), fun l => hvalid _ (h.logger l)⟩

end Inv

theorem right_step_iff (h : s.Right) (hinv : s.Inv) (act : Act) :
    (s.step act).Right ↔ s.Proper act := by
  cases act with
  | addAppender l a => exact right_addAppender_iff h
  | delAppender l a => exact iff_of_true (h.setLogger List.erase_subset rfl) trivial
  | clearAppenders l => exact iff_of_true (h.setLogger (List.nil_subset _) rfl) trivial
  | setFormatter l val => exact right_setFormatter_iff h hinv val
  | setFormatterString l val p =>
    refine iff_of_true ?_ trivial
    rw [step, setFormatterString]
    split_ifs
    · exact h
    · exact (right_setFormatter_iff (s := s.newFormatter p val) h (hinv.newFormatter p val) _).mpr
        trivial
  | setAppenderFormatter a val => exact right_setAppenderFormatter_iff h val
  | newFormatter p pattern => exact iff_of_true h trivial

theorem Inv.step (hinv : s.Inv) {act : Act} (henabled : s.Enabled act) : (s.step act).Inv := by
  cases act with
  | addAppender l a => exact hinv.addAppender henabled
  | delAppender l a => exact hinv.setLogger List.erase_subset rfl
  | clearAppenders l => exact hinv.setLogger (List.nil_subset _) rfl
  | setFormatter l val => exact hinv.setFormatter henabled
  | setFormatterString l val p =>
    rw [Heap.step, setFormatterString]
    split_ifs
    · exact hinv
    · refine (hinv.newFormatter p val).setFormatter ?_
      rintro q ⟨⟩
      simp [Heap.newFormatter]
  | setAppenderFormatter a val => exact hinv.setAppenderFormatter henabled
  | newFormatter p pattern => exact hinv.newFormatter p pattern

theorem Inv.formatterOf (hinv : s.Inv) (hright : s.Right) (ha : a ∈ (s.loggers l).appenders) :
    ∃ f, s.formatterOf a = some f := by
  obtain ⟨p, hp⟩ := Option.ne_none_iff_exists'.mp (hright l a ha).1
  obtain ⟨f, hf⟩ := Option.ne_none_iff_exists'.mp (hinv.appender a p hp)
  exact ⟨f, by rw [Heap.formatterOf, hp, Option.bind_some, hf]⟩

/-! ## Loggers as values -/

def viewAppender (s : Heap) (a : ℕ) : LogAppender :=
  ⟨(s.appenders a).sink, (s.appenders a).level, s.formatterOf a, (s.appenders a).hasFormatter⟩

def view (s : Heap) (l : ℕ) : Option Logger :=
  ((s.loggers l).formatter.bind s.formatters).map fun f =>
    ⟨(s.loggers l).name, (s.loggers l).level, (s.loggers l).appenders.map s.viewAppender, f⟩

variable {n : Logger}

theorem view_addAppender (hinv : s.Inv) (hn : s.view l = some n)
    (ha : a ∉ (s.loggers l).appenders) :
    (s.addAppender l a).view l = some (n.addAppender (s.viewAppender a)) := by
  obtain ⟨f, hf, rfl⟩ := Option.map_eq_some_iff.mp hn
  have hothers : (s.loggers l).appenders.map (s.addAppender l a).viewAppender =
      (s.loggers l).appenders.map s.viewAppender := by
    refine List.map_congr_left fun b hb => ?_
    have hne : b ≠ a := ne_of_mem_of_not_mem hb ha
    rw [viewAppender, formatterOf, addAppender_formatters, addAppender_appenders,
      if_neg fun h => hne h.1]
    rfl
  have hnew : (s.addAppender l a).viewAppender a =
      if (s.viewAppender a).formatter.isNone then { s.viewAppender a with formatter := some f }
      else s.viewAppender a := by
    rw [viewAppender, formatterOf, addAppender_formatters, addAppender_appenders]
    cases hp : (s.appenders a).formatter with
    | none => simp [viewAppender, formatterOf, hp, hf]
    | some p =>
      obtain ⟨g, hg⟩ := Option.ne_none_iff_exists'.mp (hinv.appender a p hp)
      simp [viewAppender, formatterOf, hp, hg]
  rw [view, addAppender_formatter, addAppender_formatters, hf, Option.map_some,
    addAppender_loggers, if_pos rfl, List.map_append, List.map_singleton, hothers, hnew]
  rfl

theorem view_clearAppenders (hn : s.view l = some n) :
    (s.clearAppenders l).view l = some n.clearAppenders := by
  obtain ⟨f, hf, rfl⟩ := Option.map_eq_some_iff.mp hn
  simp [view, clearAppenders, setLogger_loggers, hf, Logger.clearAppenders]

theorem view_setFormatter (hn : s.view l = some n) {p : ℕ} {f : LogFormatter}
    (hp : s.formatters p = some f) :
    (s.setFormatter l (some p)).view l = some (n.setFormatterPtr f) := by
  obtain ⟨g, hg, rfl⟩ := Option.map_eq_some_iff.mp hn
  have happenders : (s.loggers l).appenders.map (s.setFormatter l (some p)).viewAppender =
      ((s.loggers l).appenders.map s.viewAppender).map fun a =>
        if a.hasFormatter then a else { a with formatter := some f } := by
    rw [List.map_map]
    refine List.map_congr_left fun a ha => ?_
    cases hown : (s.appenders a).hasFormatter with
    | true => simp [viewAppender, formatterOf, setFormatter_appenders, hown]
    | false => simp [viewAppender, formatterOf, setFormatter_appenders, hown, ha, hp]
  rw [view, setFormatter_formatter, if_pos rfl, setFormatter_formatters, Option.bind_some, hp,
    Option.map_some, setFormatter_attached, happenders]
  simp [setFormatter, setLogger_loggers, Logger.setFormatterPtr]

theorem view_newFormatter (hinv : s.Inv) {p : ℕ} (hp : s.formatters p = none) (pattern : String) :
    (s.newFormatter p pattern).view l = s.view l := by
  -- Nothing leads to the new address yet.
  have hold : ∀ val, s.Valid val →
      val.bind (s.newFormatter p pattern).formatters = val.bind s.formatters := by
    rintro (_ | q) hval
    · rfl
    · have hne : q ≠ p := by
        rintro rfl
        exact hval q rfl hp
      exact Function.update_of_ne hne ..
  have happenders : (s.newFormatter p pattern).viewAppender = s.viewAppender := by
    funext a
    rw [viewAppender, viewAppender, formatterOf, formatterOf, ← hold _ (hinv.appender a)]
    rfl
  rw [view, view, happenders, ← hold _ (hinv.logger l)]
  rfl

/-- On the values that the objects amount to, the methods act as those of `Logger`. -/
theorem view_refines (hinv : s.Inv) (hn : s.view l = some n) :
    (s.clearAppenders l).view l = some n.clearAppenders ∧
    (∀ a ∉ (s.loggers l).appenders,
      (s.addAppender l a).view l = some (n.addAppender (s.viewAppender a))) ∧
    ∀ val p, s.formatters p = none →
      (s.setFormatterString l val p).view l = some (n.setFormatter val) := by
  refine ⟨view_clearAppenders hn, fun a ha => view_addAppender hinv hn ha, fun val p hp => ?_⟩
  rw [setFormatterString, Logger.setFormatter]
  split_ifs
  · exact hn
  · rw [← view_newFormatter hinv hp val] at hn
    exact view_setFormatter hn (Function.update_self ..)

end Heap

open Heap

/-- In every run of proper steps every attached appender leads to a formatter, and one without a
formatter of its own uses that of its logger. A step breaks this exactly if it is not proper. -/
theorem attached_formatter_iff (s₀ s : Heap) (h₀ : s₀.Initial) (as : List Act)
    (hrun : Run (fun s a t => s.Enabled a ∧ s.Proper a ∧ s.step a = t) s₀ as s) :
    s.Right ∧ (∀ l, ∀ a ∈ (s.loggers l).appenders, ∃ f, s.formatterOf a = some f) ∧
      ∀ a, s.Enabled a → ((s.step a).Right ↔ s.Proper a) := by
  have h : s.Inv ∧ s.Right := by
    refine hrun.invariant (P := fun s => s.Inv ∧ s.Right) ?_ ⟨h₀.inv, h₀.right⟩
    rintro s a t ⟨hinv, hright⟩ ⟨henabled, hproper, rfl⟩
    exact ⟨hinv.step henabled, (right_step_iff hright hinv a).mpr hproper⟩
  exact ⟨h.2, fun l a ha => h.1.formatterOf h.2 ha, fun a _ => right_step_iff h.2 h.1 a⟩

def constructed : Heap :=
  ⟨fun p => if p % 2 = 0 then some ⟨defaultPattern⟩ else none,
    fun _ => ⟨.stdout, .debug, none, false⟩, fun l => ⟨"", .debug, [], some (2 * l)⟩⟩

theorem initial_constructed : constructed.Initial where
  logger l := ⟨rfl, 2 * l, rfl, by simp [constructed]⟩
  appender _ := ⟨rfl, rfl⟩

-- An appender is attached and the formatter of its logger is changed.
theorem attached_formatter_iff_pushed :
    ∃ s, Run (fun s a t => s.Enabled a ∧ s.Proper a ∧ s.step a = t) constructed
        [.addAppender 1 7, .setFormatterString 1 "%m" 3] s ∧ s.Right ∧
      7 ∈ (s.loggers 1).appenders ∧ s.formatterOf 7 = some ⟨"%m"⟩ := by
  have hrun : Run (fun s a t => s.Enabled a ∧ s.Proper a ∧ s.step a = t) constructed
      [.addAppender 1 7, .setFormatterString 1 "%m" 3]
      ((constructed.step (.addAppender 1 7)).step (.setFormatterString 1 "%m" 3)) :=
    .cons ⟨by rintro l' ⟨⟩, by simp [Proper, constructed], rfl⟩
      (.cons ⟨rfl, trivial, rfl⟩ (.nil _))
  exact ⟨_, hrun, (attached_formatter_iff _ _ initial_constructed _ hrun).1, by decide, by decide⟩

/-- An appender that moves to another logger keeps the formatter of the first, and one whose
formatter is reset has none. -/
theorem moved_appender_keeps_formatter :
    (∃ s, Run (fun s a t => s.Enabled a ∧ s.step a = t) constructed
        [.addAppender 1 7, .delAppender 1 7, .addAppender 2 7] s ∧
      7 ∈ (s.loggers 2).appenders ∧ (s.appenders 7).hasFormatter = false ∧
      (s.appenders 7).formatter = some 2 ∧ (s.loggers 2).formatter = some 4) ∧
    ∃ s, Run (fun s a t => s.Enabled a ∧ s.step a = t) constructed
        [.addAppender 1 7, .setAppenderFormatter 7 none] s ∧
      7 ∈ (s.loggers 1).appenders ∧ (s.appenders 7).formatter = none := by
  refine ⟨⟨_, .cons ⟨?_, rfl⟩ (.cons ⟨trivial, rfl⟩ (.cons ⟨?_, rfl⟩ (.nil _))), by decide,
    by decide, by decide, by decide⟩,
    ⟨_, .cons ⟨?_, rfl⟩ (.cons ⟨nofun, rfl⟩ (.nil _)), by decide, by decide⟩⟩
  · rintro l' ⟨⟩
  · intro l' hattached
    simp only [step, delAppender, setLogger_loggers, addAppender_loggers] at hattached
    split_ifs at hattached <;> simp [constructed] at hattached
  · rintro l' ⟨⟩

end ApexStorm.Log.Shared
