import ApexStorm.Lib.Run
import ApexStorm.Log.Logger

/-!
# When applying a log configuration does not depend on earlier ones

A set of definitions assigned to `logs` has the effect it would have on a new manager,
and loggers that were named before are silent, if no definition is the same as before
(the listener then goes through a null logger), every appender is a file or the standard
output, and a definition without a valid formatter finds its logger with the default
one.
-/

namespace ApexStorm.Log
open Lib

def LogDefine.formatterOver (d : LogDefine) (base : LogFormatter) : LogFormatter :=
  if d.formatter ≠ "" ∧ !(LogFormatter.mk d.formatter).isError then ⟨d.formatter⟩ else base

theorem LogDefine.formatterOver_eq_iff (d : LogDefine) (base base' : LogFormatter) :
    d.formatterOver base = d.formatterOver base' ↔
      (d.formatter ≠ "" ∧ (LogFormatter.mk d.formatter).isError = false) ∨ base = base' := by
  simp only [formatterOver, Bool.not_eq_true']
  split_ifs with hvalid
  · simp [hvalid]
  · simp [hvalid]

theorem LogAppenderDefine.make_isSome (a : LogAppenderDefine) :
    a.make.isSome ↔ a.type = 1 ∨ a.type = 2 := by
  rw [make]
  by_cases hfile : a.type = 1
  · simp [hfile]
  · by_cases hstdout : a.type = 2
    · simp [hstdout]
    · simp [hfile, hstdout]

namespace Logger
variable {l l' : Logger} {d : LogDefine}

theorem define_eq (l : Logger) (d : LogDefine) :
    l.define d =
      d.appenders.foldlM addDefined ⟨l.name, d.level, [], d.formatterOver l.formatter⟩ := by
  have hstart : (if d.formatter ≠ "" then
      ({ l with level := d.level } : Logger).setFormatter d.formatter
      else { l with level := d.level }).clearAppenders =
        ⟨l.name, d.level, [], d.formatterOver l.formatter⟩ := by
    rw [LogDefine.formatterOver]
    by_cases hempty : d.formatter = ""
    · simp [hempty, clearAppenders]
    · cases herror : (LogFormatter.mk d.formatter).isError with
      | true => simp [hempty, herror, setFormatter, clearAppenders]
      | false => simp [hempty, herror, setFormatter, setFormatterPtr, clearAppenders]
  rw [define, ← hstart]

theorem addAppenders_spec {as : List LogAppenderDefine} (h : as.foldlM addDefined l = some l') :
    l'.name = l.name ∧ l'.formatter = l.formatter := by
  induction as generalizing l with
  | nil =>
    cases h
    exact ⟨rfl, rfl⟩
  | cons a as ih =>
    rw [List.foldlM_cons] at h
    obtain ⟨l₁, hadd, h⟩ := Option.bind_eq_some_iff.mp h
    obtain ⟨ap, -, rfl⟩ := Option.map_eq_some_iff.mp hadd
    obtain ⟨hname, hformatter⟩ := ih h
    exact ⟨hname, hformatter⟩

theorem addAppenders_isSome (as : List LogAppenderDefine) (l : Logger) :
    (as.foldlM addDefined l).isSome ↔ ∀ a ∈ as, a.type = 1 ∨ a.type = 2 := by
  induction as generalizing l with
  | nil => simp
  | cons a as ih =>
    rw [List.foldlM_cons, List.forall_mem_cons, ← a.make_isSome, addDefined]
    cases hmake : a.make with
    | none => simp
    | some ap => simpa using ih (l.addAppender ap)

theorem define_isSome (l : Logger) (d : LogDefine) :
    (l.define d).isSome ↔ ∀ a ∈ d.appenders, a.type = 1 ∨ a.type = 2 := by
  rw [define_eq]
  exact addAppenders_isSome _ _

theorem define_spec (h : l.define d = some l') :
    l'.name = l.name ∧ l'.formatter = d.formatterOver l.formatter := by
  rw [define_eq] at h
  exact addAppenders_spec h

theorem define_congr (hname : l.name = l'.name)
    (hformatter : d.formatterOver l.formatter = d.formatterOver l'.formatter) :
    l.define d = l'.define d := by
  rw [define_eq, define_eq, hname, hformatter]

end Logger

def LogDefines.names (ds : LogDefines) : List String := ds.entries.map (·.name)

namespace LogDefines
variable (ds : LogDefines) (d : LogDefine)

theorem nodup_names : ds.names.Nodup := by
  refine List.Pairwise.map _ (fun a b hlt heq => ?_) ds.sorted
  rw [heq] at hlt
  exact String.lt_irrefl _ hlt

theorem find_eq_none : ds.find d = none ↔ d.name ∉ ds.names := by
  simp [find, names, List.find?_eq_none]

theorem find_eq_self : ds.find d = some d ↔ d ∈ ds.entries := by
  constructor
  · exact List.mem_of_find?_eq_some
  · intro hd
    have hsome : (ds.find d).isSome := by
      rw [Option.isSome_iff_ne_none, ne_eq, find_eq_none, not_not]
      exact List.mem_map_of_mem hd
    obtain ⟨e, he⟩ := Option.isSome_iff_exists.mp hsome
    have hname : e.name = d.name := by simpa using List.find?_some he
    have heq : e = d :=
      List.inj_on_of_nodup_map ds.nodup_names (List.mem_of_find?_eq_some he) hd hname
    rw [he, heq]

end LogDefines

variable {old new : LogDefines} {m m' : LoggerManager}

def entry (old : LogDefines) (d : LogDefine) (l : Option Logger) : Option Logger :=
  if old.find d = some d then none else (l.getD (.new d.name)).define d

theorem defineAll_eq (old : LogDefines) (ds : List LogDefine) (m : LoggerManager) :
    ds.foldlM (defineEntry old) m =
      (ds.foldlM (Keyed.put (·.name) (entry old)) m.loggers).map LoggerManager.mk := by
  induction ds generalizing m with
  | nil => rfl
  | cons d ds ih =>
    rw [List.foldlM_cons, List.foldlM_cons]
    have hput : defineEntry old m d =
        (Keyed.put (·.name) (entry old) m.loggers d).map LoggerManager.mk := by
      rw [defineEntry, Keyed.put, entry]
      split_ifs
      · rfl
      · rw [Option.map_map]
        rfl
    rw [hput]
    cases Keyed.put (·.name) (entry old) m.loggers d with
    | none => rfl
    | some loggers => exact ih ⟨loggers⟩

theorem removeAll_loggers (new : LogDefines) (ds : List LogDefine) (m : LoggerManager)
    (x : String) :
    (ds.foldl (removeEntry new) m).loggers x =
      if x ∈ ds.map (·.name) ∧ x ∉ new.names then some (m.getLogger x).disable
      else m.loggers x := by
  induction ds generalizing m with
  | nil => simp
  | cons d ds ih =>
    simp only [List.foldl_cons, ih, removeEntry, new.find_eq_none d]
    by_cases hnew : d.name ∈ new.names
    · have hne : x ∉ new.names → x ≠ d.name := fun hx heq => hx (heq ▸ hnew)
      by_cases hx : x ∈ new.names
      · simp [hnew, hx]
      · simp [hnew, hx, hne hx]
    · by_cases heq : x = d.name
      · subst heq
        simp [hnew, LoggerManager.set, LoggerManager.getLogger, Logger.disable,
          Logger.clearAppenders]
      · simp [hnew, heq, LoggerManager.set, LoggerManager.getLogger]

theorem onChange_spec (h : onChange old new m = some m') :
    (∀ d ∈ new.entries, d ∉ old.entries ∧
      ∃ l, (m.getLogger d.name).define d = some l ∧ m'.loggers d.name = some l) ∧
    ∀ x ∉ new.names, m'.loggers x =
      if x ∈ old.names then some (m.getLogger x).disable else m.loggers x := by
  obtain ⟨m₁, hdefine, hremove⟩ := Option.bind_eq_some_iff.mp h
  obtain rfl := Option.some.inj hremove
  rw [defineAll_eq, Option.map_eq_some_iff] at hdefine
  obtain ⟨loggers, hput, rfl⟩ := hdefine
  obtain ⟨hmem, hother⟩ := Keyed.putAll_some new.nodup_names hput
  constructor
  · intro d hd
    obtain ⟨l, hl, hd'⟩ := hmem d hd
    have hname : d.name ∈ new.names := List.mem_map_of_mem hd
    rw [entry] at hl
    split_ifs at hl with hsame
    rw [old.find_eq_self] at hsame
    refine ⟨hsame, l, hl, ?_⟩
    rw [removeAll_loggers, if_neg fun hx => hx.2 hname]
    exact hd'
  · intro x hx
    have hsame : loggers x = m.loggers x := hother x hx
    rw [removeAll_loggers]
    simp only [LoggerManager.getLogger, hsame, hx, not_false_eq_true, and_true]
    rfl

theorem exists_onChange (m : LoggerManager)
    (h : ∀ d ∈ new.entries, d ∉ old.entries ∧ ∀ a ∈ d.appenders, a.type = 1 ∨ a.type = 2) :
    ∃ m', onChange old new m = some m' := by
  have hentry : ∀ d ∈ new.entries, (entry old d (m.loggers d.name)).isSome := by
    intro d hd
    have hnot : old.find d ≠ some d := fun hsame => (h d hd).1 ((old.find_eq_self d).mp hsame)
    rw [entry, if_neg hnot, Logger.define_isSome]
    exact (h d hd).2
  obtain ⟨loggers, hput⟩ := Keyed.exists_putAll new.nodup_names hentry
  refine ⟨old.entries.foldl (removeEntry new) ⟨loggers⟩, ?_⟩
  rw [onChange, defineAll_eq, hput]
  rfl

theorem getLogger_new (x : String) : (LoggerManager.new.getLogger x).name = x ∧
    (LoggerManager.new.getLogger x).formatter = ⟨defaultPattern⟩ := by
  rw [LoggerManager.getLogger, LoggerManager.new]
  by_cases hroot : x = "root"
  · subst hroot
    simp [Logger.addAppender, Logger.new]
  · simp [Function.update_of_ne hroot, Logger.new]

namespace Logs

/-- The loggers of the current set are those that a new manager would have, and the loggers named
earlier but not now have no appenders and write nothing. -/
structure Applied (earlier : List String) (s : Logs) : Prop where
  asNew : ∃ m, onChange .empty s.value .new = some m ∧
    ∀ d ∈ s.value.entries, s.manager.loggers d.name = m.loggers d.name
  silent : ∀ x ∈ earlier, x ∉ s.value.names → ∃ l, s.manager.loggers x = some l ∧
    l.appenders = [] ∧ ∀ level, level ≠ .highest → s.manager.log x level = []

/-- The set is the current one, or no definition is in the current one, all appenders have a type,
and a definition has a valid formatter or its logger the default one. -/
def reloads (s : Logs) (v : LogDefines) : Bool :=
  v = s.value ∨ ∀ d ∈ v.entries, d ∉ s.value.entries ∧
    (∀ a ∈ d.appenders, a.type = 1 ∨ a.type = 2) ∧
    ((d.formatter ≠ "" ∧ (LogFormatter.mk d.formatter).isError = false) ∨
      (s.manager.getLogger d.name).formatter = ⟨defaultPattern⟩)

structure Inv (earlier : List String) (s : Logs) : Prop where
  named : ∀ x l, s.manager.loggers x = some l → l.name = x
  asNew : ∃ m, onChange .empty s.value .new = some m ∧
    ∀ d ∈ s.value.entries, s.manager.loggers d.name = m.loggers d.name
  disabled : ∀ x ∈ earlier, x ∉ s.value.names →
    ∃ l, s.manager.loggers x = some l ∧ l.level = .highest ∧ l.appenders = []

variable {s t : Logs} {earlier : List String} {v : LogDefines}

namespace Inv

theorem initial : Inv [] .initial where
  named x l h := by
    have hname := (getLogger_new x).1
    rw [LoggerManager.getLogger, show LoggerManager.new.loggers x = some l from h] at hname
    exact hname
  asNew := ⟨.new, rfl, fun d hd => by cases hd⟩
  disabled x hx := by cases hx

theorem applied (h : s.Inv earlier) : s.Applied earlier where
  asNew := h.asNew
  silent x hx hnot := by
    obtain ⟨l, hl, hlevel, happenders⟩ := h.disabled x hx hnot
    refine ⟨l, hl, happenders, fun level hlevel' => ?_⟩
    rw [LoggerManager.log, hl]
    refine if_neg ?_
    rw [hlevel]
    cases level with
    | highest => exact absurd rfl hlevel'
    | _ => decide

theorem getLogger_name (h : s.Inv earlier) (x : String) : (s.manager.getLogger x).name = x := by
  rw [LoggerManager.getLogger]
  cases hl : s.manager.loggers x with
  | none => rfl
  | some l => exact h.named x l hl

theorem onChange (h : s.Inv earlier) {m : LoggerManager}
    (hreloads : ∀ d ∈ v.entries, d ∉ s.value.entries ∧
      (∀ a ∈ d.appenders, a.type = 1 ∨ a.type = 2) ∧
      ((d.formatter ≠ "" ∧ (LogFormatter.mk d.formatter).isError = false) ∨
        (s.manager.getLogger d.name).formatter = ⟨defaultPattern⟩))
    (hchange : Log.onChange s.value v s.manager = some m) :
    Inv (earlier ++ v.names) ⟨v, m⟩ := by
  obtain ⟨hdefined, hother⟩ := onChange_spec hchange
  refine ⟨fun x l hl => ?_, ?_, fun x hx hnot => ?_⟩
  · by_cases hx : x ∈ v.names
    · obtain ⟨d, hd, rfl⟩ := List.mem_map.mp hx
      obtain ⟨-, l', hdefine, hl'⟩ := hdefined d hd
      rw [show m.loggers d.name = some l from hl] at hl'
      cases hl'
      rw [(Logger.define_spec hdefine).1, h.getLogger_name]
    · rw [show m.loggers x = _ from hother x hx] at hl
      split_ifs at hl
      · cases hl
        exact h.getLogger_name x
      · exact h.named x l hl
  · have hempty : ∀ d ∈ v.entries, d ∉ LogDefines.empty.entries ∧
        ∀ a ∈ d.appenders, a.type = 1 ∨ a.type = 2 :=
      fun d hd => ⟨List.not_mem_nil, (hreloads d hd).2.1⟩
    obtain ⟨m₀, hnew⟩ := exists_onChange .new hempty
    refine ⟨m₀, hnew, fun d hd => ?_⟩
    obtain ⟨-, l, hdefine, hl⟩ := hdefined d hd
    obtain ⟨-, l₀, hdefine₀, hl₀⟩ := (onChange_spec hnew).1 d hd
    have hsame : (s.manager.getLogger d.name).define d =
        (LoggerManager.new.getLogger d.name).define d := by
      apply Logger.define_congr
      · rw [h.getLogger_name, (getLogger_new d.name).1]
      · rw [LogDefine.formatterOver_eq_iff, (getLogger_new d.name).2]
        exact (hreloads d hd).2.2
    rw [hdefine, hdefine₀] at hsame
    cases hsame
    exact hl.trans hl₀.symm
  · have hearlier : x ∈ earlier := (List.mem_append.mp hx).resolve_right hnot
    rw [show m.loggers x = _ from hother x hnot]
    split_ifs with hold
    · exact ⟨_, rfl, rfl, rfl⟩
    · exact h.disabled x hearlier hold

theorem setValue (h : s.Inv earlier) (hreloads : s.reloads v = true)
    (hset : s.setValue v = some t) : Inv (earlier ++ v.names) t := by
  rw [Logs.setValue] at hset
  split_ifs at hset with hsame
  · cases hset
    refine ⟨h.named, h.asNew, fun x hx hnot => h.disabled x ?_ hnot⟩
    rw [hsame] at hx
    exact (List.mem_append.mp hx).resolve_right hnot
  · obtain ⟨m, hchange, rfl⟩ := Option.map_eq_some_iff.mp hset
    simp only [reloads, decide_eq_true_eq] at hreloads
    exact h.onChange (hreloads.resolve_left hsame) hchange

theorem exists_setValue (hreloads : s.reloads v = true) : ∃ t, s.setValue v = some t := by
  rw [Logs.setValue]
  split_ifs with hsame
  · exact ⟨s, rfl⟩
  · simp only [reloads, decide_eq_true_eq] at hreloads
    have hentries := hreloads.resolve_left hsame
    obtain ⟨m, hm⟩ := exists_onChange s.manager
      fun d hd => ⟨(hentries d hd).1, (hentries d hd).2.1⟩
    exact ⟨⟨v, m⟩, by rw [hm]; rfl⟩

theorem reloads_of_applied (hset : s.setValue v = some t) (happlied : t.Applied earlier) :
    s.reloads v = true := by
  simp only [reloads, decide_eq_true_eq]
  rw [Logs.setValue] at hset
  split_ifs at hset with hsame
  · exact .inl hsame
  · right
    obtain ⟨m, hchange, rfl⟩ := Option.map_eq_some_iff.mp hset
    obtain ⟨m₀, hnew, hagree⟩ := happlied.asNew
    intro d hd
    obtain ⟨hnot, l, hdefine, hl⟩ := (onChange_spec hchange).1 d hd
    obtain ⟨-, l₀, hdefine₀, hl₀⟩ := (onChange_spec hnew).1 d hd
    have hsome : ((s.manager.getLogger d.name).define d).isSome := by rw [hdefine]; rfl
    refine ⟨hnot, (Logger.define_isSome _ _).mp hsome, ?_⟩
    have heq : l = l₀ := Option.some.inj (hl.symm.trans ((hagree d hd).trans hl₀))
    have hformatter := (Logger.define_spec hdefine).2
    rw [heq, (Logger.define_spec hdefine₀).2, (getLogger_new d.name).2] at hformatter
    exact (LogDefine.formatterOver_eq_iff d _ _).mp hformatter.symm

end Inv
end Logs

/-- After every sequence of assignments that reload, the loggers are as on a new manager and the
others silent, and one more assignment has a result like that exactly if it reloads. -/
theorem logs_as_new_iff_reloads (vs : List LogDefines) (s : Logs)
    (hrun : Run (fun s v t => s.reloads v = true ∧ s.setValue v = some t) .initial vs s) :
    s.Applied (vs.flatMap LogDefines.names) ∧
      ∀ v, (∃ t, s.setValue v = some t ∧ t.Applied ((vs ++ [v]).flatMap LogDefines.names)) ↔
        s.reloads v = true := by
  have h : s.Inv (vs.flatMap LogDefines.names) := by
    refine hrun.history (P := fun vs s => s.Inv (vs.flatMap LogDefines.names))
      (fun ds s v t hs hstep => ?_) .initial
    simpa using hs.setValue hstep.1 hstep.2
  refine ⟨h.applied, fun v => ⟨?_, fun hreloads => ?_⟩⟩
  · rintro ⟨t, hset, happlied⟩
    exact Logs.Inv.reloads_of_applied hset happlied
  · obtain ⟨t, hset⟩ := Logs.Inv.exists_setValue hreloads
    exact ⟨t, hset, by simpa using (h.setValue hreloads hset).applied⟩

-- A definition is replaced by one of another name.
theorem logs_as_new_iff_reloads_replaced :
    ∃ s : Logs, Run (fun s v t => s.reloads v = true ∧ s.setValue v = some t) .initial
        [.single ⟨"a", .info, "%m", [⟨2, .debug, "", ""⟩]⟩,
          .single ⟨"b", .warn, "", [⟨1, .error, "%n", "b.log"⟩]⟩] s ∧
      s.manager.log "a" .fatal = [] ∧ (s.manager.log "b" .fatal).length = 1 ∧
      s.Applied ["a", "b"] := by
  have hexec : (iterate (guarded Logs.reloads Logs.setValue) .initial
      [.single ⟨"a", .info, "%m", [⟨2, .debug, "", ""⟩]⟩,
        .single ⟨"b", .warn, "", [⟨1, .error, "%n", "b.log"⟩]⟩]).map
          (fun s => (s.manager.log "a" .fatal, (s.manager.log "b" .fatal).length)) =
      some ([], 1) := by decide +kernel
  obtain ⟨s, hs, hobs⟩ := Option.map_eq_some_iff.mp hexec
  obtain ⟨ha, hb⟩ := Prod.mk.inj hobs
  have hrun := Run.of_guarded hs
  exact ⟨s, hrun, ha, hb, (logs_as_new_iff_reloads _ s hrun).1⟩

/-- After the definition of `a`, adding another one to the set goes through a null logger, and
defining `a` without a formatter leaves the earlier formatter. -/
theorem logs_depend_on_history :
    ∃ s t : Logs, Run (fun s v t => s.setValue v = some t) .initial
        [.single ⟨"a", .info, "%m", [⟨2, .debug, "", ""⟩]⟩] s ∧
      s.setValue ⟨[⟨"a", .info, "%m", [⟨2, .debug, "", ""⟩]⟩, ⟨"b", .info, "%m", []⟩],
        by decide +kernel⟩ = none ∧
      s.setValue (.single ⟨"a", .info, "", []⟩) = some t ∧
      (t.manager.loggers "a").map (·.formatter.pattern) = some "%m" ∧
      (onChange .empty (.single ⟨"a", .info, "", []⟩) .new).map
        (fun m => (m.loggers "a").map (·.formatter.pattern)) = some (some defaultPattern) := by
  have hexec : (iterate Logs.setValue .initial
      [.single ⟨"a", .info, "%m", [⟨2, .debug, "", ""⟩]⟩]).bind (fun s =>
        (s.setValue (.single ⟨"a", .info, "", []⟩)).map fun t =>
          ((s.setValue ⟨[⟨"a", .info, "%m", [⟨2, .debug, "", ""⟩]⟩, ⟨"b", .info, "%m", []⟩],
            by decide +kernel⟩).isNone, (t.manager.loggers "a").map (·.formatter.pattern))) =
      some (true, some "%m") := by decide +kernel
  obtain ⟨s, hs, hexec⟩ := Option.bind_eq_some_iff.mp hexec
  obtain ⟨t, ht, hobs⟩ := Option.map_eq_some_iff.mp hexec
  obtain ⟨hnone, hformatter⟩ := Prod.mk.inj hobs
  exact ⟨s, t, Run.of_iterate hs, Option.isNone_iff_eq_none.mp hnone, ht, hformatter,
    by decide +kernel⟩

end ApexStorm.Log
