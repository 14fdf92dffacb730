import Mathlib.Data.List.TakeWhile
import Mathlib.Data.String.Basic
import ApexStorm.Lib.SortedSet
import ApexStorm.Lib.Block
import ApexStorm.Log.Format

/-!
# Log definitions as texts

`LexicalCast` between a set of log definitions and a text. The level of a definition and
the formatter of an appender are printed only when they say nothing, and the level of an
appender is printed but never read, so that these three are lost.
-/

namespace ApexStorm.Log
open Lib Yaml

def Level.fromString (v : String) : Level :=
  (([("debug", .debug), ("info", .info), ("warn", .warn), ("error", .error), ("fatal", .fatal),
    ("DEBUG", .debug), ("INFO", .info), ("WARN", .warn), ("ERROR", .error), ("FATAL", .fatal)].find?
      fun x : String × Level => x.1 = v).map (·.2)).getD .unknown

def LogAppenderDefine.sinkNode (a : LogAppenderDefine) : Option Node :=
  if a.type = 1 then
    (Node.null.set "type" (.scalar "FileLogAppender")).bind fun na => na.set "file" (.scalar a.file)
  else if a.type = 2 then Node.null.set "type" (.scalar "StdoutLogAppender")
  else some .null

def LogAppenderDefine.toNode (a : LogAppenderDefine) : Option Node :=
  a.sinkNode.bind fun na =>
    (if a.level ≠ .unknown then na.set "level" (.scalar a.level.toString) else some na).bind
      fun na => if a.formatter = "" then na.set "formatter" (.scalar a.formatter) else some na

def fieldOr (n : Node) (key default : String) : Option String := do
  match ← n.get key with
  | some field => field.asString
  | none => some default

/-- One appender of a definition. An appender that is left out has no result, and what cannot be
converted throws. -/
def LogAppenderDefine.ofNode (a : Node) : Option (Option LogAppenderDefine) := do
  match ← a.get "type" with
  | none => return none
  | some type =>
    let type ← type.asString
    if type = "FileLogAppender" then
      match ← a.get "file" with
      | none => return none
      | some file =>
        let file ← file.asString
        let formatter ← fieldOr a "formatter" ""
        return some ⟨1, .unknown, formatter, file⟩
    else if type = "StdoutLogAppender" then return some ⟨2, .unknown, "", ""⟩
    else return none

def LogDefine.headNode (i : LogDefine) : Option Node :=
  (Node.null.set "name" (.scalar i.name)).bind fun n =>
    (if i.level = .unknown then n.set "level" (.scalar i.level.toString) else some n).bind
      fun n => if i.formatter ≠ "" then n.set "formatter" (.scalar i.formatter) else some n

def LogDefine.toNode (i : LogDefine) : Option Node :=
  i.headNode.bind fun n =>
    i.appenders.foldlM (fun n a => a.toNode.bind (n.pushUnder "appenders")) n

/-- One round of the loop over the appenders. One that is not there throws. -/
def addAppenderOf (acc : List LogAppenderDefine) (a : Option Node) :
    Option (List LogAppenderDefine) := do
  match ← LogAppenderDefine.ofNode (← a) with
  | some lad => return acc ++ [lad]
  | none => return acc

variable (Y : Format)

def appendersOf (n : Node) : Option (List LogAppenderDefine) := do
  match ← n.get "appenders" with
  | some appenders => (Y.items appenders).foldlM addAppenderOf []
  | none => return []

def LogDefine.ofNode (n : Node) : Option (Option LogDefine) := do
  match ← n.get "name" with
  | none => return none
  | some name =>
    let name ← name.asString
    let level ← fieldOr n "level" ""
    let formatter ← fieldOr n "formatter" ""
    let appenders ← appendersOf Y n
    return some ⟨name, Level.fromString level, formatter, appenders⟩

namespace LogDefines

/-- `insert`, which keeps a definition of the same name. -/
def insert (vec : LogDefines) (ld : LogDefine) : LogDefines :=
  if h : ∀ d ∈ vec.entries, d.name ≠ ld.name then
    ⟨SortedSet.insert (fun a b => a.name < b.name) ld vec.entries,
      SortedSet.sorted_insert (k := LogDefine.name) (fun _ _ => decide_eq_true_iff) vec.sorted h⟩
  else vec

def toStr (v : LogDefines) : Option String :=
  (v.entries.foldlM (fun node (i : LogDefine) => i.toNode.bind node.pushBack) .null).map Y.emit

def addDefineOf (vec : LogDefines) (n : Option Node) : Option LogDefines := do
  match n with
  | none => return vec
  | some n =>
    match ← LogDefine.ofNode Y n with
    | some ld => return vec.insert ld
    | none => return vec

def fromStr (v : String) : Option LogDefines :=
  (Y.load v).bind fun node => (Y.items node).foldlM (addDefineOf Y) empty

end LogDefines

theorem map_eq_self_iff {α : Type} {f : α → α} {l : List α} :
    l.map f = l ↔ ∀ a ∈ l, f a = a := by
  have hid := List.map_inj_left (l := l) (f := f) (g := id)
  rwa [List.map_id] at hid

namespace LogAppenderDefine

/-- A file or the standard output, which has no file. -/
def Supported (a : LogAppenderDefine) : Prop := a.type = 1 ∨ a.type = 2 ∧ a.file = ""

instance (a : LogAppenderDefine) : Decidable a.Supported := inferInstanceAs (Decidable (_ ∨ _))

def stripped (a : LogAppenderDefine) : LogAppenderDefine :=
  { a with level := .unknown, formatter := "" }

def sinkFields (a : LogAppenderDefine) : List (String × Node) :=
  if a.type = 1 then [("type", .scalar "FileLogAppender"), ("file", .scalar a.file)]
  else if a.type = 2 then [("type", .scalar "StdoutLogAppender")]
  else []

def fields (a : LogAppenderDefine) : List (String × Node) :=
  a.sinkFields ++ (if a.level ≠ .unknown then [("level", .scalar a.level.toString)] else []) ++
    if a.formatter = "" then [("formatter", .scalar a.formatter)] else []

theorem sinkNode_eq (a : LogAppenderDefine) : a.sinkNode = some (.ofEntries a.sinkFields) := by
  rw [sinkNode, sinkFields]
  split_ifs
  · have hfile : "file" ∉ [("type", Node.scalar "FileLogAppender")].map (·.1) := by simp
    exact Node.set_ofEntries hfile (.scalar a.file)
  · rfl
  · rfl

theorem toNode_eq (a : LogAppenderDefine) : a.toNode = some (.ofEntries a.fields) := by
  have hlevel : "level" ∉ a.sinkFields.map (·.1) := by
    rw [sinkFields]
    split_ifs <;> simp
  have hformatter : "formatter" ∉ (a.sinkFields ++
      if a.level ≠ .unknown then [("level", Node.scalar a.level.toString)] else []).map (·.1) := by
    rw [sinkFields]
    split_ifs <;> simp
  rw [toNode, sinkNode_eq, Option.bind_some, Node.set_ofEntries_ite hlevel, Option.bind_some,
    Node.set_ofEntries_ite hformatter]
  rfl

theorem stripped_eq_self_iff (a : LogAppenderDefine) :
    a.stripped = a ↔ a.level = .unknown ∧ a.formatter = "" := by
  cases a
  simp [stripped, eq_comm]

theorem ofNode_fields {a : LogAppenderDefine} (h : a.Supported) :
    ofNode (.ofEntries a.fields) = some (some a.stripped) := by
  obtain ⟨type, level, formatter, file⟩ := a
  rcases h with rfl | ⟨rfl, rfl⟩ <;> by_cases hf : formatter = "" <;>
    by_cases hl : level = .unknown <;>
    simp [ofNode, fieldOr, Node.get_ofEntries, fields, sinkFields, stripped, Node.asString, hf, hl]

end LogAppenderDefine

theorem addAppenders {as : List LogAppenderDefine} (h : ∀ a ∈ as, a.Supported)
    (acc : List LogAppenderDefine) :
    (as.map fun a => some (Node.ofEntries a.fields)).foldlM addAppenderOf acc =
      some (acc ++ as.map LogAppenderDefine.stripped) := by
  induction as generalizing acc with
  | nil => simp
  | cons a as ih =>
    rw [List.forall_mem_cons] at h
    rw [List.map_cons, List.foldlM_cons, addAppenderOf]
    simp [LogAppenderDefine.ofNode_fields h.1, ih h.2]

namespace LogDefine

def stripped (d : LogDefine) : LogDefine :=
  { d with level := .unknown, appenders := d.appenders.map LogAppenderDefine.stripped }

def fields (d : LogDefine) : List (String × Node) :=
  [("name", .scalar d.name)] ++
  (if d.level = .unknown then [("level", .scalar d.level.toString)] else []) ++
  if d.formatter ≠ "" then [("formatter", .scalar d.formatter)] else []

def node (d : LogDefine) : Node :=
  .withItems d.fields "appenders" (d.appenders.map fun a => .ofEntries a.fields)

theorem notMem_fields (d : LogDefine) : "appenders" ∉ d.fields.map (·.1) := by
  by_cases hl : d.level = .unknown <;> by_cases hf : d.formatter = "" <;> simp [fields, hl, hf]

theorem headNode_eq (d : LogDefine) : d.headNode = some (.ofEntries d.fields) := by
  have hlevel : "level" ∉ [("name", Node.scalar d.name)].map (·.1) := by simp
  have hformatter : "formatter" ∉ ([("name", Node.scalar d.name)] ++
      if d.level = .unknown then [("level", Node.scalar d.level.toString)] else []).map (·.1) := by
    split_ifs <;> simp
  have hname : Node.null.set "name" (.scalar d.name) =
      some (.ofEntries [("name", .scalar d.name)]) := rfl
  rw [headNode, hname, Option.bind_some, Node.set_ofEntries_ite hlevel, Option.bind_some,
    Node.set_ofEntries_ite hformatter]
  rfl

theorem toNode_eq (d : LogDefine) : d.toNode = some d.node := by
  have hnodes : d.appenders.mapM LogAppenderDefine.toNode =
      some (d.appenders.map fun a => .ofEntries a.fields) :=
    mapM_eq_map fun a _ => a.toNode_eq
  rw [toNode, headNode_eq, Option.bind_some, Node.pushAllUnder d.notMem_fields, hnodes]
  rfl

theorem get_node (d : LogDefine) {key : String} (hkey : key ≠ "appenders") :
    d.node.get key = some ((d.fields.find? (·.1 = key)).map (·.2)) := by
  rw [node, Node.get_withItems_of_ne hkey, Node.get_ofEntries]

theorem appendersOf_node {d : LogDefine} (h : ∀ a ∈ d.appenders, a.Supported) :
    appendersOf Y d.node = some (d.appenders.map LogAppenderDefine.stripped) := by
  have hloop := addAppenders h []
  rw [appendersOf, node, Node.get_withItems d.notMem_fields]
  cases happenders : d.appenders with
  | nil => rfl
  | cons a as =>
    rw [happenders] at hloop
    simpa [Y.items_ofItems, Function.comp_def] using hloop

theorem ofNode_node {d : LogDefine} (h : ∀ a ∈ d.appenders, a.Supported) :
    ofNode Y d.node = some (some d.stripped) := by
  rw [ofNode, fieldOr, fieldOr, appendersOf_node Y h, get_node d (by decide),
    get_node d (by decide), get_node d (by decide)]
  by_cases hl : d.level = .unknown <;> by_cases hf : d.formatter = "" <;>
    simp [fields, stripped, Node.asString, hl, hf, Level.toString, Level.fromString]

theorem stripped_eq_self_iff (d : LogDefine) :
    d.stripped = d ↔
      d.level = .unknown ∧ ∀ a ∈ d.appenders, a.level = .unknown ∧ a.formatter = "" := by
  have happenders : d.appenders.map LogAppenderDefine.stripped = d.appenders ↔
      ∀ a ∈ d.appenders, a.level = .unknown ∧ a.formatter = "" := by
    rw [map_eq_self_iff]
    exact forall₂_congr fun a _ => a.stripped_eq_self_iff
  rw [← happenders]
  cases d
  simp [stripped, eq_comm]

end LogDefine

namespace LogDefines

def stripped (v : LogDefines) : LogDefines where
  entries := v.entries.map LogDefine.stripped
  sorted := List.pairwise_map.mpr v.sorted

theorem insert_last {vec : LogDefines} {ld : LogDefine} (h : ∀ d ∈ vec.entries, d.name < ld.name) :
    (vec.insert ld).entries = vec.entries ++ [ld] := by
  have hbelow : ∀ d ∈ vec.entries, decide (d.name < ld.name) = true :=
    fun d hd => decide_eq_true (h d hd)
  rw [insert, dif_pos fun d hd => (h d hd).ne]
  change vec.entries.takeWhile _ ++ _ = _
  rw [List.takeWhile_eq_self_iff.mpr hbelow, List.dropWhile_eq_nil_iff.mpr hbelow]

theorem addDefines {ds : List LogDefine} (hsupported : ∀ d ∈ ds, ∀ a ∈ d.appenders, a.Supported)
    {vec : LogDefines} (hsorted : ((vec.entries ++ ds).map (·.name)).Pairwise (· < ·)) :
    ∃ vec', (ds.map fun d => some d.node).foldlM (addDefineOf Y) vec = some vec' ∧
      vec'.entries = vec.entries ++ ds.map LogDefine.stripped := by
  induction ds generalizing vec with
  | nil => exact ⟨vec, rfl, (List.append_nil _).symm⟩
  | cons d ds ih =>
    rw [List.forall_mem_cons] at hsupported
    have hstep : addDefineOf Y vec (some d.node) = some (vec.insert d.stripped) := by
      simp [addDefineOf, LogDefine.ofNode_node Y hsupported.1]
    have hbelow : ∀ b ∈ vec.entries, b.name < d.stripped.name := by
      intro b hb
      rw [List.map_append] at hsorted
      exact (List.pairwise_append.mp hsorted).2.2 _ (List.mem_map_of_mem hb) _ List.mem_cons_self
    have hlast := insert_last hbelow
    have hnames : ((vec.insert d.stripped).entries ++ ds).map (·.name) =
        (vec.entries ++ d :: ds).map (·.name) := by
      rw [hlast, List.append_assoc, List.map_append, List.map_append, List.map_append]
      rfl
    rw [← hnames] at hsorted
    obtain ⟨vec', hvec', hentries⟩ := ih hsupported.2 hsorted
    refine ⟨vec', ?_, ?_⟩
    · rw [List.map_cons, List.foldlM_cons, hstep]
      exact hvec'
    · rw [hentries, hlast, List.append_assoc]
      rfl

theorem fromStr_toStr {v : LogDefines} (h : ∀ d ∈ v.entries, ∀ a ∈ d.appenders, a.Supported) :
    (v.toStr Y).bind (fromStr Y) = some v.stripped := by
  have hnodes : v.entries.mapM LogDefine.toNode = some (v.entries.map LogDefine.node) :=
    mapM_eq_map fun d _ => d.toNode_eq
  have hsorted : ((empty.entries ++ v.entries).map (·.name)).Pairwise (· < ·) :=
    List.pairwise_map.mpr v.sorted
  obtain ⟨vec, hvec, hentries⟩ := addDefines Y h hsorted
  rw [toStr, Node.pushAll, hnodes, Option.map_some, Option.map_some, Option.bind_some, fromStr,
    Y.load_emit, Option.bind_some, Y.items_ofItems, List.map_map]
  refine hvec.trans (congrArg some ?_)
  cases vec
  simpa [stripped, empty] using hentries

end LogDefines

/-- A round trip keeps names, formatters of definitions, types, files and the order of the
appenders, so it is exact for the definitions that have nothing else. -/
theorem define_round_trip_iff (Y : Format) (v : LogDefines)
    (hsupported : ∀ d ∈ v.entries, ∀ a ∈ d.appenders, a.Supported) :
    (v.toStr Y).bind (LogDefines.fromStr Y) = some v ↔
      ∀ d ∈ v.entries, d.level = .unknown ∧
        ∀ a ∈ d.appenders, a.level = .unknown ∧ a.formatter = "" := by
  have hentries : v.stripped = v ↔ v.entries.map LogDefine.stripped = v.entries := by
    cases v
    simp [LogDefines.stripped]
  rw [LogDefines.fromStr_toStr Y hsupported, Option.some_inj, hentries, map_eq_self_iff]
  exact forall₂_congr fun d _ => d.stripped_eq_self_iff

theorem define_round_trip_iff_root :
    let v := LogDefines.single
      ⟨"root", .unknown, "%m%n", [⟨1, .unknown, "", "root.txt"⟩, ⟨2, .unknown, "", ""⟩]⟩
    (v.toStr Block.block).bind (LogDefines.fromStr Block.block) = some v :=
  (define_round_trip_iff Block.block (LogDefines.single
    ⟨"root", .unknown, "%m%n", [⟨1, .unknown, "", "root.txt"⟩, ⟨2, .unknown, "", ""⟩]⟩)
      (by decide)).mpr (by decide)

/-- The level of a logger is not printed. -/
theorem level_lost :
    let v := LogDefines.single ⟨"root", .info, "", [⟨2, .unknown, "", ""⟩]⟩
    v.toStr Block.block =
      some "- name: root\n  appenders:\n    - type: StdoutLogAppender\n      formatter: \"\"" ∧
    (v.toStr Block.block).bind (LogDefines.fromStr Block.block) =
      some (.single ⟨"root", .unknown, "", [⟨2, .unknown, "", ""⟩]⟩) ∧
    (v.toStr Block.block).bind (LogDefines.fromStr Block.block) ≠ some v := by
  intro v
  have hback : (v.toStr Block.block).bind (LogDefines.fromStr Block.block) =
      some (.single ⟨"root", .unknown, "", [⟨2, .unknown, "", ""⟩]⟩) :=
    LogDefines.fromStr_toStr Block.block (by decide)
  refine ⟨by decide +kernel, hback, ?_⟩
  rw [hback]
  decide

end ApexStorm.Log
