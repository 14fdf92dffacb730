import ApexStorm.Lib.Keyed
import ApexStorm.Log.Formatter

/-!
# Loggers and the listener of the log configuration

Loggers are kept by the manager under their names. The listener of the variable `logs`
applies a new set of definitions over the old one. It has no result when it goes through
a null logger or a null appender.
-/

namespace ApexStorm.Log
open Lib

/-- The level that is `(LogLevel::Level)100` in the source is `highest`. -/
inductive Level
  | unknown | debug | info | warn | error | fatal | highest
  deriving DecidableEq, Repr

def Level.toNat : Level → ℕ
  | .unknown => 0
  | .debug => 1
  | .info => 2
  | .warn => 3
  | .error => 4
  | .fatal => 5
  | .highest => 100

inductive Sink
  | file (filename : String)
  | stdout
  deriving DecidableEq, Repr

structure LogAppender where
  sink : Sink
  level : Level
  formatter : Option LogFormatter
  hasFormatter : Bool
  deriving DecidableEq, Repr

structure Logger where
  name : String
  level : Level
  appenders : List LogAppender
  formatter : LogFormatter
  deriving DecidableEq, Repr

structure LogAppenderDefine where
  type : ℤ
  level : Level
  formatter : String
  file : String
  deriving DecidableEq, Repr

structure LogDefine where
  name : String
  level : Level
  formatter : String
  appenders : List LogAppenderDefine
  deriving DecidableEq, Repr

/-- A `std::set<LogDefine>`, ordered by name. -/
structure LogDefines where
  entries : List LogDefine
  sorted : entries.Pairwise (·.name < ·.name)
  deriving DecidableEq

def LogDefines.single (d : LogDefine) : LogDefines := ⟨[d], List.pairwise_singleton _ d⟩

namespace LogAppender

def new (sink : Sink) : LogAppender := ⟨sink, .debug, none, false⟩

def setFormatter (a : LogAppender) (val : Option LogFormatter) : LogAppender :=
  { a with formatter := val, hasFormatter := val.isSome }

end LogAppender

namespace Logger

def new (name : String) : Logger := ⟨name, .debug, [], ⟨defaultPattern⟩⟩

def addAppender (l : Logger) (a : LogAppender) : Logger :=
  { l with appenders := l.appenders ++
      [if a.formatter.isNone then { a with formatter := some l.formatter } else a] }

def clearAppenders (l : Logger) : Logger := { l with appenders := [] }

/-- The new formatter is pushed down to the appenders that have none of their own. -/
def setFormatterPtr (l : Logger) (val : LogFormatter) : Logger :=
  { l with
    formatter := val
    appenders := l.appenders.map fun a =>
      if a.hasFormatter then a else { a with formatter := some val } }

def setFormatter (l : Logger) (val : String) : Logger :=
  if (LogFormatter.mk val).isError then l else l.setFormatterPtr ⟨val⟩

/-- The appenders that write a record of the given level. Only the root logger has no root. -/
def log (l : Logger) (root : Option Logger) (level : Level) : List LogAppender :=
  if l.level.toNat ≤ level.toNat then
    if l.appenders ≠ [] then l.appenders.filter fun a => a.level.toNat ≤ level.toNat
    else
      match root with
      | none => []
      | some r =>
        if r.level.toNat ≤ level.toNat then
          r.appenders.filter fun a => a.level.toNat ≤ level.toNat
        else []
  else []

end Logger

def LogAppenderDefine.make (a : LogAppenderDefine) : Option LogAppender := do
  let ap ←
    if a.type = 1 then some (LogAppender.new (.file a.file))
    else if a.type = 2 then some (LogAppender.new .stdout)
    else none
  let ap := { ap with level := a.level }
  return if a.formatter ≠ "" ∧ !(LogFormatter.mk a.formatter).isError then
    ap.setFormatter (some ⟨a.formatter⟩) else ap

namespace Logger

def addDefined (l : Logger) (a : LogAppenderDefine) : Option Logger := a.make.map l.addAppender

def define (l : Logger) (d : LogDefine) : Option Logger := do
  let l := { l with level := d.level }
  let l := if d.formatter ≠ "" then l.setFormatter d.formatter else l
  d.appenders.foldlM addDefined l.clearAppenders

def disable (l : Logger) : Logger := ({ l with level := .highest } : Logger).clearAppenders

end Logger

/-- `m_loggers`. The root logger is the one named `root`. -/
structure LoggerManager where
  loggers : String → Option Logger

namespace LoggerManager

def new : LoggerManager :=
  ⟨Function.update (fun _ => none) "root"
    (some ((Logger.new "root").addAppender (.new .stdout)))⟩

def getLogger (m : LoggerManager) (name : String) : Logger :=
  (m.loggers name).getD (.new name)

def set (m : LoggerManager) (name : String) (l : Logger) : LoggerManager :=
  ⟨Function.update m.loggers name (some l)⟩

def log (m : LoggerManager) (name : String) (level : Level) : List LogAppender :=
  match m.loggers name with
  | none => []
  | some l => l.log (if name = "root" then none else m.loggers "root") level

end LoggerManager

def LogDefines.find (ds : LogDefines) (d : LogDefine) : Option LogDefine :=
  ds.entries.find? (·.name = d.name)

/-- One round of the first loop. The pointer to the logger of an unchanged definition stays null. -/
def defineEntry (old : LogDefines) (m : LoggerManager) (d : LogDefine) : Option LoggerManager :=
  if old.find d = some d then none
  else ((m.getLogger d.name).define d).map (m.set d.name)

def removeEntry (new : LogDefines) (m : LoggerManager) (d : LogDefine) : LoggerManager :=
  if new.find d = none then m.set d.name (m.getLogger d.name).disable else m

def onChange (old new : LogDefines) (m : LoggerManager) : Option LoggerManager := do
  let m ← new.entries.foldlM (defineEntry old) m
  return old.entries.foldl (removeEntry new) m

structure Logs where
  value : LogDefines
  manager : LoggerManager

def LogDefines.empty : LogDefines := ⟨[], .nil⟩

def Logs.initial : Logs := ⟨.empty, .new⟩

/-- `setValue` on the variable `logs`: equal sets are not applied. -/
def Logs.setValue (s : Logs) (v : LogDefines) : Option Logs :=
  if v = s.value then some s else (onChange s.value v s.manager).map fun m => ⟨v, m⟩

end ApexStorm.Log
