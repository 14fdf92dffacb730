import ApexStorm.Log.Logger

/-!
# Formatting an event

`LogFormatter::format` lets its items write to one stream, one after the other.
`strftime` stands for `localtime_r` and `strftime` of the C library.
-/

namespace ApexStorm.Log

structure LogEvent where
  logger : String
  file : String
  line : ℤ
  elapse : ℕ
  threadId : ℕ
  fiberId : ℕ
  time : ℕ
  threadName : String
  content : String

def Level.toString : Level → String
  | .debug => "DEBUG"
  | .info => "INFO"
  | .warn => "WARN"
  | .error => "ERROR"
  | .fatal => "FATAL"
  | .unknown | .highest => "UNKNOWN"

section Format
variable (strftime : String → ℕ → String)

def FormatItem.format (level : Level) (event : LogEvent) : FormatItem → String
  | .message => event.content
  | .level => level.toString
  | .elapse => ToString.toString event.elapse
  | .name => event.logger
  | .threadId => ToString.toString event.threadId
  | .newLine => "\n"
  | .dateTime format => strftime format event.time
  | .filename => event.file
  | .line => ToString.toString event.line
  | .tab => "\t"
  | .fiber => ToString.toString event.fiberId
  | .threadName => event.threadName
  | .string str => str

def LogFormatter.format (f : LogFormatter) (level : Level) (event : LogEvent) : String :=
  f.items.foldl (fun ss i => ss ++ i.format strftime level event) ""

end Format

end ApexStorm.Log
