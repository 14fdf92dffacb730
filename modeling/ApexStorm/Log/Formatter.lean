import Mathlib.Tactic

/-!
# Patterns of log formatters

`LogFormatter::init` cuts the pattern into literals and directives `%str` or
`%str{fmt}` and then looks the directives up. The cursor `i` of its loop is the rest of
the pattern here, and a directive moves it by a number of characters to skip.
-/

namespace ApexStorm.Log

inductive FormatItem
  | message | level | elapse | name | threadId | newLine
  | dateTime (format : String)
  | filename | line | tab | fiber | threadName
  | string (str : String)
  deriving DecidableEq, Repr

/-- An entry of `vec`: a literal has type 0, a directive type 1. -/
inductive Piece
  | literal (str : List Char)
  | directive (str fmt : List Char)
  deriving DecidableEq, Repr

/-- How the inner loop behind a `%` ends: with `fmt_status` 0, 2 or 1. -/
inductive Scan
  | plain (str : List Char)
  | braced (str fmt : List Char)
  | unterminated
  deriving DecidableEq, Repr

def inStr (c : Char) : Bool := c.isAlpha || c = '\x7d'

def scan (cs : List Char) : Scan :=
  match cs.dropWhile inStr with
  | '\x7b' :: body =>
    if body.contains '\x7d' then .braced (cs.takeWhile inStr) (body.takeWhile (· ≠ '\x7d'))
    else .unterminated
  | _ => .plain (cs.takeWhile inStr)

def flush (normal : List Char) : List Piece := if normal = [] then [] else [.literal normal]

/-- The pieces and whether a directive was left open. After `%%` the cursor is at the second `%`. An
open directive is reported, and the loop goes on behind its `%`. -/
def pieces : ℕ → List Char → List Char → List Piece × Bool
  | _, normal, [] => (flush normal, false)
  | skip + 1, normal, _ :: cs => pieces skip normal cs
  | 0, normal, c :: cs =>
    if c ≠ '%' then pieces 0 (normal ++ [c]) cs
    else if cs.head? = some '%' then pieces 0 (normal ++ ['%']) cs
    else
      match scan cs with
      | .plain str =>
        let (rest, error) := pieces str.length [] cs
        (flush normal ++ .directive str [] :: rest, error)
      | .braced str fmt =>
        let (rest, error) := pieces (str.length + fmt.length + 2) [] cs
        (flush normal ++ .directive str fmt :: rest, error)
      | .unterminated =>
        let (rest, _) := pieces 0 normal cs
        (.literal "<<pattern_error>>".toList :: rest, true)

def formatItem (str fmt : String) : Option FormatItem :=
  match str with
  | "m" => some .message
  | "p" => some .level
  | "r" => some .elapse
  | "c" => some .name
  | "t" => some .threadId
  | "n" => some .newLine
  | "d" => some (.dateTime (if fmt = "" then "%Y-%m-%d %H:%M:%S" else fmt))
  | "f" => some .filename
  | "l" => some .line
  | "T" => some .tab
  | "F" => some .fiber
  | "N" => some .threadName
  | _ => none

def item : Piece → FormatItem × Bool
  | .literal str => (.string (String.ofList str), false)
  | .directive str fmt =>
    match formatItem (String.ofList str) (String.ofList fmt) with
    | some i => (i, false)
    | none => (.string ("<<error_format %" ++ String.ofList str ++ ">>"), true)

structure LogFormatter where
  pattern : String
  deriving DecidableEq, Repr

namespace LogFormatter

def items (f : LogFormatter) : List FormatItem := (pieces 0 [] f.pattern.toList).1.map (item · |>.1)

def isError (f : LogFormatter) : Bool :=
  let (ps, error) := pieces 0 [] f.pattern.toList
  error || ps.any (item · |>.2)

end LogFormatter

/-- The pattern of the constructor of `Logger`. -/
def defaultPattern : String := "%d\x7b%Y-%m-%d %H:%M:%S\x7d%T%t%T%N%T%F%T[%p]%T[%c]%T%f:%l%T%m%n"

example : (LogFormatter.mk defaultPattern).isError = false := by decide +kernel

end ApexStorm.Log
