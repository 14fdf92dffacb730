import ApexStorm.Http.Parser

/-!
# The automaton of the response parser

The automaton generated from `httpclient_parser.rl`. It reads a response head or the head
of a chunk. Every header line is read by `fields`; a line of one of three names is read by
a rule of its own as well, and the blanks of that rule include line breaks. So after an
empty value of such a line the rule is still waiting for its value while the next line is
read, and a state is a place in the line together with a place in the rule.
-/

namespace ApexStorm.Http.Client

inductive Action
  | mark | startField | writeField | startValue | writeContentLen | writeConnectionClose
  | writeValue | reasonPhrase | statusCode | httpVersion | chunkSize | transChunked | done
  deriving DecidableEq, Repr

/-- The rules `conn_close`, `transfer_encoding_chunked` and `content_length`. -/
inductive Keyword
  | close | chunked | digits
  deriving DecidableEq, Repr

def token (c : UInt8) : Bool :=
  32 < c && c < 127 && !isChar "()<>@,;:\\\"/[]?=\x7b\x7d \t" c

def space (c : UInt8) : Bool := (9 ≤ c && c ≤ 13) || c = 32

def blank (c : UInt8) : Bool := c = 9 || c = 11 || c = 12 || c = 32

inductive State
  | start
  | chunk | extNameStart | extName | extValueStart | extValue
  | version (n : ℕ) | major | minorStart | minor
  | statusStart | status | reasonStart | reason
  | line | name | keyName (p : List UInt8) | valueStart | value | lineCr
  | keyStart (k : Keyword) | keyValue (k : Keyword) (n : ℕ)
  | keyLine (k : Keyword) | keyCr (k : Keyword) | keyLastCr (k : Keyword)
  | keySpace (k : Keyword) | keyAlone (k : Keyword) (n : ℕ) | keyBoth (k : Keyword) (n : ℕ)
  | closeLine | closeCr | chunkedCr
  | lastCr | final | keyFinal (k : Keyword)
  deriving DecidableEq, Repr

namespace Keyword

def all : List Keyword := [.close, .chunked, .digits]

def name : Keyword → List UInt8
  | .close => ascii "connection"
  | .chunked => ascii "transfer-encoding"
  | .digits => ascii "content-length"

def text : Keyword → List UInt8
  | .close => ascii "close"
  | .chunked => ascii "chunked"
  | .digits => []

/-- The place in the rule after one more byte; digits are not counted. -/
def advance (k : Keyword) (n : ℕ) (c : UInt8) : Option ℕ :=
  match k with
  | .digits => if digit c then some 1 else none
  | k => if k.text[n]? = some (toLower c) then some (n + 1) else none

def complete : Keyword → ℕ → Bool
  | .digits, n => n = 1
  | k, n => n = k.text.length

def enter : Keyword → List Action
  | .close => []
  | .chunked | .digits => [.startValue]

def atLf : Keyword → List Action × State
  | .close => ([], .closeLine)
  | .chunked => ([.writeValue, .transChunked], .line)
  | .digits => ([.writeContentLen, .writeValue], .line)

def atCr : Keyword → List Action × State
  | .close => ([], .closeCr)
  | .chunked => ([.writeValue], .chunkedCr)
  | .digits => ([.writeContentLen, .writeValue], .lineCr)

/-- The actions by which `fields` ends with the rule, where the rule has none. -/
def along : Keyword → List Action
  | .close => [.writeValue]
  | .chunked | .digits => []

end Keyword

def named (p : List UInt8) : State :=
  if Keyword.all.any fun k => p.isPrefixOf k.name then .keyName p else .name

def afterName (p : List UInt8) : State :=
  match Keyword.all.find? fun k => k.name = p with
  | some k => .keyStart k
  | none => .valueStart

def chunkEnd (pre : List Action) (c : UInt8) : Option (List Action × State) :=
  if isChar "\n" c then some (pre ++ [.done], .final)
  else if isChar "\r" c then some (pre, .lastCr)
  else if isChar ";" c then some (pre, .extNameStart)
  else none

def lineNext (pre : List Action) (c : UInt8) : Option (List Action × State) :=
  if isChar "\n" c then some (pre ++ [.done], .final)
  else if isChar "\r" c then some (pre, .lastCr)
  else if token c then some (pre ++ [.startField], named [toLower c])
  else none

def ruleNext (k : Keyword) (c : UInt8) : Option (List Action × State) :=
  if space c then some ([], .keySpace k)
  else (k.advance 0 c).map fun n => (k.enter, .keyAlone k n)

def clientNext : State → UInt8 → Option (List Action × State)
  | .start, c =>
    if isChar "H" c then some ([.mark], .version 1)
    else if xdigit c then some ([.mark], .chunk)
    else none
  | .chunk, c => if xdigit c then some ([], .chunk) else chunkEnd [.chunkSize] c
  | .extNameStart, c => if token c then some ([.startField], .extName) else none
  | .extName, c =>
    if token c then some ([], .extName)
    else if isChar "=" c then some ([.writeField, .startValue], .extValueStart)
    else chunkEnd [.writeField, .startValue, .writeValue] c
  | .extValueStart, c => if token c then some ([.startValue], .extValue) else none
  | .extValue, c => if token c then some ([], .extValue) else chunkEnd [.writeValue] c
  | .version n, c =>
    if n < 5 then if (ascii "HTTP/")[n]? = some c then some ([], .version (n + 1)) else none
    else if digit c then some ([], .major)
    else none
  | .major, c =>
    if digit c then some ([], .major)
    else if isChar "." c then some ([], .minorStart)
    else none
  | .minorStart, c => if digit c then some ([], .minor) else none
  | .minor, c =>
    if digit c then some ([], .minor)
    else if isChar " " c then some ([.httpVersion], .statusStart)
    else none
  | .statusStart, c => if digit c then some ([.mark], .status) else none
  | .status, c =>
    if digit c then some ([], .status)
    else if isChar " " c then some ([.statusCode], .reasonStart)
    else none
  | .reasonStart, c => if isChar "\n" c then none else some ([.mark], .reason)
  | .reason, c =>
    if isChar "\n" c then some ([.reasonPhrase], .line)
    else if isChar "\r" c then some ([.reasonPhrase], .lineCr)
    else some ([], .reason)
  | .line, c => lineNext [] c
  | .name, c =>
    if token c then some ([], .name)
    else if isChar ":" c then some ([.writeField], .valueStart)
    else none
  | .keyName p, c =>
    if token c then some ([], named (p ++ [toLower c]))
    else if isChar ":" c then some ([.writeField], afterName p)
    else none
  | .valueStart, c =>
    if isChar "\n" c then some ([.startValue, .writeValue], .line)
    else if isChar "\r" c then some ([.startValue, .writeValue], .lineCr)
    else if blank c then some ([.startValue], .valueStart)
    else some ([.startValue], .value)
  | .value, c =>
    if isChar "\n" c then some ([.writeValue], .line)
    else if isChar "\r" c then some ([.writeValue], .lineCr)
    else some ([], .value)
  | .lineCr, c => if isChar "\n" c then some ([], .line) else none
  | .keyStart k, c =>
    if isChar "\n" c then some ([.startValue, .writeValue], .keyLine k)
    else if isChar "\r" c then some ([.startValue, .writeValue], .keyCr k)
    else if blank c then some ([.startValue], .keyStart k)
    else some ([.startValue], ((k.advance 0 c).map (.keyValue k)).getD .value)
  | .keyValue k n, c =>
    if isChar "\n" c then
      some (if k.complete n then (k.along ++ k.atLf.1, k.atLf.2) else ([.writeValue], .line))
    else if isChar "\r" c then
      some (if k.complete n then (k.along ++ k.atCr.1, k.atCr.2) else ([.writeValue], .lineCr))
    else some ([], ((k.advance n c).map (.keyValue k)).getD .value)
  | .keyLine k, c =>
    if blank c then some ([], .keySpace k)
    else if isChar "\n" c then some ([.done], .keyFinal k)
    else if isChar "\r" c then some ([], .keyLastCr k)
    else if token c then
      match k.advance 0 c with
      | some n => some (k.enter ++ [.startField], .keyBoth k n)
      | none => some ([.startField], named [toLower c])
    else none
  | .keyCr k, c => if isChar "\n" c then some ([], .keyLine k) else ruleNext k c
  | .keyLastCr k, c => if isChar "\n" c then some ([.done], .keyFinal k) else ruleNext k c
  | .keySpace k, c => ruleNext k c
  | .keyAlone k n, c =>
    if k.complete n && isChar "\n" c then some k.atLf
    else if k.complete n && isChar "\r" c then some k.atCr
    else (k.advance n c).map fun n => ([], .keyAlone k n)
  | .keyBoth k n, c =>
    if k.complete n && isChar "\n" c then some k.atLf
    else if k.complete n && isChar "\r" c then some k.atCr
    else if isChar ":" c then some ([.writeField], .valueStart)
    else if token c then
      match k.advance n c with
      | some n => some ([], .keyBoth k n)
      | none => some ([], if k = .digits then .name else named (k.text.take n ++ [toLower c]))
    else none
  | .closeLine, c => lineNext [.writeConnectionClose] c
  | .closeCr, c => if isChar "\n" c then some ([], .closeLine) else none
  | .chunkedCr, c => if isChar "\n" c then some ([.transChunked], .line) else none
  | .lastCr, c => if isChar "\n" c then some ([.done], .final) else none
  | .final, _ => none
  | .keyFinal k, c => ruleNext k c

end ApexStorm.Http.Client
