import Mathlib.Tactic

/-!
# The automaton of the request parser

An automaton carries out a list of actions on every byte it reads. The statements
about the parser hold for any automaton. `requestMachine` is the one generated from
`http11_parser.rl` for a request line and its headers, without the form
`//authority` of a URI and without the socket requests. `relaxed` is the flag
`uri_relaxed`, which the source never sets.
-/

namespace ApexStorm.Http

inductive Action
  | mark | startField | writeField | startValue | writeValue
  | requestMethod | requestUri | fragment | startQuery | queryString
  | httpVersion | requestPath | xml | json | done
  deriving DecidableEq, Repr

/-- A missing transition leads to the error state. -/
structure Automaton (σ : Type) where
  start : σ
  final : σ → Bool
  next : σ → UInt8 → Option (List Action × σ)
  start_not_final : final start = false
  done_iff : ∀ {s c acts s'}, next s c = some (acts, s') → (.done ∈ acts ↔ final s' = true)

namespace Automaton
variable {σ : Type}

/-- The bytes lead from `s` to the action `done`, which is carried out at the last one. -/
def acceptsFrom (A : Automaton σ) : σ → List UInt8 → Bool
  | _, [] => false
  | s, c :: cs =>
    match A.next s c with
    | none => false
    | some (acts, s') => if .done ∈ acts then cs.isEmpty else A.acceptsFrom s' cs

def Accepts (A : Automaton σ) (head : List UInt8) : Prop := A.acceptsFrom A.start head = true

instance (A : Automaton σ) (head : List UInt8) : Decidable (A.Accepts head) :=
  inferInstanceAs (Decidable (_ = _))

end Automaton

def ascii (s : String) : List UInt8 := s.toList.map fun c => c.toNat.toUInt8

def isChar (s : String) (c : UInt8) : Bool := c ∈ ascii s

def upper (c : UInt8) : Bool := 65 ≤ c && c ≤ 90
def digit (c : UInt8) : Bool := 48 ≤ c && c ≤ 57
def alpha (c : UInt8) : Bool := upper c || (97 ≤ c && c ≤ 122)
def xdigit (c : UInt8) : Bool := digit c || (65 ≤ c && c ≤ 70) || (97 ≤ c && c ≤ 102)
def unreserved (c : UInt8) : Bool := alpha c || digit c || isChar "-._~" c

def subDelims (relaxed : Bool) (c : UInt8) : Bool :=
  isChar "!$&'()*+,;=" c || (relaxed && isChar "\x7b\x7d^" c)

def segmentChar (relaxed : Bool) (c : UInt8) : Bool :=
  unreserved c || subDelims relaxed c || isChar "@" c

/-- `pchar` without `pct_encoded`, which takes two states of its own. -/
def pchar (relaxed : Bool) (c : UInt8) : Bool :=
  128 ≤ c || unreserved c || subDelims relaxed c || isChar ":@" c

/-- `HTTP_CTL = (0 - 31) | 127` is a difference of sets: the bytes `0` and `127`. -/
def token (c : UInt8) : Bool :=
  0 < c && c < 127 && !isChar "()<>@,;:\\\"/[]?=\x7b\x7d \t" c

def content (c : UInt8) : Bool := c ≠ 0 && c ≠ 127

inductive State
  | start
  | method (n : ℕ)
  | uri
  | segment | segmentPct | segmentHex
  | slash | path | pathPct | pathHex
  | scheme | hierPart
  | queryStart | query | queryPct | queryHex
  | fragmentStart | fragment | fragmentPct | fragmentHex
  | version (n : ℕ)
  | line | field | valueStart | value | lineCr | lastCr | final
  deriving DecidableEq, Repr

/-- The transitions that the states inside the path of a URI share. `pre` are the actions of
entering the path, `plain` says which bytes lead to `self`. -/
def pathNext (pre : List Action) (pct sep self : State) (plain : Bool) (c : UInt8) :
    Option (List Action × State) :=
  if isChar " " c then some (pre ++ [.requestPath, .requestUri], .version 0)
  else if isChar "#" c then some (pre ++ [.requestPath, .requestUri], .fragmentStart)
  else if isChar "?" c then some (pre ++ [.requestPath], .queryStart)
  else if isChar "%" c then some (pre, pct)
  else if isChar "/" c then some (pre, sep)
  else if plain then some (pre, self)
  else none

def queryNext (pre : List Action) (relaxed : Bool) (c : UInt8) : Option (List Action × State) :=
  if isChar " " c then some (pre ++ [.queryString, .requestUri], .version 0)
  else if isChar "#" c then some (pre ++ [.queryString, .requestUri], .fragmentStart)
  else if isChar "%" c then some (pre, .queryPct)
  else if pchar relaxed c || isChar "/?" c then some (pre, .query)
  else none

def fragmentNext (pre : List Action) (relaxed : Bool) (c : UInt8) : Option (List Action × State) :=
  if isChar " " c then some (pre ++ [.fragment], .version 0)
  else if isChar "%" c then some (pre, .fragmentPct)
  else if pchar relaxed c || isChar "/?" c then some (pre, .fragment)
  else none

def valueNext (pre : List Action) (c : UInt8) : Option (List Action × State) :=
  if isChar "\n" c then some (pre ++ [.writeValue], .line)
  else if isChar "\r" c then some (pre ++ [.writeValue], .lineCr)
  else if content c then some (pre, .value)
  else none

def requestNext (relaxed : Bool) : State → UInt8 → Option (List Action × State)
  | .start, c => if upper c || digit c then some ([.mark], .method 1) else none
  | .method n, c =>
    if isChar " " c then some ([.requestMethod], .uri)
    else if (upper c || digit c) && n < 20 then some ([], .method (n + 1))
    else none
  | .uri, c =>
    if alpha c then some ([.mark], .scheme)
    else pathNext [.mark] .segmentPct .slash .segment (segmentChar relaxed c) c
  | .segment, c => pathNext [] .segmentPct .path .segment (segmentChar relaxed c) c
  | .segmentPct, c => if xdigit c then some ([], .segmentHex) else none
  | .segmentHex, c => if xdigit c then some ([], .segment) else none
  | .slash, c =>
    if isChar "/" c then none else pathNext [] .pathPct .path .path (pchar relaxed c) c
  | .path, c => pathNext [] .pathPct .path .path (pchar relaxed c) c
  | .pathPct, c => if xdigit c then some ([], .pathHex) else none
  | .pathHex, c => if xdigit c then some ([], .path) else none
  | .scheme, c =>
    if alpha c || digit c || isChar "+-." c then some ([], .scheme)
    else if isChar ":" c then some ([], .hierPart)
    else pathNext [] .segmentPct .path .segment (segmentChar relaxed c) c
  | .hierPart, c => pathNext [.mark] .pathPct .slash .path (pchar relaxed c) c
  | .queryStart, c => queryNext [.startQuery] relaxed c
  | .query, c => queryNext [] relaxed c
  | .queryPct, c => if xdigit c then some ([], .queryHex) else none
  | .queryHex, c => if xdigit c then some ([], .query) else none
  | .fragmentStart, c => fragmentNext [.mark] relaxed c
  | .fragment, c => fragmentNext [] relaxed c
  | .fragmentPct, c => if xdigit c then some ([], .fragmentHex) else none
  | .fragmentHex, c => if xdigit c then some ([], .fragment) else none
  | .version n, c =>
    if n < 7 then
      if (ascii "HTTP/1.")[n]? = some c then some (if n = 0 then [.mark] else [], .version (n + 1))
      else none
    else if n = 7 then if isChar "01" c then some ([], .version 8) else none
    else if isChar "\n" c then some ([.httpVersion], .line)
    else if isChar "\r" c then some ([.httpVersion], .lineCr)
    else none
  | .line, c =>
    if isChar "\n" c then some ([.startField, .done], .final)
    else if isChar "\r" c then some ([.startField], .lastCr)
    else if token c then some ([.startField], .field)
    else none
  | .field, c =>
    if isChar ":" c then some ([.writeField], .valueStart)
    else if token c then some ([], .field)
    else none
  | .valueStart, c =>
    if isChar " \t" c then some ([.startValue], .valueStart) else valueNext [.startValue] c
  | .value, c => valueNext [] c
  | .lineCr, c => if isChar "\n" c then some ([], .line) else none
  | .lastCr, c =>
    if isChar "\n" c then some ([.done], .final)
    else if isChar ":" c then some ([.writeField], .valueStart)
    else if token c then some ([], .field)
    else none
  | .final, _ => none

section Done
variable {relaxed plain : Bool} {s s' pct sep self : State} {c : UInt8} {pre acts : List Action}

theorem pathNext_done (h : pathNext pre pct sep self plain c = some (acts, s'))
    (hpre : .done ∉ pre) (hpct : pct ≠ .final) (hsep : sep ≠ .final) (hself : self ≠ .final) :
    .done ∈ acts ↔ s' = .final := by
  rw [pathNext] at h
  split_ifs at h <;> cases h <;> simp [hpre, hpct, hsep, hself]

theorem queryNext_done (h : queryNext pre relaxed c = some (acts, s')) (hpre : .done ∉ pre) :
    .done ∈ acts ↔ s' = .final := by
  rw [queryNext] at h
  split_ifs at h <;> cases h <;> simp [hpre]

theorem fragmentNext_done (h : fragmentNext pre relaxed c = some (acts, s')) (hpre : .done ∉ pre) :
    .done ∈ acts ↔ s' = .final := by
  rw [fragmentNext] at h
  split_ifs at h <;> cases h <;> simp [hpre]

theorem valueNext_done (h : valueNext pre c = some (acts, s')) (hpre : .done ∉ pre) :
    .done ∈ acts ↔ s' = .final := by
  rw [valueNext] at h
  split_ifs at h <;> cases h <;> simp [hpre]

theorem requestNext_done (h : requestNext relaxed s c = some (acts, s')) :
    .done ∈ acts ↔ s' = .final := by
  cases s with
  | final => cases h
  | segment | path | hierPart =>
    rw [requestNext] at h
    exact pathNext_done h (by decide) (by decide) (by decide) (by decide)
  | queryStart | query =>
    rw [requestNext] at h
    exact queryNext_done h (by decide)
  | fragmentStart | fragment =>
    rw [requestNext] at h
    exact fragmentNext_done h (by decide)
  | value =>
    rw [requestNext] at h
    exact valueNext_done h (by decide)
  | uri | slash | scheme =>
    rw [requestNext] at h
    split_ifs at h
    all_goals first
      | exact pathNext_done h (by decide) (by decide) (by decide) (by decide)
      | (cases h; simp)
  | valueStart =>
    rw [requestNext] at h
    split_ifs at h
    · cases h
      simp
    · exact valueNext_done h (by decide)
  | _ =>
    rw [requestNext] at h
    split_ifs at h <;> cases h <;> simp

end Done

def requestMachine (relaxed : Bool) : Automaton State where
  start := .start
  final s := s = .final
  next := requestNext relaxed
  start_not_final := rfl
  done_iff h := by simpa using requestNext_done h

example : (requestMachine false).Accepts (ascii "GET /a?b=%20#c HTTP/1.1\r\nhost: x\r\n\r\n") := by
  decide +kernel

end ApexStorm.Http
