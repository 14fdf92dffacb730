import ApexStorm.Http.Automaton

/-!
# `HttpRequestParer` and the first loop of `recvRequest`

A buffer is a map from offsets to bytes; what lies behind the bytes received is
whatever was there before. `none` is an exception: `std::string` throws
`length_error` when a length has become negative. The segments are what the calls
of `read` deliver.
-/

namespace ApexStorm.Http

inductive HttpMethod
  | DELETE | GET | HEAD | POST | PUT | CONNECT | OPTIONS | TRACE | COPY | LOCK | MKCOL | MOVE
  | PROPFIND | PROPPATCH | SEARCH | UNLOCK | BIND | REBIND | UNBIND | ACL | REPORT | MKACTIVITY
  | CHECKOUT | MERGE | MSEARCH | NOTIFY | SUBSCRIBE | UNSUBSCRIBE | PATCH | PURGE | MKCALENDAR
  | LINK | UNLINK | SOURCE
  deriving DecidableEq, Repr

/-- The names as the preprocessor makes them: number 24 is spelt with blanks. -/
def httpMethodMap : List (HttpMethod × List UInt8) :=
  [(.DELETE, ascii "DELETE"), (.GET, ascii "GET"), (.HEAD, ascii "HEAD"), (.POST, ascii "POST"),
    (.PUT, ascii "PUT"), (.CONNECT, ascii "CONNECT"), (.OPTIONS, ascii "OPTIONS"),
    (.TRACE, ascii "TRACE"), (.COPY, ascii "COPY"), (.LOCK, ascii "LOCK"), (.MKCOL, ascii "MKCOL"),
    (.MOVE, ascii "MOVE"), (.PROPFIND, ascii "PROPFIND"), (.PROPPATCH, ascii "PROPPATCH"),
    (.SEARCH, ascii "SEARCH"), (.UNLOCK, ascii "UNLOCK"), (.BIND, ascii "BIND"),
    (.REBIND, ascii "REBIND"), (.UNBIND, ascii "UNBIND"), (.ACL, ascii "ACL"),
    (.REPORT, ascii "REPORT"), (.MKACTIVITY, ascii "MKACTIVITY"), (.CHECKOUT, ascii "CHECKOUT"),
    (.MERGE, ascii "MERGE"), (.MSEARCH, ascii "M - SEARCH"), (.NOTIFY, ascii "NOTIFY"),
    (.SUBSCRIBE, ascii "SUBSCRIBE"), (.UNSUBSCRIBE, ascii "UNSUBSCRIBE"), (.PATCH, ascii "PATCH"),
    (.PURGE, ascii "PURGE"), (.MKCALENDAR, ascii "MKCALENDAR"), (.LINK, ascii "LINK"),
    (.UNLINK, ascii "UNLINK"), (.SOURCE, ascii "SOURCE")]

abbrev Memory := ℕ → UInt8

def cString (s : List UInt8) : Memory := fun i => s.getD i 0

def slice (m : Memory) (pos n : ℕ) : List UInt8 := (List.range n).map fun i => m (pos + i)

theorem slice_congr {m m' : Memory} {pos pos' n : ℕ} (h : ∀ i < n, m (pos + i) = m' (pos' + i)) :
    slice m pos n = slice m' pos' n := by
  apply List.map_congr_left
  intro i hi
  exact h i (List.mem_range.mp hi)

@[simp] theorem length_slice (m : Memory) (pos n : ℕ) : (slice m pos n).length = n := by
  simp [slice]

@[simp] theorem getElem_slice {m : Memory} {pos n i : ℕ} (h : i < (slice m pos n).length) :
    (slice m pos n)[i] = m (pos + i) := by
  simp [slice]

/-- Whether `strncmp(s, t, n) == 0`. -/
def strncmp (s t : Memory) : ℕ → Bool
  | 0 => true
  | n + 1 => s 0 == t 0 && (s 0 == 0 || strncmp (fun i => s (i + 1)) (fun i => t (i + 1)) n)

def charsToHttpMethod (m : Memory) : Option HttpMethod :=
  (httpMethodMap.find? fun x => strncmp (cString x.2) m x.2.length).map (·.1)

def toLower (c : UInt8) : UInt8 := if upper c then c + 32 else c

/-- What `strcasecmp` compares of a key. -/
def foldKey (key : List UInt8) : List UInt8 := (key.takeWhile (· ≠ 0)).map toLower

structure HttpRequest where
  method : HttpMethod
  version : UInt8
  close : Bool
  path : List UInt8
  query : List UInt8
  fragment : List UInt8
  headers : List (List UInt8 × List UInt8)
  body : List UInt8
  deriving DecidableEq, Repr

namespace HttpRequest

def new : HttpRequest := ⟨.GET, 0x11, true, ascii "/", [], [], [], []⟩

/-- `m_headers[key] = val` on a map whose keys are compared without case. -/
def setHeader (r : HttpRequest) (key val : List UInt8) : HttpRequest :=
  if r.headers.any (foldKey ·.1 == foldKey key) then
    { r with headers := r.headers.map fun h => if foldKey h.1 = foldKey key then (h.1, val) else h }
  else { r with headers := r.headers ++ [(key, val)] }

def getHeader (r : HttpRequest) (key : List UInt8) : Option (List UInt8) :=
  (r.headers.find? (foldKey ·.1 == foldKey key)).map (·.2)

end HttpRequest

/-- `cs = none` is the error state of the automaton. -/
structure HttpRequestParer (σ : Type) where
  cs : Option σ
  mark : ℕ
  fieldStart : ℕ
  fieldLen : ℕ
  queryStart : ℕ
  error : ℕ
  data : HttpRequest

/-- `LEN(AT, FPC)` is computed in `size_t`. -/
def lenTo (reg fpc : ℕ) : ℕ := (fpc + 2 ^ 64 - reg) % 2 ^ 64

def string (m : Memory) (pos n : ℕ) : Option (List UInt8) :=
  if n < 2 ^ 63 then some (slice m pos n) else none

namespace HttpRequestParer
variable {σ : Type}

/-- `query_start` is not initialised. -/
def new (A : Automaton σ) (queryStart : ℕ) : HttpRequestParer σ :=
  ⟨some A.start, 0, 0, 0, queryStart, 0, .new⟩

def onRequestMethod (p : HttpRequestParer σ) (m : Memory) (pos : ℕ) : HttpRequestParer σ :=
  match charsToHttpMethod fun i => m (pos + i) with
  | none => { p with error := 1000 }
  | some x => { p with data := { p.data with method := x } }

def onRequestVersion (p : HttpRequestParer σ) (m : Memory) (pos n : ℕ) : HttpRequestParer σ :=
  if strncmp (fun i => m (pos + i)) (cString (ascii "HTTP/1.1")) n then
    { p with data := { p.data with version := 0x11 } }
  else if strncmp (fun i => m (pos + i)) (cString (ascii "HTTP/1.0")) n then
    { p with data := { p.data with version := 0x10 } }
  else { p with error := 1001 }

def doAction (m : Memory) (fpc : ℕ) (p : HttpRequestParer σ) :
    Action → Option (HttpRequestParer σ)
  | .mark | .startValue => some { p with mark := fpc }
  | .startField => some { p with fieldStart := fpc }
  | .writeField => some { p with fieldLen := lenTo p.fieldStart fpc }
  | .writeValue => do
    let field ← string m p.fieldStart p.fieldLen
    let value ← string m p.mark (lenTo p.mark fpc)
    return { p with data := p.data.setHeader field value }
  | .requestMethod => some (p.onRequestMethod m p.mark)
  | .fragment => do
    return { p with data := { p.data with fragment := ← string m p.mark (lenTo p.mark fpc) } }
  | .startQuery => some { p with queryStart := fpc }
  | .queryString => do
    return { p with
      data := { p.data with query := ← string m p.queryStart (lenTo p.queryStart fpc) } }
  | .httpVersion => some (p.onRequestVersion m p.mark (lenTo p.mark fpc))
  | .requestPath => do
    return { p with data := { p.data with path := ← string m p.mark (lenTo p.mark fpc) } }
  | .requestUri | .xml | .json | .done => some p

/-- The actions of one transition; `done` leaves the loop at once. -/
def doActions (m : Memory) (fpc : ℕ) : HttpRequestParer σ → List Action →
    Option (HttpRequestParer σ)
  | p, [] => some p
  | p, a :: acts =>
    if a = .done then some p
    else do
      let p ← p.doAction m fpc a
      p.doActions m fpc acts

def run (A : Automaton σ) (m : Memory) : ℕ → ℕ → HttpRequestParer σ →
    Option (HttpRequestParer σ × ℕ)
  | 0, fpc, p => some (p, fpc)
  | n + 1, fpc, p =>
    match p.cs.bind (A.next · (m fpc)) with
    | none => some ({ p with cs := none }, fpc)
    | some (acts, s) => do
      let p ← p.doActions m fpc acts
      if .done ∈ acts then return ({ p with cs := some s }, fpc + 1)
      else run A m n (fpc + 1) { p with cs := some s }

def httpParserExecute (A : Automaton σ) (p : HttpRequestParer σ) (m : Memory) (len : ℕ) :
    Option (HttpRequestParer σ × ℕ) :=
  if len = 0 then some (p, 0)
  else run A m len 0 { p with mark := 0, fieldLen := 0, fieldStart := 0 }

def execute (A : Automaton σ) (p : HttpRequestParer σ) (m : Memory) (len : ℕ) :
    Option (HttpRequestParer σ × Memory × ℕ) := do
  let (p, offset) ← httpParserExecute A p m len
  return (p, fun i => if i < len - offset then m (offset + i) else m i, offset)

def hasError (p : HttpRequestParer σ) : Bool := p.error ≠ 0 || p.cs.isNone

def isFinished (A : Automaton σ) (p : HttpRequestParer σ) : ℤ :=
  match p.cs with
  | none => -1
  | some s => if A.final s then 1 else 0

end HttpRequestParer

def store (m : Memory) (offset : ℕ) (bytes : List UInt8) : Memory :=
  fun i => if i < offset then m i else (bytes[i - offset]?).getD (m i)

inductive Status
  | null | reading | finished
  deriving DecidableEq, Repr

structure Session (σ : Type) where
  parser : HttpRequestParer σ
  data : Memory
  offset : ℕ
  consumed : ℕ

namespace Session
variable {σ : Type}

def new (A : Automaton σ) (queryStart : ℕ) (data : Memory) : Session σ :=
  ⟨.new A queryStart, data, 0, 0⟩

def buffSize : ℕ := 150

/-- One round of the loop of `recvRequest` in which `read` delivers `bytes`. -/
def recvStep (A : Automaton σ) (s : Session σ) (bytes : List UInt8) :
    Option (Status × Session σ) := do
  let len := bytes.length + s.offset
  let (p, data, actual_parse) ← s.parser.execute A (store s.data s.offset bytes) len
  let s : Session σ := ⟨p, data, len - actual_parse, s.consumed + actual_parse⟩
  if p.hasError then return (.null, s)
  else if s.offset = buffSize then return (.null, s)
  else if p.isFinished A ≠ 0 then return (.finished, s)
  else return (.reading, s)

def recvHead (A : Automaton σ) (s : Session σ) : List (List UInt8) → Option (Status × Session σ)
  | [] => some (.reading, s)
  | bytes :: segments => do
    let (status, s) ← s.recvStep A bytes
    if status = .reading then s.recvHead A segments else return (status, s)

end Session
end ApexStorm.Http
