import ApexStorm.Http.ClientMachine
import ApexStorm.Http.HeaderMap
import ApexStorm.Http.Scan
import ApexStorm.Lib.Numeral
import ApexStorm.Lib.Scanner

/-!
# `HttpResponseParer`

The three offsets that the actions of the automaton set are kept apart from what is
recorded for good, since every call of `execute` starts with fresh offsets. `none` is a
failed assertion, an exception, or the copy of `len + 1` bytes from `data - 1` after
`httpclient_parser_execute` returned `-1`.
-/

namespace ApexStorm.Http.Client
open ApexStorm.Lib ApexStorm.Lib.Numeral

def digitIn (b : ℕ) (c : UInt8) : Bool := (digitValue c).any (· < b)

def strtol (b : ℕ) (text : List UInt8) : ℤ :=
  let text := text.dropWhile space
  let neg := text.head? = some 45
  let text := if neg ∨ text.head? = some 43 then text.tail else text
  let text := if b = 16 ∧ (text.take 2).map toLower = ascii "0x" then text.drop 2 else text
  let v : ℤ := ((value b (text.takeWhile (digitIn b))).getD 0 : ℕ)
  if neg then max (-v) (-2 ^ 63) else min v (2 ^ 63 - 1)

def toInt (v : ℤ) : ℤ := v.bmod (2 ^ 32)

structure Offsets where
  mark : ℕ
  fieldStart : ℕ
  fieldLen : ℕ
  deriving DecidableEq, Repr

structure Recorded where
  bodyStart : ℕ
  contentLen : ℤ
  status : ℤ
  chunked : Bool
  chunksDone : Bool
  close : Bool
  error : ℕ
  data : HttpResponse
  deriving DecidableEq, Repr

namespace Recorded

def onResponseReason (r : Recorded) (text : List UInt8) : Recorded :=
  { r with data := { r.data with reason := text } }

/-- The enumeration is kept as the unsigned number that is printed for it. -/
def onResponseStatus (r : Recorded) (text : List UInt8) : Recorded :=
  { r with data := { r.data with status := (strtol 10 text % 2 ^ 32).toNat } }

def onResponseVersion (r : Recorded) (m : Memory) (pos n : ℕ) : Recorded :=
  if strncmp (fun i => m (pos + i)) (cString (ascii "HTTP/1.1")) n then
    { r with data := { r.data with version := 0x11 } }
  else if strncmp (fun i => m (pos + i)) (cString (ascii "HTTP/1.0")) n then
    { r with data := { r.data with version := 0x10 } }
  else { r with error := 1001 }

def onResponseHeaderField (r : Recorded) (field value : List UInt8) : Recorded :=
  { r with
    error := if field = [] then 1002 else r.error
    data := r.data.setHeader field value }

end Recorded

def doAction (len : ℕ) (m : Memory) (fpc : ℕ) :
    Action → Offsets × Recorded → Option (Offsets × Recorded)
  | .mark, (o, r) | .startValue, (o, r) => some ({ o with mark := fpc }, r)
  | .startField, (o, r) => some ({ o with fieldStart := fpc }, r)
  | .writeField, (o, r) => some ({ o with fieldLen := lenTo o.fieldStart fpc }, r)
  | .writeContentLen, (o, r) =>
    some (o, { r with contentLen := toInt (strtol 10 (slice m o.mark (len - o.mark))) })
  | .writeConnectionClose, (o, r) => some (o, { r with close := true })
  | .writeValue, (o, r) => do
    let field ← string m o.fieldStart o.fieldLen
    let value ← string m o.mark (lenTo o.mark fpc)
    return (o, r.onResponseHeaderField field value)
  | .reasonPhrase, (o, r) => do
    let text ← string m o.mark (lenTo o.mark fpc)
    return (o, r.onResponseReason text)
  | .statusCode, (o, r) =>
    let text := slice m o.mark (len - o.mark)
    some (o, { r with status := toInt (strtol 10 text) }.onResponseStatus text)
  | .httpVersion, (o, r) => some (o, r.onResponseVersion m o.mark (lenTo o.mark fpc))
  | .chunkSize, (o, r) =>
    let contentLen := toInt (strtol 16 (slice m o.mark (len - o.mark)))
    some (o, { r with chunked := true, contentLen, chunksDone := contentLen ≤ 0 })
  | .transChunked, (o, r) => some (o, { r with chunked := true })
  | .done, (o, r) => some (o, { r with bodyStart := fpc + 1 })

def clientScanner (len : ℕ) : Scanner State Action (Offsets × Recorded) where
  next := clientNext
  act := doAction len
  stops a := a = .done

/-- `cs = none` is the error state of the automaton. -/
structure HttpResponseParer where
  cs : Option State
  recorded : Recorded
  deriving DecidableEq, Repr

namespace HttpResponseParer

/-- `status` is not initialised. -/
def new (status : ℤ) : HttpResponseParer :=
  ⟨some .start, 0, -1, status, false, false, false, 0, .new 0x11 true⟩

def scan (p : HttpResponseParer) (m : Memory) (len : ℕ) :
    Option (Scanner.End State (Offsets × Recorded)) :=
  match p.cs with
  | none => some ⟨none, (⟨0, 0, 0⟩, p.recorded), 0⟩
  | some s => (clientScanner len).run m len 0 s (⟨0, 0, 0⟩, p.recorded)

/-- The parser and `nread` afterwards; the offsets have to lie in the text. -/
def httpclientParserExecute (p : HttpResponseParer) (m : Memory) (len : ℕ) :
    Option (HttpResponseParer × ℕ) :=
  if m len ≠ 0 ∨ 2 ^ 31 ≤ len then none
  else do
    let ⟨cs, (o, r), pos⟩ ← p.scan m len
    if r.bodyStart ≤ len ∧ o.mark < len ∧ o.fieldLen ≤ len ∧ o.fieldStart < len then
      return (⟨cs, r⟩, pos)
    else none

def execute (p : HttpResponseParer) (m : Memory) (len : ℕ) :
    Option (HttpResponseParer × Memory × ℕ) := do
  let (p, offset) ← p.httpclientParserExecute m len
  return (p, fun i => if i < len - offset then m (offset + i) else m i, offset)

def isFinished (p : HttpResponseParer) : Bool := p.cs = some .final

def hasError (p : HttpResponseParer) : Bool := p.recorded.error ≠ 0 || p.cs.isNone

def getContentLength [LexicalCast] (p : HttpResponseParer) : ℕ :=
  MapType.getAs LexicalCast.toUInt64 p.recorded.data.headers (ascii "content-length") 0

end HttpResponseParer

section Safety
variable {len pos : ℕ} {m : Memory} {o : Offsets} {r : Recorded} {p : HttpResponseParer}

structure Within (pos : ℕ) (o : Offsets) : Prop where
  mark : o.mark ≤ pos
  fieldStart : o.fieldStart ≤ pos
  fieldLen : o.fieldLen ≤ pos

theorem exists_doAction (hpos : pos < len) (hlen : len < 2 ^ 31) (a : Action) (ho : Within pos o)
    (hr : r.bodyStart ≤ len) :
    ∃ d, doAction len m pos a (o, r) = some d ∧ Within pos d.1 ∧ d.2.bodyStart ≤ len := by
  have hfield : lenTo o.fieldStart pos = pos - o.fieldStart := lenTo_eq ho.fieldStart (by omega)
  have hstring (k : ℕ) (hk : k ≤ pos) (n : ℕ) : string m n k = some (slice m n k) :=
    if_pos (by omega)
  have hmark : string m o.mark (lenTo o.mark pos) = some (slice m o.mark (pos - o.mark)) := by
    rw [lenTo_eq ho.mark (by omega)]
    exact hstring _ (Nat.sub_le ..) _
  cases a with
  | mark => exact ⟨_, rfl, ⟨Nat.le_refl _, ho.fieldStart, ho.fieldLen⟩, hr⟩
  | startValue => exact ⟨_, rfl, ⟨Nat.le_refl _, ho.fieldStart, ho.fieldLen⟩, hr⟩
  | startField => exact ⟨_, rfl, ⟨ho.mark, Nat.le_refl _, ho.fieldLen⟩, hr⟩
  | writeField =>
    rw [doAction, hfield]
    exact ⟨_, rfl, ⟨ho.mark, ho.fieldStart, Nat.sub_le _ _⟩, hr⟩
  | writeValue =>
    rw [doAction, hstring _ ho.fieldLen, hmark]
    exact ⟨_, rfl, ho, hr⟩
  | reasonPhrase =>
    rw [doAction, hmark]
    exact ⟨_, rfl, ho, hr⟩
  | httpVersion =>
    refine ⟨_, rfl, ho, ?_⟩
    rw [Recorded.onResponseVersion]
    split_ifs <;> exact hr
  | done => exact ⟨_, rfl, ho, hpos⟩
  | _ => exact ⟨_, rfl, ho, hr⟩

theorem exists_scan (hlen : 0 < len ∧ len < 2 ^ 31) (hbody : p.recorded.bodyStart ≤ len) :
    ∃ e, p.scan m len = some e ∧ e.pos ≤ len ∧ Within (len - 1) e.data.1 ∧
      e.data.2.bodyStart ≤ len := by
  rw [HttpResponseParer.scan]
  have hstart : Within 0 (⟨0, 0, 0⟩ : Offsets) := ⟨Nat.le_refl _, Nat.le_refl _, Nat.le_refl _⟩
  have hmono (i j : ℕ) (d : Offsets × Recorded) (hij : i ≤ j)
      (h : Within i d.1 ∧ d.2.bodyStart ≤ len) : Within j d.1 ∧ d.2.bodyStart ≤ len :=
    ⟨⟨h.1.mark.trans hij, h.1.fieldStart.trans hij, h.1.fieldLen.trans hij⟩, h.2⟩
  cases p.cs with
  | none => exact ⟨_, rfl, Nat.zero_le _, hmono _ _ _ (Nat.zero_le _) ⟨hstart, hbody⟩⟩
  | some s =>
    obtain ⟨n, rfl⟩ : ∃ n, len = n + 1 := ⟨len - 1, by omega⟩
    obtain ⟨e, he, hpos, hend⟩ := Scanner.exists_run (S := clientScanner (n + 1)) (m := m) (s := s)
      (d := (⟨0, 0, 0⟩, p.recorded)) hmono
      (fun i hi a d h => exists_doAction hi hlen.2 a h.1 h.2) (by omega : 0 + n < n + 1)
      ⟨hstart, hbody⟩
    rw [Nat.zero_add] at hpos hend
    exact ⟨e, he, hpos, hend⟩

theorem execute_eq (hm : m len = 0) (hlen : 0 < len ∧ len < 2 ^ 31)
    (hbody : p.recorded.bodyStart ≤ len) {e : Scanner.End State (Offsets × Recorded)}
    (hscan : p.scan m len = some e) :
    p.execute m len = some (⟨e.state, e.data.2⟩,
      fun i => if i < len - e.pos then m (e.pos + i) else m i, e.pos) := by
  obtain ⟨e', he', -, hwithin, hstart⟩ := exists_scan (m := m) hlen hbody
  cases hscan.symm.trans he'
  have hoffsets : e.data.2.bodyStart ≤ len ∧ e.data.1.mark < len ∧ e.data.1.fieldLen ≤ len ∧
      e.data.1.fieldStart < len := by
    have := hwithin.mark
    have := hwithin.fieldLen
    have := hwithin.fieldStart
    omega
  have htext : ¬ (m len ≠ 0 ∨ 2 ^ 31 ≤ len) := by
    rw [not_or, not_not, Nat.not_le]
    exact ⟨hm, hlen.2⟩
  rw [HttpResponseParer.execute, HttpResponseParer.httpclientParserExecute, if_neg htext, hscan]
  simp only [Option.bind_eq_bind, Option.bind_some]
  rw [if_pos hoffsets]
  rfl

/-- What a call needs: a terminated text that is neither empty nor too long. -/
theorem execute_iff (p : HttpResponseParer) (m : Memory) (len : ℕ)
    (hbody : p.recorded.bodyStart ≤ len) :
    (∃ p' m' offset, p.execute m len = some (p', m', offset) ∧ offset ≤ len ∧
      p'.recorded.bodyStart ≤ len) ↔ m len = 0 ∧ 0 < len ∧ len < 2 ^ 31 := by
  constructor
  · rintro ⟨p', m', offset, hexec, -, -⟩
    rw [HttpResponseParer.execute] at hexec
    obtain ⟨x, hx, -⟩ := Option.bind_eq_some_iff.mp hexec
    rw [HttpResponseParer.httpclientParserExecute] at hx
    split_ifs at hx with htext
    obtain ⟨e, -, he⟩ := Option.bind_eq_some_iff.mp hx
    rw [not_or, not_not, Nat.not_le] at htext
    dsimp only at he
    split_ifs at he with hoffsets
    exact ⟨htext.1, Nat.zero_lt_of_lt hoffsets.2.1, htext.2⟩
  · rintro ⟨hm, hlen⟩
    obtain ⟨e, he, hpos, -, hstart⟩ := exists_scan (m := m) hlen hbody
    exact ⟨_, _, _, execute_eq hm hlen hbody he, hpos, hstart⟩

def okLine : List UInt8 := ascii "HTTP/1.1 200 OK\r\n"

theorem execute_iff_okLine :
    ∃ p' m' offset, (HttpResponseParer.new 0).execute (cString okLine) 17 = some (p', m', offset) ∧
      offset ≤ 17 ∧ p'.recorded.bodyStart ≤ 17 :=
  (execute_iff (.new 0) (cString okLine) 17 (Nat.zero_le _)).mpr (by decide)

end Safety
end ApexStorm.Http.Client
