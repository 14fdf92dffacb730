import Mathlib.Data.List.TakeWhile
import ApexStorm.Http.ClientHead

/-!
# Printed responses are read back

What `HttpResponse::dump` prints is read by `HttpResponseParer`: the head is consumed
exactly, every header is found again, and what stays in the buffer is the body, or the
empty line too many of a response without a body.
-/

namespace ApexStorm.Http.Client
open ApexStorm.Lib ApexStorm.Lib.Numeral

section Numbers
variable {xs : List UInt8} {n : ℕ}

theorem digit_of_mem_showNat {c : UInt8} (h : c ∈ showNat n) : digit c = true := by
  obtain ⟨d, hd, rfl⟩ := exists_digit_of_mem (b := 10) (by decide) h
  interval_cases d <;> decide

theorem digits_showNat (n : ℕ) : Digits (showNat n) :=
  ⟨numeral_ne_nil (by decide), List.all_eq_true.mpr fun _ => digit_of_mem_showNat⟩

theorem number_showNat (n : ℕ) : number 10 (showNat n) = n := by
  rw [number, showNat]
  exact congrArg (Option.getD · 0) (value_numeral (by decide) (by decide) n)

theorem digitValue_of_digit : ∀ c : UInt8, digit c = true →
    digitValue c = some (c.toNat - 48) ∧ c.toNat - 48 < 10 := by
  apply forall_byte
  decide +kernel

theorem value_of_digits (h : xs.all digit = true) : value 10 xs = some (decimal xs) := by
  rw [value, decimal]
  generalize 0 = v
  induction xs generalizing v with
  | nil => rfl
  | cons c xs ih =>
    rw [List.all_cons, Bool.and_eq_true] at h
    obtain ⟨hvalue, hlt⟩ := digitValue_of_digit c h.1
    rw [List.foldlM_cons, List.foldl_cons, hvalue, Option.bind_some, if_pos hlt]
    exact ih h.2 _

theorem readsNumbers_decimalCast : LexicalCast.ReadsNumbers := by
  intro n h
  have hall := (digits_showNat n).all
  have hdecimal : decimal (showNat n) = n := by
    have hnumber := number_showNat n
    rw [number, value_of_digits hall] at hnumber
    exact hnumber
  have hunsigned : unsignedOf (showNat n) = some n := by
    rw [unsignedOf, hdecimal, if_pos ⟨(digits_showNat n).ne_nil, hall, h⟩]
  obtain ⟨c, cs, hcons, hc, -⟩ := (digits_showNat n).exists_cons
  have hminus : c ≠ 45 := ne_of_class hc (by decide)
  have hplus : c ≠ 43 := ne_of_class hc (by decide)
  rw [hcons] at hunsigned ⊢
  change readUInt64 (c :: cs) = _
  rw [readUInt64, if_neg hminus, if_neg hplus, hunsigned]

end Numbers

/-- A header that can be sent: a token, and a value in one line that begins with no blank. -/
structure Sendable (h : List UInt8 × List UInt8) : Prop where
  name_ne : h.1 ≠ []
  name : ∀ c ∈ h.1, token c = true
  value : noBreak h.2
  head : ∀ c ∈ h.2.head?, blank c = false

theorem head_of_all {xs : List UInt8} (h : (xs.head?.all fun c => !blank c) = true) :
    ∀ c ∈ xs.head?, blank c = false := by
  intro c hc
  rw [hc] at h
  simpa using h

structure Printable (r : HttpResponse) : Prop where
  version : r.version = 0x10 ∨ r.version = 0x11
  status : r.status < 2 ^ 32
  reason : noBreak r.reason
  headers : ∀ h ∈ r.headers, Sendable h
  keys : r.headers.Pairwise fun a b => foldKey a.1 ≠ foldKey b.1

def reasonText (r : HttpResponse) : List UInt8 :=
  if r.reason = [] then httpStatusToString r.status else r.reason

def connectionValue (r : HttpResponse) : List UInt8 :=
  if r.close then ascii "close" else ascii "keep-alive"

def sent (r : HttpResponse) : MapType :=
  ((inOrder r.headers).filter fun h => foldKey h.1 ≠ foldKey (ascii "connection")) ++
    [(ascii "connection", connectionValue r)] ++
    if r.body ≠ [] then [(ascii "content-length", showNat r.body.length)] else []

def restOf (r : HttpResponse) : List UInt8 := if r.body ≠ [] then r.body else Lines.crlf

section Head
variable {r : HttpResponse} {hs : MapType}

def lineOf (h : List UInt8 × List UInt8) : List UInt8 := h.1 ++ ascii ": " ++ h.2 ++ ascii "\r\n"

def HeaderLine.pair (l : HeaderLine) : List UInt8 × List UInt8 := (l.name, l.value)

theorem exists_lines (h : ∀ x ∈ hs, Sendable x) :
    ∃ lines : List HeaderLine, lines.flatMap HeaderLine.text = hs.flatMap lineOf ∧
      lines.map HeaderLine.pair = hs := by
  induction hs with
  | nil => exact ⟨[], rfl, rfl⟩
  | cons x hs ih =>
    rw [List.forall_mem_cons] at h
    obtain ⟨lines, htext, hpair⟩ := ih h.2
    refine ⟨⟨x.1, [32], x.2, [13, 10], h.1.name_ne, h.1.name, List.all_eq_true.mp rfl,
      h.1.value, h.1.head, .inr rfl⟩ :: lines, ?_, ?_⟩
    · rw [List.flatMap_cons, List.flatMap_cons, htext]
      congr 1
      simp [HeaderLine.text, lineOf, ascii]
    · rw [List.map_cons, hpair]
      rfl

theorem blank_class : ∀ c : UInt8, blank c = true → digit c = false := by
  apply forall_byte
  decide +kernel

theorem sendable_sent (h : Printable r) : ∀ x ∈ sent r, Sendable x := by
  have hconnection : Sendable (ascii "connection", connectionValue r) := by
    rw [connectionValue]
    split_ifs <;>
      exact ⟨by decide, List.all_eq_true.mp (by decide), by decide, head_of_all (by decide)⟩
  have hlength : Sendable (ascii "content-length", showNat r.body.length) := by
    refine ⟨(by decide : ascii "content-length" ≠ []), List.all_eq_true.mp
      (by decide : (ascii "content-length").all token = true), noBreak_showNat _, fun c hc => ?_⟩
    have hdigit := digit_of_mem_showNat (List.mem_of_head? hc)
    by_contra hblank
    rw [Bool.not_eq_false] at hblank
    exact absurd hdigit (Bool.not_eq_true _ ▸ blank_class c hblank)
  intro x hx
  rcases List.mem_append.mp hx with hx | hx
  · rcases List.mem_append.mp hx with hx | hx
    · exact h.headers x ((List.mem_insertionSort _).mp (List.mem_of_mem_filter hx))
    · rw [List.mem_singleton.mp hx]
      exact hconnection
  · split_ifs at hx
    · rw [List.mem_singleton.mp hx]
      exact hlength
    · cases hx

theorem flatMap_showHeader (hs : MapType) :
    hs.flatMap (showHeader (ascii ": ")) =
      (hs.filter fun h => foldKey h.1 ≠ foldKey (ascii "connection")).flatMap lineOf := by
  induction hs with
  | nil => rfl
  | cons h hs ih =>
    rw [List.flatMap_cons, ih, showHeader]
    by_cases hkey : foldKey h.1 = foldKey (ascii "connection")
    · rw [if_pos hkey, List.filter_cons_of_neg (by simpa using hkey), List.nil_append]
    · rw [if_neg hkey, List.filter_cons_of_pos (by simpa using hkey), List.flatMap_cons]
      rfl

theorem dump_sent (r : HttpResponse) :
    r.dump = showVersion r.version ++ [32] ++ (showNat r.status ++ [32]) ++
      (reasonText r ++ [13, 10]) ++ (sent r).flatMap lineOf ++ [13, 10] ++ restOf r := by
  have hconnection : showConnection r.close = lineOf (ascii "connection", connectionValue r) := rfl
  have hbody : (if r.body ≠ [] then showBody r.body else ascii "\r\n\r\n") =
      (if r.body ≠ [] then [(ascii "content-length", showNat r.body.length)] else []).flatMap
        lineOf ++ [13, 10] ++ restOf r := by
    rw [restOf]
    split_ifs
    · simp [showBody, lineOf, ascii]
    · rfl
  rw [HttpResponse.dump, flatMap_showHeader, hconnection, hbody, sent]
  simp [reasonText, ascii]

theorem httpStatusToString_ne (status : ℕ) : httpStatusToString status ≠ [] := by
  have htable : httpStatusMap.all (fun x => x.2 ≠ []) = true := by decide +kernel
  rw [httpStatusToString]
  cases hfind : httpStatusMap.find? fun x => x.1 = status with
  | none => decide
  | some x =>
    have hx := List.mem_of_find?_eq_some hfind
    exact of_decide_eq_true (List.all_eq_true.mp htable x hx)

theorem exists_head (h : Printable r) :
    ∃ head : ResponseHead, r.dump = head.text ++ restOf r ∧
      head.lines.map HeaderLine.pair = sent r ∧
      versionText head.major head.minor = showVersion r.version ∧
      head.code = showNat r.status ∧ head.reason = reasonText r := by
  obtain ⟨lines, htext, hpair⟩ := exists_lines (sendable_sent h)
  obtain ⟨minor, hminor, hversion⟩ : ∃ minor, Digits minor ∧
      versionText (ascii "1") minor = showVersion r.version := by
    rcases h.version with hv | hv <;> rw [hv]
    · exact ⟨ascii "0", ⟨by decide, by decide⟩, by decide +kernel⟩
    · exact ⟨ascii "1", ⟨by decide, by decide⟩, by decide +kernel⟩
  have hreason : reasonText r ≠ [] ∧ noBreak (reasonText r) := by
    refine ⟨?_, noBreak_ite (noBreak_httpStatusToString r.status) h.reason⟩
    rw [reasonText]
    split_ifs with hempty
    · exact httpStatusToString_ne r.status
    · exact hempty
  refine ⟨⟨ascii "1", minor, showNat r.status, reasonText r, [13, 10], lines, [13, 10],
    ⟨by decide, by decide⟩, hminor, digits_showNat _, hreason.1, hreason.2, .inr rfl, .inr rfl⟩,
    ?_, hpair, hversion, rfl, rfl⟩
  rw [dump_sent, ResponseHead.text, ResponseHead.front]
  dsimp only
  rw [hversion, htext]

end Head

section Recorded
variable {R : Recorded} {r : HttpResponse} {lines : List HeaderLine} {key : List UInt8}

theorem keywordOf_eq_some {p : List UInt8} {k : Keyword} (h : keywordOf p = some k) :
    k.name = p := by
  rw [keywordOf] at h
  simpa using List.find?_some h

/-- The rules change neither the response nor, the last one aside, the flag. -/
theorem recordValue_eq (k : Option Keyword) (x : List UInt8) :
    (recordValue k x R).data = R.data ∧
      (recordValue k x R).close = (R.close || (k = some .close && Keyword.close.accepts x)) := by
  cases k with
  | none => simp [recordValue]
  | some κ =>
    rw [recordValue]
    cases κ with
    | close => split_ifs with h <;> simp [Keyword.record, h]
    | chunked => split_ifs <;> simp [Keyword.record]
    | digits => split_ifs <;> simp [Keyword.record]

def closes (x : List UInt8 × List UInt8) : Bool :=
  keywordOf (lower x.1) = some .close && Keyword.close.accepts x.2

theorem data_lines :
    (lines.foldl (fun R l => l.record R) R).data =
      (lines.map HeaderLine.pair).foldl (fun d x => d.setHeader x.1 x.2) R.data := by
  induction lines generalizing R with
  | nil => rfl
  | cons l lines ih =>
    rw [List.foldl_cons, ih, List.map_cons, List.foldl_cons, HeaderLine.record,
      (recordValue_eq _ _).1]
    rfl

theorem close_lines :
    (lines.foldl (fun R l => l.record R) R).close =
      (R.close || (lines.map HeaderLine.pair).any closes) := by
  induction lines generalizing R with
  | nil => simp
  | cons l lines ih =>
    rw [List.foldl_cons, ih, List.map_cons, List.any_cons, HeaderLine.record,
      (recordValue_eq _ _).2, Bool.or_assoc]
    rfl

theorem headers_foldl (d : HttpResponse) (hs : MapType) :
    hs.foldl (fun d x => d.setHeader x.1 x.2) d =
      { d with headers := hs.foldl (fun m x => MapType.set m x.1 x.2) d.headers } := by
  induction hs generalizing d with
  | nil => rfl
  | cons h hs ih => rw [List.foldl_cons, ih]; rfl

theorem find_set (m : MapType) (k v key : List UInt8) :
    (m.set k v).find key = if foldKey key = foldKey k then some v else m.find key := by
  rw [MapType.find, MapType.set, FoldedMap.entry_set, FoldedMap.setEntry, Function.update_apply]
  split_ifs <;> rfl

theorem find_foldl_set (m hs : MapType) :
    MapType.find (hs.foldl (fun m x => MapType.set m x.1 x.2) m) key =
      ((hs.reverse.find? (foldKey ·.1 == foldKey key)).map Prod.snd).or (MapType.find m key) := by
  induction hs generalizing m with
  | nil => rfl
  | cons h hs ih =>
    rw [List.foldl_cons, ih, find_set, List.reverse_cons, List.find?_append]
    cases hs.reverse.find? (foldKey ·.1 == foldKey key) with
    | some x => rfl
    | none =>
      by_cases hkey : foldKey key = foldKey h.1
      · simp [hkey]
      · simp [hkey, Ne.symm hkey]

theorem foldKey_token {name : List UInt8} (h : ∀ c ∈ name, token c = true) :
    foldKey name = lower name := by
  have hzero (c : UInt8) (hc : c ∈ name) : decide (c ≠ 0) = true :=
    decide_eq_true (ne_of_class (h c hc) (by decide))
  rw [foldKey, List.takeWhile_eq_self_iff.mpr hzero]
  rfl

theorem closes_sent (h : Printable r) : (sent r).any closes = r.close := by
  have hfront : ((inOrder r.headers).filter
      fun h => foldKey h.1 ≠ foldKey (ascii "connection")).any closes = false := by
    rw [List.any_eq_false]
    intro x hx hcloses
    obtain ⟨hmem, hkey⟩ := List.mem_filter.mp hx
    have hsend := h.headers x ((List.mem_insertionSort _).mp hmem)
    have hname := keywordOf_eq_some (of_decide_eq_true (Bool.and_eq_true_iff.mp hcloses).1)
    refine of_decide_eq_true hkey ?_
    rw [foldKey_token hsend.name, ← hname]
    decide
  have hconnection : closes (ascii "connection", connectionValue r) = r.close := by
    rw [connectionValue]
    cases r.close <;> decide +kernel
  have hlength : (if r.body ≠ [] then [(ascii "content-length", showNat r.body.length)]
      else []).any closes = false := by
    have hkeyword : keywordOf (lower (ascii "content-length")) = some .digits := by decide
    split_ifs
    · simp [closes, hkeyword]
    · rfl
  rw [sent, List.any_append, List.any_append, hfront, hlength]
  simp [hconnection]

theorem find_sent (h : Printable r) (hconnection : foldKey key ≠ foldKey (ascii "connection"))
    (hlength : foldKey key ≠ foldKey (ascii "content-length")) :
    MapType.find ((sent r).foldl (fun m x => MapType.set m x.1 x.2) []) key =
      MapType.find r.headers key := by
  have hperm := List.perm_insertionSort (fun a b => foldKey a.1 ≤ foldKey b.1) r.headers
  have hkeys : FoldedMap.Distinct foldKey (inOrder r.headers) :=
    h.keys.perm hperm.symm fun hne => hne.symm
  have hfront : ((inOrder r.headers).filter fun h => foldKey h.1 ≠ foldKey (ascii "connection")
      ).reverse.find? (foldKey ·.1 == foldKey key) =
      r.headers.find? (foldKey ·.1 == foldKey key) := by
    refine (find_perm (List.reverse_perm _).symm (FoldedMap.distinct_erase hkeys)).symm.trans ?_
    change FoldedMap.entry foldKey (FoldedMap.erase foldKey (inOrder r.headers) _) _ = _
    rw [FoldedMap.entry_erase, FoldedMap.eraseEntry, Function.update_of_ne hconnection]
    exact find_perm hperm hkeys
  have hlast : (if r.body ≠ [] then [(ascii "content-length", showNat r.body.length)]
      else []).reverse.find? (foldKey ·.1 == foldKey key) = none := by
    split_ifs
    · simp [Ne.symm hlength]
    · rfl
  rw [find_foldl_set, sent, List.reverse_append, List.find?_append, hlast, Option.none_or,
    List.reverse_append, List.find?_append, hfront]
  simp [MapType.find, FoldedMap.entry, Ne.symm hconnection]

theorem find_sent_length (h : r.body ≠ []) :
    MapType.find ((sent r).foldl (fun m x => MapType.set m x.1 x.2) []) (ascii "content-length") =
      some (showNat r.body.length) := by
  rw [sent, if_pos h, List.foldl_append, List.foldl_cons, List.foldl_nil, find_set, if_pos rfl]

theorem contentLen_lines {hs : MapType} {n : ℕ}
    (h : lines.map HeaderLine.pair = hs ++ [(ascii "content-length", showNat n)]) :
    (lines.foldl (fun R l => l.record R) R).contentLen = toInt (min (n : ℤ) (2 ^ 63 - 1)) := by
  obtain ⟨ls, ls', rfl, -, hlast⟩ := List.map_eq_append_iff.mp h
  obtain ⟨l, rfl, hl⟩ := List.map_eq_singleton_iff.mp hlast
  obtain ⟨hname, hvalue⟩ := Prod.mk.inj hl
  have hkeyword : l.keyword = some .digits := by
    rw [HeaderLine.keyword, hname]
    decide
  have haccepts : Keyword.digits.accepts l.value = true := by
    rw [hvalue]
    simp [Keyword.accepts, (digits_showNat n).ne_nil, (digits_showNat n).all]
  rw [List.foldl_append, List.foldl_cons, List.foldl_nil, HeaderLine.record, hkeyword, recordValue,
    if_pos haccepts, Keyword.record, hvalue, number_showNat]

theorem getLast_sent (r : HttpResponse) : ∀ x ∈ (sent r).getLast?, x.2 ≠ [] := by
  intro x hx
  rw [sent] at hx
  split_ifs at hx
  · rw [List.getLast?_concat, Option.mem_some_iff] at hx
    rw [← hx]
    exact (digits_showNat _).ne_nil
  · rw [List.append_nil, List.getLast?_concat, Option.mem_some_iff] at hx
    rw [← hx, connectionValue]
    dsimp only
    split_ifs <;> decide

theorem setVersion_printed (h : r.version = 0x10 ∨ r.version = 0x11) :
    R.setVersion (showVersion r.version) =
      { R with data := { R.data with version := r.version } } := by
  rcases h with hv | hv
  · have htext : showVersion 0x10 = ascii "HTTP/1.0" := by decide +kernel
    rw [hv, htext, Recorded.setVersion, if_neg (by decide), if_pos rfl]
  · have htext : showVersion 0x11 = ascii "HTTP/1.1" := by decide +kernel
    rw [hv, htext, Recorded.setVersion, if_pos rfl]

theorem setStatus_printed (h : r.status < 2 ^ 32) :
    R.setStatus (showNat r.status) =
      { R with status := toInt r.status, data := { R.data with status := r.status } } := by
  have hmin : min (r.status : ℤ) (2 ^ 63 - 1) = r.status := by omega
  have hmod : ((r.status : ℤ) % 2 ^ 32).toNat = r.status := by omega
  rw [Recorded.setStatus, number_showNat, hmin]
  dsimp only
  rw [hmod]

end Recorded

section RoundTrip
variable [LexicalCast]

structure ReadBack (r : HttpResponse) (p : HttpResponseParer) : Prop where
  no_error : p.hasError = false
  finished : p.isFinished = true
  status : p.recorded.data.status = r.status
  version : p.recorded.data.version = r.version
  reason : p.recorded.data.reason = reasonText r
  close : p.recorded.close = r.close
  header : ∀ key deflt, foldKey key ≠ foldKey (ascii "connection") →
    foldKey key ≠ foldKey (ascii "content-length") →
    p.recorded.data.getHeader key deflt = r.getHeader key deflt
  length : r.body ≠ [] → r.body.length < 2 ^ 31 →
    p.getContentLength = r.body.length ∧ p.recorded.contentLen = r.body.length

theorem parser_readBack (hcast : LexicalCast.ReadsNumbers) {r : HttpResponse}
    {head : ResponseHead} (h : Printable r) (status : ℤ)
    (hlines : head.lines.map HeaderLine.pair = sent r)
    (hversion : versionText head.major head.minor = showVersion r.version)
    (hcode : head.code = showNat r.status) (hreason : head.reason = reasonText r) :
    ReadBack r (head.parser status) := by
  have hknown : head.KnownVersion := by
    rw [ResponseHead.KnownVersion, hversion]
    rcases h.version with hv | hv <;> rw [hv] <;> decide +kernel
  have hwaiting : ¬ head.Waiting := by
    rintro ⟨l, hl, -, hvalue⟩
    refine getLast_sent r l.pair ?_ hvalue
    rw [← hlines, List.getLast?_map]
    exact Option.mem_map_of_mem _ hl
  have hrecord : (head.parser status).recorded =
      head.record (HttpResponseParer.new status).recorded := rfl
  rw [ResponseHead.record, ResponseHead.frontRecord, hversion, hcode, hreason,
    setVersion_printed h.version, setStatus_printed h.status] at hrecord
  have hdata : (head.parser status).recorded.data = { (HttpResponse.new 0x11 true) with
      status := r.status, version := r.version, reason := reasonText r,
      headers := (sent r).foldl (fun m x => MapType.set m x.1 x.2) [] } := by
    rw [hrecord]
    dsimp only
    rw [data_lines, hlines, headers_foldl]
    rfl
  refine ⟨(parser_hasError head status).mpr hknown, (parser_isFinished head status).mpr hwaiting,
    ?_, ?_, ?_, ?_, ?_, ?_⟩
  · rw [hdata]
  · rw [hdata]
  · rw [hdata]
  · rw [hrecord]
    dsimp only
    rw [close_lines, hlines, closes_sent h]
    rfl
  · intro key deflt hconnection hlength
    rw [hdata, HttpResponse.getHeader, HttpResponse.getHeader, MapType.get, MapType.get,
      find_sent h hconnection hlength]
  · intro hbody hshort
    constructor
    · rw [HttpResponseParer.getContentLength, MapType.getAs, hdata]
      dsimp only
      rw [find_sent_length hbody]
      dsimp only
      rw [hcast _ (by omega)]
      rfl
    · rw [sent, if_pos hbody] at hlines
      rw [hrecord]
      dsimp only
      rw [contentLen_lines hlines, toInt, Int.bmod_def]
      split_ifs <;> omega

theorem execute_dump (hcast : LexicalCast.ReadsNumbers) (r : HttpResponse) (h : Printable r)
    (status : ℤ) (hlen : r.dump.length < 2 ^ 31) :
    ∃ p m n, (HttpResponseParer.new status).execute (cString r.dump) r.dump.length =
        some (p, m, n) ∧
      slice m 0 (r.dump.length - n) = (if r.body ≠ [] then r.body else Lines.crlf) ∧
      r.body.length < 2 ^ 31 ∧ ReadBack r p := by
  obtain ⟨head, hdump, hlines, hversion, hcode, hreason⟩ := exists_head h
  rw [hdump] at hlen
  obtain ⟨m, hexec, hslice⟩ := execute_head head (restOf r) status hlen
  rw [← hdump] at hexec hlen
  refine ⟨_, m, _, hexec, ?_, ?_, parser_readBack hcast h status hlines hversion hcode hreason⟩
  · rw [hdump, List.length_append, Nat.add_sub_cancel_left, hslice]
    rfl
  · rw [hdump, List.length_append, restOf] at hlen
    by_cases hbody : r.body = []
    · simp [hbody]
    · rw [if_pos hbody] at hlen
      omega

/-- A printed response is read back. -/
theorem response_round_trip (hcast : LexicalCast.ReadsNumbers) (r : HttpResponse)
    (h : Printable r) (status : ℤ) (hlen : r.dump.length < 2 ^ 31) :
    ∃ p m n, (HttpResponseParer.new status).execute (cString r.dump) r.dump.length =
        some (p, m, n) ∧ p.hasError = false ∧ p.isFinished = true ∧
      slice m 0 (r.dump.length - n) = (if r.body ≠ [] then r.body else Lines.crlf) ∧
      p.recorded.data.status = r.status ∧ p.recorded.data.version = r.version ∧
      p.recorded.data.reason = reasonText r ∧ p.recorded.close = r.close ∧
      (∀ key deflt, foldKey key ≠ foldKey (ascii "connection") →
        foldKey key ≠ foldKey (ascii "content-length") →
        p.recorded.data.getHeader key deflt = r.getHeader key deflt) ∧
      (r.body ≠ [] → p.getContentLength = r.body.length ∧
        p.recorded.contentLen = r.body.length) := by
  obtain ⟨p, m, n, hexec, hslice, hshort, hp⟩ := execute_dump hcast r h status hlen
  exact ⟨p, m, n, hexec, hp.no_error, hp.finished, hslice, hp.status, hp.version, hp.reason,
    hp.close, hp.header, fun hbody => hp.length hbody hshort⟩

end RoundTrip

def sampleResponse : HttpResponse :=
  { HttpResponse.new 0x11 false with
    body := ascii "hi"
    headers := [(ascii "Server", ascii "apexstorm"), (ascii "Accept", [])] }

theorem printable_sampleResponse : Printable sampleResponse := by
  refine ⟨.inr rfl, by decide, by decide, ?_, by decide⟩
  intro x hx
  rcases List.mem_cons.mp hx with rfl | hx
  · exact ⟨by decide, List.all_eq_true.mp (by decide), by decide, head_of_all (by decide)⟩
  · rw [List.mem_singleton.mp hx]
    exact ⟨by decide, List.all_eq_true.mp (by decide), by decide, head_of_all (by decide)⟩

theorem response_round_trip_sample :
    ∃ p m n, (HttpResponseParer.new 0).execute (cString sampleResponse.dump)
        sampleResponse.dump.length = some (p, m, n) ∧ p.isFinished = true ∧
      slice m 0 (sampleResponse.dump.length - n) = ascii "hi" ∧ p.recorded.close = false := by
  obtain ⟨p, m, n, hexec, -, hfinished, hslice, -, -, -, hclose, -⟩ :=
    response_round_trip readsNumbers_decimalCast sampleResponse printable_sampleResponse 0
      (by decide +kernel)
  exact ⟨p, m, n, hexec, hfinished, hslice, hclose⟩

end ApexStorm.Http.Client
