import ApexStorm.Http.Body
import ApexStorm.Http.Message
import ApexStorm.Lib.FoldedMap

/-!
# The maps of a message

The headers, parameters and cookies of a message are maps of the one type `MapType`, a
`std::map` ordered by `strcasecmp`. The model keeps the entries in the order in which they
came in, and a traversal sorts them. Here every sequence of calls is given a meaning as a
function on folded names. The functions that read a map and the printed text depend on
nothing else.
-/

namespace ApexStorm.Http
open ApexStorm.Lib

abbrev MapType := List (List UInt8 × List UInt8)

namespace MapType

/-- `var[key] = val`. -/
def set (m : MapType) (key val : List UInt8) : MapType := FoldedMap.set foldKey m key val

def del (m : MapType) (key : List UInt8) : MapType := FoldedMap.erase foldKey m key

def find (m : MapType) (key : List UInt8) : Option (List UInt8) :=
  (FoldedMap.entry foldKey m (foldKey key)).map Prod.snd

def get (m : MapType) (key deflt : List UInt8) : List UInt8 := (m.find key).getD deflt

/-- What `has` returns and what it leaves in `*val`. -/
def has (m : MapType) (key val : List UInt8) : Bool × List UInt8 :=
  match m.find key with
  | none => (false, val)
  | some v => (true, v)

/-- What `checkGetAs` returns and what it leaves in `val`; `cast` is `lexical_cast<T>`. -/
def checkGetAs {T : Type} (cast : List UInt8 → Option T) (m : MapType) (key : List UInt8)
    (deflt : T) : Bool × T :=
  match m.find key with
  | none => (false, deflt)
  | some v =>
    match cast v with
    | some x => (true, x)
    | none => (false, deflt)

def getAs {T : Type} (cast : List UInt8 → Option T) (m : MapType) (key : List UInt8)
    (deflt : T) : T :=
  match m.find key with
  | none => deflt
  | some v => (cast v).getD deflt

end MapType

def HttpRequest.delHeader (r : HttpRequest) (key : List UInt8) : HttpRequest :=
  { r with headers := MapType.del r.headers key }

namespace HttpResponse

def getHeader (r : HttpResponse) (key deflt : List UInt8) : List UInt8 :=
  MapType.get r.headers key deflt

def setHeader (r : HttpResponse) (key val : List UInt8) : HttpResponse :=
  { r with headers := MapType.set r.headers key val }

def delHeader (r : HttpResponse) (key : List UInt8) : HttpResponse :=
  { r with headers := MapType.del r.headers key }

end HttpResponse

inductive MapCall
  | set (key val : List UInt8)
  | del (key : List UInt8)
  deriving DecidableEq, Repr

namespace MapCall

def onMap (m : MapType) : MapCall → MapType
  | set key val => m.set key val
  | del key => m.del key

def onRequest (r : HttpRequest) : MapCall → HttpRequest
  | set key val => r.setHeader key val
  | del key => r.delHeader key

def onResponse (r : HttpResponse) : MapCall → HttpResponse
  | set key val => r.setHeader key val
  | del key => r.delHeader key

/-- What a map says: the entry under each folded name. -/
abbrev Entries := List UInt8 → Option (List UInt8 × List UInt8)

def onEntries (g : Entries) : MapCall → Entries
  | set key val => FoldedMap.setEntry foldKey g key val
  | del key => FoldedMap.eraseEntry foldKey g key

def meaning (calls : List MapCall) : Entries := calls.foldl onEntries fun _ => none

end MapCall

theorem HttpRequest.setHeader_eq (r : HttpRequest) (key val : List UInt8) :
    r.setHeader key val = { r with headers := MapType.set r.headers key val } := by
  rw [setHeader, MapType.set, FoldedMap.set]
  split_ifs <;> rfl

/-- A number is read as it is printed. -/
def LexicalCast.ReadsNumbers [LexicalCast] : Prop :=
  ∀ n < 2 ^ 64, toUInt64 (showNat n) = some n

theorem HttpRequest.getContentLength_eq [LexicalCast] (r : HttpRequest) :
    r.getContentLength =
      MapType.getAs LexicalCast.toUInt64 r.headers (ascii "content-length") 0 := by
  rw [getContentLength, MapType.getAs]
  change ((MapType.find r.headers _).bind LexicalCast.toUInt64).getD 0 = _
  cases MapType.find r.headers (ascii "content-length") <;> rfl

theorem MapType.checkGetAs_eq {T : Type} (cast : List UInt8 → Option T) (m : MapType)
    (key : List UInt8) (deflt : T) :
    m.checkGetAs cast key deflt = (((m.find key).bind cast).isSome, m.getAs cast key deflt) := by
  rw [checkGetAs, getAs]
  cases hfind : m.find key with
  | none => rfl
  | some v => cases hcast : cast v <;> simp [hcast]

section
variable {m : MapType} {calls calls' : List MapCall}

theorem entry_onMap (c : MapCall) :
    FoldedMap.entry foldKey (c.onMap m) = c.onEntries (FoldedMap.entry foldKey m) := by
  cases c with
  | set key val => exact FoldedMap.entry_set
  | del key => exact FoldedMap.entry_erase

theorem distinct_onMap (c : MapCall) (h : FoldedMap.Distinct foldKey m) :
    FoldedMap.Distinct foldKey (c.onMap m) := by
  cases c with
  | set key val => exact FoldedMap.distinct_set h
  | del key => exact FoldedMap.distinct_erase h

theorem entry_foldl :
    FoldedMap.entry foldKey (calls.foldl MapCall.onMap m) =
      calls.foldl MapCall.onEntries (FoldedMap.entry foldKey m) := by
  induction calls generalizing m with
  | nil => rfl
  | cons c calls ih => rw [List.foldl_cons, List.foldl_cons, ih, entry_onMap]

theorem distinct_foldl (h : FoldedMap.Distinct foldKey m) :
    FoldedMap.Distinct foldKey (calls.foldl MapCall.onMap m) := by
  induction calls generalizing m with
  | nil => exact h
  | cons c calls ih => exact ih (distinct_onMap c h)

theorem inOrder_foldl (h : MapCall.meaning calls = MapCall.meaning calls') :
    inOrder (calls.foldl MapCall.onMap []) = inOrder (calls'.foldl MapCall.onMap []) := by
  apply FoldedMap.sort_eq_of_entry (distinct_foldl .nil) (distinct_foldl .nil)
  rw [entry_foldl, entry_foldl]
  exact h

end

def HttpRequest.afterCalls (r : HttpRequest) (calls : List MapCall) : HttpRequest :=
  calls.foldl MapCall.onRequest { r with headers := [] }

def HttpResponse.afterCalls (r : HttpResponse) (calls : List MapCall) : HttpResponse :=
  calls.foldl MapCall.onResponse { r with headers := [] }

section
variable (calls : List MapCall)

theorem HttpRequest.afterCalls_eq (r : HttpRequest) :
    r.afterCalls calls = { r with headers := calls.foldl MapCall.onMap [] } := by
  rw [afterCalls]
  generalize ([] : MapType) = m
  induction calls generalizing m with
  | nil => rfl
  | cons c calls ih =>
    rw [List.foldl_cons, List.foldl_cons, ← ih]
    cases c with
    | set key val => rw [MapCall.onRequest, setHeader_eq]; rfl
    | del key => rfl

theorem HttpResponse.afterCalls_eq (r : HttpResponse) :
    r.afterCalls calls = { r with headers := calls.foldl MapCall.onMap [] } := by
  rw [afterCalls]
  generalize ([] : MapType) = m
  induction calls generalizing m with
  | nil => rfl
  | cons c calls ih =>
    rw [List.foldl_cons, List.foldl_cons, ← ih]
    cases c <;> rfl

theorem find_foldl (key : List UInt8) :
    MapType.find (calls.foldl MapCall.onMap []) key =
      (MapCall.meaning calls (foldKey key)).map Prod.snd := by
  rw [MapType.find, entry_foldl]
  rfl

end

/-- A message is read and printed by what its header calls mean. -/
theorem headers_refine_meaning (r : HttpRequest) (q : HttpResponse) (calls calls' : List MapCall)
    (h : MapCall.meaning calls = MapCall.meaning calls') :
    (∀ key, (r.afterCalls calls).getHeader key =
        (MapCall.meaning calls' (foldKey key)).map Prod.snd) ∧
      (∀ key deflt, (q.afterCalls calls).getHeader key deflt =
        ((MapCall.meaning calls' (foldKey key)).map Prod.snd).getD deflt) ∧
      (r.afterCalls calls).dump = (r.afterCalls calls').dump ∧
      (q.afterCalls calls).dump = (q.afterCalls calls').dump := by
  simp only [HttpRequest.afterCalls_eq, HttpResponse.afterCalls_eq]
  refine ⟨fun key => ?_, fun key deflt => ?_, ?_, ?_⟩
  · rw [← h, ← find_foldl]
    rfl
  · rw [← h, ← find_foldl]
    rfl
  · rw [HttpRequest.dump, HttpRequest.dump, inOrder_foldl h]
  · rw [HttpResponse.dump, HttpResponse.dump, inOrder_foldl h]

def hostFirst : List MapCall := [.set (ascii "Host") (ascii "b"), .set (ascii "Accept") (ascii "*")]

def hostLast : List MapCall :=
  [.set (ascii "Accept") (ascii "*"), .del (ascii "cookie"), .set (ascii "Host") (ascii "a"),
    .set (ascii "HOST") (ascii "b")]

theorem meaning_hostFirst : MapCall.meaning hostFirst = MapCall.meaning hostLast := by
  have hhost : foldKey (ascii "HOST") = foldKey (ascii "Host") := by decide
  have hne : foldKey (ascii "Host") ≠ foldKey (ascii "Accept") := by decide
  have hcookie : foldKey (ascii "Accept") ≠ foldKey (ascii "cookie") := by decide
  have herase : Function.update (fun _ => none) (foldKey (ascii "cookie")) none =
      (fun _ => none : MapCall.Entries) := Function.update_eq_self _ _
  simp only [MapCall.meaning, hostFirst, hostLast, List.foldl_cons, List.foldl_nil,
    MapCall.onEntries, FoldedMap.setEntry, FoldedMap.eraseEntry, hhost, Function.update_self]
  rw [Function.update_comm hne, Function.update_comm hcookie, herase, Function.update_idem,
    Function.update_of_ne hne, Function.update_of_ne hne.symm]
  rfl

theorem headers_refine_meaning_host :
    (HttpRequest.new.afterCalls hostFirst).dump = (HttpRequest.new.afterCalls hostLast).dump :=
  (headers_refine_meaning .new (.new 0x11 true) hostFirst hostLast meaning_hostFirst).2.2.1

end ApexStorm.Http
