import ApexStorm.Http.Parser
import ApexStorm.Lib.Wire

/-!
# Receiving the body of a request

`recvRequest` reads until the head is parsed, takes what the buffer holds beyond it
for the body and reads the rest with `readFixSize`. The string that receives the
body is its storage together with its size; the transfer notes bytes written
outside the string and length computations that wrap around.
-/

namespace ApexStorm.Http
open Lib

def decimal (text : List UInt8) : ℕ := text.foldl (fun n c => 10 * n + (c.toNat - 48)) 0

def unsignedOf (text : List UInt8) : Option ℕ :=
  if text ≠ [] ∧ text.all digit ∧ decimal text < 2 ^ 64 then some (decimal text) else none

/-- A sign is accepted, and a minus negates in `uint64_t`. -/
def readUInt64 : List UInt8 → Option ℕ
  | [] => none
  | c :: text =>
    if c = 45 then (unsignedOf text).map fun n => (2 ^ 64 - n) % 2 ^ 64
    else if c = 43 then unsignedOf text
    else unsignedOf (c :: text)

/-- The results do not depend on what `boost::lexical_cast<uint64_t>` accepts. -/
class LexicalCast where
  toUInt64 : List UInt8 → Option ℕ

instance decimalCast : LexicalCast := ⟨readUInt64⟩

def HttpRequest.getContentLength [LexicalCast] (r : HttpRequest) : ℕ :=
  ((r.getHeader (ascii "content-length")).bind LexicalCast.toUInt64).getD 0

/-- `mem` is the storage of the string of `size` bytes into which the buffer points. -/
structure Transfer where
  wire : Wire UInt8
  mem : Memory
  size : ℕ
  outside : Bool
  wrapped : Bool

def readSize : Arrival UInt8 → ℕ
  | .items xs => xs.length
  | .fail => 2 ^ 64 - 1

/-- One round of `readFixSize`: since `len` is unsigned, the test `len < 0` never succeeds. -/
def Transfer.readOnce (t : Transfer) (buffer offset left : ℕ) : Transfer × ℕ × ℕ :=
  let (a, wire) := t.wire.read left
  let len := readSize a
  let pos := (buffer + offset) % 2 ^ 64
  (⟨wire, store t.mem pos a.list, t.size,
    t.outside || decide (a.list ≠ [] ∧ t.size < pos + a.list.length),
    t.wrapped || decide (2 ^ 64 ≤ offset + len) || decide (left < len)⟩,
    (offset + len) % 2 ^ 64, (left + 2 ^ 64 - len) % 2 ^ 64)

def readLoop (buffer : ℕ) : ℕ → ℕ → ℕ → Transfer → Option Transfer
  | 0, _, _, _ => none
  | fuel + 1, offset, left, t =>
    if left > 0 then
      let (t, offset, left) := t.readOnce buffer offset left
      readLoop buffer fuel offset left t
    else some t

def readFixSize (fuel buffer length : ℕ) (t : Transfer) : Option (ℤ × Transfer) := do
  let t ← readLoop buffer fuel 0 length t
  return ((length : ℤ).bmod (2 ^ 32), t)

structure Received where
  request : Option HttpRequest
  outside : Bool
  wrapped : Bool
  rest : Wire UInt8

namespace Session
variable {σ : Type} [LexicalCast]

def recvLoop (A : Automaton σ) : ℕ → Session σ → Wire UInt8 →
    Option (Status × Session σ × Wire UInt8)
  | 0, _, _ => none
  | fuel + 1, s, w =>
    let (a, w) := w.read (buffSize - s.offset)
    if a.list = [] then some (.null, s, w)
    else do
      let (status, s) ← s.recvStep A a.list
      if status = .reading then recvLoop A fuel s w else return (status, s, w)

/-- The string after `append`; `spare` is what its reserved storage holds. -/
def transfer (s : Session σ) (spare : Memory) (w : Wire UInt8) : Transfer :=
  let length := s.parser.data.getContentLength
  let size := if length ≥ s.offset then s.offset else length
  ⟨w, store spare 0 (slice s.data 0 size), size, false, decide (length < s.offset)⟩

/-- `reserve` throws beyond the largest size of a string. -/
def recvBody (s : Session σ) (fuel : ℕ) (spare : Memory) (w : Wire UInt8) : Option Received :=
  let length := s.parser.data.getContentLength
  if length > 0 then
    if length < 2 ^ 63 then
      let t := s.transfer spare w
      let left := (length + 2 ^ 64 - s.offset) % 2 ^ 64
      if left > 0 then do
        let (ret, t) ← readFixSize fuel t.size left t
        if ret ≤ 0 then return ⟨none, t.outside, t.wrapped, t.wire⟩
        else return ⟨some { s.parser.data with body := slice t.mem 0 t.size }, t.outside, t.wrapped,
          t.wire⟩
      else
        return ⟨some { s.parser.data with body := slice t.mem 0 t.size }, t.outside, t.wrapped,
          t.wire⟩
    else none
  else return ⟨some s.parser.data, false, false, w⟩

def recvRequest (A : Automaton σ) (s : Session σ) (fuel : ℕ) (spare : Memory) (w : Wire UInt8) :
    Option Received := do
  let (status, s, w) ← s.recvLoop A fuel w
  if status = .finished then s.recvBody fuel spare w else return ⟨none, false, false, w⟩

end Session

/-- What `recvRequest` owes on a stream `w` whose head has `n` bytes: the request it returns has
the `length` bytes behind the head as its body, and it returns null only if they do not come. -/
def Exact [LexicalCast] {σ : Type} (A : Automaton σ) (s : Session σ) (spare : Memory)
    (w : Wire UInt8) (n length : ℕ) : Prop :=
  ∃ fuel r, s.recvRequest A fuel spare w = some r ∧ r.outside = false ∧ r.wrapped = false ∧
    match r.request with
    | none => w.BreaksBefore (n + length)
    | some q => ∃ head, head.length = n ∧ w.Begins (head ++ q.body) ∧ q.body.length = length

section Head
variable {σ : Type} {A : Automaton σ} {p p' : HttpRequestParer σ} {m : Memory} {s s' : Session σ}
  {w w' w₀ : Wire UInt8} {status : Status}

def SameRest (r r' : HttpRequest) : Prop := r'.body = r.body ∧ r'.close = r.close

theorem SameRest.refl (r : HttpRequest) : SameRest r r := ⟨rfl, rfl⟩

theorem SameRest.trans {r r' r'' : HttpRequest} (h : SameRest r r') (h' : SameRest r' r'') :
    SameRest r r'' := ⟨h'.1.trans h.1, h'.2.trans h.2⟩

theorem setHeader_rest (r : HttpRequest) (key val : List UInt8) :
    SameRest r (r.setHeader key val) := by
  rw [HttpRequest.setHeader]
  split_ifs <;> exact ⟨rfl, rfl⟩

theorem doAction_rest {fpc : ℕ} {a : Action} (h : p.doAction m fpc a = some p') :
    SameRest p.data p'.data := by
  cases a with
  | requestMethod =>
    cases h
    rw [HttpRequestParer.onRequestMethod]
    split <;> exact ⟨rfl, rfl⟩
  | httpVersion =>
    cases h
    rw [HttpRequestParer.onRequestVersion]
    split_ifs <;> exact ⟨rfl, rfl⟩
  | writeValue =>
    simp only [HttpRequestParer.doAction, Option.bind_eq_bind, Option.bind_eq_some_iff] at h
    obtain ⟨field, -, value, -, h⟩ := h
    cases h
    exact setHeader_rest _ _ _
  | fragment | queryString | requestPath =>
    simp only [HttpRequestParer.doAction, Option.bind_eq_bind, Option.bind_eq_some_iff] at h
    obtain ⟨text, -, h⟩ := h
    cases h
    exact ⟨rfl, rfl⟩
  | _ =>
    cases h
    exact ⟨rfl, rfl⟩

theorem doActions_rest {fpc : ℕ} {acts : List Action} (h : p.doActions m fpc acts = some p') :
    SameRest p.data p'.data := by
  induction acts generalizing p with
  | nil =>
    cases h
    exact .refl _
  | cons a acts ih =>
    rw [HttpRequestParer.doActions] at h
    split_ifs at h
    · cases h
      exact .refl _
    · obtain ⟨q, hq, h⟩ := Option.bind_eq_some_iff.mp h
      exact (doAction_rest hq).trans (ih h)

theorem run_spec {n fpc e : ℕ} (h : p.run A m n fpc = some (p', e)) :
    SameRest p.data p'.data ∧ e ≤ fpc + n := by
  induction n generalizing p fpc with
  | zero =>
    cases h
    exact ⟨.refl _, le_rfl⟩
  | succ n ih =>
    rw [HttpRequestParer.run] at h
    split at h
    · cases h
      exact ⟨.refl _, Nat.le_add_right _ _⟩
    · next acts t _ =>
      obtain ⟨q, hq, h⟩ := Option.bind_eq_some_iff.mp h
      have hrest := doActions_rest hq
      split_ifs at h
      · cases h
        exact ⟨hrest, by omega⟩
      · obtain ⟨hrest', hle⟩ := ih h
        exact ⟨hrest.trans hrest', by omega⟩

theorem execute_spec {len e : ℕ} (h : p.httpParserExecute A m len = some (p', e)) :
    SameRest p.data p'.data ∧ e ≤ len := by
  rw [HttpRequestParer.httpParserExecute] at h
  split_ifs at h
  · cases h
    exact ⟨.refl _, Nat.zero_le _⟩
  · simpa using run_spec h

theorem slice_store (m : Memory) (n : ℕ) (bytes : List UInt8) :
    slice (store m n bytes) 0 (n + bytes.length) = slice m 0 n ++ bytes := by
  apply List.ext_getElem
  · simp [slice]
  · intro i h h'
    rw [List.getElem_append]
    simp only [slice, List.getElem_map, List.getElem_range, Nat.zero_add, store, List.length_map,
      List.length_range]
    split_ifs with hlt
    · rfl
    · have hi : i - n < bytes.length := by simp [slice] at h; omega
      rw [List.getElem?_eq_getElem hi, Option.getD_some]

theorem slice_add (m : Memory) (k n : ℕ) : slice m 0 (k + n) = slice m 0 k ++ slice m k n := by
  simp [slice, List.range_add]

/-- What the session has read from `w₀` and not yet consumed is in its buffer. -/
structure Buffered (w₀ : Wire UInt8) (s : Session σ) (w : Wire UInt8) : Prop where
  begins : ∃ head, head.length = s.consumed ∧
    ∀ xs, w.Begins xs → w₀.Begins (head ++ (slice s.data 0 s.offset ++ xs))
  rest : SameRest .new s.parser.data
  offset_le : s.offset ≤ Session.buffSize

theorem Buffered.new (queryStart : ℕ) (data : Memory) :
    Buffered w (Session.new A queryStart data) w :=
  ⟨⟨[], rfl, fun _ h => h⟩, .refl _, Nat.zero_le _⟩

theorem recvStep_cases {bytes : List UInt8} (h : s.recvStep A bytes = some (status, s')) :
    ∃ head, s'.consumed = s.consumed + head.length ∧
      slice s.data 0 s.offset ++ bytes = head ++ slice s'.data 0 s'.offset ∧
      SameRest s.parser.data s'.parser.data ∧ s'.offset ≤ s.offset + bytes.length := by
  obtain ⟨⟨p, data, k⟩, hexec, h⟩ := Option.bind_eq_some_iff.mp h
  have hs' : s' = ⟨p, data, bytes.length + s.offset - k, s.consumed + k⟩ := by
    dsimp only at h
    split_ifs at h <;> cases h <;> rfl
  obtain ⟨⟨q, e⟩, hrun, hexec⟩ := Option.bind_eq_some_iff.mp hexec
  cases hexec
  obtain ⟨hbody, hle⟩ := execute_spec hrun
  subst hs'
  have hsplit := slice_add (store s.data s.offset bytes) k (bytes.length + s.offset - k)
  have hend : k + (bytes.length + s.offset - k) = s.offset + bytes.length := by omega
  rw [hend, slice_store] at hsplit
  refine ⟨slice (store s.data s.offset bytes) 0 k, by simp [slice], ?_, hbody, by simp; omega⟩
  rw [hsplit]
  congr 1
  apply List.map_congr_left
  intro i hi
  simp [List.mem_range.mp hi]

theorem Buffered.recvStep {bytes : List UInt8} (h : Buffered w₀ s w)
    (hread : ∀ xs, w'.Begins xs → w.Begins (bytes ++ xs))
    (hlen : bytes.length ≤ Session.buffSize - s.offset)
    (hstep : s.recvStep A bytes = some (status, s')) : Buffered w₀ s' w' := by
  obtain ⟨⟨head, hhead, hbegins⟩, hbody, hle⟩ := h
  obtain ⟨more, hconsumed, hbuffer, hbody', hle'⟩ := recvStep_cases hstep
  refine ⟨⟨head ++ more, ?_, ?_⟩, hbody.trans hbody', by omega⟩
  · rw [List.length_append, hhead, hconsumed]
  · intro xs hxs
    have := hbegins _ (hread xs hxs)
    rwa [← List.append_assoc (slice _ _ _), hbuffer, List.append_assoc, ← List.append_assoc] at this

theorem recvLoop_keeps {P : Session σ → Wire UInt8 → Prop} {fuel : ℕ}
    (hround : ∀ {s t w v a status}, P s w → w.read (Session.buffSize - s.offset) = (a, v) →
      s.recvStep A a.list = some (status, t) → P t v)
    (h : P s w) (hloop : s.recvLoop A fuel w = some (status, s', w')) :
    status = .null ∨ P s' w' := by
  induction fuel generalizing s w with
  | zero => cases hloop
  | succ fuel ih =>
    obtain ⟨a, v, hread⟩ : ∃ a v, w.read (Session.buffSize - s.offset) = (a, v) := ⟨_, _, rfl⟩
    simp only [Session.recvLoop, hread] at hloop
    split_ifs at hloop with hnil
    · cases hloop
      exact .inl rfl
    · obtain ⟨⟨st, t⟩, hstep, hloop⟩ := Option.bind_eq_some_iff.mp hloop
      have hnext := hround h hread hstep
      split_ifs at hloop
      · exact ih hnext hloop
      · cases hloop
        exact .inr hnext

theorem Buffered.recvLoop {fuel : ℕ} (h : Buffered w₀ s w)
    (hloop : s.recvLoop A fuel w = some (status, s', w')) : status = .null ∨ Buffered w₀ s' w' := by
  refine recvLoop_keeps (fun h hread hstep => ?_) h hloop
  exact h.recvStep (fun _ => .of_read hread) (Wire.read_length_le hread) hstep

theorem recvLoop_mono {n fuel : ℕ} {r : Status × Session σ × Wire UInt8}
    (h : s.recvLoop A n w = some r) (hle : n ≤ fuel) : s.recvLoop A fuel w = some r := by
  induction n generalizing s w fuel with
  | zero => cases h
  | succ n ih =>
    obtain ⟨fuel, rfl⟩ := Nat.exists_eq_add_of_lt hle
    rw [Session.recvLoop] at h ⊢
    dsimp only at h ⊢
    split_ifs at h ⊢
    · exact h
    · obtain ⟨⟨st, t⟩, hstep, h⟩ := Option.bind_eq_some_iff.mp h
      rw [hstep]
      dsimp only [Option.bind_eq_bind, Option.bind_some] at h ⊢
      split_ifs at h ⊢
      · exact ih h (Nat.le_add_right n fuel)
      · exact h

end Head

section Body
variable {t t' : Transfer} {buffer fuel offset left : ℕ}

theorem readLoop_flags (h : readLoop buffer fuel offset left t = some t')
    (ht : t.outside = true ∨ t.wrapped = true) : t'.outside = true ∨ t'.wrapped = true := by
  induction fuel generalizing offset left t with
  | zero => cases h
  | succ fuel ih =>
    rw [readLoop] at h
    split_ifs at h
    · apply ih h
      rcases ht with ht | ht
      · exact .inl (by simp [ht])
      · exact .inr (by simp [ht])
    · cases h
      exact ht

/-- The first byte that arrives is written behind the string, and a failure is taken for a
length. -/
theorem readLoop_spoils (h : readLoop t.size fuel 0 left t = some t') (hpos : 0 < left)
    (hleft : left < 2 ^ 63) (hsize : t.size < 2 ^ 63) : t'.outside = true ∨ t'.wrapped = true := by
  induction fuel generalizing t with
  | zero => cases h
  | succ fuel ih =>
    rw [readLoop, if_pos hpos] at h
    obtain ⟨a, v, hread⟩ : ∃ a v, t.wire.read left = (a, v) := ⟨_, _, rfl⟩
    simp only [Transfer.readOnce, hread] at h
    cases a with
    | fail =>
      apply readLoop_flags h
      right
      rw [Bool.or_eq_true]
      exact .inr (decide_eq_true (by rw [readSize]; omega))
    | items xs =>
      by_cases hxs : xs = []
      · subst hxs
        have hmod : (left + 2 ^ 64) % 2 ^ 64 = left := by omega
        simp only [readSize, List.length_nil, Nat.add_zero, Nat.zero_mod, Nat.sub_zero, hmod] at h
        exact @ih ⟨v, _, t.size, _, _⟩ h hsize
      · apply readLoop_flags h
        left
        have := List.length_pos_iff.mpr hxs
        rw [Bool.or_eq_true]
        exact .inr (decide_eq_true ⟨hxs, by rw [Arrival.list]; omega⟩)

theorem readLoop_size (h : readLoop buffer fuel offset left t = some t') : t'.size = t.size := by
  induction fuel generalizing offset left t with
  | zero => cases h
  | succ fuel ih =>
    rw [readLoop] at h
    split_ifs at h
    · exact ih (t := (t.readOnce buffer offset left).1) h
    · cases h
      rfl

theorem readLoop_of_readFixSize {length : ℕ} {ret : ℤ}
    (h : readFixSize fuel buffer length t = some (ret, t')) :
    readLoop buffer fuel 0 length t = some t' ∧ ret = (length : ℤ).bmod (2 ^ 32) := by
  obtain ⟨t'', hloop, hret⟩ := Option.bind_eq_some_iff.mp h
  obtain ⟨hret, ht⟩ := Prod.mk.inj (Option.some.inj hret)
  exact ⟨ht ▸ hloop, hret.symm⟩

variable [LexicalCast] {σ : Type} {s : Session σ} {spare : Memory} {w : Wire UInt8} {r : Received}

theorem recvBody_zero (h : s.parser.data.getContentLength = 0) :
    s.recvBody fuel spare w = some ⟨some s.parser.data, false, false, w⟩ := by
  simp [Session.recvBody, h]

theorem recvBody_cases (h : s.recvBody fuel spare w = some r)
    (hpos : 0 < s.parser.data.getContentLength) :
    s.parser.data.getContentLength < 2 ^ 63 ∧
    ∃ t' left, left = (s.parser.data.getContentLength + 2 ^ 64 - s.offset) % 2 ^ 64 ∧
      (∀ q, r.request = some q → q = { s.parser.data with body := slice t'.mem 0 t'.size }) ∧
      r.outside = t'.outside ∧ r.wrapped = t'.wrapped ∧ r.rest = t'.wire ∧
      (left = 0 ∧ t' = s.transfer spare w ∨
        readLoop (s.transfer spare w).size fuel 0 left (s.transfer spare w) = some t' ∧
          (r.request ≠ none → 0 < (left : ℤ).bmod (2 ^ 32))) := by
  rw [Session.recvBody, if_pos hpos] at h
  split_ifs at h with hlt
  dsimp only at h
  split_ifs at h with hleft
  · obtain ⟨⟨ret, t'⟩, hfix, h⟩ := Option.bind_eq_some_iff.mp h
    obtain ⟨hloop, hret⟩ := readLoop_of_readFixSize hfix
    refine ⟨hlt, t', _, rfl, ?_⟩
    dsimp only at h
    split_ifs at h with hneg
    · cases h
      exact ⟨nofun, rfl, rfl, rfl, .inr ⟨hloop, fun h => absurd rfl h⟩⟩
    · cases h
      exact ⟨fun q hq => (by cases hq; rfl), rfl, rfl, rfl,
        .inr ⟨hloop, fun _ => hret ▸ not_le.mp hneg⟩⟩
  · cases h
    exact ⟨hlt, _, _, rfl, fun q hq => (by cases hq; rfl), rfl, rfl, rfl, .inl ⟨by omega, rfl⟩⟩

theorem recvBody_request {q : HttpRequest} (h : s.recvBody fuel spare w = some r)
    (hq : r.request = some q) : ∃ body, q = { s.parser.data with body := body } := by
  rcases Nat.eq_zero_or_pos s.parser.data.getContentLength with hzero | hpos
  · rw [recvBody_zero hzero] at h
    cases h
    cases hq
    exact ⟨_, rfl⟩
  · obtain ⟨-, t', left, -, hrequest, -⟩ := recvBody_cases h hpos
    exact ⟨_, hrequest q hq⟩

theorem recvBody_buffered (h : s.offset = s.parser.data.getContentLength) (hpos : 0 < s.offset)
    (hlt : s.offset < 2 ^ 63) :
    s.recvBody fuel spare w =
      some ⟨some { s.parser.data with body := slice s.data 0 s.offset }, false, false, w⟩ := by
  have hstore := slice_store spare 0 (slice s.data 0 s.offset)
  rw [length_slice, Nat.zero_add] at hstore
  simp only [Session.recvBody, Session.transfer, ← h, if_pos hpos, if_pos hlt, ge_iff_le, le_refl,
    if_true, hstore, Nat.add_sub_cancel_left, Nat.mod_self, gt_iff_lt, lt_irrefl, if_false,
    decide_false]
  rfl

theorem recvBody_spoils (h : s.recvBody fuel spare w = some r)
    (hpos : 0 < s.parser.data.getContentLength) (hne : s.offset ≠ s.parser.data.getContentLength)
    (hle : s.offset ≤ Session.buffSize) : r.outside = true ∨ r.wrapped = true := by
  obtain ⟨hlt, t', left, hleft, -, houtside, hwrapped, -, hloop⟩ := recvBody_cases h hpos
  rw [Session.buffSize] at hle
  obtain ⟨hloop, -⟩ := hloop.resolve_left fun h => by omega
  rw [houtside, hwrapped]
  rcases Nat.lt_or_gt_of_ne hne with hoffset | hoffset
  · apply readLoop_spoils hloop
    · omega
    · omega
    · simp only [Session.transfer]
      split_ifs <;> omega
  · apply readLoop_flags hloop
    exact .inr (decide_eq_true hoffset)

theorem recvBody_length {q : HttpRequest} (h : s.recvBody fuel spare w = some r)
    (hq : r.request = some q) (hbody : s.parser.data.body = []) :
    q.body.length = min s.parser.data.getContentLength s.offset := by
  rcases Nat.eq_zero_or_pos s.parser.data.getContentLength with hzero | hpos
  · rw [recvBody_zero hzero] at h
    cases h
    cases hq
    rw [hbody, hzero, Nat.zero_min]
    rfl
  · obtain ⟨-, t', left, -, hslice, -, -, -, hloop⟩ := recvBody_cases h hpos
    have hsize : t'.size = (s.transfer spare w).size := by
      rcases hloop with ⟨-, rfl⟩ | ⟨hloop, -⟩
      · rfl
      · exact readLoop_size hloop
    rw [hslice q hq, length_slice, hsize, Session.transfer]
    dsimp only
    split_ifs <;> omega

end Body

section Receive
variable [LexicalCast] {σ : Type} {A : Automaton σ} {s s' : Session σ} {w w' : Wire UInt8}
  {spare : Memory}

theorem recvRequest_eq {n fuel : ℕ} (hloop : s.recvLoop A n w = some (.finished, s', w'))
    (hle : n ≤ fuel) : s.recvRequest A fuel spare w = s'.recvBody fuel spare w' := by
  rw [Session.recvRequest, recvLoop_mono hloop hle]
  rfl

theorem recvRequest_some {n fuel : ℕ} {r : Received}
    (hloop : s.recvLoop A n w = some (.finished, s', w'))
    (h : s.recvRequest A fuel spare w = some r) : s'.recvBody fuel spare w' = some r := by
  obtain ⟨x, hx, h⟩ := Option.bind_eq_some_iff.mp h
  have heq := (recvLoop_mono hx (le_max_right n fuel)).symm.trans
    (recvLoop_mono hloop (le_max_left n fuel))
  cases heq
  exact h

/-- Once the head is parsed, the body is received as it should be exactly when there is none or
when it is what the buffer holds; the body of a request that is returned never has more. -/
theorem exact_iff_buffered (A : Automaton σ) (queryStart : ℕ) (data spare : Memory)
    {n : ℕ} (hhead : (Session.new A queryStart data).recvLoop A n w = some (.finished, s, w')) :
    (Exact A (.new A queryStart data) spare w s.consumed s.parser.data.getContentLength ↔
      s.parser.data.getContentLength = 0 ∨ s.offset = s.parser.data.getContentLength) ∧
    ∀ fuel r q, (Session.new A queryStart data).recvRequest A fuel spare w = some r →
      r.request = some q → q.body.length = min s.parser.data.getContentLength s.offset := by
  have hbuffered := ((Buffered.new queryStart data).recvLoop hhead).resolve_left nofun
  obtain ⟨⟨head, hlen, hbegins⟩, ⟨hbody, -⟩, hle⟩ := hbuffered
  constructor
  · constructor
    · rintro ⟨fuel, r, hr, houtside, hwrapped, -⟩
      by_contra hcon
      rw [not_or] at hcon
      have hspoils := recvBody_spoils (recvRequest_some hhead hr) (Nat.pos_of_ne_zero hcon.1)
        hcon.2 hle
      rw [houtside, hwrapped] at hspoils
      rcases hspoils with h | h <;> cases h
    · intro hcond
      rcases Nat.eq_zero_or_pos s.parser.data.getContentLength with hzero | hpos
      · refine ⟨n, _, (recvRequest_eq hhead le_rfl).trans (recvBody_zero hzero), rfl, rfl, ?_⟩
        refine ⟨head, hlen, ?_, by rw [hbody, hzero]; rfl⟩
        rw [hbody]
        exact (hbegins [] Wire.begins_nil).mono ⟨_, List.append_assoc _ _ _⟩
      · have hoffset := hcond.resolve_left hpos.ne'
        have hlt : s.offset < 2 ^ 63 := by rw [Session.buffSize] at hle; omega
        refine ⟨n, _, (recvRequest_eq hhead le_rfl).trans
          (recvBody_buffered hoffset (hoffset ▸ hpos) hlt), rfl, rfl, ?_⟩
        refine ⟨head, hlen, ?_, by rw [length_slice, hoffset]⟩
        simpa using hbegins [] Wire.begins_nil
  · intro fuel r q hr hq
    exact recvBody_length (recvRequest_some hhead hr) hq hbody

end Receive

def helloHead : List UInt8 := ascii "POST / HTTP/1.1\r\ncontent-length: 5\r\n\r\n"

theorem exact_iff_buffered_hello :
    ∃ s w', (Session.new (requestMachine false) 0 fun _ => 0).recvLoop (requestMachine false) 1
        (Wire.push (helloHead ++ ascii "hello") fun _ => .items []) = some (.finished, s, w') ∧
      Exact (requestMachine false) (.new (requestMachine false) 0 fun _ => 0) (fun _ => 0)
        (Wire.push (helloHead ++ ascii "hello") fun _ => .items []) 38 5 := by
  have hloop : ((Session.new (requestMachine false) 0 fun _ => 0).recvLoop (requestMachine false) 1
      (Wire.push (helloHead ++ ascii "hello") fun _ => .items [])).map (fun r =>
        (r.1, r.2.1.consumed, r.2.1.offset, r.2.1.parser.data.getContentLength)) =
      some (.finished, 38, 5, 5) := by decide +kernel
  obtain ⟨⟨status, s, w'⟩, hr, heq⟩ := Option.map_eq_some_iff.mp hloop
  simp only [Prod.mk.injEq] at heq
  obtain ⟨rfl, hconsumed, hoffset, hlength⟩ := heq
  have hexact := (exact_iff_buffered (requestMachine false) 0 (fun _ => 0) (fun _ => 0) hr).1.mpr
    (.inr (hoffset.trans hlength.symm))
  rw [hconsumed, hlength] at hexact
  exact ⟨s, w', hr, hexact⟩

/-- The head and the body arrive in two reads: the body of the request is empty. -/
theorem later_body_lost :
    ((Session.new (requestMachine false) 0 fun _ => 0).recvLoop (requestMachine false) 1
        (Wire.push helloHead (Wire.push (ascii "hello") fun _ => .items []))).map
        (fun r => (r.1, r.2.1.consumed, r.2.1.offset, r.2.1.parser.data.getContentLength)) =
      some (.finished, 38, 0, 5) ∧
    ((Session.new (requestMachine false) 0 fun _ => 0).recvRequest (requestMachine false) 3
        (fun _ => 0) (Wire.push helloHead (Wire.push (ascii "hello") fun _ => .items []))).map
        (fun r => (r.request.map (·.body), r.outside, r.wrapped)) =
      some (some [], true, false) := by
  decide +kernel

end ApexStorm.Http
