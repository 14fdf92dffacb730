import ApexStorm.Http.Body
import ApexStorm.Http.Split
import ApexStorm.Lib.Run
import ApexStorm.Stream.FixSize

/-!
# Requests that follow each other on one connection

The buffer of `recvRequest` belongs to one call. Bytes of the next request that the
read of the head brings along stay in it when the call returns. So a call takes from
the stream what belongs to its request exactly when the read that completes the head
does not reach beyond the request.
-/

namespace ApexStorm.Http
open Lib

section Loop
variable {buffer fuel offset left : ℕ} {t t' : Transfer}

def Transfer.read (buffer offset left : ℕ) (t : Transfer) : Option (ℤ × Transfer) :=
  some (Stream.result (t.wire.read left).1, (t.readOnce buffer offset left).1)

theorem toSize_result {a : Arrival UInt8} (h : a.list.length < 2 ^ 64) :
    Stream.toSize (Stream.result a) = readSize a := by
  cases a with
  | items xs => exact Stream.toSize_natCast h
  | fail => exact Stream.toSize_neg_one

/-- `readFixSize` of `recvRequest` is the loop of every fixed-size transfer. -/
theorem readLoop_eq_fixLoop (hleft : left < 2 ^ 64) :
    readLoop buffer fuel offset left t =
      Stream.fixLoop (Transfer.read buffer) fuel offset left t := by
  induction fuel generalizing offset left t with
  | zero => rfl
  | succ fuel ih =>
    rw [readLoop, Stream.fixLoop]
    by_cases hpos : left > 0
    · have hle : (t.wire.read left).1.list.length ≤ left := Wire.read_length_le rfl
      rw [if_pos hpos, if_pos hpos]
      have hnext : (t.readOnce buffer offset left).2.2 < 2 ^ 64 := Nat.mod_lt _ (by norm_num)
      change readLoop buffer fuel (t.readOnce buffer offset left).2.1
        (t.readOnce buffer offset left).2.2 (t.readOnce buffer offset left).1 = _
      rw [ih hnext]
      simp only [Transfer.read, Option.bind_eq_bind, Option.bind_some,
        toSize_result (lt_of_le_of_lt hle hleft)]
      rfl
    · rw [if_neg hpos, if_neg hpos]

theorem readLoop_delivers {bs : List UInt8} (hw : t.wire.Delivers bs) (hleft : left < 2 ^ 64)
    (hle : left ≤ bs.length) :
    ∃ fuel t', readLoop buffer fuel 0 left t = some t' ∧ t'.wire.Delivers (bs.drop left) := by
  have hreader : Stream.Reader (Transfer.read buffer) left
      fun done w t => t.wire = w ∧ w.Delivers (bs.drop done.length) := by
    rintro done w w' a t k ⟨rfl, hw⟩ hk hlen hread
    refine ⟨(t.readOnce buffer done.length k).1, ?_, ?_, ?_⟩
    · rw [Transfer.read, hread]
    · simp only [Transfer.readOnce, hread]
    · rw [List.length_append, ← List.drop_drop]
      exact (hw.of_read hread).1
  have hat : t.wire = t.wire ∧ t.wire.Delivers (bs.drop ([] : List UInt8).length) := ⟨rfl, hw⟩
  obtain ⟨fuel, t', xs, w', hloop, hxs, -, rfl, hend⟩ := hreader.delivers hat
    (Nat.zero_add left).le hleft (hw.not_breaksBefore hle)
  refine ⟨fuel, t', (readLoop_eq_fixLoop hleft).trans hloop, ?_⟩
  rwa [List.nil_append, hxs] at hend

theorem bmod_wrapped {d : ℕ} (hpos : 0 < d) (hle : d ≤ Session.buffSize) :
    ((2 ^ 64 - d : ℕ) : ℤ).bmod (2 ^ 32) < 0 := by
  rw [Session.buffSize] at hle
  have hsplit : ((2 ^ 64 - d : ℕ) : ℤ) = -(d : ℤ) + (2 ^ 32) * (2 ^ 32 : ℕ) := by omega
  have hbmod : (-(d : ℤ)).bmod (2 ^ 32) = -(d : ℤ) := by
    apply Int.bmod_eq_of_le <;> omega
  rw [hsplit, Int.add_mul_bmod_self_right, hbmod]
  omega

theorem readLoop_mono {n : ℕ} (h : readLoop buffer n offset left t = some t') (hle : n ≤ fuel) :
    readLoop buffer fuel offset left t = some t' := by
  induction n generalizing fuel offset left t with
  | zero => cases h
  | succ n ih =>
    obtain ⟨fuel, rfl⟩ := Nat.exists_eq_add_of_lt hle
    rw [readLoop] at h ⊢
    split_ifs at h ⊢
    · exact ih h (Nat.le_add_right n fuel)
    · exact h

theorem readFixSize_mono {n : ℕ} {x : ℤ × Transfer}
    (h : readFixSize n buffer left t = some x) (hle : n ≤ fuel) :
    readFixSize fuel buffer left t = some x := by
  obtain ⟨t', hloop, hx⟩ := Option.bind_eq_some_iff.mp h
  exact Option.bind_eq_some_iff.mpr ⟨t', readLoop_mono hloop hle, hx⟩

end Loop

section Head
variable {σ : Type} {A : Automaton σ} {s s' : Session σ} {p p' : HttpRequestParer σ}
  {w w' : Wire UInt8} {bs head more : List UInt8} {status : Status}

/-- What the session has not taken from the stream `bs`, to its parser or its buffer. -/
def Session.Behind (s : Session σ) (bs : List UInt8) (w : Wire UInt8) : Prop :=
  w.Delivers (bs.drop (s.consumed + s.offset)) ∧ s.consumed + s.offset ≤ bs.length

theorem Session.Behind.recvStep {a : Arrival UInt8} (h : s.Behind bs w)
    (hread : w.read (Session.buffSize - s.offset) = (a, w'))
    (hstep : s.recvStep A a.list = some (status, s')) : s'.Behind bs w' := by
  obtain ⟨head, hconsumed, hbuffer, -, -⟩ := recvStep_cases hstep
  obtain ⟨hw', hbegins⟩ := h.1.of_read hread
  have hlen := congrArg List.length hbuffer
  simp only [List.length_append, length_slice] at hlen
  have htaken : s'.consumed + s'.offset = s.consumed + s.offset + a.list.length := by omega
  refine ⟨by rwa [htaken, ← List.drop_drop], ?_⟩
  have hle := h.2
  have := hbegins.length_le
  rw [List.length_drop] at this
  omega

theorem Session.Behind.recvLoop {fuel : ℕ} (h : s.Behind bs w)
    (hloop : s.recvLoop A fuel w = some (status, s', w')) : status = .null ∨ s'.Behind bs w' :=
  recvLoop_keeps Session.Behind.recvStep h hloop

def HttpRequestParer.Awaits (A : Automaton σ) (p : HttpRequestParer σ) (head : List UInt8) : Prop :=
  ∃ x, p.cs = some x ∧ A.final x = false ∧ A.acceptsFrom x head = true

theorem run_awaits {m : Memory} {n fpc e : ℕ} (h : p.Awaits A head)
    (hm : ∀ i (hi : i < head.length), i < n → m (fpc + i) = head[i])
    (hrun : p.run A m n fpc = some (p', e)) :
    (n < head.length ∧ e = fpc + n ∧ p'.Awaits A (head.drop n)) ∨
      (e = fpc + head.length ∧ p'.isFinished A = 1) := by
  induction n generalizing fpc head p with
  | zero =>
    cases hrun
    obtain ⟨x, hx, hfinal, hacc⟩ := h
    cases head with
    | nil => cases hacc
    | cons c head => exact .inl ⟨Nat.succ_pos _, rfl, x, hx, hfinal, hacc⟩
  | succ n ih =>
    obtain ⟨x, hx, hfinal, hacc⟩ := h
    cases head with
    | nil => cases hacc
    | cons c head =>
      have hc : m fpc = c := hm 0 (Nat.succ_pos _) (Nat.succ_pos _)
      rw [HttpRequestParer.run, hx, Option.bind_some, hc] at hrun
      rw [Automaton.acceptsFrom] at hacc
      cases hnext : A.next x c with
      | none =>
        rw [hnext] at hacc
        cases hacc
      | some r =>
        obtain ⟨acts, y⟩ := r
        simp only [hnext] at hrun hacc
        obtain ⟨q, -, hrun⟩ := Option.bind_eq_some_iff.mp hrun
        have hdone := A.done_iff hnext
        split_ifs at hrun hacc with hmem
        · cases hrun
          rw [List.isEmpty_iff.mp hacc]
          refine .inr ⟨rfl, ?_⟩
          simp [HttpRequestParer.isFinished, hdone.mp hmem]
        · have hfinal' : A.final y = false := by
            rw [Bool.eq_false_iff, ne_eq, ← hdone]
            exact hmem
          have hnextm : ∀ i (hi : i < head.length), i < n → m (fpc + 1 + i) = head[i] := by
            intro i hi hlt
            have := hm (i + 1) (Nat.succ_lt_succ hi) (Nat.succ_lt_succ hlt)
            rwa [← Nat.add_assoc, Nat.add_right_comm] at this
          rcases ih ⟨y, rfl, hfinal', hacc⟩ hnextm hrun with ⟨hlt, he, hawaits⟩ | ⟨he, hfin⟩
          · exact .inl ⟨Nat.succ_lt_succ hlt, by omega, hawaits⟩
          · exact .inr ⟨by rw [he, List.length_cons]; omega, hfin⟩

theorem recvStep_awaits {bytes : List UInt8} (h : s.parser.Awaits A head) (hoffset : s.offset = 0)
    (hne : bytes ≠ []) (hbegins : bytes <+: head ++ more)
    (hstep : s.recvStep A bytes = some (status, s')) :
    (status ≠ .finished ∧ s'.parser.Awaits A (head.drop bytes.length) ∧ s'.offset = 0 ∧
        s'.consumed = s.consumed + bytes.length ∧ bytes.length < head.length) ∨
      (status ≠ .reading ∧ s'.consumed = s.consumed + head.length) := by
  obtain ⟨⟨q, data, k⟩, hexec, hstep⟩ := Option.bind_eq_some_iff.mp hstep
  obtain ⟨⟨q', e⟩, hrun, hexec⟩ := Option.bind_eq_some_iff.mp hexec
  cases hexec
  rw [hoffset, Nat.add_zero] at hrun
  rw [HttpRequestParer.httpParserExecute, if_neg (by simpa using hne)] at hrun
  have hm : ∀ i (hi : i < head.length), i < bytes.length →
      store s.data 0 bytes (0 + i) = head[i] := by
    intro i hi hlt
    rw [Nat.zero_add, store_getElem _ hlt, hbegins.getElem hlt, List.getElem_append_left hi]
  have hawaits : HttpRequestParer.Awaits A
      { s.parser with mark := 0, fieldLen := 0, fieldStart := 0 } head := h
  rcases run_awaits hawaits hm hrun with ⟨hlt, rfl, hnext⟩ | ⟨rfl, hfin⟩
  · left
    have hfin : q.isFinished A = 0 := by
      obtain ⟨x, hx, hfinal, -⟩ := hnext
      simp [HttpRequestParer.isFinished, hx, hfinal]
    simp only [hoffset, hfin, Nat.zero_add, Nat.add_zero, Nat.sub_self, ne_eq, not_true_eq_false,
      if_false] at hstep
    split_ifs at hstep <;> cases hstep <;>
      exact ⟨by decide, hnext, rfl, rfl, hlt⟩
  · right
    simp only [hfin, Nat.zero_add, ne_eq, one_ne_zero, not_false_eq_true, if_true] at hstep
    split_ifs at hstep <;> cases hstep <;> exact ⟨by decide, rfl⟩

theorem consumed_of_recvLoop {fuel : ℕ} (h : s.parser.Awaits A head) (hoffset : s.offset = 0)
    (hw : w.Delivers (head ++ more))
    (hloop : s.recvLoop A fuel w = some (.finished, s', w')) :
    s'.consumed = s.consumed + head.length := by
  induction fuel generalizing s w head with
  | zero => cases hloop
  | succ fuel ih =>
    obtain ⟨a, v, hread⟩ : ∃ a v, w.read (Session.buffSize - s.offset) = (a, v) := ⟨_, _, rfl⟩
    simp only [Session.recvLoop, hread] at hloop
    have hnil : a.list ≠ [] := by
      intro hnil
      rw [if_pos hnil] at hloop
      cases hloop
    rw [if_neg hnil] at hloop
    obtain ⟨⟨status, t⟩, hstep, hloop⟩ := Option.bind_eq_some_iff.mp hloop
    obtain ⟨hv, hbegins⟩ := hw.of_read hread
    rcases recvStep_awaits h hoffset hnil hbegins hstep with
      ⟨hstatus, hnext, hzero, hconsumed, hlt⟩ | ⟨hstatus, hconsumed⟩
    · split_ifs at hloop with hreading
      · rw [List.drop_append_of_le_length hlt.le] at hv
        rw [ih hnext hzero hv hloop, hconsumed, List.length_drop]
        omega
      · cases hloop
        exact absurd rfl hstatus
    · rw [if_neg hstatus] at hloop
      cases hloop
      exact hconsumed

end Head

section Request
variable [LexicalCast] {σ : Type} {A : Automaton σ} {s : Session σ} {w w' : Wire UInt8}
  {bs : List UInt8} {spare : Memory} {n fuel length : ℕ} {r : Received}

/-- The length of the body has been read as it is, and what the stream goes on with is the part
of the body that is `missing`, for which `readFixSize` returns a positive `int`, and then `more`. -/
def Session.Contained (s : Session σ) (w : Wire UInt8) (body more : List UInt8) : Prop :=
  s.parser.data.getContentLength = body.length ∧ body.length < 2 ^ 63 ∧
    ∃ missing, missing <:+ body ∧ w.Delivers (missing ++ more) ∧
      (missing = [] ∨ 0 < (missing.length : ℤ).bmod (2 ^ 32))

/-- The same as the session sees it, whose buffer holds `offset` bytes behind the head. -/
def Session.Within (s : Session σ) (length : ℕ) : Prop :=
  s.parser.data.getContentLength = length ∧ s.offset ≤ length ∧ length < 2 ^ 63 ∧
    (s.offset = length ∨ 0 < ((length - s.offset : ℕ) : ℤ).bmod (2 ^ 32))

theorem contained_iff_within {head body more : List UInt8}
    (h : s.Behind (head ++ (body ++ more)) w) (hconsumed : s.consumed = head.length) :
    s.Contained w body more ↔ s.Within body.length := by
  obtain ⟨hw, hbehind⟩ := h
  rw [hconsumed, ← List.drop_drop, List.drop_left] at hw
  simp only [hconsumed, List.length_append] at hbehind
  constructor
  · rintro ⟨hlength, hlt, missing, hsuffix, hrest, hcases⟩
    have hlen := congrArg List.length (hrest.unique hw)
    have hle := hsuffix.length_le
    simp only [List.length_append, List.length_drop] at hlen
    have hmissing : missing.length = body.length - s.offset := by omega
    refine ⟨hlength, by omega, hlt, ?_⟩
    rcases hcases with rfl | hint
    · exact .inl (by simp only [List.length_nil] at hmissing hlen; omega)
    · exact .inr (hmissing ▸ hint)
  · rintro ⟨hlength, hle, hlt, hcases⟩
    rw [List.drop_append_of_le_length hle] at hw
    refine ⟨hlength, hlt, body.drop s.offset, List.drop_suffix .., hw, ?_⟩
    rw [List.length_drop, List.drop_eq_nil_iff]
    exact hcases.imp_left (·.ge)

theorem recvBody_mono (h : s.recvBody n spare w = some r) (hle : n ≤ fuel) :
    s.recvBody fuel spare w = some r := by
  rw [Session.recvBody] at h ⊢
  dsimp only at h ⊢
  split_ifs at h ⊢
  · obtain ⟨x, hx, h⟩ := Option.bind_eq_some_iff.mp h
    exact Option.bind_eq_some_iff.mpr ⟨x, readFixSize_mono hx hle, h⟩
  · exact h
  · exact h

theorem recvBody_reads {left : ℕ} {ret : ℤ} {t' : Transfer}
    (hpos : 0 < s.parser.data.getContentLength) (hlt : s.parser.data.getContentLength < 2 ^ 63)
    (hleft : (s.parser.data.getContentLength + 2 ^ 64 - s.offset) % 2 ^ 64 = left)
    (hsome : 0 < left)
    (hfix : readFixSize fuel (s.transfer spare w).size left (s.transfer spare w) = some (ret, t'))
    (hret : 0 < ret) :
    s.recvBody fuel spare w = some ⟨some { s.parser.data with body := slice t'.mem 0 t'.size },
      t'.outside, t'.wrapped, t'.wire⟩ := by
  simp only [Session.recvBody, if_pos hpos, if_pos hlt, hleft, if_pos hsome, hfix,
    Option.bind_eq_bind, Option.bind_some, Option.pure_def, if_neg (not_le.mpr hret)]

theorem recvBody_of_within (h : s.Behind bs w) (hc : s.Within length)
    (hle : s.consumed + length ≤ bs.length) :
    ∃ fuel r q, s.recvBody fuel spare w = some r ∧ r.request = some q ∧
      q.getContentLength = length ∧ r.rest.Delivers (bs.drop (s.consumed + length)) := by
  obtain ⟨hw, hbehind⟩ := h
  obtain ⟨rfl, hfits, hlt, hcases⟩ := hc
  rcases Nat.eq_zero_or_pos s.parser.data.getContentLength with hzero | hpos
  · refine ⟨0, _, _, recvBody_zero hzero, rfl, rfl, ?_⟩
    rwa [hzero, ← show s.offset = 0 by omega]
  · rcases hcases with heq | hint
    · exact ⟨0, _, _, recvBody_buffered heq (heq ▸ hpos) (heq ▸ hlt), rfl, rfl, heq ▸ hw⟩
    · obtain ⟨left, hleft⟩ : ∃ left, left = s.parser.data.getContentLength - s.offset := ⟨_, rfl⟩
      rw [← hleft] at hint
      have hmod : (s.parser.data.getContentLength + 2 ^ 64 - s.offset) % 2 ^ 64 = left := by omega
      have hsome : left > 0 := by
        rcases Nat.eq_zero_or_pos left with rfl | h
        · simp at hint
        · exact h
      obtain ⟨fuel, t', hloop, hend⟩ := @readLoop_delivers (s.transfer spare w).size left
        (s.transfer spare w) _ hw (by omega) (by rw [List.length_drop]; omega)
      have hfix : readFixSize fuel (s.transfer spare w).size left (s.transfer spare w) =
          some ((left : ℤ).bmod (2 ^ 32), t') := by
        rw [readFixSize, hloop, Option.bind_eq_bind, Option.bind_some, Option.pure_def]
      refine ⟨fuel, _, _, recvBody_reads hpos hlt hmod hsome hfix hint, rfl, rfl, ?_⟩
      rw [List.drop_drop] at hend
      rwa [show s.consumed + s.parser.data.getContentLength = s.consumed + s.offset + left by omega]

theorem within_of_recvBody {q : HttpRequest} (h : s.Behind bs w)
    (hbody : s.recvBody fuel spare w = some r) (hq : r.request = some q)
    (hlength : q.getContentLength = length)
    (hrest : r.rest.Delivers (bs.drop (s.consumed + length)))
    (hle : s.consumed + length ≤ bs.length) (hoffset : s.offset ≤ Session.buffSize) :
    s.Within length := by
  obtain ⟨hw, hbehind⟩ := h
  rw [Session.buffSize] at hoffset
  obtain ⟨body, rfl⟩ := recvBody_request hbody hq
  obtain rfl : s.parser.data.getContentLength = length := hlength
  rcases Nat.eq_zero_or_pos s.parser.data.getContentLength with hzero | hpos
  · rw [recvBody_zero hzero] at hbody
    cases hbody
    have hlen := congrArg List.length (hw.unique hrest)
    simp only [List.length_drop] at hlen
    have hnone : s.offset = s.parser.data.getContentLength := by omega
    exact ⟨rfl, hnone.le, by omega, .inl hnone⟩
  · obtain ⟨hlt, t', left, hleft, -, -, -, -, hcases⟩ := recvBody_cases hbody hpos
    rcases hcases with ⟨hnone, -⟩ | ⟨-, hret⟩
    · have heq : s.offset = s.parser.data.getContentLength := by omega
      exact ⟨rfl, heq.le, hlt, .inl heq⟩
    · have hint := hret (by rw [hq]; simp)
      rcases Nat.lt_or_ge s.parser.data.getContentLength s.offset with hover | hfits
      · have hwrap : left = 2 ^ 64 - (s.offset - s.parser.data.getContentLength) := by omega
        have hneg := bmod_wrapped (show 0 < s.offset - s.parser.data.getContentLength by omega)
          (by rw [Session.buffSize]; omega)
        rw [← hwrap] at hneg
        omega
      · have hrest' : left = s.parser.data.getContentLength - s.offset := by omega
        exact ⟨rfl, hfits, hlt, .inr (hrest' ▸ hint)⟩

end Request

section Connection
variable [LexicalCast] {σ : Type} {A : Automaton σ} {s : Session σ} {w w' : Wire UInt8}
  {head body more : List UInt8} {spare : Memory}

structure Served where
  head : List UInt8
  body : List UInt8
  request : HttpRequest

def Served.bytes (e : Served) : List UInt8 := e.head ++ e.body

/-- What a successful call owes: it returns a request with the length of the body, and the stream
goes on behind the request. -/
def Accounts (A : Automaton σ) (s : Session σ) (spare : Memory) (w : Wire UInt8)
    (body more : List UInt8) : Prop :=
  ∃ fuel r q, s.recvRequest A fuel spare w = some r ∧ r.request = some q ∧
    q.getContentLength = body.length ∧ r.rest.Delivers more

/-- A successful call on a stream `x.2`; the head loop has ended with the request `Contained`. -/
def Serves (A : Automaton σ) (x : Wire UInt8 × List UInt8) (e : Served)
    (y : Wire UInt8 × List UInt8) : Prop :=
  A.Accepts e.head ∧ x.2 = e.bytes ++ y.2 ∧
  ∃ queryStart data spare n s w' fuel r,
    (Session.new A queryStart data).recvLoop A n x.1 = some (.finished, s, w') ∧
    s.Contained w' e.body y.2 ∧
    (Session.new A queryStart data).recvRequest A fuel spare x.1 = some r ∧
    r.request = some e.request ∧ y.1 = r.rest

omit [LexicalCast] in
theorem behind_of_head {n queryStart : ℕ} {data : Memory} (hhead : A.Accepts head)
    (hw : w.Delivers (head ++ more))
    (hloop : (Session.new A queryStart data).recvLoop A n w = some (.finished, s, w')) :
    s.consumed = head.length ∧ s.Behind (head ++ more) w' ∧ s.offset ≤ Session.buffSize := by
  have hnew : (Session.new A queryStart data).Behind (head ++ more) w := ⟨hw, Nat.zero_le _⟩
  have hawaits : (Session.new A queryStart data).parser.Awaits A head :=
    ⟨A.start, rfl, A.start_not_final, hhead⟩
  refine ⟨?_, (hnew.recvLoop hloop).resolve_left nofun, ?_⟩
  · exact (consumed_of_recvLoop hawaits rfl hw hloop).trans (Nat.zero_add _)
  · exact (((Buffered.new queryStart data).recvLoop hloop).resolve_left nofun).offset_le

theorem accounts_iff {n queryStart : ℕ} {data : Memory} (hhead : A.Accepts head)
    (hw : w.Delivers (head ++ body ++ more))
    (hloop : (Session.new A queryStart data).recvLoop A n w = some (.finished, s, w')) :
    Accounts A (Session.new A queryStart data) spare w body more ↔ s.Contained w' body more := by
  rw [List.append_assoc] at hw
  obtain ⟨hconsumed, hbehind, hoffset⟩ := behind_of_head hhead hw hloop
  have hdrop : (head ++ (body ++ more)).drop (s.consumed + body.length) = more := by
    rw [hconsumed, ← List.drop_drop, List.drop_left, List.drop_left]
  have hle : s.consumed + body.length ≤ (head ++ (body ++ more)).length := by
    simp only [List.length_append]
    omega
  rw [contained_iff_within hbehind hconsumed]
  constructor
  · rintro ⟨fuel, r, q, hr, hq, hlength, hrest⟩
    rw [← hdrop] at hrest
    exact within_of_recvBody hbehind (recvRequest_some hloop hr) hq hlength hrest hle hoffset
  · intro hc
    obtain ⟨fuel, r, q, hr, hq, hlength, hrest⟩ := recvBody_of_within hbehind hc hle
    refine ⟨max n fuel, r, q, ?_, hq, hlength, hdrop ▸ hrest⟩
    rw [recvRequest_eq hloop (le_max_left n fuel)]
    exact recvBody_mono hr (le_max_right n fuel)

theorem Serves.delivers {x y : Wire UInt8 × List UInt8} {e : Served} (h : Serves A x e y)
    (hx : x.1.Delivers x.2) :
    y.1.Delivers y.2 ∧ e.request.getContentLength = e.body.length := by
  obtain ⟨hhead, hbytes, queryStart, data, spare, n, s, w', fuel, r, hloop, hc, hr, hq, hrest⟩ := h
  rw [hbytes, Served.bytes] at hx
  obtain ⟨fuel', r', q', hr', hq', hlength, hdelivers⟩ := (accounts_iff hhead hx hloop).mpr hc
  have heq : r = r' := by
    have h₁ := recvBody_mono (recvRequest_some hloop hr) (le_max_left fuel fuel')
    have h₂ := recvBody_mono (recvRequest_some hloop hr') (le_max_right fuel fuel')
    exact Option.some.inj (h₁.symm.trans h₂)
  subst heq
  rw [hq] at hq'
  cases hq'
  exact ⟨hrest ▸ hdelivers, hlength⟩

/-- A call accounts for exactly the bytes of its request when the read that completes the head
does not reach behind the request. In every run of such calls the requests follow each other on the
stream, and no byte is lost or repeated. -/
theorem accounts_iff_contained (A : Automaton σ) :
    (∀ (queryStart n : ℕ) (data spare : Memory) (s : Session σ) (w w' : Wire UInt8)
      (head body more : List UInt8), A.Accepts head → w.Delivers (head ++ body ++ more) →
      (Session.new A queryStart data).recvLoop A n w = some (.finished, s, w') →
      (Accounts A (Session.new A queryStart data) spare w body more ↔
        s.Contained w' body more)) ∧
    ∀ (w w' : Wire UInt8) (bs bs' : List UInt8) (es : List Served),
      Run (Serves A) (w, bs) es (w', bs') → w.Delivers bs →
      w'.Delivers bs' ∧ bs = es.flatMap Served.bytes ++ bs' ∧
        ∀ e ∈ es, e.request.getContentLength = e.body.length := by
  constructor
  · intro queryStart n data spare s w w' head body more hhead hw hloop
    exact accounts_iff hhead hw hloop
  · intro w w' bs bs' es hrun hw
    refine hrun.history (P := fun es x => x.1.Delivers x.2 ∧ bs = es.flatMap Served.bytes ++ x.2 ∧
      ∀ e ∈ es, e.request.getContentLength = e.body.length) ?_ ⟨hw, rfl, nofun⟩
    intro es x e y hx hstep
    obtain ⟨hdelivers, hbytes, hlengths⟩ := hx
    obtain ⟨hnext, hlength⟩ := hstep.delivers hdelivers
    refine ⟨hnext, ?_, ?_⟩
    · rw [hbytes, hstep.2.1, List.flatMap_append, List.append_assoc]
      simp
    · simpa [or_imp, forall_and] using ⟨hlengths, hlength⟩

end Connection

def firstGet : List UInt8 := ascii "GET / HTTP/1.1\r\n\r\n"
def secondGet : List UInt8 := ascii "GET /b HTTP/1.1\r\n\r\n"

theorem accounts_iff_contained_two_reads :
    Accounts (requestMachine false) (.new (requestMachine false) 0 fun _ => 0) (fun _ => 0)
      (Wire.push firstGet (Wire.push secondGet fun _ => .items [])) [] secondGet ∧
    ∃ e w', Run (Serves (requestMachine false))
        (Wire.push firstGet (Wire.push secondGet fun _ => .items []), firstGet ++ secondGet)
        [e] (w', secondGet) ∧ w'.Delivers secondGet := by
  have hw : (Wire.push firstGet (Wire.push secondGet fun _ => .items [])).Delivers
      (firstGet ++ [] ++ secondGet) := by
    have := (Wire.Delivers.nil.push (show secondGet ≠ [] by decide)).push
      (show firstGet ≠ [] by decide)
    simpa using this
  have hloop : ((Session.new (requestMachine false) 0 fun _ => 0).recvLoop (requestMachine false) 1
      (Wire.push firstGet (Wire.push secondGet fun _ => .items []))).map (fun r =>
        (r.1, r.2.1.offset, r.2.1.parser.data.getContentLength)) =
      some (.finished, 0, 0) := by decide +kernel
  obtain ⟨⟨status, s, w'⟩, hr, heq⟩ := Option.map_eq_some_iff.mp hloop
  simp only [Prod.mk.injEq] at heq
  obtain ⟨rfl, hoffset, hlength⟩ := heq
  have hhead : (requestMachine false).Accepts firstGet := by decide +kernel
  have hc : s.Contained w' [] secondGet := by
    obtain ⟨hconsumed, hbehind, -⟩ := behind_of_head hhead hw hr
    exact (contained_iff_within (List.append_assoc .. ▸ hbehind) hconsumed).mpr
      ⟨hlength, hoffset.le, by decide, .inl hoffset⟩
  have hacc := ((accounts_iff_contained (requestMachine false)).1 0 1 (fun _ => 0) (fun _ => 0) s _
    w' firstGet [] secondGet hhead hw hr).mpr hc
  refine ⟨hacc, ?_⟩
  obtain ⟨fuel, r, q, hrecv, hq, -⟩ := hacc
  have hrun : Run (Serves (requestMachine false))
      (Wire.push firstGet (Wire.push secondGet fun _ => .items []), firstGet ++ secondGet)
      [⟨firstGet, [], q⟩] (r.rest, secondGet) := by
    refine .cons ⟨hhead, ?_, 0, _, _, 1, s, w', fuel, r, hr, hc, hrecv, hq, rfl⟩ (.nil _)
    rw [Served.bytes, List.append_nil]
  rw [List.append_nil] at hw
  exact ⟨_, _, hrun, ((accounts_iff_contained (requestMachine false)).2 _ _ _ _ _ hrun hw).1⟩

/-- Both requests arrive in one read: the second is lost. -/
theorem second_request_lost :
    (do let r ← (Session.new (requestMachine false) 0 fun _ => 0).recvRequest (requestMachine false)
          1 (fun _ => 0) (Wire.push (firstGet ++ secondGet) fun _ => .items [])
        let r' ← (Session.new (requestMachine false) 0 fun _ => 0).recvRequest
          (requestMachine false) 1 (fun _ => 0) r.rest
        return (r.request.map (·.path), r'.request)) = some (some (ascii "/"), none) ∧
    ¬ Accounts (requestMachine false) (.new (requestMachine false) 0 fun _ => 0) (fun _ => 0)
      (Wire.push (firstGet ++ secondGet) fun _ => .items []) [] secondGet := by
  refine ⟨by decide +kernel, ?_⟩
  have hw : (Wire.push (firstGet ++ secondGet) fun _ => .items []).Delivers
      (firstGet ++ [] ++ secondGet) := by
    simpa using Wire.Delivers.nil.push (show firstGet ++ secondGet ≠ [] by decide)
  have hloop : ((Session.new (requestMachine false) 0 fun _ => 0).recvLoop (requestMachine false) 1
      (Wire.push (firstGet ++ secondGet) fun _ => .items [])).map (fun r =>
        (r.1, r.2.1.offset)) = some (.finished, 19) := by decide +kernel
  obtain ⟨⟨status, s, w'⟩, hr, heq⟩ := Option.map_eq_some_iff.mp hloop
  simp only [Prod.mk.injEq] at heq
  obtain ⟨rfl, hoffset⟩ := heq
  have hhead : (requestMachine false).Accepts firstGet := by decide +kernel
  obtain ⟨hconsumed, hbehind, -⟩ := behind_of_head hhead (List.append_assoc .. ▸ hw) hr
  rw [accounts_iff hhead hw hr, contained_iff_within hbehind hconsumed]
  rintro ⟨-, hle, -⟩
  rw [hoffset] at hle
  cases hle

end ApexStorm.Http
