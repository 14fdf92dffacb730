import ApexStorm.Http.Parser

/-!
# Parsing a request head that arrives in segments

The registers of the parser are reset at every call while the bytes consumed are
moved out of the buffer. A split is harmless when every token lies in one segment
up to the byte that ends it. `Marks` follows the automaton and records which
registers have been set since the last boundary, as positions in the whole head.
-/

namespace ApexStorm.Http

def between (head : List UInt8) (v e : ℕ) : List UInt8 := (head.drop v).take (e - v)

/-- No method name goes on beyond these bytes, so that comparing stops within them. -/
def Decided (bytes : List UInt8) : Prop :=
  ∀ x ∈ httpMethodMap, bytes <+: x.2 → x.2.length ≤ bytes.length

instance (bytes : List UInt8) : Decidable (Decided bytes) :=
  inferInstanceAs (Decidable (∀ x ∈ httpMethodMap, _))

def namesMethod (bytes : List UInt8) : Bool := httpMethodMap.any fun x => x.2.isPrefixOf bytes

def namesVersion (token : List UInt8) : Bool :=
  token.isPrefixOf (ascii "HTTP/1.1") || token.isPrefixOf (ascii "HTTP/1.0")

structure Marks where
  mark : Option ℕ
  fieldStart : Option ℕ
  fieldLen : Bool
  queryStart : Option ℕ

namespace Marks

def empty : Marks := ⟨none, none, false, none⟩

/-- An action may only use registers set in this segment, which ends at `stop`. A method or a
version that is not one may only occur in the last segment, since `recvRequest` gives up after
it. -/
def step (head : List UInt8) (last : Bool) (stop fpc : ℕ) (t : Marks) : Action → Option Marks
  | .mark | .startValue => some { t with mark := some fpc }
  | .startField => some { t with fieldStart := some fpc, fieldLen := false }
  | .startQuery => some { t with queryStart := some fpc }
  | .writeField => t.fieldStart.map fun _ => { t with fieldLen := true }
  | .writeValue => if t.fieldLen then t.mark.map fun _ => t else none
  | .fragment | .requestPath => t.mark.map fun _ => t
  | .queryString => t.queryStart.map fun _ => t
  | .requestMethod => t.mark.bind fun v =>
      let bytes := between head v stop
      if Decided bytes ∧ (last = true ∨ namesMethod bytes = true) then some t else none
  | .httpVersion => t.mark.bind fun v =>
      if last = true ∨ namesVersion (between head v fpc) = true then some t else none
  | .requestUri | .xml | .json | .done => some t

def steps (head : List UInt8) (last : Bool) (stop fpc : ℕ) : Marks → List Action → Option Marks
  | t, [] => some t
  | t, a :: acts => if a = .done then some t else do
      let t ← t.step head last stop fpc a
      t.steps head last stop fpc acts

end Marks

namespace Automaton
variable {σ : Type}

def scan (A : Automaton σ) (head : List UInt8) (last : Bool) (stop : ℕ) :
    ℕ → Marks → σ → List UInt8 → Option σ
  | _, _, s, [] => some s
  | fpc, t, s, c :: cs =>
    match A.next s c with
    | none => none
    | some (acts, s') => do
      let t ← t.steps head last stop fpc acts
      A.scan head last stop (fpc + 1) t s' cs

def uncutFrom (A : Automaton σ) (head : List UInt8) : ℕ → σ → List (List UInt8) → Bool
  | _, _, [] => true
  | b, s, bytes :: segments =>
    match A.scan head segments.isEmpty (b + bytes.length) b .empty s bytes with
    | none => false
    | some s' => A.uncutFrom head (b + bytes.length) s' segments

def Uncut (A : Automaton σ) (segments : List (List UInt8)) : Prop :=
  A.uncutFrom segments.flatten 0 A.start segments = true

instance (A : Automaton σ) (segments : List (List UInt8)) : Decidable (A.Uncut segments) :=
  inferInstanceAs (Decidable (_ = _))

end Automaton

theorem lenTo_add (b reg fpc : ℕ) : lenTo (b + reg) (b + fpc) = lenTo reg fpc := by
  rw [lenTo, lenTo, Nat.add_assoc, Nat.add_sub_add_left]

theorem lenTo_eq {reg fpc : ℕ} (h : reg ≤ fpc) (hlt : fpc < 2 ^ 64) :
    lenTo reg fpc = fpc - reg := by
  rw [lenTo, show fpc + 2 ^ 64 - reg = fpc - reg + 2 ^ 64 by omega, Nat.add_mod_right]
  exact Nat.mod_eq_of_lt (by omega)

theorem lenTo_le {reg fpc : ℕ} (h : reg ≤ fpc) : lenTo reg fpc ≤ fpc - reg := by
  rw [lenTo, show fpc + 2 ^ 64 - reg = fpc - reg + 2 ^ 64 by omega, Nat.add_mod_right]
  exact Nat.mod_le _ _

theorem strncmp_congr {s s' t t' : Memory} {n : ℕ} (hs : ∀ i < n, s i = s' i)
    (ht : ∀ i < n, t i = t' i) : strncmp s t n = strncmp s' t' n := by
  induction n generalizing s s' t t' with
  | zero => rfl
  | succ n ih =>
    rw [strncmp, strncmp, hs 0 (Nat.succ_pos n), ht 0 (Nat.succ_pos n)]
    rw [ih (fun i hi => hs (i + 1) (Nat.succ_lt_succ hi))
      fun i hi => ht (i + 1) (Nat.succ_lt_succ hi)]

theorem strncmp_iff {s t : Memory} {n : ℕ} (hs : ∀ i < n, s i ≠ 0) :
    strncmp s t n = true ↔ ∀ i < n, s i = t i := by
  induction n generalizing s t with
  | zero => simp [strncmp]
  | succ n ih =>
    have h0 := hs 0 (Nat.succ_pos n)
    have hrec := @ih (fun i => s (i + 1)) (fun i => t (i + 1))
      fun i hi => hs (i + 1) (Nat.succ_lt_succ hi)
    simp only [strncmp, Bool.and_eq_true, Bool.or_eq_true, beq_iff_eq, h0, false_or, hrec]
    constructor
    · rintro ⟨hz, hsucc⟩ i hi
      cases i with
      | zero => exact hz
      | succ i => exact hsucc i (Nat.lt_of_succ_lt_succ hi)
    · intro h
      exact ⟨h 0 (Nat.succ_pos n), fun i hi => h (i + 1) (Nat.succ_lt_succ hi)⟩

theorem cString_getElem {name : List UInt8} {i : ℕ} (h : i < name.length) :
    cString name i = name[i] := by
  simp [cString, h]

theorem cString_ne_zero {name : List UInt8} (h0 : ∀ c ∈ name, c ≠ 0) :
    ∀ i < name.length, cString name i ≠ 0 := by
  intro i hi
  rw [cString_getElem hi]
  exact h0 _ (List.getElem_mem hi)

theorem names_ne_zero : ∀ x ∈ httpMethodMap, ∀ c ∈ x.2, c ≠ 0 := by
  have hall : (httpMethodMap.all fun x => x.2.all (· != 0)) = true := by decide +kernel
  simpa using hall

theorem charsToHttpMethod_congr {m m' : Memory} {k : ℕ} (h : ∀ i < k, m i = m' i)
    (hd : Decided (slice m 0 k)) : charsToHttpMethod m = charsToHttpMethod m' := by
  rw [charsToHttpMethod, charsToHttpMethod]
  apply congrArg (Option.map _)
  apply List.find?_congr
  intro x hx
  by_cases hlen : x.2.length ≤ k
  · exact strncmp_congr (fun _ _ => rfl) fun i hi => h i (by omega)
  · have hne : ¬ slice m 0 k <+: x.2 := fun hp => hlen (by simpa using hd x hx hp)
    have hdiff : ∀ m'' : Memory, (∀ i < k, m i = m'' i) →
        strncmp (cString x.2) m'' x.2.length = false := by
      intro m'' hm''
      rw [Bool.eq_false_iff, ne_eq, strncmp_iff (cString_ne_zero (names_ne_zero x hx))]
      intro heq
      apply hne
      rw [List.prefix_iff_getElem]
      refine ⟨by simp; omega, fun i hi => ?_⟩
      rw [length_slice] at hi
      rw [getElem_slice, Nat.zero_add, hm'' i hi, ← heq i (by omega), cString_getElem]
    rw [hdiff m fun _ _ => rfl, hdiff m' h]

theorem charsToHttpMethod_isSome {m : Memory} {k : ℕ} (h : namesMethod (slice m 0 k) = true) :
    (charsToHttpMethod m).isSome := by
  obtain ⟨x, hx, hp⟩ := List.any_eq_true.mp h
  obtain ⟨hlen, hp⟩ := List.prefix_iff_getElem.mp (List.isPrefixOf_iff_prefix.mp hp)
  rw [charsToHttpMethod, Option.isSome_map, List.find?_isSome]
  refine ⟨x, hx, (strncmp_iff (cString_ne_zero (names_ne_zero x hx))).mpr fun i hi => ?_⟩
  rw [cString_getElem hi, hp i hi, getElem_slice, Nat.zero_add]

theorem strncmp_version {m : Memory} {k : ℕ} {version : List UInt8} (h0 : ∀ c ∈ version, c ≠ 0)
    (h : (slice m 0 k).isPrefixOf version = true) : strncmp m (cString version) k = true := by
  obtain ⟨hlen, hp⟩ := List.prefix_iff_getElem.mp (List.isPrefixOf_iff_prefix.mp h)
  rw [length_slice] at hlen
  have heq : ∀ i < k, m i = cString version i := by
    intro i hi
    have := hp i (by simpa using hi)
    rw [getElem_slice, Nat.zero_add] at this
    rw [this, cString_getElem]
  rw [strncmp_congr heq fun _ _ => rfl, strncmp_iff]
  · exact fun _ _ => rfl
  · exact fun i hi => cString_ne_zero h0 i (by omega)

/-- `p` has read a segment that begins at position `b` up to `fpc`, `P` the whole head. The
registers recorded in `t` hold the same positions. -/
structure Rel {σ : Type} (b fpc : ℕ) (t : Marks) (P p : HttpRequestParer σ) : Prop where
  data : P.data = p.data
  error : P.error = p.error
  mark : ∀ v, t.mark = some v → P.mark = v ∧ b + p.mark = v ∧ p.mark ≤ fpc
  fieldStart : ∀ v, t.fieldStart = some v →
    P.fieldStart = v ∧ b + p.fieldStart = v ∧ p.fieldStart ≤ fpc
  fieldLen : t.fieldLen = true → t.fieldStart.isSome ∧ P.fieldLen = p.fieldLen ∧
    p.fieldStart + p.fieldLen ≤ fpc
  queryStart : ∀ v, t.queryStart = some v →
    P.queryStart = v ∧ b + p.queryStart = v ∧ p.queryStart ≤ fpc

structure Aligned (head : List UInt8) (M m : Memory) (b n : ℕ) : Prop where
  bytes : ∀ i (h : i < head.length), M i = head[i]
  segment : ∀ i < n, m i = M (b + i)
  le : b + n ≤ head.length
  size : head.length < 2 ^ 63

section Simulation
variable {σ : Type} {A : Automaton σ} {head : List UInt8} {M m : Memory} {b n fpc : ℕ}
variable {last : Bool} {t t' : Marks} {P p : HttpRequestParer σ}

theorem Rel.mono (h : Rel b fpc t P p) {fpc' : ℕ} (hle : fpc ≤ fpc') : Rel b fpc' t P p where
  data := h.data
  error := h.error
  mark v hv := ⟨(h.mark v hv).1, (h.mark v hv).2.1, (h.mark v hv).2.2.trans hle⟩
  fieldStart v hv :=
    ⟨(h.fieldStart v hv).1, (h.fieldStart v hv).2.1, (h.fieldStart v hv).2.2.trans hle⟩
  fieldLen hl := ⟨(h.fieldLen hl).1, (h.fieldLen hl).2.1, (h.fieldLen hl).2.2.trans hle⟩
  queryStart v hv :=
    ⟨(h.queryStart v hv).1, (h.queryStart v hv).2.1, (h.queryStart v hv).2.2.trans hle⟩

theorem Rel.setData (h : Rel b fpc t P p) (f : HttpRequest → HttpRequest) :
    Rel b fpc t { P with data := f P.data } { p with data := f p.data } :=
  { h with data := congrArg f h.data }

theorem Rel.doData (h : Rel b fpc t P p) (f : HttpRequest → HttpRequest) {a : Action}
    (hP : P.doAction M (b + fpc) a = some { P with data := f P.data })
    (hp : p.doAction m fpc a = some { p with data := f p.data }) :
    ∃ P' p', P.doAction M (b + fpc) a = some P' ∧ p.doAction m fpc a = some p' ∧
      Rel b fpc t P' p' ∧ (last = false → P.error = 0 → P'.error = 0) :=
  ⟨_, _, hP, hp, h.setData f, fun _ he => he⟩

theorem string_eq (hm : Aligned head M m b n) {pos k : ℕ} (h : pos + k ≤ n) :
    string m pos k = some (slice m pos k) ∧ string M (b + pos) k = some (slice m pos k) := by
  have hslice : slice M (b + pos) k = slice m pos k :=
    slice_congr fun i hi => by rw [Nat.add_assoc, hm.segment (pos + i) (by omega)]
  have := hm.le
  have := hm.size
  rw [string, string, if_pos (by omega), if_pos (by omega), hslice]
  exact ⟨rfl, rfl⟩

theorem token_eq (hm : Aligned head M m b n) (hfpc : fpc < n) {reg REG v : ℕ}
    (h : REG = v ∧ b + reg = v ∧ reg ≤ fpc) :
    ∃ x, string m reg (lenTo reg fpc) = some x ∧ string M REG (lenTo REG (b + fpc)) = some x := by
  obtain ⟨rfl, rfl, hle⟩ := h
  have := lenTo_le hle
  obtain ⟨h₁, h₂⟩ := string_eq hm (show reg + lenTo reg fpc ≤ n by omega)
  exact ⟨_, h₁, by rw [lenTo_add, h₂]⟩

theorem between_eq (hm : Aligned head M m b n) {reg e : ℕ} (he : e ≤ n) :
    between head (b + reg) (b + e) = slice (fun i => m (reg + i)) 0 (e - reg) := by
  have := hm.le
  rw [between, Nat.add_sub_add_left]
  apply List.ext_getElem
  · simp
    omega
  · intro i h₁ h₂
    rw [length_slice] at h₂
    simp only [List.getElem_take, List.getElem_drop, getElem_slice]
    rw [Nat.zero_add, hm.segment _ (by omega), ← hm.bytes, Nat.add_assoc]

theorem onRequestMethod_rel (hm : Aligned head M m b n) (hrel : Rel b fpc t P p)
    (hstep : t.step head last (b + n) (b + fpc) .requestMethod = some t') :
    t' = t ∧ Rel b fpc t (P.onRequestMethod M P.mark) (p.onRequestMethod m p.mark) ∧
      (last = false → P.error = 0 → (P.onRequestMethod M P.mark).error = 0) := by
  obtain ⟨v, hv, hstep⟩ := Option.bind_eq_some_iff.mp hstep
  obtain ⟨hP, hp, hle⟩ := hrel.mark v hv
  simp only [Option.ite_none_right_eq_some, Option.some.injEq] at hstep
  obtain ⟨⟨hdecided, hlast⟩, rfl⟩ := hstep
  rw [← hp, between_eq hm le_rfl] at hdecided hlast
  have hsame : charsToHttpMethod (fun i => M (P.mark + i)) =
      charsToHttpMethod fun i => m (p.mark + i) := by
    symm
    apply charsToHttpMethod_congr _ hdecided
    intro i hi
    rw [hm.segment _ (by omega), hP, ← hp, Nat.add_assoc]
  rw [HttpRequestParer.onRequestMethod, HttpRequestParer.onRequestMethod, hsame]
  refine ⟨rfl, ?_, ?_⟩
  · cases charsToHttpMethod fun i => m (p.mark + i) with
    | none => exact { hrel with error := rfl }
    | some x => exact hrel.setData fun r => { r with method := x }
  · intro hl he
    obtain ⟨x, hx⟩ := Option.isSome_iff_exists.mp
      (charsToHttpMethod_isSome (hlast.resolve_left (by simp [hl])))
    rw [hx]
    exact he

theorem onRequestVersion_rel (hm : Aligned head M m b n) (hfpc : fpc < n) (hrel : Rel b fpc t P p)
    (hstep : t.step head last (b + n) (b + fpc) .httpVersion = some t') :
    t' = t ∧ Rel b fpc t (P.onRequestVersion M P.mark (lenTo P.mark (b + fpc)))
        (p.onRequestVersion m p.mark (lenTo p.mark fpc)) ∧
      (last = false → P.error = 0 →
        (P.onRequestVersion M P.mark (lenTo P.mark (b + fpc))).error = 0) := by
  obtain ⟨v, hv, hstep⟩ := Option.bind_eq_some_iff.mp hstep
  obtain ⟨hP, hp, hle⟩ := hrel.mark v hv
  simp only [Option.ite_none_right_eq_some, Option.some.injEq] at hstep
  obtain ⟨hlast, rfl⟩ := hstep
  rw [← hp, between_eq hm hfpc.le] at hlast
  have hlen : lenTo P.mark (b + fpc) = lenTo p.mark fpc := by rw [hP, ← hp, lenTo_add]
  have hk := lenTo_le hle
  have hsame : ∀ version, strncmp (fun i => M (P.mark + i)) (cString version) (lenTo p.mark fpc) =
      strncmp (fun i => m (p.mark + i)) (cString version) (lenTo p.mark fpc) := by
    intro version
    refine strncmp_congr (fun i hi => ?_) fun _ _ => rfl
    rw [hm.segment _ (by omega), hP, ← hp, Nat.add_assoc]
  rw [HttpRequestParer.onRequestVersion, HttpRequestParer.onRequestVersion, hlen, hsame, hsame]
  refine ⟨rfl, ?_, ?_⟩
  · split_ifs
    · exact hrel.setData fun r => { r with version := 0x11 }
    · exact hrel.setData fun r => { r with version := 0x10 }
    · exact { hrel with error := rfl }
  · intro hl he
    have hnames := hlast.resolve_left (by simp [hl])
    have := hm.le
    have := hm.size
    rw [← lenTo_eq hle (by omega), namesVersion, Bool.or_eq_true] at hnames
    split_ifs with h₁ h₀
    · exact he
    · exact he
    · rcases hnames with hn | hn
      · exact absurd (strncmp_version (by decide +kernel) hn) h₁
      · exact absurd (strncmp_version (by decide +kernel) hn) h₀

theorem doAction_rel (hm : Aligned head M m b n) (hfpc : fpc < n) (hrel : Rel b fpc t P p)
    {a : Action} (hstep : t.step head last (b + n) (b + fpc) a = some t') :
    ∃ P' p', P.doAction M (b + fpc) a = some P' ∧ p.doAction m fpc a = some p' ∧
      Rel b fpc t' P' p' ∧ (last = false → P.error = 0 → P'.error = 0) := by
  cases a with
  | mark | startValue =>
    obtain rfl := Option.some.inj hstep
    exact ⟨_, _, rfl, rfl, { hrel with mark := by simp }, fun _ he => he⟩
  | startField =>
    obtain rfl := Option.some.inj hstep
    exact ⟨_, _, rfl, rfl, { hrel with fieldStart := by simp, fieldLen := by simp }, fun _ he => he⟩
  | startQuery =>
    obtain rfl := Option.some.inj hstep
    exact ⟨_, _, rfl, rfl, { hrel with queryStart := by simp }, fun _ he => he⟩
  | requestUri | xml | json | done =>
    obtain rfl := Option.some.inj hstep
    exact ⟨_, _, rfl, rfl, hrel, fun _ he => he⟩
  | requestMethod =>
    obtain ⟨rfl, hrel', herr⟩ := onRequestMethod_rel hm hrel hstep
    exact ⟨_, _, rfl, rfl, hrel', herr⟩
  | httpVersion =>
    obtain ⟨rfl, hrel', herr⟩ := onRequestVersion_rel hm hfpc hrel hstep
    exact ⟨_, _, rfl, rfl, hrel', herr⟩
  | writeField =>
    obtain ⟨v, hv, rfl⟩ := Option.map_eq_some_iff.mp hstep
    obtain ⟨hP, hp, hle⟩ := hrel.fieldStart v hv
    have := lenTo_le hle
    refine ⟨_, _, rfl, rfl, { hrel with fieldLen := fun _ => ⟨by simp [hv], ?_, ?_⟩ },
      fun _ he => he⟩
    · simp only
      rw [hP, ← hp, lenTo_add]
    · simp only
      omega
  | writeValue =>
    obtain ⟨hlen, hstep⟩ := Option.ite_none_right_eq_some.mp hstep
    obtain ⟨v, hv, rfl⟩ := Option.map_eq_some_iff.mp hstep
    obtain ⟨hsome, hL, hle⟩ := hrel.fieldLen hlen
    obtain ⟨f, hf⟩ := Option.isSome_iff_exists.mp hsome
    obtain ⟨hF, hf', -⟩ := hrel.fieldStart f hf
    obtain ⟨hx, hX⟩ := string_eq hm (show p.fieldStart + p.fieldLen ≤ n by omega)
    obtain ⟨y, hy, hY⟩ := token_eq hm hfpc (hrel.mark v hv)
    rw [hf', ← hF, ← hL] at hX
    apply hrel.doData fun r => r.setHeader (slice m p.fieldStart p.fieldLen) y
    · rw [HttpRequestParer.doAction, hX, hY, hL]
      rfl
    · rw [HttpRequestParer.doAction, hx, hy]
      rfl
  | fragment =>
    obtain ⟨v, hv, rfl⟩ := Option.map_eq_some_iff.mp hstep
    obtain ⟨x, hx, hX⟩ := token_eq hm hfpc (hrel.mark v hv)
    apply hrel.doData fun r => { r with fragment := x }
    · rw [HttpRequestParer.doAction, hX]
      rfl
    · rw [HttpRequestParer.doAction, hx]
      rfl
  | requestPath =>
    obtain ⟨v, hv, rfl⟩ := Option.map_eq_some_iff.mp hstep
    obtain ⟨x, hx, hX⟩ := token_eq hm hfpc (hrel.mark v hv)
    apply hrel.doData fun r => { r with path := x }
    · rw [HttpRequestParer.doAction, hX]
      rfl
    · rw [HttpRequestParer.doAction, hx]
      rfl
  | queryString =>
    obtain ⟨v, hv, rfl⟩ := Option.map_eq_some_iff.mp hstep
    obtain ⟨x, hx, hX⟩ := token_eq hm hfpc (hrel.queryStart v hv)
    apply hrel.doData fun r => { r with query := x }
    · rw [HttpRequestParer.doAction, hX]
      rfl
    · rw [HttpRequestParer.doAction, hx]
      rfl

theorem doActions_rel (hm : Aligned head M m b n) (hfpc : fpc < n) (hrel : Rel b fpc t P p)
    (herr : last = false → P.error = 0) {acts : List Action}
    (hsteps : t.steps head last (b + n) (b + fpc) acts = some t') :
    ∃ P' p', P.doActions M (b + fpc) acts = some P' ∧ p.doActions m fpc acts = some p' ∧
      Rel b fpc t' P' p' ∧ (last = false → P'.error = 0) := by
  induction acts generalizing t P p with
  | nil =>
    obtain rfl := Option.some.inj hsteps
    exact ⟨P, p, rfl, rfl, hrel, herr⟩
  | cons a acts ih =>
    rw [Marks.steps] at hsteps
    rw [HttpRequestParer.doActions, HttpRequestParer.doActions]
    split_ifs at hsteps ⊢ with hdone
    · obtain rfl := Option.some.inj hsteps
      exact ⟨P, p, rfl, rfl, hrel, herr⟩
    · obtain ⟨t₁, ht₁, hsteps⟩ := Option.bind_eq_some_iff.mp hsteps
      obtain ⟨P₁, p₁, hP₁, hp₁, hrel₁, herr₁⟩ := doAction_rel hm hfpc hrel ht₁
      rw [hP₁, hp₁]
      exact ih hrel₁ (fun hl => herr₁ hl (herr hl)) hsteps

theorem run_rel {seg rest later : List UInt8} {s s' : σ} (hm : Aligned head M m b seg.length)
    (hseg : ∀ i (h : i < seg.length), m i = seg[i]) (hrest : seg.drop fpc = rest)
    (hscan : A.scan head last (b + seg.length) (b + fpc) t s rest = some s')
    (hacc : A.acceptsFrom s (rest ++ later) = true) (hfinal : A.final s = false)
    (hrel : Rel b fpc t P p) (herr : last = false → P.error = 0) (hP : P.cs = some s)
    (hp : p.cs = some s) (hle : fpc ≤ seg.length) :
    ∃ P' p', p.run A m rest.length fpc = some (p', seg.length) ∧
      P.run A M (rest.length + later.length) (b + fpc) =
        (if later = [] then some (P', b + seg.length)
          else P'.run A M later.length (b + seg.length)) ∧
      P'.cs = some s' ∧ p'.cs = some s' ∧ P'.data = p'.data ∧ P'.error = p'.error ∧
      (last = false → P'.error = 0) ∧ (A.final s' = true ↔ later = []) ∧
      (later ≠ [] → A.acceptsFrom s' later = true) := by
  induction rest generalizing fpc t s P p with
  | nil =>
    obtain rfl := Option.some.inj hscan
    have hend : fpc = seg.length := le_antisymm hle (List.drop_eq_nil_iff.mp hrest)
    have hne : later ≠ [] := by
      rintro rfl
      cases hacc
    refine ⟨P, p, by rw [← hend]; rfl, ?_, hP, hp, hrel.data, hrel.error, herr, ?_, fun _ => hacc⟩
    · rw [if_neg hne, List.length_nil, Nat.zero_add, hend]
    · simp [hfinal, hne]
  | cons c rest ih =>
    have hlt : fpc < seg.length := by
      by_contra hge
      rw [List.drop_eq_nil_of_le (by omega)] at hrest
      cases hrest
    rw [List.drop_eq_getElem_cons hlt, List.cons.injEq] at hrest
    obtain ⟨hc, hrest⟩ := hrest
    have hmc : m fpc = c := (hseg fpc hlt).trans hc
    have hMc : M (b + fpc) = c := (hm.segment fpc hlt).symm.trans hmc
    rw [Automaton.scan] at hscan
    rw [List.cons_append, Automaton.acceptsFrom] at hacc
    cases hnext : A.next s c with
    | none =>
      rw [hnext] at hscan
      cases hscan
    | some r =>
      obtain ⟨acts, s₁⟩ := r
      rw [hnext] at hscan hacc
      obtain ⟨t₁, ht₁, hscan⟩ := Option.bind_eq_some_iff.mp hscan
      obtain ⟨P₁, p₁, hP₁, hp₁, hrel₁, herr₁⟩ := doActions_rel hm hlt hrel herr ht₁
      have hrun : p.run A m (rest.length + 1) fpc = if .done ∈ acts
          then some ({ p₁ with cs := some s₁ }, fpc + 1)
          else HttpRequestParer.run A m rest.length (fpc + 1) { p₁ with cs := some s₁ } := by
        simp [HttpRequestParer.run, hp, hmc, hnext, hp₁]
      have hRun : P.run A M (rest.length + later.length + 1) (b + fpc) = if .done ∈ acts
          then some ({ P₁ with cs := some s₁ }, b + fpc + 1)
          else HttpRequestParer.run A M (rest.length + later.length) (b + fpc + 1)
            { P₁ with cs := some s₁ } := by
        simp [HttpRequestParer.run, hP, hMc, hnext, hP₁]
      rw [List.length_cons, hrun, Nat.add_right_comm, hRun]
      by_cases hdone : .done ∈ acts
      · simp only [if_pos hdone] at hacc ⊢
        obtain ⟨rfl, rfl⟩ := List.append_eq_nil_iff.mp (List.isEmpty_iff.mp hacc)
        obtain rfl := Option.some.inj hscan
        have hend : fpc + 1 = seg.length := by
          have := List.drop_eq_nil_iff.mp hrest
          omega
        exact ⟨{ P₁ with cs := some s₁ }, { p₁ with cs := some s₁ }, by rw [hend],
          by rw [if_pos rfl, Nat.add_assoc, hend], rfl, rfl, hrel₁.data, hrel₁.error, herr₁,
          iff_of_true ((A.done_iff hnext).mp hdone) rfl, fun hne => absurd rfl hne⟩
      · simp only [if_neg hdone] at hacc ⊢
        have hfinal₁ : A.final s₁ = false := by
          rw [Bool.eq_false_iff, ne_eq, ← A.done_iff hnext]
          exact hdone
        have hrel₂ : Rel b (fpc + 1) t₁ { P₁ with cs := some s₁ } { p₁ with cs := some s₁ } :=
          { hrel₁.mono (Nat.le_succ fpc) with }
        rw [Nat.add_assoc] at hscan ⊢
        exact ih hrest hscan hacc hfinal₁ hrel₂ herr₁ rfl rfl hlt

theorem store_getElem (m : Memory) {bytes : List UInt8} {i : ℕ} (h : i < bytes.length) :
    store m 0 bytes i = bytes[i] := by
  simp [store, h]

theorem execute_eq {m : Memory} {len : ℕ} {p' : HttpRequestParer σ} (hlen : len ≠ 0)
    (hrun : HttpRequestParer.run A m len 0 { p with mark := 0, fieldLen := 0, fieldStart := 0 } =
      some (p', len)) :
    p.execute A m len = some (p', m, len) := by
  simp only [HttpRequestParer.execute, HttpRequestParer.httpParserExecute, if_neg hlen, hrun,
    Option.bind_eq_bind, Option.bind_some, Option.pure_def, Nat.sub_self, Nat.not_lt_zero, if_false]

theorem recvStep_eq {S : Session σ} {bytes : List UInt8} {p' : HttpRequestParer σ}
    (hne : bytes ≠ []) (hoffset : S.offset = 0)
    (hrun : HttpRequestParer.run A (store S.data 0 bytes) bytes.length 0
      { S.parser with mark := 0, fieldLen := 0, fieldStart := 0 } = some (p', bytes.length)) :
    S.recvStep A bytes = some (if p'.hasError then .null
      else if p'.isFinished A ≠ 0 then .finished else .reading,
      ⟨p', store S.data 0 bytes, 0, S.consumed + bytes.length⟩) := by
  have hlen : bytes.length ≠ 0 := by simpa using hne
  simp only [Session.recvStep, hoffset, Nat.add_zero, execute_eq hlen hrun, Option.bind_eq_bind,
    Option.bind_some, Option.pure_def, Nat.sub_self]
  by_cases herror : p'.hasError
  · simp [herror]
  · by_cases hfinished : p'.isFinished A = 0 <;> simp [herror, hfinished, Session.buffSize]

theorem aligned_of_drop {bytes later : List UInt8}
    (hM : ∀ i (h : i < head.length), M i = head[i]) (hsize : head.length < 2 ^ 63)
    (hne : bytes ≠ []) (hdrop : head.drop b = bytes ++ later) (data : Memory) :
    Aligned head M (store data 0 bytes) b bytes.length := by
  have hle : b + bytes.length ≤ head.length := by
    have := congrArg List.length hdrop
    rw [List.length_drop, List.length_append] at this
    have := List.length_pos_iff.mpr hne
    omega
  refine ⟨hM, fun i hi => ?_, hle, hsize⟩
  have hget : (head.drop b)[i]? = bytes[i]? := by
    rw [hdrop, List.getElem?_append_left hi]
  rw [List.getElem?_drop, List.getElem?_eq_getElem (by omega), List.getElem?_eq_getElem hi] at hget
  rw [store_getElem data hi, hM (b + i) (by omega)]
  exact (Option.some.inj hget).symm

theorem hasError_eq {s : σ} (hp : p.cs = some s) : p.hasError = decide (p.error ≠ 0) := by
  simp [HttpRequestParer.hasError, hp]

theorem isFinished_eq {s : σ} (hp : p.cs = some s) :
    p.isFinished A = if A.final s then 1 else 0 := by
  rw [HttpRequestParer.isFinished, hp]

theorem recvHead_rel {S : Session σ} {segments : List (List UInt8)} {s : σ}
    (hM : ∀ i (h : i < head.length), M i = head[i]) (hsize : head.length < 2 ^ 63)
    (hdrop : head.drop b = segments.flatten) (hne : ∀ x ∈ segments, x ≠ [])
    (huncut : A.uncutFrom head b s segments = true)
    (hacc : A.acceptsFrom s segments.flatten = true) (hfinal : A.final s = false)
    (hP : P.cs = some s) (hS : S.parser.cs = some s) (hdata : P.data = S.parser.data)
    (hPerr : P.error = 0) (hSerr : S.parser.error = 0) (hoffset : S.offset = 0)
    (hconsumed : S.consumed = b) :
    ∃ P' S', P.run A M segments.flatten.length b = some (P', head.length) ∧
      S.recvHead A segments = some (if P'.error = 0 then .finished else .null, S') ∧
      S'.parser.data = P'.data ∧ S'.parser.error = P'.error ∧ S'.parser.cs = P'.cs ∧
      S'.consumed = head.length ∧ P'.isFinished A = 1 := by
  induction segments generalizing b s P S with
  | nil => cases hacc
  | cons bytes segments ih =>
    have hbytes : bytes ≠ [] := hne bytes (List.mem_cons_self ..)
    rw [List.flatten_cons] at hdrop hacc
    rw [Automaton.uncutFrom] at huncut
    cases hscan : A.scan head segments.isEmpty (b + bytes.length) b .empty s bytes with
    | none =>
      rw [hscan] at huncut
      cases huncut
    | some s' =>
      rw [hscan] at huncut
      have hlater : segments.flatten = [] ↔ segments = [] := by
        cases segments with
        | nil => simp
        | cons x xs => simp [hne x (by simp)]
      have hrel : Rel b 0 .empty P { S.parser with mark := 0, fieldLen := 0, fieldStart := 0 } :=
        ⟨hdata, hPerr.trans hSerr.symm, nofun, nofun, nofun, nofun⟩
      have haligned := aligned_of_drop hM hsize hbytes hdrop S.data
      obtain ⟨P', p', hrun, hRun, hP', hp', hd, he, herr, hfin, hnext⟩ :=
        run_rel haligned (fun i h => store_getElem S.data h) List.drop_zero hscan hacc hfinal hrel
          (fun _ => hPerr) hP hS (Nat.zero_le _)
      have hstep := recvStep_eq hbytes hoffset hrun
      rw [hasError_eq hp', isFinished_eq hp', hconsumed, ← he] at hstep
      rw [Nat.add_zero] at hRun
      rw [List.flatten_cons, List.length_append, hRun, Session.recvHead, hstep]
      have hlen := congrArg List.length hdrop
      rw [List.length_drop, List.length_append] at hlen
      have hle := haligned.le
      by_cases hnil : segments = []
      · have hfin' := hfin.mpr (hlater.mpr hnil)
        have hend : b + bytes.length = head.length := by
          rw [hlater.mpr hnil, List.length_nil] at hlen
          omega
        refine ⟨P', ⟨p', store S.data 0 bytes, 0, b + bytes.length⟩, ?_, ?_, hd.symm, he.symm,
          hp'.trans hP'.symm, hend, ?_⟩
        · rw [if_pos (hlater.mpr hnil), hend]
        · by_cases h0 : P'.error = 0 <;> simp [h0, hfin']
        · rw [isFinished_eq hP', if_pos hfin']
      · have hlast : segments.isEmpty = false := by simpa using hnil
        have hfin' : A.final s' = false := by
          rw [Bool.eq_false_iff, ne_eq, hfin, hlater]
          exact hnil
        have h0 := herr hlast
        rw [if_neg (mt hlater.mp hnil)]
        simp only [h0, hfin']
        exact ih (by rw [← List.drop_drop, hdrop, List.drop_left])
          (fun x hx => hne x (List.mem_cons_of_mem _ hx)) huncut (hnext (mt hlater.mp hnil)) hfin'
          hP' hp' hd h0 (he ▸ h0) rfl rfl

end Simulation

/-- A head whose tokens are not cut is parsed in segments as in one call of `execute`: the same
request, the same error and finished status, and all of its bytes consumed. -/
theorem recvHead_eq_execute {σ : Type} (A : Automaton σ) (queryStart queryStart' : ℕ)
    (data data' : Memory) {segments : List (List UInt8)} (hsize : segments.flatten.length < 2 ^ 63)
    (hne : ∀ x ∈ segments, x ≠ []) (hacc : A.Accepts segments.flatten) (huncut : A.Uncut segments) :
    ∃ P rest S, (HttpRequestParer.new A queryStart).execute A (store data 0 segments.flatten)
        segments.flatten.length = some (P, rest, segments.flatten.length) ∧
      (Session.new A queryStart' data').recvHead A segments =
        some (if P.hasError then .null else .finished, S) ∧
      S.parser.data = P.data ∧ S.parser.error = P.error ∧ S.parser.hasError = P.hasError ∧
      S.parser.isFinished A = P.isFinished A ∧ P.isFinished A = 1 ∧
      S.consumed = segments.flatten.length := by
  have hM : ∀ i (h : i < segments.flatten.length),
      store data 0 segments.flatten i = segments.flatten[i] := fun i h => store_getElem data h
  obtain ⟨P, S, hrun, hrecv, hdata, herror, hcs, hconsumed, hfinished⟩ :=
    @recvHead_rel σ A segments.flatten _ 0 (.new A queryStart) (.new A queryStart' data') segments
      A.start hM hsize List.drop_zero hne huncut hacc A.start_not_final rfl rfl rfl rfl rfl rfl rfl
  have hlen : segments.flatten.length ≠ 0 := by
    rintro hzero
    rw [Automaton.Accepts, List.length_eq_zero_iff.mp hzero] at hacc
    cases hacc
  obtain ⟨s, hs⟩ : ∃ s, P.cs = some s := by
    cases hc : P.cs with
    | none =>
      rw [HttpRequestParer.isFinished, hc] at hfinished
      cases hfinished
    | some s => exact ⟨s, rfl⟩
  refine ⟨P, store data 0 segments.flatten, S, ?_, ?_, hdata, herror, ?_, ?_, hfinished, hconsumed⟩
  · exact execute_eq hlen hrun
  · rw [hrecv, hasError_eq hs]
    by_cases h0 : P.error = 0 <;> simp [h0]
  · rw [HttpRequestParer.hasError, HttpRequestParer.hasError, herror, hcs]
  · rw [HttpRequestParer.isFinished, HttpRequestParer.isFinished, hcs]

theorem recvHead_eq_execute_four :
    ∃ P rest S, (HttpRequestParer.new (requestMachine false) 0).execute (requestMachine false)
        (store (fun _ => 0) 0 (ascii "GET /a HTTP/1.1\r\nhost: x\r\n\r\n")) 28 =
          some (P, rest, 28) ∧
      (Session.new (requestMachine false) 7 fun _ => 1).recvHead (requestMachine false)
        [ascii "GET ", ascii "/a HTTP/1.1\r", ascii "\nhost: x\r", ascii "\n\r\n"] =
        some (if P.hasError then .null else .finished, S) ∧ S.parser.data = P.data := by
  obtain ⟨P, rest, S, hexec, hrecv, hdata, -⟩ :=
    recvHead_eq_execute (requestMachine false) 0 7 (fun _ => 0) (fun _ => 1)
      (by decide : [ascii "GET ", ascii "/a HTTP/1.1\r", ascii "\nhost: x\r",
        ascii "\n\r\n"].flatten.length < 2 ^ 63)
      (by decide) (by decide +kernel) (by decide +kernel)
  exact ⟨P, rest, S, hexec, hrecv, hdata⟩

/-- The lookup of a method cut after its first byte sees `OST` and fails. -/
theorem cut_method_rejected :
    (requestMachine false).Accepts (ascii "POST / HTTP/1.1\r\n\r\n") ∧
    ((HttpRequestParer.new (requestMachine false) 0).execute (requestMachine false)
        (store (fun _ => 0) 0 (ascii "POST / HTTP/1.1\r\n\r\n")) 19).map
        (fun r => (r.1.error, r.1.data.method, r.1.isFinished (requestMachine false), r.2.2)) =
      some (0, .POST, 1, 19) ∧
    ((Session.new (requestMachine false) 0 fun _ => 0).recvHead (requestMachine false)
        [ascii "P", ascii "OST / HTTP/1.1\r\n\r\n"]).map
        (fun r => (r.1, r.2.parser.error, r.2.parser.data.method)) =
      some (.null, 1000, .GET) := by
  decide +kernel

end ApexStorm.Http
