import ApexStorm.Http.Message
import ApexStorm.Http.Scan

/-!
# Parsing a printed request

The text that `HttpRequest::dump` prints is cut at the bytes that end a token: the
method, the parts of the target, the version and each header line. One lemma for each
piece says what the callbacks make of it, and the pieces are put together.
-/

namespace ApexStorm.Http

section Pieces
variable {relaxed : Bool} {s s₁ s₂ s₃ : State} {d d' d₁ d₂ : HttpRequest} {xs ys : List UInt8}
  {p : HttpRequestParer State}

structure Reading (p : HttpRequestParer State) (s : State) (d : HttpRequest) : Prop where
  cs : p.cs = some s
  error : p.error = 0
  data : p.data = d

def Parses (relaxed : Bool) (s : State) (d : HttpRequest) (xs : List UInt8) (s₁ : State)
    (d₁ : HttpRequest) : Prop :=
  ∀ ⦃m : Memory⦄ ⦃fpc : ℕ⦄ ⦃p : HttpRequestParer State⦄, Holds m fpc xs →
    fpc + xs.length < 2 ^ 63 → Reading p s d →
    ∃ q, Steps (requestMachine relaxed) m fpc p xs q ∧ Reading q s₁ d₁

theorem Parses.nil : Parses relaxed s d [] s d := fun _ _ p _ _ hp => ⟨p, .nil, hp⟩

theorem Parses.append (h : Parses relaxed s d xs s₁ d₁) (h' : Parses relaxed s₁ d₁ ys s₂ d₂) :
    Parses relaxed s d (xs ++ ys) s₂ d₂ := by
  intro m fpc p hm hlen hp
  rw [List.length_append] at hlen
  obtain ⟨hxs, hys⟩ := holds_append.mp hm
  obtain ⟨q, hq, hread⟩ := h hxs (by omega) hp
  obtain ⟨r, hr, hread'⟩ := h' hys (by omega) hread
  exact ⟨r, hq.append hr, hread'⟩

theorem Parses.of_eq (h : Parses relaxed s d xs s₁ d₁) (heq : xs = ys) :
    Parses relaxed s d ys s₁ d₁ := heq ▸ h

theorem Parses.quiet (h : (requestMachine relaxed).quiet s xs = some s₁) :
    Parses relaxed s d xs s₁ d :=
  fun _ _ _ hm _ hp => ⟨_, .quiet h hm hp.cs, rfl, hp.error, hp.data⟩

theorem parses_token {c e : UInt8} {cs : List UInt8} {a : Action} {acts : List Action}
    (hfirst : requestNext relaxed s c = some ([a], s₁)) (ha : a ≠ .done)
    (hquiet : (requestMachine relaxed).quiet s₁ cs = some s₂)
    (hlast : requestNext relaxed s₂ e = some (acts, s₃)) (hdone : .done ∉ acts)
    (hacts : ∀ (m : Memory) (fpc : ℕ) (p : HttpRequestParer State),
      Holds m fpc (c :: cs ++ [e]) → fpc + (c :: cs).length < 2 ^ 63 → p.error = 0 → p.data = d →
      ∃ p₁ q, p.doAction m fpc a = some p₁ ∧
        ({ p₁ with cs := some s₂ }).doActions m (fpc + (c :: cs).length) acts = some q ∧
        q.error = 0 ∧ q.data = d') :
    Parses relaxed s d (c :: cs ++ [e]) s₃ d' := by
  intro m fpc p hm hlen hp
  have hsplit := holds_append.mp hm
  rw [List.length_append] at hlen
  obtain ⟨p₁, q, hp₁, hq, herror, hdata⟩ := hacts m fpc p hm (by omega) hp.error hp.data
  have hone : Steps (requestMachine relaxed) m fpc p [c] { p₁ with cs := some s₁ } := by
    refine .one hp.cs hm.1 hfirst (by simpa using ha.symm) ?_
    simp [HttpRequestParer.doActions, ha, hp₁]
  have hrest : Steps (requestMachine relaxed) m (fpc + 1) { p₁ with cs := some s₁ } cs
      { p₁ with cs := some s₂ } := .quiet hquiet hsplit.1.2 rfl
  have hend : Steps (requestMachine relaxed) m (fpc + (c :: cs).length)
      { p₁ with cs := some s₂ } [e] { q with cs := some s₃ } :=
    .one rfl hsplit.2.1 hlast hdone hq
  exact ⟨_, (hone.append hrest).append hend, rfl, herror, hdata⟩

theorem method_table : ∀ x ∈ httpMethodMap, x.1 ≠ .MSEARCH →
    (x.2 ≠ [] ∧ x.2.length ≤ 20 ∧ ∀ c ∈ x.2, upper c = true) ∧
    Decided (x.2 ++ [32]) ∧ charsToHttpMethod (cString (x.2 ++ [32])) = some x.1 := by
  have htable : ∀ x ∈ httpMethodMap, x.1 ≠ .MSEARCH →
      (x.2 ≠ [] ∧ x.2.length ≤ 20 ∧ x.2.all upper = true) ∧
      Decided (x.2 ++ [32]) ∧ charsToHttpMethod (cString (x.2 ++ [32])) = some x.1 := by
    decide +kernel
  intro x hx hne
  obtain ⟨⟨hlong, hshort, hupper⟩, hrest⟩ := htable x hx hne
  exact ⟨⟨hlong, hshort, List.all_eq_true.mp hupper⟩, hrest⟩

theorem quiet_method {n : ℕ} {cs : List UInt8} (h : ∀ c ∈ cs, (upper c || digit c) = true)
    (hn : n + cs.length ≤ 20) :
    (requestMachine relaxed).quiet (.method n) cs = some (.method (n + cs.length)) := by
  induction cs generalizing n with
  | nil => rfl
  | cons c cs ih =>
    rw [List.forall_mem_cons] at h
    rw [List.length_cons] at hn
    have hspace : isChar " " c = false := by
      rw [isChar_singleton (show ascii " " = [32] from rfl), decide_eq_false_iff_not]
      rintro rfl
      exact absurd h.1 (by decide)
    have hnext : (requestMachine relaxed).next (.method n) c = some ([], .method (n + 1)) := by
      change requestNext relaxed (.method n) c = _
      simp [requestNext, hspace, h.1, show n < 20 by omega]
    rw [Automaton.quiet, hnext]
    dsimp only
    rw [ih h.2 (by omega), List.length_cons, Nat.add_assoc, Nat.add_comm 1]

theorem parses_method {x : HttpMethod × List UInt8} (hx : x ∈ httpMethodMap)
    (hne : x.1 ≠ .MSEARCH) :
    Parses relaxed .start d (x.2 ++ [32]) .uri { d with method := x.1 } := by
  obtain ⟨⟨hnil, hlength, hupper⟩, hdecided, hchars⟩ := method_table x hx hne
  obtain ⟨method, name⟩ := x
  obtain ⟨c, cs, rfl⟩ := List.exists_cons_of_ne_nil hnil
  rw [List.forall_mem_cons] at hupper
  have hfirst : requestNext relaxed .start c = some ([.mark], .method 1) := by
    simp [requestNext, hupper.1]
  have hquiet := @quiet_method relaxed 1 cs (fun c hc => by rw [hupper.2 c hc, Bool.true_or])
    (by rw [Nat.add_comm]; exact hlength)
  have hlast : requestNext relaxed (.method (1 + cs.length)) 32 =
      some ([.requestMethod], .uri) := rfl
  apply parses_token hfirst (by decide) hquiet hlast (by decide)
  intro m fpc p hm hlen herror hdata
  have hmethod : charsToHttpMethod (fun i => m (fpc + i)) = some method := by
    rw [← hchars]
    have hslice : slice (fun i => m (fpc + i)) 0 (c :: cs ++ [32]).length = c :: cs ++ [32] := by
      rw [← hm.slice_eq, length_slice]
      exact slice_congr fun i _ => by rw [Nat.zero_add]
    refine charsToHttpMethod_congr (k := (c :: cs ++ [32]).length) (fun i hi => ?_) ?_
    · rw [hm.getElem i hi, cString_getElem hi]
    · rwa [hslice]
  refine ⟨{ p with mark := fpc }, _, rfl, rfl, ?_, ?_⟩
  · simp [HttpRequestParer.onRequestMethod, hmethod, herror]
  · simp [HttpRequestParer.onRequestMethod, hmethod, hdata]

theorem parses_path {rest : List UInt8} {e : UInt8} {acts : List Action}
    (h : PctString (pathByte relaxed) rest) (hhead : rest.head? ≠ some 47)
    (hslash : requestNext relaxed .slash e = some (.requestPath :: acts, s₃))
    (hpath : requestNext relaxed .path e = some (.requestPath :: acts, s₃))
    (hacts : acts = [] ∨ acts = [.requestUri]) :
    Parses relaxed .uri d (47 :: rest ++ [e]) s₃ { d with path := 47 :: rest } := by
  obtain ⟨s, hs, hquiet⟩ := quiet_slash h hhead
  have hlast : requestNext relaxed s e = some (.requestPath :: acts, s₃) := by
    rcases hs with rfl | rfl
    · exact hslash
    · exact hpath
  have hdone : .done ∉ .requestPath :: acts := by rcases hacts with rfl | rfl <;> decide
  apply parses_token (a := .mark) rfl nofun hquiet hlast hdone
  intro m fpc p hm hlen herror hdata
  have hstring := (holds_append.mp hm).1.string_eq hlen
  refine ⟨{ p with mark := fpc },
    { p with cs := some s, mark := fpc, data := { p.data with path := 47 :: rest } },
    rfl, ?_, herror, by rw [← hdata]⟩
  rcases hacts with rfl | rfl <;>
    simp [HttpRequestParer.doActions, HttpRequestParer.doAction, hstring, -List.length_cons]

theorem parses_query {e : UInt8} (h : PctString (queryByte relaxed) xs) (hne : xs ≠ [])
    (hlast : requestNext relaxed .query e = some ([.queryString, .requestUri], s₃)) :
    Parses relaxed .queryStart d (xs ++ [e]) s₃ { d with query := xs } := by
  obtain ⟨c, cs, s₁, rfl, hfirst, hquiet⟩ := queryLoop.enter .queryStart [.startQuery]
    (fun c _ hc => (query_next hc).1) rfl h hne
  apply parses_token hfirst nofun hquiet hlast (by decide)
  intro m fpc p hm hlen herror hdata
  have hstring := (holds_append.mp hm).1.string_eq hlen
  refine ⟨{ p with queryStart := fpc },
    { p with cs := some .query, queryStart := fpc, data := { p.data with query := c :: cs } },
    rfl, ?_, herror, by rw [← hdata]⟩
  simp [HttpRequestParer.doActions, HttpRequestParer.doAction, hstring, -List.length_cons]

theorem parses_fragment (h : PctString (queryByte relaxed) xs) (hne : xs ≠ []) :
    Parses relaxed .fragmentStart d (xs ++ [32]) (.version 0) { d with fragment := xs } := by
  obtain ⟨c, cs, s₁, rfl, hfirst, hquiet⟩ := fragmentLoop.enter .fragmentStart [.mark]
    (fun c _ hc => (query_next hc).2) rfl h hne
  have hlast : requestNext relaxed .fragment 32 = some ([.fragment], .version 0) := rfl
  apply parses_token hfirst nofun hquiet hlast (by decide)
  intro m fpc p hm hlen herror hdata
  have hstring := (holds_append.mp hm).1.string_eq hlen
  refine ⟨{ p with mark := fpc },
    { p with cs := some .fragment, mark := fpc, data := { p.data with fragment := c :: cs } },
    rfl, ?_, herror, by rw [← hdata]⟩
  simp [HttpRequestParer.doActions, HttpRequestParer.doAction, hstring, -List.length_cons]

theorem parses_target {method : HttpMethod} {rest query fragment : List UInt8}
    (hrest : PctString (pathByte relaxed) rest) (hhead : rest.head? ≠ some 47)
    (hquery : PctString (queryByte relaxed) query)
    (hfragment : PctString (queryByte relaxed) fragment) :
    Parses relaxed .uri { HttpRequest.new with method := method }
      (47 :: rest ++ (if query = [] then [] else [63]) ++ query ++
        (if fragment = [] then [] else [35]) ++ fragment ++ [32]) (.version 0)
      { HttpRequest.new with
        method := method, path := 47 :: rest, query := query, fragment := fragment } := by
  by_cases hq : query = [] <;> by_cases hf : fragment = []
  · subst hq hf
    exact (parses_path (e := 32) hrest hhead rfl rfl (.inr rfl)).of_eq (by simp)
  · subst hq
    exact ((parses_path (e := 35) hrest hhead rfl rfl (.inr rfl)).append
      (parses_fragment hfragment hf)).of_eq (by simp [hf])
  · subst hf
    exact ((parses_path (e := 63) hrest hhead rfl rfl (.inl rfl)).append
      (parses_query (e := 32) hquery hq rfl)).of_eq (by simp [hq])
  · exact (((parses_path (e := 63) hrest hhead rfl rfl (.inl rfl)).append
      (parses_query (e := 35) hquery hq rfl)).append (parses_fragment hfragment hf)).of_eq
        (by simp [hq, hf])

theorem showVersion_eq {v : UInt8} (h : v = 0x10 ∨ v = 0x11) :
    ∃ b, showVersion v = 72 :: (ascii "TTP/1." ++ [b]) ∧
      (b = 48 ∧ v = 0x10 ∨ b = 49 ∧ v = 0x11) := by
  rcases h with rfl | rfl
  · exact ⟨48, by decide +kernel, .inl ⟨rfl, rfl⟩⟩
  · exact ⟨49, by decide +kernel, .inr ⟨rfl, rfl⟩⟩

theorem quiet_lineFeed (relaxed : Bool) :
    (requestMachine relaxed).quiet .lineCr [10] = some .line := rfl

theorem parses_version {v : UInt8} (h : v = 0x10 ∨ v = 0x11) :
    Parses relaxed (.version 0) d (showVersion v ++ [13, 10]) .line { d with version := v } := by
  have hline : Parses relaxed (.version 0) d (showVersion v ++ [13]) .lineCr
      { d with version := v } := by
    obtain ⟨b, hshow, hb⟩ := showVersion_eq h
    rw [hshow]
    have hquiet : (requestMachine relaxed).quiet (.version 1) (ascii "TTP/1." ++ [b]) =
        some (.version 8) := by
      rcases hb with ⟨rfl, -⟩ | ⟨rfl, -⟩ <;> rfl
    have hlast : requestNext relaxed (.version 8) 13 = some ([.httpVersion], .lineCr) := rfl
    apply parses_token (a := .mark) rfl nofun hquiet hlast (by decide)
    intro m fpc p hm hlen herror hdata
    have hlength : lenTo fpc (fpc + (72 :: (ascii "TTP/1." ++ [b])).length) = 8 := by
      rw [lenTo_eq (Nat.le_add_right _ _) (by omega), Nat.add_sub_cancel_left]
      rfl
    have hcmp : ∀ t, strncmp (fun i => m (fpc + i)) t 8 =
        strncmp (cString (72 :: (ascii "TTP/1." ++ [b]))) t 8 := by
      intro t
      apply strncmp_congr _ fun _ _ => rfl
      intro i hi
      rw [(holds_append.mp hm).1.getElem i hi, cString_getElem hi]
    have hversion : ({ p with cs := some (.version 8), mark := fpc } : HttpRequestParer State
        ).onRequestVersion m fpc 8 =
        { p with cs := some (.version 8), mark := fpc, data := { p.data with version := v } } := by
      rw [HttpRequestParer.onRequestVersion, hcmp, hcmp]
      rcases hb with ⟨rfl, rfl⟩ | ⟨rfl, rfl⟩ <;> rfl
    refine ⟨{ p with mark := fpc },
      { p with cs := some (.version 8), mark := fpc, data := { p.data with version := v } },
      rfl, ?_, herror, by rw [← hdata]⟩
    simp [HttpRequestParer.doActions, HttpRequestParer.doAction, hlength, hversion,
      -List.length_cons]
  simpa using hline.append (.quiet (quiet_lineFeed relaxed))

end Pieces

section Headers
variable {relaxed : Bool} {d : HttpRequest} {m : Memory} {fpc : ℕ} {p : HttpRequestParer State}
  {name value : List UInt8} {c : UInt8}

def nameByte (c : UInt8) : Bool := token c && 32 ≤ c

def valueByte (c : UInt8) : Bool := 32 ≤ c && c ≠ 127

theorem quiet_all {σ : Type} {A : Automaton σ} {s : σ} {cs : List UInt8}
    (h : ∀ c ∈ cs, A.next s c = some ([], s)) : A.quiet s cs = some s := by
  induction cs with
  | nil => rfl
  | cons c cs ih =>
    rw [List.forall_mem_cons] at h
    rw [Automaton.quiet, h.1]
    exact ih h.2

theorem ne_of_le_byte {b : UInt8} (h : 32 ≤ c) (hb : b < 32) : c ≠ b := by
  rintro rfl
  exact UInt8.not_le.mpr hb h

theorem name_next (relaxed : Bool) (h : nameByte c = true) :
    requestNext relaxed .line c = some ([.startField], .field) ∧
      requestNext relaxed .field c = some ([], .field) := by
  simp only [nameByte, Bool.and_eq_true, decide_eq_true_eq] at h
  have hcolon : c ≠ 58 := by
    rintro rfl
    exact absurd h.1 (by decide)
  simp [requestNext, isChar_singleton (show ascii "\n" = [10] from rfl),
    isChar_singleton (show ascii "\r" = [13] from rfl),
    isChar_singleton (show ascii ":" = [58] from rfl), ne_of_le_byte h.2, h.1, hcolon]

theorem value_next {pre : List Action} (h : valueByte c = true) :
    valueNext pre c = some (pre, .value) := by
  simp only [valueByte, Bool.and_eq_true, decide_eq_true_eq] at h
  have hcontent : content c = true := by simp [content, ne_of_le_byte h.1, h.2]
  simp [valueNext, isChar_singleton (show ascii "\n" = [10] from rfl),
    isChar_singleton (show ascii "\r" = [13] from rfl), ne_of_le_byte h.1, hcontent]

theorem quiet_name (h : ∀ c ∈ name, nameByte c = true) :
    (requestMachine relaxed).quiet .field name = some .field := by
  apply quiet_all
  intro c hc
  exact (name_next relaxed (h c hc)).2

theorem quiet_value (h : ∀ c ∈ value, valueByte c = true) :
    (requestMachine relaxed).quiet .value value = some .value := by
  apply quiet_all
  intro c hc
  exact value_next (h c hc)

structure Named (m : Memory) (p : HttpRequestParer State) (name : List UInt8) (d : HttpRequest) :
    Prop extends Reading p .valueStart d where
  field : string m p.fieldStart p.fieldLen = some name

theorem reads_name (relaxed : Bool) (hne : name ≠ []) (hname : ∀ c ∈ name, nameByte c = true)
    (hm : Holds m fpc (name ++ [58])) (hlen : fpc + name.length < 2 ^ 63) (hp : Reading p .line d) :
    ∃ q, Steps (requestMachine relaxed) m fpc p (name ++ [58]) q ∧ Named m q name d := by
  obtain ⟨c, cs, rfl⟩ := List.exists_cons_of_ne_nil hne
  obtain ⟨hstring, hcolon, -⟩ := holds_append.mp hm
  rw [List.forall_mem_cons] at hname
  have hstart : requestNext relaxed .line c = some ([.startField], .field) :=
    (name_next relaxed hname.1).1
  have hfirst : Steps (requestMachine relaxed) m fpc p [c]
      { p with cs := some .field, fieldStart := fpc } := by
    refine .one hp.cs hm.1 hstart ?_ (q := { p with fieldStart := fpc }) rfl
    decide
  have hrest : Steps (requestMachine relaxed) m (fpc + 1)
      { p with cs := some .field, fieldStart := fpc } cs
      { p with cs := some .field, fieldStart := fpc } :=
    .quiet (quiet_name hname.2) hstring.2 rfl
  have hlast : Steps (requestMachine relaxed) m (fpc + (c :: cs).length)
      { p with cs := some .field, fieldStart := fpc } [58]
      { p with cs := some .valueStart, fieldStart := fpc,
               fieldLen := lenTo fpc (fpc + (c :: cs).length) } := by
    refine .one rfl hcolon (show requestNext relaxed .field 58 =
      some ([.writeField], .valueStart) from rfl) ?_
      (q := { p with cs := some .field, fieldStart := fpc,
                     fieldLen := lenTo fpc (fpc + (c :: cs).length) }) rfl
    decide
  exact ⟨_, (hfirst.append hrest).append hlast, ⟨rfl, hp.error, hp.data⟩, hstring.string_eq hlen⟩

theorem reads_value (relaxed : Bool) (hvalue : ∀ c ∈ value, valueByte c = true)
    (hblank : value.head? ≠ some 32) (hm : Holds m fpc (value ++ [13]))
    (hlen : fpc + value.length < 2 ^ 63)
    (hp : Named m p name d) :
    ∃ q, Steps (requestMachine relaxed) m fpc p (value ++ [13]) q ∧
      Reading q .lineCr (d.setHeader name value) := by
  obtain ⟨hholds, hcr, -⟩ := holds_append.mp hm
  have hstring := hholds.string_eq hlen
  cases value with
  | nil =>
    have hend : Steps (requestMachine relaxed) m fpc p [13]
        { p with cs := some .lineCr, mark := fpc, data := p.data.setHeader name [] } := by
      refine .one hp.cs hm.1 (show requestNext relaxed .valueStart 13 =
        some ([.startValue, .writeValue], .lineCr) from rfl) (by decide)
        (q := { p with mark := fpc, data := p.data.setHeader name [] }) ?_
      rw [List.length_nil, Nat.add_zero] at hstring
      simp [HttpRequestParer.doActions, HttpRequestParer.doAction, hp.field, hstring]
    exact ⟨_, hend, rfl, hp.error, by rw [← hp.data]⟩
  | cons c cs =>
    rw [List.forall_mem_cons] at hvalue
    have hstart : requestNext relaxed .valueStart c = some ([.startValue], .value) := by
      have hle : 32 ≤ c := by simpa [valueByte] using (Bool.and_eq_true_iff.mp hvalue.1).1
      have hnot : isChar " \t" c = false := by
        have hsub : ascii " \t" = [32, 9] := rfl
        have hspace : c ≠ 32 := fun h => hblank (congrArg some h)
        simp [isChar, hsub, hspace, ne_of_le_byte hle]
      rw [requestNext, hnot, if_neg Bool.false_ne_true]
      exact value_next hvalue.1
    have hfirst : Steps (requestMachine relaxed) m fpc p [c]
        { p with cs := some .value, mark := fpc } := by
      refine .one hp.cs hm.1 hstart ?_ (q := { p with mark := fpc }) rfl
      decide
    have hrest : Steps (requestMachine relaxed) m (fpc + 1)
        { p with cs := some .value, mark := fpc } cs { p with cs := some .value, mark := fpc } :=
      .quiet (quiet_value hvalue.2) hholds.2 rfl
    have hend : Steps (requestMachine relaxed) m (fpc + (c :: cs).length)
        { p with cs := some .value, mark := fpc } [13]
        { p with cs := some .lineCr, mark := fpc, data := p.data.setHeader name (c :: cs) } := by
      refine .one rfl hcr (show requestNext relaxed .value 13 =
        some ([.writeValue], .lineCr) from rfl) (by decide)
        (q := { p with cs := some .value, mark := fpc, data := p.data.setHeader name (c :: cs) }) ?_
      simp [HttpRequestParer.doActions, HttpRequestParer.doAction, hp.field, hstring,
        -List.length_cons]
    exact ⟨_, (hfirst.append hrest).append hend, rfl, hp.error, by rw [← hp.data]⟩

theorem parses_header (blank : List UInt8) (hne : name ≠ [])
    (hname : ∀ c ∈ name, nameByte c = true) (hvalue : ∀ c ∈ value, valueByte c = true)
    (hhead : value.head? ≠ some 32) (hblank : blank = [] ∨ blank = [32]) :
    Parses relaxed .line d (name ++ [58] ++ blank ++ value ++ [13, 10]) .line
      (d.setHeader name value) := by
  have hline : Parses relaxed .line d (name ++ [58] ++ blank ++ (value ++ [13])) .lineCr
      (d.setHeader name value) := by
    intro m fpc p hm hlen hp
    simp only [List.length_append] at hlen
    obtain ⟨hm, hv⟩ := holds_append.mp hm
    obtain ⟨hn, hb⟩ := holds_append.mp hm
    obtain ⟨q, hsteps, hq⟩ := reads_name relaxed hne hname hn (by omega) hp
    have hskip : ∃ r, Steps (requestMachine relaxed) m (fpc + (name ++ [58]).length) q blank r ∧
        Named m r name d := by
      rcases hblank with rfl | rfl
      · exact ⟨q, .nil, hq⟩
      · refine ⟨_, .one hq.cs hb.1 (show requestNext relaxed .valueStart 32 =
          some ([.startValue], .valueStart) from rfl) (by decide) rfl, ⟨rfl, hq.error, hq.data⟩, ?_⟩
        exact hq.field
    obtain ⟨r, hsteps', hr⟩ := hskip
    obtain ⟨u, hsteps'', hu⟩ := reads_value relaxed hvalue hhead hv
      (by simp only [List.length_append]; omega) hr
    exact ⟨u, (hsteps.append hsteps').append hsteps'', hu⟩
  exact (hline.append (.quiet (quiet_lineFeed relaxed))).of_eq (by simp)

structure GoodHeader (h : List UInt8 × List UInt8) : Prop where
  name_ne : h.1 ≠ []
  name : ∀ c ∈ h.1, nameByte c = true
  value : ∀ c ∈ h.2, valueByte c = true
  head : h.2.head? ≠ some 32

def HttpRequest.addPrinted (d : HttpRequest) (h : List UInt8 × List UInt8) : HttpRequest :=
  if foldKey h.1 = foldKey (ascii "connection") then d else d.setHeader h.1 h.2

theorem parses_headers {hs : List (List UInt8 × List UInt8)} (h : ∀ x ∈ hs, GoodHeader x) :
    Parses relaxed .line d (hs.flatMap (showHeader (ascii ":"))) .line
      (hs.foldl HttpRequest.addPrinted d) := by
  induction hs generalizing d with
  | nil => exact .nil
  | cons x hs ih =>
    rw [List.forall_mem_cons] at h
    rw [List.flatMap_cons, List.foldl_cons]
    refine Parses.append ?_ (ih h.2)
    rw [showHeader, HttpRequest.addPrinted]
    split_ifs with hconnection
    · exact .nil
    · exact (parses_header [] h.1.name_ne h.1.name h.1.value h.1.head (.inl rfl)).of_eq
        (by rw [List.append_nil]; rfl)

theorem parses_connection (close : Bool) :
    Parses relaxed .line d (showConnection close) .line
      (d.setHeader (ascii "connection") (if close then ascii "close" else ascii "keep-alive")) := by
  have hvalue : ∀ c ∈ (if close then ascii "close" else ascii "keep-alive"),
      valueByte c = true := by cases close <;> decide +kernel
  have hhead : (if close then ascii "close" else ascii "keep-alive").head? ≠ some 32 := by
    cases close <;> decide +kernel
  exact (parses_header [32] (by decide) (by decide +kernel) hvalue hhead
    (.inr rfl)).of_eq (by cases close <;> rfl)

theorem showNat_byte {n : ℕ} : ∀ c ∈ showNat n, valueByte c = true ∧ c ≠ 32 := by
  intro c hc
  obtain ⟨x, hx, rfl⟩ := List.mem_map.mp hc
  have hdigit := Nat.isDigit_of_mem_toDigits (by decide) (by decide) hx
  simp only [Char.isDigit, Bool.and_eq_true, decide_eq_true_eq, ge_iff_le,
    UInt32.le_iff_toNat_le] at hdigit
  obtain ⟨k, hk⟩ : ∃ k, k = x.toNat := ⟨_, rfl⟩
  have hlower : 48 ≤ k := hk ▸ hdigit.1
  have hupper : k ≤ 57 := hk ▸ hdigit.2
  rw [← hk]
  interval_cases k <;> decide

theorem parses_length (n : ℕ) :
    Parses relaxed .line d (ascii "content-length: " ++ showNat n ++ [13, 10]) .line
      (d.setHeader (ascii "content-length") (showNat n)) := by
  have hhead : (showNat n).head? ≠ some 32 :=
    fun h => (showNat_byte 32 (List.mem_of_head? h)).2 rfl
  exact (parses_header [32] (by decide) (by decide +kernel)
    (fun c hc => (showNat_byte c hc).1) hhead (.inr rfl)).of_eq rfl

theorem run_end (relaxed : Bool) (n : ℕ) (hm : Holds m fpc [13, 10]) (hp : Reading p .line d) :
    ∃ q, p.run (requestMachine relaxed) m (2 + n) fpc = some (q, fpc + 2) ∧
      Reading q .final d := by
  have hcr : Steps (requestMachine relaxed) m fpc p [13]
      { p with cs := some .lastCr, fieldStart := fpc } := by
    have hnext : requestNext relaxed .line 13 = some ([.startField], .lastCr) := rfl
    refine .one hp.cs hm.1 hnext ?_ (q := { p with fieldStart := fpc }) rfl
    decide
  have hlf : (requestMachine relaxed).next .lastCr 10 = some ([.done], .final) := rfl
  refine ⟨{ p with cs := some .final, fieldStart := fpc }, ?_, rfl, hp.error, hp.data⟩
  have hrun := hcr (n + 1)
  rw [List.length_singleton, ← Nat.add_assoc, Nat.add_right_comm] at hrun
  rw [hrun, HttpRequestParer.run, Option.bind_some, hm.2.1, hlf]
  simp [HttpRequestParer.doActions]

end Headers

section Map
variable {d : HttpRequest} {key : List UInt8} {hs hs' : List (List UInt8 × List UInt8)}

def SameLine (r r' : HttpRequest) : Prop :=
  r'.method = r.method ∧ r'.version = r.version ∧ r'.path = r.path ∧ r'.query = r.query ∧
    r'.fragment = r.fragment

theorem SameLine.trans {r r' r'' : HttpRequest} (h : SameLine r r') (h' : SameLine r' r'') :
    SameLine r r'' :=
  ⟨h'.1.trans h.1, h'.2.1.trans h.2.1, h'.2.2.1.trans h.2.2.1, h'.2.2.2.1.trans h.2.2.2.1,
    h'.2.2.2.2.trans h.2.2.2.2⟩

theorem setHeader_line (r : HttpRequest) (key val : List UInt8) :
    SameLine r (r.setHeader key val) := by
  rw [HttpRequest.setHeader]
  split_ifs <;> exact ⟨rfl, rfl, rfl, rfl, rfl⟩

theorem foldl_addPrinted_line (d : HttpRequest) (hs : List (List UInt8 × List UInt8)) :
    SameLine d (hs.foldl HttpRequest.addPrinted d) := by
  induction hs generalizing d with
  | nil => exact ⟨rfl, rfl, rfl, rfl, rfl⟩
  | cons h hs ih =>
    rw [List.foldl_cons, HttpRequest.addPrinted]
    split_ifs
    · exact ih d
    · exact (setHeader_line d h.1 h.2).trans (ih _)

theorem find_write (k val : List UInt8) :
    (hs.map fun h => if foldKey h.1 = foldKey k then (h.1, val) else h).find?
        (foldKey ·.1 == foldKey key) =
      (hs.find? (foldKey ·.1 == foldKey key)).map fun h =>
        if foldKey h.1 = foldKey k then (h.1, val) else h := by
  rw [List.find?_map]
  congr 2
  funext h
  dsimp only [Function.comp_apply]
  split_ifs <;> rfl

theorem getHeader_setHeader (r : HttpRequest) (k val key : List UInt8) :
    (r.setHeader k val).getHeader key =
      if foldKey k = foldKey key then some val else r.getHeader key := by
  rw [HttpRequest.setHeader]
  by_cases hany : r.headers.any (foldKey ·.1 == foldKey k) = true
  · rw [if_pos hany, HttpRequest.getHeader, HttpRequest.getHeader, find_write]
    cases hfind : r.headers.find? (foldKey ·.1 == foldKey key) with
    | none =>
      have hne : foldKey k ≠ foldKey key := by
        intro heq
        rw [heq, List.any_eq_true] at hany
        obtain ⟨x, hx, hkey⟩ := hany
        exact List.find?_eq_none.mp hfind x hx hkey
      rw [if_neg hne]
      rfl
    | some x =>
      have hx : foldKey x.1 = foldKey key := by simpa using List.find?_some hfind
      simp only [Option.map_some, hx, eq_comm (a := foldKey key)]
      split_ifs <;> rfl
  · rw [if_neg hany, HttpRequest.getHeader, HttpRequest.getHeader, List.find?_append]
    by_cases hkey : foldKey k = foldKey key
    · have hnone : r.headers.find? (foldKey ·.1 == foldKey key) = none := by
        rw [List.find?_eq_none]
        intro x hx hfind
        rw [← hkey] at hfind
        exact hany (List.any_eq_true.mpr ⟨x, hx, hfind⟩)
      simp [hnone, hkey]
    · simp [hkey]

theorem getHeader_foldl (hkeys : hs.Pairwise fun a b => foldKey a.1 ≠ foldKey b.1)
    (hkey : foldKey key ≠ foldKey (ascii "connection")) :
    (hs.foldl HttpRequest.addPrinted d).getHeader key =
      ((hs.find? (foldKey ·.1 == foldKey key)).map (·.2)).or (d.getHeader key) := by
  induction hs generalizing d with
  | nil => rfl
  | cons h hs ih =>
    rw [List.pairwise_cons] at hkeys
    rw [List.foldl_cons, ih hkeys.2, HttpRequest.addPrinted]
    by_cases heq : foldKey h.1 = foldKey key
    · have hnone : hs.find? (foldKey ·.1 == foldKey key) = none := by
        rw [List.find?_eq_none]
        intro x hx
        have := hkeys.1 x hx
        simpa [heq] using Ne.symm (heq ▸ this)
      rw [if_neg (heq ▸ hkey), getHeader_setHeader, if_pos heq, hnone,
        List.find?_cons_of_pos (by simpa using heq)]
      rfl
    · rw [List.find?_cons_of_neg (by simpa using heq)]
      split_ifs
      · rfl
      · rw [getHeader_setHeader, if_neg heq]

theorem find_perm (hperm : hs.Perm hs') (hkeys : hs.Pairwise fun a b => foldKey a.1 ≠ foldKey b.1) :
    hs.find? (foldKey ·.1 == foldKey key) = hs'.find? (foldKey ·.1 == foldKey key) := by
  induction hperm with
  | nil => rfl
  | cons x _ ih =>
    rw [List.pairwise_cons] at hkeys
    rw [List.find?_cons, List.find?_cons, ih hkeys.2]
  | swap x y l =>
    have hne : foldKey y.1 ≠ foldKey x.1 := by
      rw [List.pairwise_cons] at hkeys
      exact hkeys.1 x List.mem_cons_self
    simp only [List.find?_cons]
    cases hx : foldKey x.1 == foldKey key with
    | false => rfl
    | true =>
      have hy : (foldKey y.1 == foldKey key) = false := by
        rw [beq_eq_false_iff_ne, ← eq_of_beq hx]
        exact hne
      rw [hy]
  | trans h₁ _ ih₁ ih₂ =>
    rw [ih₁ hkeys, ih₂ (hkeys.perm h₁ fun h => h.symm)]

end Map

section Execute
variable {relaxed : Bool} {d : HttpRequest} {head body text xs : List UInt8}

theorem holds_store (data : Memory) (text : List UInt8) : Holds (store data 0 text) 0 text := by
  apply holds_of_getElem
  intro i hi
  rw [Nat.zero_add, store_getElem data hi]

theorem execute_of_parses (queryStart : ℕ) (data : Memory)
    (htext : text = head ++ ([13, 10] ++ body)) (hsize : text.length < 2 ^ 63)
    (hparses : Parses relaxed .start .new head .line d) :
    ∃ p rest, (HttpRequestParer.new (requestMachine relaxed) queryStart).execute
        (requestMachine relaxed) (store data 0 text) text.length =
          some (p, rest, text.length - body.length) ∧
      Reading p .final d ∧ slice rest 0 body.length = body := by
  have hlen : text.length = head.length + (2 + body.length) := by
    rw [htext, List.length_append, List.length_append]
    rfl
  have hholds := holds_store data text
  obtain ⟨m, hm⟩ : ∃ m, m = store data 0 text := ⟨_, rfl⟩
  rw [← hm] at hholds ⊢
  rw [htext] at hholds
  obtain ⟨hhead, hrest⟩ := holds_append.mp hholds
  obtain ⟨hend, hbody⟩ := holds_append.mp hrest
  have hnew : Reading { HttpRequestParer.new (requestMachine relaxed) queryStart with
      mark := 0, fieldLen := 0, fieldStart := 0 } .start .new := ⟨rfl, rfl, rfl⟩
  obtain ⟨q, hsteps, hq⟩ := hparses hhead (by omega) hnew
  obtain ⟨u, hrun, hu⟩ := run_end relaxed body.length hend hq
  have hexec : (HttpRequestParer.new (requestMachine relaxed) queryStart).httpParserExecute
      (requestMachine relaxed) m text.length = some (u, head.length + 2) := by
    rw [HttpRequestParer.httpParserExecute, if_neg (by omega), hlen, hsteps, hrun, Nat.zero_add]
  have hconsumed : text.length - body.length = head.length + 2 := by omega
  refine ⟨u, fun i => if i < text.length - (head.length + 2) then m (head.length + 2 + i) else m i,
    ?_, hu, ?_⟩
  · rw [HttpRequestParer.execute, hexec, hconsumed]
    rfl
  · rw [Nat.zero_add] at hbody
    conv_rhs => rw [← hbody.slice_eq]
    apply slice_congr
    intro i hi
    have hi' : 0 + i < text.length - (head.length + 2) := by omega
    rw [if_pos hi', Nat.zero_add]
    rfl

theorem hasError_of_stuck {queryStart e : ℕ} {data rest : Memory} {p : HttpRequestParer State}
    (hbegins : xs <+: text) (hstuck : (requestMachine relaxed).stuck .start xs = true)
    (hexec : (HttpRequestParer.new (requestMachine relaxed) queryStart).execute
      (requestMachine relaxed) (store data 0 text) text.length = some (p, rest, e)) :
    p.hasError = true := by
  have hne : xs ≠ [] := by
    rintro rfl
    cases hstuck
  have hlen := hbegins.length_le
  have hpos := List.length_pos_iff.mpr hne
  obtain ⟨tail, htail⟩ := hbegins
  obtain ⟨⟨q, k⟩, hrun, hexec⟩ := Option.bind_eq_some_iff.mp hexec
  cases hexec
  rw [HttpRequestParer.httpParserExecute, if_neg (by omega)] at hrun
  have hholds := holds_store data text
  nth_rewrite 2 [← htail] at hholds
  have hcs := cs_of_stuck hstuck (holds_append.mp hholds).1 rfl hlen hrun
  simp [HttpRequestParer.hasError, hcs]

end Execute

section RoundTrip
variable {relaxed : Bool} {r : HttpRequest}

/-- A request whose parts the grammar accepts. The names of the headers differ because they are the
keys of a map. -/
structure Printable (relaxed : Bool) (r : HttpRequest) : Prop where
  version : r.version = 0x10 ∨ r.version = 0x11
  path : ∃ rest, r.path = 47 :: rest ∧ rest.head? ≠ some 47 ∧ PctString (pathByte relaxed) rest
  query : PctString (queryByte relaxed) r.query
  fragment : PctString (queryByte relaxed) r.fragment
  headers : ∀ h ∈ r.headers, GoodHeader h
  keys : r.headers.Pairwise fun a b => foldKey a.1 ≠ foldKey b.1
  size : r.dump.length < 2 ^ 63

def RoundTrips (relaxed : Bool) (queryStart : ℕ) (data : Memory) (r : HttpRequest) : Prop :=
  ∃ p rest, (HttpRequestParer.new (requestMachine relaxed) queryStart).execute
      (requestMachine relaxed) (store data 0 r.dump) r.dump.length =
        some (p, rest, r.dump.length - r.body.length) ∧
    p.hasError = false ∧ p.isFinished (requestMachine relaxed) = 1 ∧
    p.data.method = r.method ∧ p.data.version = r.version ∧ p.data.path = r.path ∧
    p.data.query = r.query ∧ p.data.fragment = r.fragment ∧
    (∀ key, foldKey key ≠ foldKey (ascii "connection") →
      foldKey key ≠ foldKey (ascii "content-length") → p.data.getHeader key = r.getHeader key) ∧
    slice rest 0 r.body.length = r.body

def printedHead (r : HttpRequest) : List UInt8 :=
  httpMethodToString r.method ++ [32] ++
    (r.path ++ (if r.query = [] then [] else [63]) ++ r.query ++
      (if r.fragment = [] then [] else [35]) ++ r.fragment ++ [32]) ++
    (showVersion r.version ++ [13, 10]) ++ showConnection r.close ++
    (inOrder r.headers).flatMap (showHeader (ascii ":")) ++
    if r.body ≠ [] then ascii "content-length: " ++ showNat r.body.length ++ [13, 10] else []

theorem dump_eq (r : HttpRequest) : r.dump = printedHead r ++ ([13, 10] ++ r.body) := by
  have hspace : ascii " " = [32] := rfl
  have hquestion : ascii "?" = [63] := rfl
  have hhash : ascii "#" = [35] := rfl
  have hline : ascii "\r\n" = [13, 10] := rfl
  have hlines : ascii "\r\n\r\n" = [13, 10] ++ [13, 10] := rfl
  rw [HttpRequest.dump, printedHead, showBody, hspace, hquestion, hhash, hline, hlines]
  by_cases hbody : r.body = []
  · simp [hbody]
  · simp [hbody]

theorem mem_httpMethodMap (m : HttpMethod) : (m, httpMethodToString m) ∈ httpMethodMap := by
  have hsome : (httpMethodMap.find? fun x => x.1 = m).isSome = true := by cases m <;> rfl
  obtain ⟨x, hx⟩ := Option.isSome_iff_exists.mp hsome
  have hm : x.1 = m := by simpa using List.find?_some hx
  rw [httpMethodToString, hx, ← hm]
  exact List.mem_of_find?_eq_some hx

def parsedLine (r : HttpRequest) : HttpRequest :=
  { HttpRequest.new with
    method := r.method, path := r.path, query := r.query, fragment := r.fragment,
    version := r.version }

def parsedHead (r : HttpRequest) : HttpRequest :=
  let d := (inOrder r.headers).foldl HttpRequest.addPrinted
    ((parsedLine r).setHeader (ascii "connection")
      (if r.close then ascii "close" else ascii "keep-alive"))
  if r.body ≠ [] then d.setHeader (ascii "content-length") (showNat r.body.length) else d

theorem parses_head (h : Printable relaxed r) (hne : r.method ≠ .MSEARCH) :
    Parses relaxed .start HttpRequest.new (printedHead r) .line (parsedHead r) := by
  obtain ⟨rest, hpath, hhead, hrest⟩ := h.path
  have hheaders : ∀ x ∈ inOrder r.headers, GoodHeader x := by
    intro x hx
    exact h.headers x ((List.perm_insertionSort _ _).mem_iff.mp hx)
  have hline : Parses relaxed .start HttpRequest.new (httpMethodToString r.method ++ [32] ++
      (r.path ++ (if r.query = [] then [] else [63]) ++ r.query ++
        (if r.fragment = [] then [] else [35]) ++ r.fragment ++ [32]) ++
      (showVersion r.version ++ [13, 10])) .line (parsedLine r) := by
    rw [parsedLine, hpath]
    exact ((parses_method (mem_httpMethodMap r.method) hne).append
      (parses_target hrest hhead h.query h.fragment)).append (parses_version h.version)
  have hlines := (hline.append (parses_connection r.close)).append (parses_headers hheaders)
  rw [printedHead, parsedHead]
  by_cases hbody : r.body ≠ []
  · rw [if_pos hbody, if_pos hbody]
    exact hlines.append (parses_length r.body.length)
  · rw [if_neg hbody, if_neg hbody]
    exact hlines.append .nil

theorem parsedHead_line (r : HttpRequest) : SameLine r (parsedHead r) := by
  have hline : SameLine r (parsedLine r) := ⟨rfl, rfl, rfl, rfl, rfl⟩
  rw [parsedHead]
  by_cases hbody : r.body ≠ []
  · rw [if_pos hbody]
    exact ((hline.trans (setHeader_line _ _ _)).trans (foldl_addPrinted_line _ _)).trans
      (setHeader_line _ _ _)
  · rw [if_neg hbody]
    exact (hline.trans (setHeader_line _ _ _)).trans (foldl_addPrinted_line _ _)

theorem getHeader_parsedHead (h : Printable relaxed r) {key : List UInt8}
    (hconnection : foldKey key ≠ foldKey (ascii "connection"))
    (hlength : foldKey key ≠ foldKey (ascii "content-length")) :
    (parsedHead r).getHeader key = r.getHeader key := by
  have hperm : (inOrder r.headers).Perm r.headers := List.perm_insertionSort _ _
  have hkeys := h.keys.perm hperm.symm fun h => h.symm
  have hfold : ∀ d : HttpRequest, d.getHeader key = none →
      ((inOrder r.headers).foldl HttpRequest.addPrinted d).getHeader key = r.getHeader key := by
    intro d hd
    rw [getHeader_foldl hkeys hconnection, hd, Option.or_none, find_perm hperm hkeys]
    rfl
  have hnone : ∀ (d : HttpRequest) (val : List UInt8), d.getHeader key = none →
      (d.setHeader (ascii "connection") val).getHeader key = none := by
    intro d val hd
    rw [getHeader_setHeader, if_neg hconnection.symm, hd]
  rw [parsedHead]
  by_cases hbody : r.body ≠ []
  · rw [if_pos hbody, getHeader_setHeader, if_neg hlength.symm]
    exact hfold _ (hnone _ _ rfl)
  · rw [if_neg hbody]
    exact hfold _ (hnone _ _ rfl)

theorem roundTrips_of_ne (queryStart : ℕ) (data : Memory) (h : Printable relaxed r)
    (hne : r.method ≠ .MSEARCH) : RoundTrips relaxed queryStart data r := by
  obtain ⟨u, rest, hexec, hu, hrest⟩ := execute_of_parses queryStart data (dump_eq r) h.size
    (parses_head h hne)
  have hline := parsedHead_line r
  rw [← hu.data] at hline
  refine ⟨u, rest, hexec, ?_, ?_, hline.1, hline.2.1, hline.2.2.1, hline.2.2.2.1, hline.2.2.2.2, ?_,
    hrest⟩
  · rw [hasError_eq hu.cs, hu.error]
    rfl
  · rw [isFinished_eq hu.cs]
    rfl
  · intro key hconnection hlength
    rw [hu.data]
    exact getHeader_parsedHead h hconnection hlength

/-- The name with blanks ends at the first of them, so the target and the version are not where the
parser looks for them. -/
theorem hasError_of_msearch {queryStart e : ℕ} {data rest : Memory} {p : HttpRequestParer State}
    (hmethod : r.method = .MSEARCH)
    (hexec : (HttpRequestParer.new (requestMachine relaxed) queryStart).execute
      (requestMachine relaxed) (store data 0 r.dump) r.dump.length = some (p, rest, e)) :
    p.hasError = true := by
  have hname : httpMethodToString .MSEARCH = ascii "M - S" ++ ascii "EARCH" := by decide +kernel
  have hbegins : ascii "M - S" <+: r.dump := by
    rw [HttpRequest.dump, hmethod, hname]
    simp only [List.append_assoc]
    exact List.prefix_append _ _
  have hstuck : (requestMachine relaxed).stuck .start (ascii "M - S") = true := by
    cases relaxed <;> decide +kernel
  exact hasError_of_stuck hbegins hstuck hexec

/-- The parser undoes the printer for every method but the one whose name is spelt with blanks. -/
theorem round_trips_iff (relaxed : Bool) (queryStart : ℕ) (data : Memory) (r : HttpRequest)
    (h : Printable relaxed r) : RoundTrips relaxed queryStart data r ↔ r.method ≠ .MSEARCH := by
  constructor
  · rintro ⟨p, rest, hexec, herror, -⟩ hmethod
    rw [hasError_of_msearch hmethod hexec] at herror
    cases herror
  · exact roundTrips_of_ne queryStart data h

end RoundTrip

def sampleRequest (method : HttpMethod) : HttpRequest :=
  ⟨method, 0x10, false, ascii "/a%20", ascii "b=1", ascii "c",
    [(ascii "Host", ascii "x y"), (ascii "Accept", [])], ascii "hello"⟩

theorem printable_sampleRequest {method : HttpMethod} (h : method = .POST ∨ method = .MSEARCH) :
    Printable false (sampleRequest method) where
  version := .inl rfl
  path := ⟨ascii "a%20", rfl, by decide, .char (by decide) (.pct (by decide) (by decide) .nil)⟩
  query := .char (by decide) (.char (by decide) (.char (by decide) .nil))
  fragment := .char (by decide) .nil
  headers h hh := by
    rcases List.mem_pair.mp hh with rfl | rfl
    · exact ⟨by decide, by decide +kernel, by decide +kernel, by decide⟩
    · exact ⟨by decide, by decide +kernel, by decide +kernel, by decide⟩
  keys := by rcases h with rfl | rfl <;> decide +kernel
  size := by rcases h with rfl | rfl <;> decide +kernel

theorem round_trips_iff_post : RoundTrips false 0 (fun _ => 0) (sampleRequest .POST) :=
  (round_trips_iff false 0 (fun _ => 0) _ (printable_sampleRequest (.inl rfl))).mpr (by decide)

/-- The blank in the name ends the method, and the parser stops at the `S`. -/
theorem msearch_not_parsed :
    Printable false (sampleRequest .MSEARCH) ∧
    ((HttpRequestParer.new (requestMachine false) 0).execute (requestMachine false)
        (store (fun _ => 0) 0 (sampleRequest .MSEARCH).dump)
        (sampleRequest .MSEARCH).dump.length).map (fun r => (r.1.hasError, r.1.data.path, r.2.2)) =
      some (true, ascii "-", 4) ∧
    ¬ RoundTrips false 0 (fun _ => 0) (sampleRequest .MSEARCH) := by
  refine ⟨printable_sampleRequest (.inr rfl), by decide +kernel, ?_⟩
  rintro ⟨p, rest, hexec, herror, -⟩
  rw [hasError_of_msearch rfl hexec] at herror
  cases herror

end ApexStorm.Http
