import Mathlib.Data.List.TakeWhile
import ApexStorm.Http.Print

/-!
# Recognising the method of a request

`StringToHttpMethod` compares a token with the names of the methods. The parser calls
`CharsToHttpMethod`, which looks for a name at the beginning of the buffer instead: a
name that the token goes on behind is taken for the token, and the name that is spelt
with blanks is found across the end of the token.
-/

namespace ApexStorm.Http

/-- Whether `strcmp(s, t) == 0`. -/
def strcmp (s t : List UInt8) : Bool := s.takeWhile (· ≠ 0) = t.takeWhile (· ≠ 0)

def stringToHttpMethod (m : List UInt8) : Option HttpMethod :=
  (httpMethodMap.find? fun x => strcmp x.2 m).map (·.1)

structure MethodToken (t : List UInt8) : Prop where
  ne_nil : t ≠ []
  length : t.length ≤ 20
  bytes : ∀ c ∈ t, (upper c || digit c) = true

/-- No name of a method ends inside the token, and the one with blanks does not begin with it. -/
def ExactMatch (m : Memory) (pos : ℕ) (t : List UInt8) : Prop :=
  (∀ x ∈ httpMethodMap, x.2 <+: t → x.2 = t) ∧
    ¬(t = ascii "M" ∧ slice m (pos + 2) 8 = ascii "- SEARCH")

theorem find?_unique {α : Type} {P : α → Bool} {l : List α} {x : α} (hx : x ∈ l)
    (hP : P x = true) (huniq : ∀ y ∈ l, P y = true → y = x) : l.find? P = some x := by
  obtain ⟨y, hy⟩ := Option.isSome_iff_exists.mp (List.find?_isSome.mpr ⟨x, hx, hP⟩)
  rw [hy, huniq y (List.mem_of_find?_eq_some hy) (List.find?_some hy)]

section Names

theorem names_upper : ∀ x ∈ httpMethodMap, x.1 ≠ .MSEARCH → ∀ c ∈ x.2, upper c = true :=
  fun x hx hne => (method_table x hx hne).1.2.2

theorem names_apart : ∀ x ∈ httpMethodMap, ∀ y ∈ httpMethodMap, x.2 <+: y.2 → x = y := by
  decide +kernel

theorem msearch_name : ∀ x ∈ httpMethodMap, x.1 = .MSEARCH →
    x.2 = 77 :: 32 :: ascii "- SEARCH" := by
  decide +kernel

end Names

section Token
variable {m : Memory} {pos : ℕ} {t : List UInt8}

theorem MethodToken.ne_space (ht : MethodToken t) {c : UInt8} (hc : c ∈ t) : c ≠ 32 := by
  rintro rfl
  exact absurd (ht.bytes 32 hc) (by decide)

theorem MethodToken.ne_zero (ht : MethodToken t) {c : UInt8} (hc : c ∈ t) : c ≠ 0 := by
  rintro rfl
  exact absurd (ht.bytes 0 hc) (by decide)

theorem MethodToken.not_msearch (ht : MethodToken t) {x : HttpMethod × List UInt8}
    (hx : x ∈ httpMethodMap) (hbegins : x.2 <+: t) : x.1 ≠ .MSEARCH := by
  intro hmsearch
  rw [msearch_name x hx hmsearch] at hbegins
  exact ht.ne_space (hbegins.subset (List.mem_cons_of_mem _ List.mem_cons_self)) rfl

theorem strcmp_iff {name : List UInt8} (hname : ∀ c ∈ name, c ≠ 0) (ht : MethodToken t) :
    strcmp name t = true ↔ name = t := by
  have htake : ∀ s : List UInt8, (∀ c ∈ s, c ≠ 0) → s.takeWhile (· ≠ 0) = s := by
    intro s hs
    rw [List.takeWhile_eq_self_iff]
    simpa using hs
  rw [strcmp, htake name hname, htake t fun c hc => ht.ne_zero hc, decide_eq_true_iff]

theorem stringToHttpMethod_eq_some (ht : MethodToken t) (x : HttpMethod) :
    stringToHttpMethod t = some x ↔ (x, t) ∈ httpMethodMap := by
  have hpred : ∀ y ∈ httpMethodMap, strcmp y.2 t = true ↔ y.2 = t :=
    fun y hy => strcmp_iff (names_ne_zero y hy) ht
  rw [stringToHttpMethod, Option.map_eq_some_iff]
  constructor
  · rintro ⟨y, hy, rfl⟩
    have hmem := List.mem_of_find?_eq_some hy
    have hfound : strcmp y.2 t = true := by simpa using List.find?_some hy
    rwa [← (hpred y hmem).mp hfound]
  · intro hx
    exact ⟨(x, t), find?_unique hx ((hpred _ hx).mpr rfl) fun y hy hyt =>
      names_apart y hy _ hx (by rw [(hpred y hy).mp hyt]), rfl⟩

theorem holds_iff_slice {xs : List UInt8} : Holds m pos xs ↔ slice m pos xs.length = xs := by
  refine ⟨Holds.slice_eq, fun h => holds_of_getElem fun i hi => ?_⟩
  rw [← getElem_slice (by simpa using hi : i < (slice m pos xs.length).length)]
  exact List.getElem_of_eq h _

theorem Holds.begins {xs ys : List UInt8} (hxs : Holds m pos xs) (hys : Holds m pos ys)
    (hlen : xs.length ≤ ys.length) : xs <+: ys := by
  rw [List.prefix_iff_getElem]
  refine ⟨hlen, fun i hi => ?_⟩
  rw [← hxs.getElem i hi, ← hys.getElem i (by omega)]

theorem strncmp_holds {name : List UInt8} (hname : ∀ c ∈ name, c ≠ 0) :
    strncmp (cString name) (fun i => m (pos + i)) name.length = true ↔ Holds m pos name := by
  rw [strncmp_iff (cString_ne_zero hname)]
  constructor
  · exact fun h => holds_of_getElem fun i hi => by rw [← h i hi, cString_getElem hi]
  · exact fun h i hi => by rw [h.getElem i hi, cString_getElem hi]

theorem holds_name_iff (hm : Holds m pos (t ++ [32])) {name : List UInt8}
    (hname : ∀ c ∈ name, upper c = true) : Holds m pos name ↔ name <+: t := by
  constructor
  · intro h
    by_cases hlen : name.length ≤ t.length
    · exact h.begins (holds_append.mp hm).1 hlen
    · have hbegins := hm.begins h (by simp; omega)
      have hspace := hbegins.subset (List.mem_append_right t List.mem_cons_self)
      exact absurd (hname 32 hspace) (by decide)
  · rintro ⟨rest, rfl⟩
    exact (holds_append.mp (holds_append.mp hm).1).1

theorem holds_msearch_iff (ht : MethodToken t) (hm : Holds m pos (t ++ [32])) :
    Holds m pos (77 :: 32 :: ascii "- SEARCH") ↔
      t = ascii "M" ∧ slice m (pos + 2) 8 = ascii "- SEARCH" := by
  have hrest : Holds m (pos + 2) (ascii "- SEARCH") ↔
      slice m (pos + 2) 8 = ascii "- SEARCH" := holds_iff_slice
  obtain ⟨c, cs, rfl⟩ := List.exists_cons_of_ne_nil ht.ne_nil
  constructor
  · rintro ⟨hfirst, hsecond, hslice⟩
    have hc : c = 77 := hm.1.symm.trans hfirst
    cases cs with
    | nil => exact ⟨congrArg (fun c => [c]) hc, hrest.mp hslice⟩
    | cons c' cs =>
      have hspace : c' = 32 := hm.2.1.symm.trans hsecond
      exact absurd hspace (ht.ne_space (List.mem_cons_of_mem _ List.mem_cons_self))
  · rintro ⟨htoken, hslice⟩
    obtain ⟨rfl, rfl⟩ : c = 77 ∧ cs = [] := List.cons.inj htoken
    exact ⟨hm.1, hm.2.1, hrest.mpr hslice⟩

theorem found_iff (ht : MethodToken t) (hm : Holds m pos (t ++ [32]))
    {x : HttpMethod × List UInt8} (hx : x ∈ httpMethodMap) :
    strncmp (cString x.2) (fun i => m (pos + i)) x.2.length = true ↔
      x.2 <+: t ∨ x.1 = .MSEARCH ∧ t = ascii "M" ∧ slice m (pos + 2) 8 = ascii "- SEARCH" := by
  rw [strncmp_holds (names_ne_zero x hx)]
  by_cases hne : x.1 = .MSEARCH
  · rw [msearch_name x hx hne, holds_msearch_iff ht hm, ← msearch_name x hx hne]
    constructor
    · exact fun h => .inr ⟨hne, h⟩
    · rintro (hbegins | ⟨-, h⟩)
      · exact absurd hne (ht.not_msearch hx hbegins)
      · exact h
  · rw [holds_name_iff hm (names_upper x hx hne)]
    simp [hne]

theorem chars_eq_string_iff (ht : MethodToken t) (hm : Holds m pos (t ++ [32])) :
    charsToHttpMethod (fun i => m (pos + i)) = stringToHttpMethod t ↔ ExactMatch m pos t := by
  cases hstring : stringToHttpMethod t with
  | none =>
    have hnot : ∀ x ∈ httpMethodMap, x.2 ≠ t := by
      rintro ⟨x, name⟩ hx rfl
      rw [(stringToHttpMethod_eq_some ht x).mpr hx] at hstring
      cases hstring
    have hmsearch : (HttpMethod.MSEARCH, ascii "M - SEARCH") ∈ httpMethodMap := by decide +kernel
    rw [charsToHttpMethod, Option.map_eq_none_iff, List.find?_eq_none]
    constructor
    · intro hnone
      constructor
      · exact fun x hx hbegins => absurd ((found_iff ht hm hx).mpr (.inl hbegins)) (hnone x hx)
      · exact fun hblank => hnone _ hmsearch ((found_iff ht hm hmsearch).mpr (.inr ⟨rfl, hblank⟩))
    · rintro ⟨hexact, hblank⟩ x hx hfound
      rcases (found_iff ht hm hx).mp hfound with hbegins | ⟨-, h⟩
      · exact hnot x hx (hexact x hx hbegins)
      · exact hblank h
  | some y =>
    have hy := (stringToHttpMethod_eq_some ht y).mp hstring
    have hblank : t ≠ ascii "M" := by
      rintro rfl
      revert hy
      cases y <;> decide +kernel
    refine iff_of_true ?_ ⟨fun x hx hbegins => congrArg Prod.snd (names_apart x hx _ hy hbegins),
      fun h => hblank h.1⟩
    rw [charsToHttpMethod, find?_unique hy]
    · rfl
    · exact (found_iff ht hm hy).mpr (.inl (List.prefix_refl _))
    · intro x hx hfound
      rcases (found_iff ht hm hx).mp hfound with hbegins | ⟨-, h, -⟩
      · exact names_apart x hx _ hy hbegins
      · exact absurd h hblank

theorem reads_method (relaxed : Bool) (ht : MethodToken t) (hm : Holds m pos (t ++ [32]))
    {p : HttpRequestParer State} (hp : p.cs = some .start) :
    Steps (requestMachine relaxed) m pos p (t ++ [32])
      { ({ p with mark := pos } : HttpRequestParer State).onRequestMethod m pos with
        cs := some .uri } := by
  obtain ⟨c, cs, rfl⟩ := List.exists_cons_of_ne_nil ht.ne_nil
  have hbytes := List.forall_mem_cons.mp ht.bytes
  have hsplit := holds_append.mp hm
  have hfirst : Steps (requestMachine relaxed) m pos p [c]
      { p with mark := pos, cs := some (.method 1) } := by
    refine .one hp hm.1 (show requestNext relaxed .start c = some ([.mark], .method 1) from ?_)
      (by decide) (q := { p with mark := pos }) rfl
    rw [requestNext, if_pos hbytes.1]
  have hrest : Steps (requestMachine relaxed) m (pos + 1)
      { p with mark := pos, cs := some (.method 1) } cs
      { p with mark := pos, cs := some (.method (1 + cs.length)) } := by
    refine .quiet (quiet_method hbytes.2 ?_) hsplit.1.2 rfl
    rw [Nat.add_comm]
    exact ht.length
  have hlast : Steps (requestMachine relaxed) m (pos + (c :: cs).length)
      { p with mark := pos, cs := some (.method (1 + cs.length)) } [32]
      { ({ p with mark := pos } : HttpRequestParer State).onRequestMethod m pos with
        cs := some .uri } := by
    have hacts : ({ p with mark := pos, cs := some (.method (1 + cs.length)) } :
        HttpRequestParer State).doActions m (pos + (c :: cs).length) [.requestMethod] =
        some (({ p with mark := pos, cs := some (.method (1 + cs.length)) } :
          HttpRequestParer State).onRequestMethod m pos) := rfl
    have hnext : (requestMachine relaxed).next (.method (1 + cs.length)) 32 =
        some ([.requestMethod], .uri) := rfl
    convert Steps.one rfl hsplit.2.1 hnext (by decide) hacts using 1
    rw [HttpRequestParer.onRequestMethod, HttpRequestParer.onRequestMethod]
    split <;> rfl
  exact (hfirst.append hrest).append hlast

theorem onRequestMethod_error (p : HttpRequestParer State) (hp : p.error = 0) :
    (p.onRequestMethod m pos).error = 1000 ↔ charsToHttpMethod (fun i => m (pos + i)) = none := by
  rw [HttpRequestParer.onRequestMethod]
  split
  · next hnone => simp [hnone]
  · next x hsome => simp [hsome, hp]

end Token

section Errors
variable {σ : Type} {A : Automaton σ} {m : Memory} {p q : HttpRequestParer σ}

theorem onRequestMethod_ne {pos : ℕ} (hp : p.error ≠ 0) :
    (p.onRequestMethod m pos).error ≠ 0 := by
  rw [HttpRequestParer.onRequestMethod]
  split
  · simp
  · exact hp

theorem onRequestVersion_ne {pos n : ℕ} (hp : p.error ≠ 0) :
    (p.onRequestVersion m pos n).error ≠ 0 := by
  rw [HttpRequestParer.onRequestVersion]
  split_ifs
  · exact hp
  · exact hp
  · simp

theorem doAction_error {fpc : ℕ} {a : Action} (hp : p.error ≠ 0)
    (h : p.doAction m fpc a = some q) : q.error ≠ 0 := by
  cases a with
  | requestMethod =>
    cases h
    exact onRequestMethod_ne hp
  | httpVersion =>
    cases h
    exact onRequestVersion_ne hp
  | writeValue =>
    obtain ⟨field, -, h⟩ := Option.bind_eq_some_iff.mp h
    obtain ⟨value, -, h⟩ := Option.bind_eq_some_iff.mp h
    cases h
    exact hp
  | fragment | queryString | requestPath =>
    obtain ⟨text, -, h⟩ := Option.bind_eq_some_iff.mp h
    cases h
    exact hp
  | _ =>
    cases h
    exact hp

theorem doActions_error {fpc : ℕ} {acts : List Action} (hp : p.error ≠ 0)
    (h : p.doActions m fpc acts = some q) : q.error ≠ 0 := by
  induction acts generalizing p with
  | nil =>
    cases h
    exact hp
  | cons a acts ih =>
    rw [HttpRequestParer.doActions] at h
    split_ifs at h with hdone
    · cases h
      exact hp
    · obtain ⟨p', hp', h⟩ := Option.bind_eq_some_iff.mp h
      exact ih (doAction_error hp hp') h

theorem run_error {n fpc e : ℕ} (hp : p.error ≠ 0) (h : p.run A m n fpc = some (q, e)) :
    q.error ≠ 0 := by
  induction n generalizing p fpc with
  | zero =>
    cases h
    exact hp
  | succ n ih =>
    rw [HttpRequestParer.run] at h
    split at h
    · cases h
      exact hp
    · next acts s hnext =>
      obtain ⟨p', hp', h⟩ := Option.bind_eq_some_iff.mp h
      have hacts := doActions_error hp hp'
      split_ifs at h with hdone
      · cases h
        exact hacts
      · exact ih (p := { p' with cs := some s }) hacts h

end Errors

/-- For every token of the grammar, followed by a blank and anything: the parser's lookup in the
buffer agrees with the lookup of the token exactly if the token is matched as a whole, and a token
that names no method is then, and only then, reported as error 1000. -/
theorem method_recognised_iff (m : Memory) (pos : ℕ) (t : List UInt8) (ht : MethodToken t)
    (hm : Holds m pos (t ++ [32])) :
    (∀ x, stringToHttpMethod t = some x ↔ (x, t) ∈ httpMethodMap) ∧
    (charsToHttpMethod (fun i => m (pos + i)) = stringToHttpMethod t ↔ ExactMatch m pos t) ∧
    ∀ (relaxed : Bool) (p : HttpRequestParer State), p.cs = some .start → p.error = 0 →
      ∃ q, Steps (requestMachine relaxed) m pos p (t ++ [32]) q ∧
        (stringToHttpMethod t = none → (q.error = 1000 ↔ ExactMatch m pos t)) ∧
        (q.error = 1000 → ∀ n r e,
          q.run (requestMachine relaxed) m n (pos + (t ++ [32]).length) = some (r, e) →
            r.hasError = true) := by
  refine ⟨stringToHttpMethod_eq_some ht, chars_eq_string_iff ht hm, fun relaxed p hp herror => ?_⟩
  refine ⟨_, reads_method relaxed ht hm hp, fun hnone => ?_, fun h n r e hrun => ?_⟩
  · rw [← chars_eq_string_iff ht hm, hnone]
    exact onRequestMethod_error { p with mark := pos } herror
  · have hr := run_error (by rw [h]; decide) hrun
    simp [HttpRequestParer.hasError, hr]

-- The token `GET`.
theorem method_recognised_iff_get :
    charsToHttpMethod (cString (ascii "GET /")) = stringToHttpMethod (ascii "GET") ∧
      stringToHttpMethod (ascii "GET") = some .GET := by
  have h := method_recognised_iff (cString (ascii "GET /")) 0 (ascii "GET")
    ⟨by decide, by decide, by decide +kernel⟩ ⟨rfl, rfl, rfl, rfl, trivial⟩
  refine ⟨?_, (h.1 .GET).mpr (by decide +kernel)⟩
  have hexact := h.2.1.mpr ⟨by decide +kernel, by decide +kernel⟩
  simpa using hexact

/-- A token that goes on behind `GET` is taken for it, and the blank behind `M` for a part of a
name. -/
theorem longer_token_recognised :
    charsToHttpMethod (cString (ascii "GETX /")) = some .GET ∧
      stringToHttpMethod (ascii "GETX") = none ∧
      charsToHttpMethod (cString (ascii "M - SEARCH")) = some .MSEARCH ∧
      stringToHttpMethod (ascii "M") = none := by
  decide +kernel

end ApexStorm.Http
