import Mathlib.Tactic

/-!
# How `Address::Lookup` splits a host string

`Lookup` takes node and service from the host string with two searches: for a closing
bracket behind an opening one, and for a single colon. The string is read through its
`c_str()`: the place behind its last byte holds a NUL, and there is no result when a
byte further on is read.
-/

namespace ApexStorm.Address

def charAt (host : List UInt8) (i : ℕ) : Option UInt8 := (host ++ [0])[i]?

/-- `memchr(host.c_str() + pos, c, n)`, the pointer found being an index. -/
def memchr (host : List UInt8) (c : UInt8) (pos : ℕ) : ℕ → Option (Option ℕ)
  | 0 => some none
  | n + 1 => do
    let x ← charAt host pos
    if x = c then return some pos else memchr host c (pos + 1) n

def substr (host : List UInt8) (pos len : ℕ) : List UInt8 := (host.drop pos).take len

/-- The first attempt: node and service of `[node]:service`. -/
def bracketed (host : List UInt8) : Option (List UInt8 × Option ℕ) := do
  if host.head? = some 91 then
    match ← memchr host 93 1 (host.length - 1) with
    | none => return ([], none)
    | some endipv6 =>
      let service := if (← charAt host (endipv6 + 1)) = 58 then some (endipv6 + 2) else none
      return (substr host 1 (endipv6 - 1), service)
  else return ([], none)

/-- The second attempt: node and service of `node:service`. -/
def colon (host : List UInt8) : Option (List UInt8 × Option ℕ) := do
  match ← memchr host 58 0 host.length with
  | none => return ([], none)
  | some service =>
    match ← memchr host 58 (service + 1) (host.length - service - 1) with
    | none => return (substr host 0 service, some (service + 1))
    | some _ => return ([], some service)

/-- The arguments of `getaddrinfo`. -/
def lookup (host : List UInt8) : Option (List UInt8 × Option (List UInt8)) := do
  let (node, service) ← bracketed host
  let (node, service) ← if node = [] then colon host else some (node, service)
  return (if node = [] then host else node, service.map host.drop)

section Memchr
variable {host : List UInt8} {c : UInt8}

theorem charAt_of_lt {i : ℕ} (h : i < host.length) : charAt host i = host[i]? :=
  List.getElem?_append_left h

theorem memchr_eq {pos n : ℕ} (h : pos + n ≤ host.length) :
    memchr host c pos n = some (((substr host pos n).idxOf? c).map (pos + ·)) := by
  induction n generalizing pos with
  | zero => simp [memchr, substr]
  | succ n ih =>
    have hlt : pos < host.length := by omega
    have hstep : substr host pos (n + 1) = host[pos] :: substr host (pos + 1) n := by
      rw [substr, List.drop_eq_getElem_cons hlt, List.take_succ_cons, substr]
    rw [memchr, charAt_of_lt hlt, List.getElem?_eq_getElem hlt, ih (by omega), hstep,
      List.idxOf?_cons]
    by_cases hc : host[pos] = c
    · simp [hc]
    · simp [hc, Function.comp_def, Nat.add_comm, Nat.add_left_comm]

theorem idxOf?_append_cons {xs ys : List UInt8} (h : c ∉ xs) :
    (xs ++ c :: ys).idxOf? c = some xs.length := by
  induction xs with
  | nil => simp [List.idxOf?_cons]
  | cons x xs ih =>
    rw [List.mem_cons, not_or] at h
    rw [List.cons_append, List.idxOf?_cons, ih h.2]
    simp [Ne.symm h.1]

theorem substr_length : substr host 0 host.length = host := by simp [substr]

end Memchr

section Attempts
variable {host n s : List UInt8}

theorem bracketed_of_head (h : host.head? ≠ some 91) : bracketed host = some ([], none) := by
  rw [bracketed, if_neg h]
  rfl

theorem bracketed_cons (rest : List UInt8) : bracketed (91 :: rest) =
    some (match rest.idxOf? 93 with
      | none => ([], none)
      | some k =>
        (rest.take k, if (rest ++ [0])[k + 1]? = some 58 then some (k + 3) else none)) := by
  have hseg : substr (91 :: rest) 1 rest.length = rest := by simp [substr]
  rw [bracketed, if_pos List.head?_cons, List.length_cons, Nat.add_sub_cancel,
    memchr_eq (by simp [add_comm]), hseg]
  cases hidx : rest.idxOf? 93 with
  | none => rfl
  | some k =>
    have hk : k < rest.length := by
      obtain ⟨hk, -⟩ := List.findIdx?_eq_some_iff_getElem.mp hidx
      exact hk
    obtain ⟨x, hx⟩ : ∃ x, (rest ++ [0])[k + 1]? = some x :=
      ⟨_, List.getElem?_eq_getElem (by simp; omega)⟩
    have hchar : charAt (91 :: rest) (1 + k + 1) = some x := by
      rw [charAt, show 1 + k + 1 = k + 1 + 1 by omega, List.cons_append, List.getElem?_cons_succ,
        hx]
    have hnode : substr (91 :: rest) 1 (1 + k - 1) = rest.take k := by
      simp [substr]
    simp only [Option.map_some, Option.bind_eq_bind, Option.bind_some, hchar, hnode, hx,
      Option.some_inj, Option.pure_def, show 1 + k + 2 = k + 3 by omega]

theorem colon_eq (host : List UInt8) : colon host =
    some (match host.idxOf? 58 with
      | none => ([], none)
      | some k =>
        if 58 ∈ host.drop (k + 1) then ([], some k) else (host.take k, some (k + 1))) := by
  rw [colon, memchr_eq (by simp), substr_length]
  cases hidx : host.idxOf? 58 with
  | none => rfl
  | some k =>
    obtain ⟨hk, -⟩ := List.findIdx?_eq_some_iff_getElem.mp hidx
    have hrest : substr host (k + 1) (host.length - k - 1) = host.drop (k + 1) := by
      rw [substr, List.take_of_length_le (by simp; omega)]
    simp only [Option.map_some, Option.bind_eq_bind, Option.bind_some, Nat.zero_add,
      memchr_eq (show k + 1 + (host.length - k - 1) ≤ host.length by omega), hrest]
    cases hmore : (host.drop (k + 1)).idxOf? 58 with
    | none => simp [List.idxOf?_eq_none_iff.mp hmore, substr]
    | some j =>
      have hmem : 58 ∈ host.drop (k + 1) := by
        by_contra hnot
        rw [List.idxOf?_eq_none_iff.mpr hnot] at hmore
        cases hmore
      simp [hmem]

theorem lookup_of_node {service : Option ℕ} (h : bracketed host = some (n, service)) (hn : n ≠ []) :
    lookup host = some (n, service.map host.drop) := by
  simp [lookup, h, hn]

theorem lookup_of_empty {service : Option ℕ} (h : bracketed host = some ([], service)) :
    lookup host = (colon host).map fun r =>
      (if r.1 = [] then host else r.1, r.2.map host.drop) := by
  rw [lookup, h]
  simp [colon_eq]

end Attempts

def Bracketed (host rest : List UInt8) : Prop :=
  ∃ n, n ≠ [] ∧ 93 ∉ n ∧ host = 91 :: (n ++ 93 :: rest)

/-- The pairs that belong to the host strings; `91`, `93` and `58` are the brackets and the
colon. -/
structure SplitsRight (host : List UInt8) : Prop where
  port : ∀ n s, n ≠ [] → 93 ∉ n → host = 91 :: (n ++ 93 :: 58 :: s) → lookup host = some (n, some s)
  alone : ∀ n, n ≠ [] → 93 ∉ n → host = 91 :: (n ++ [93]) → lookup host = some (n, none)
  single : ∀ n s, n ≠ [] → n.head? ≠ some 91 → 58 ∉ n → 58 ∉ s → host = n ++ 58 :: s →
    lookup host = some (n, some s)
  whole : 58 ∉ host ∧ ¬Bracketed host [] ∨ 2 ≤ host.count 58 ∧ host.head? ≠ some 91 →
    lookup host = some (host, none)
  inBounds : (lookup host).isSome

section Shapes
variable {host n s : List UInt8}

theorem lookup_port (hn : n ≠ []) (hfree : 93 ∉ n) :
    lookup (91 :: (n ++ 93 :: 58 :: s)) = some (n, some s) := by
  have hbracketed : bracketed (91 :: (n ++ 93 :: 58 :: s)) = some (n, some (n.length + 3)) := by
    rw [bracketed_cons, idxOf?_append_cons hfree]
    simp
  rw [lookup_of_node hbracketed hn]
  simp

theorem lookup_bracket {rest : List UInt8} (hn : n ≠ []) (hfree : 93 ∉ n)
    (hrest : rest.head? ≠ some 58) : lookup (91 :: (n ++ 93 :: rest)) = some (n, none) := by
  have hnext : ((n ++ 93 :: rest) ++ [0])[n.length + 1]? ≠ some 58 := by
    rw [List.append_assoc, List.getElem?_append_right (Nat.le_add_right _ 1),
      Nat.add_sub_cancel_left, List.cons_append, List.getElem?_cons_succ, ← List.head?_eq_getElem?]
    cases rest with
    | nil => decide
    | cons x rest => exact hrest
  have hbracketed : bracketed (91 :: (n ++ 93 :: rest)) = some (n, none) := by
    rw [bracketed_cons, idxOf?_append_cons hfree]
    simp only [hnext, if_false, List.take_left]
  rw [lookup_of_node hbracketed hn]
  rfl

theorem lookup_single (hn : n ≠ []) (hhead : n.head? ≠ some 91) (hnode : 58 ∉ n) (hs : 58 ∉ s) :
    lookup (n ++ 58 :: s) = some (n, some s) := by
  have hhost : (n ++ 58 :: s).head? ≠ some 91 := by
    rwa [List.head?_append_of_ne_nil _ hn]
  rw [lookup_of_empty (bracketed_of_head hhost), colon_eq, idxOf?_append_cons hnode]
  simp [hs, hn]

theorem bracketed_cases (host : List UInt8) :
    (∃ service, bracketed host = some ([], service)) ∨
      (∃ rest, Bracketed host rest) ∧ ∃ n service, n ≠ [] ∧ bracketed host = some (n, service) := by
  cases host with
  | nil => exact .inl ⟨none, rfl⟩
  | cons x rest =>
    by_cases hx : x = 91
    · subst hx
      by_cases hmem : 93 ∈ rest
      · obtain ⟨n, ys, rfl, hfree⟩ := List.eq_append_cons_of_mem hmem
        rw [bracketed_cons, idxOf?_append_cons hfree]
        simp only [List.take_left]
        by_cases hn : n = []
        · subst hn
          exact .inl ⟨_, rfl⟩
        · exact .inr ⟨⟨ys, n, hn, hfree, rfl⟩, n, _, hn, rfl⟩
      · refine .inl ⟨none, ?_⟩
        rw [bracketed_cons, List.idxOf?_eq_none_iff.mpr hmem]
    · exact .inl ⟨none, bracketed_of_head (by simpa using hx)⟩

theorem Bracketed.rest_unique {rest rest' : List UInt8} (h : Bracketed host rest)
    (h' : Bracketed host rest') : rest = rest' := by
  obtain ⟨n, -, hfree, rfl⟩ := h
  obtain ⟨n', -, hfree', heq⟩ := h'
  have htail : n ++ 93 :: rest = n' ++ 93 :: rest' := (List.cons.inj heq).2
  have hlength : n.length = n'.length := by
    have hidx : (n ++ 93 :: rest).idxOf? 93 = some n.length := idxOf?_append_cons hfree
    rw [htail, idxOf?_append_cons hfree'] at hidx
    exact (Option.some.inj hidx).symm
  exact (List.cons.inj (List.append_inj htail hlength).2).2

theorem lookup_isSome (host : List UInt8) : (lookup host).isSome := by
  rcases bracketed_cases host with ⟨service, h⟩ | ⟨-, n, service, hn, h⟩
  · rw [lookup_of_empty h, colon_eq]
    rfl
  · rw [lookup_of_node h hn]
    rfl

theorem lookup_no_colon (hcolon : 58 ∉ host) (h : ∀ rest, ¬Bracketed host rest) :
    lookup host = some (host, none) := by
  obtain ⟨service, hempty⟩ := (bracketed_cases host).resolve_right fun hn => h _ hn.1.choose_spec
  rw [lookup_of_empty hempty, colon_eq, List.idxOf?_eq_none_iff.mpr hcolon]
  rfl

theorem lookup_rest {rest : List UInt8} (hcolon : 58 ∉ host) (h : Bracketed host rest) :
    lookup host ≠ some (host, none) := by
  obtain ⟨n, hn, hfree, rfl⟩ := h
  have hrest : rest.head? ≠ some 58 := by
    intro hhead
    exact hcolon (by simp [List.mem_of_mem_head? hhead])
  rw [lookup_bracket hn hfree hrest]
  intro heq
  have hlength := congrArg List.length (Prod.mk.inj (Option.some.inj heq)).1
  simp at hlength
  omega

/-- With two colons the service is left at the first of them. -/
theorem lookup_colons (hcount : 2 ≤ host.count 58) (hhead : host.head? ≠ some 91) :
    ∃ service, lookup host = some (host, some (58 :: service)) := by
  have hmem : 58 ∈ host := List.count_pos_iff.mp (by omega)
  obtain ⟨n, s, rfl, hn⟩ := List.eq_append_cons_of_mem hmem
  have hs : 58 ∈ s := by
    rw [List.count_append, List.count_eq_zero.mpr hn, List.count_cons_self] at hcount
    exact List.count_pos_iff.mp (by omega)
  refine ⟨s, ?_⟩
  rw [lookup_of_empty (bracketed_of_head hhead), colon_eq, idxOf?_append_cons hn]
  simp [hs]

end Shapes

/-- A host string is split right unless it has two colons and does not start with a bracket, or
has no colon and something behind a name in brackets. -/
theorem splitsRight_iff (host : List UInt8) :
    SplitsRight host ↔ ¬(2 ≤ host.count 58 ∧ host.head? ≠ some 91) ∧
      ¬(58 ∉ host ∧ ∃ rest, rest ≠ [] ∧ Bracketed host rest) := by
  constructor
  · intro h
    refine ⟨fun hcolons => ?_, ?_⟩
    · obtain ⟨service, hlookup⟩ := lookup_colons hcolons.1 hcolons.2
      have hwhole := h.whole (.inr hcolons)
      rw [hlookup] at hwhole
      cases hwhole
    · rintro ⟨hcolon, rest, hne, hrest⟩
      have halone : ¬Bracketed host [] := fun halone => hne (hrest.rest_unique halone)
      exact lookup_rest hcolon hrest (h.whole (.inl ⟨hcolon, halone⟩))
  · rintro ⟨hcolons, hrest⟩
    refine ⟨?_, ?_, ?_, ?_, lookup_isSome host⟩
    · intro n s hn hfree heq
      rw [heq, lookup_port hn hfree]
    · intro n hn hfree heq
      rw [heq, lookup_bracket hn hfree (by simp)]
    · intro n s hn hhead hnode hs heq
      rw [heq, lookup_single hn hhead hnode hs]
    · rintro (⟨hcolon, halone⟩ | hshape)
      · refine lookup_no_colon hcolon fun rest h => ?_
        by_cases hempty : rest = []
        · exact halone (hempty ▸ h)
        · exact hrest ⟨hcolon, rest, hempty, h⟩
      · exact absurd hshape hcolons

/-- The host string `::1` is handed over with the service `::1`, and `[abc]x` as `abc`. -/
theorem splits_colons_wrong :
    lookup [58, 58, 49] = some ([58, 58, 49], some [58, 58, 49]) ∧ ¬SplitsRight [58, 58, 49] ∧
    lookup [91, 97, 98, 99, 93, 120] = some ([97, 98, 99], none) ∧
    ¬SplitsRight [91, 97, 98, 99, 93, 120] := by
  have hcolons : lookup [58, 58, 49] = some ([58, 58, 49], some [58, 58, 49]) := by decide
  have hrest : lookup [91, 97, 98, 99, 93, 120] = some ([97, 98, 99], none) := by decide
  refine ⟨hcolons, fun h => ?_, hrest, fun h => ?_⟩
  · have hwhole := h.whole (.inr (by decide))
    rw [hcolons] at hwhole
    cases hwhole
  · have halone : ¬Bracketed [91, 97, 98, 99, 93, 120] [] := by
      intro halone
      have hname : Bracketed [91, 97, 98, 99, 93, 120] [120] :=
        ⟨[97, 98, 99], by decide, by decide, rfl⟩
      cases halone.rest_unique hname
    have hwhole := h.whole (.inl ⟨by decide, halone⟩)
    rw [hrest] at hwhole
    cases hwhole

end ApexStorm.Address
