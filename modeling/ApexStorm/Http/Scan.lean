import ApexStorm.Http.Split

/-!
# Reading a known text

What the parser does while it reads bytes that stand in its memory: it takes steps, and
between two actions only the state of the automaton changes. The parts of a target are
strings in which the automaton goes round in one state.
-/

namespace ApexStorm.Http

section Memory
variable {m : Memory} {fpc : ℕ} {xs ys : List UInt8}

def Holds (m : Memory) : ℕ → List UInt8 → Prop
  | _, [] => True
  | fpc, c :: cs => m fpc = c ∧ Holds m (fpc + 1) cs

theorem holds_append : Holds m fpc (xs ++ ys) ↔ Holds m fpc xs ∧ Holds m (fpc + xs.length) ys := by
  induction xs generalizing fpc with
  | nil => simp [Holds]
  | cons c xs ih =>
    rw [List.cons_append, Holds, Holds, ih, and_assoc, List.length_cons, Nat.add_assoc,
      Nat.add_comm 1]

theorem holds_of_getElem (h : ∀ i (hi : i < xs.length), m (fpc + i) = xs[i]) : Holds m fpc xs := by
  induction xs generalizing fpc with
  | nil => trivial
  | cons c xs ih =>
    refine ⟨h 0 (Nat.succ_pos _), ih fun i hi => ?_⟩
    rw [Nat.add_assoc, Nat.add_comm 1]
    exact h (i + 1) (Nat.succ_lt_succ hi)

theorem Holds.getElem (h : Holds m fpc xs) (i : ℕ) (hi : i < xs.length) : m (fpc + i) = xs[i] := by
  induction xs generalizing fpc i with
  | nil => cases hi
  | cons c xs ih =>
    cases i with
    | zero => exact h.1
    | succ i =>
      have := ih h.2 i (Nat.lt_of_succ_lt_succ hi)
      rwa [Nat.add_assoc, Nat.add_comm 1] at this

theorem Holds.slice_eq (h : Holds m fpc xs) : slice m fpc xs.length = xs := by
  apply List.ext_getElem (length_slice _ _ _)
  intro i hi hi'
  rw [getElem_slice hi, h.getElem i hi']

theorem Holds.string_eq (h : Holds m fpc xs) (hlen : fpc + xs.length < 2 ^ 63) :
    string m fpc (lenTo fpc (fpc + xs.length)) = some xs := by
  rw [lenTo_eq (Nat.le_add_right _ _) (by omega), Nat.add_sub_cancel_left, string,
    if_pos (by omega), h.slice_eq]

end Memory

section Steps
variable {σ : Type} {A : Automaton σ} {m : Memory} {fpc : ℕ} {p q r : HttpRequestParer σ}
  {s s' : σ} {xs ys : List UInt8}

def Steps (A : Automaton σ) (m : Memory) (fpc : ℕ) (p : HttpRequestParer σ) (xs : List UInt8)
    (q : HttpRequestParer σ) : Prop :=
  ∀ n, p.run A m (xs.length + n) fpc = q.run A m n (fpc + xs.length)

theorem Steps.nil : Steps A m fpc p [] p := by
  intro n
  rw [List.length_nil, Nat.zero_add, Nat.add_zero]

theorem Steps.append (h : Steps A m fpc p xs q) (h' : Steps A m (fpc + xs.length) q ys r) :
    Steps A m fpc p (xs ++ ys) r := by
  intro n
  rw [List.length_append, Nat.add_assoc, h, h', Nat.add_assoc]

theorem Steps.one {c : UInt8} {acts : List Action} (hcs : p.cs = some s) (hc : m fpc = c)
    (hnext : A.next s c = some (acts, s')) (hdone : .done ∉ acts)
    (hacts : p.doActions m fpc acts = some q) :
    Steps A m fpc p [c] { q with cs := some s' } := by
  intro n
  rw [List.length_singleton, Nat.add_comm 1]
  simp [HttpRequestParer.run, hcs, hc, hnext, hacts, hdone]

def Automaton.quiet (A : Automaton σ) : σ → List UInt8 → Option σ
  | s, [] => some s
  | s, c :: cs =>
    match A.next s c with
    | some ([], s') => A.quiet s' cs
    | _ => none

theorem Steps.quiet (hq : A.quiet s xs = some s') (hm : Holds m fpc xs) (hcs : p.cs = some s) :
    Steps A m fpc p xs { p with cs := some s' } := by
  induction xs generalizing fpc p s with
  | nil =>
    have hp : { p with cs := some s' } = p := by rw [← Option.some.inj hq, ← hcs]
    rw [hp]
    exact .nil
  | cons c xs ih =>
    rw [Automaton.quiet] at hq
    split at hq
    · next s₁ hnext =>
      have hone : Steps A m fpc p [c] { p with cs := some s₁ } :=
        .one hcs hm.1 hnext (List.not_mem_nil) rfl
      exact hone.append (ih hq hm.2 rfl)
    · cases hq

def Automaton.stuck (A : Automaton σ) : σ → List UInt8 → Bool
  | _, [] => false
  | s, c :: cs =>
    match A.next s c with
    | none => true
    | some (acts, s') => .done ∉ acts && A.stuck s' cs

theorem cs_of_stuck {n e : ℕ} (hs : A.stuck s xs = true) (hm : Holds m fpc xs) (hcs : p.cs = some s)
    (hn : xs.length ≤ n) (hrun : p.run A m n fpc = some (q, e)) : q.cs = none := by
  induction xs generalizing fpc p s n with
  | nil => cases hs
  | cons c xs ih =>
    obtain ⟨n, rfl⟩ : ∃ k, n = k + 1 := ⟨n - 1, by rw [List.length_cons] at hn; omega⟩
    rw [HttpRequestParer.run, hcs, Option.bind_some, hm.1] at hrun
    rw [Automaton.stuck] at hs
    cases hnext : A.next s c with
    | none =>
      rw [hnext] at hrun
      cases hrun
      rfl
    | some r =>
      obtain ⟨acts, s₁⟩ := r
      simp only [hnext, Bool.and_eq_true, decide_eq_true_eq] at hrun hs
      obtain ⟨p₁, -, hrun⟩ := Option.bind_eq_some_iff.mp hrun
      rw [if_neg hs.1] at hrun
      exact ih hs.2 hm.2 rfl (by rw [List.length_cons] at hn; omega) hrun

end Steps

/-- Bytes of a set, and percent signs followed by two hexadecimal digits. -/
inductive PctString (plain : UInt8 → Bool) : List UInt8 → Prop
  | nil : PctString plain []
  | char {c : UInt8} {cs : List UInt8} : plain c = true → PctString plain cs →
      PctString plain (c :: cs)
  | pct {x y : UInt8} {cs : List UInt8} : xdigit x = true → xdigit y = true →
      PctString plain cs → PctString plain (37 :: x :: y :: cs)

section Target
variable {relaxed : Bool} {plain : UInt8 → Bool} {s pct hex : State} {xs : List UInt8}

/-- In state `s` such a string leads back to `s`; an escape passes through `pct` and `hex`. -/
structure PctLoop (relaxed : Bool) (plain : UInt8 → Bool) (s pct hex : State) : Prop where
  char : ∀ c, plain c = true → requestNext relaxed s c = some ([], s)
  percent : requestNext relaxed s 37 = some ([], pct)
  first : ∀ x, xdigit x = true → requestNext relaxed pct x = some ([], hex)
  second : ∀ y, xdigit y = true → requestNext relaxed hex y = some ([], s)

theorem PctLoop.quiet (hl : PctLoop relaxed plain s pct hex) (h : PctString plain xs) :
    (requestMachine relaxed).quiet s xs = some s := by
  have hnext : (requestMachine relaxed).next = requestNext relaxed := rfl
  induction h with
  | nil => rfl
  | char hc _ ih => simp only [Automaton.quiet, hnext, hl.char _ hc, ih]
  | pct hx hy _ ih =>
    simp only [Automaton.quiet, hnext, hl.percent, hl.first _ hx, hl.second _ hy, ih]

theorem PctLoop.enter (hl : PctLoop relaxed plain s pct hex) (entry : State) (pre : List Action)
    (hchar : ∀ c, xs.head? = some c → plain c = true →
      requestNext relaxed entry c = some (pre, s))
    (hpercent : requestNext relaxed entry 37 = some (pre, pct))
    (h : PctString plain xs) (hne : xs ≠ []) :
    ∃ c cs s₁, xs = c :: cs ∧ requestNext relaxed entry c = some (pre, s₁) ∧
      (requestMachine relaxed).quiet s₁ cs = some s := by
  have hnext : (requestMachine relaxed).next = requestNext relaxed := rfl
  cases h with
  | nil => exact absurd rfl hne
  | char hc h => exact ⟨_, _, _, rfl, hchar _ rfl hc, hl.quiet h⟩
  | pct hx hy h =>
    refine ⟨_, _, _, rfl, hpercent, ?_⟩
    simp only [Automaton.quiet, hnext, hl.first _ hx, hl.second _ hy]
    exact hl.quiet h

theorem forall_byte {P : UInt8 → Prop} (h : ∀ n < 256, P (UInt8.ofNat n)) (c : UInt8) : P c := by
  have := h c.toNat c.toNat_lt
  rwa [UInt8.ofNat_toNat] at this

theorem pchar_ne : ∀ c : UInt8, pchar relaxed c = true →
    c ≠ 32 ∧ c ≠ 35 ∧ c ≠ 37 ∧ c ≠ 47 ∧ c ≠ 63 := by
  apply forall_byte
  cases relaxed <;> decide +kernel

theorem isChar_singleton {str : String} {b : UInt8} (h : ascii str = [b]) (c : UInt8) :
    isChar str c = decide (c = b) := by
  simp [isChar, h]

def pathByte (relaxed : Bool) (c : UInt8) : Bool := pchar relaxed c || isChar "/" c

def queryByte (relaxed : Bool) (c : UInt8) : Bool := pchar relaxed c || isChar "/?" c

theorem path_next {c : UInt8} (h : pathByte relaxed c = true) :
    requestNext relaxed .path c = some ([], .path) ∧
      (c ≠ 47 → requestNext relaxed .slash c = some ([], .path)) := by
  simp only [pathByte, isChar_singleton (show ascii "/" = [47] from rfl), Bool.or_eq_true,
    decide_eq_true_eq] at h
  simp only [requestNext, pathNext, isChar_singleton (show ascii " " = [32] from rfl),
    isChar_singleton (show ascii "#" = [35] from rfl),
    isChar_singleton (show ascii "?" = [63] from rfl),
    isChar_singleton (show ascii "%" = [37] from rfl),
    isChar_singleton (show ascii "/" = [47] from rfl), decide_eq_true_eq]
  rcases h with h | rfl
  · obtain ⟨hspace, hhash, hpercent, hslash, hquestion⟩ := pchar_ne c h
    simp [hspace, hhash, hpercent, hslash, hquestion, h]
  · simp

theorem query_next {c : UInt8} {pre : List Action} (h : queryByte relaxed c = true) :
    queryNext pre relaxed c = some (pre, .query) ∧
      fragmentNext pre relaxed c = some (pre, .fragment) := by
  have hne : c ≠ 32 ∧ c ≠ 35 ∧ c ≠ 37 := by
    rw [queryByte, Bool.or_eq_true] at h
    rcases h with h | h
    · obtain ⟨hspace, hhash, hpercent, -⟩ := pchar_ne c h
      exact ⟨hspace, hhash, hpercent⟩
    · have hmem : c ∈ [47, 63] := of_decide_eq_true h
      rcases List.mem_pair.mp hmem with rfl | rfl <;> decide
  rw [queryByte] at h
  simp only [queryNext, fragmentNext, isChar_singleton (show ascii " " = [32] from rfl),
    isChar_singleton (show ascii "#" = [35] from rfl),
    isChar_singleton (show ascii "%" = [37] from rfl), decide_eq_true_eq]
  simp [hne, h]

theorem pathLoop : PctLoop relaxed (pathByte relaxed) .path .pathPct .pathHex where
  char _ hc := (path_next hc).1
  percent := rfl
  first _ hx := if_pos hx
  second _ hy := if_pos hy

theorem queryLoop : PctLoop relaxed (queryByte relaxed) .query .queryPct .queryHex where
  char _ hc := (query_next hc).1
  percent := rfl
  first _ hx := if_pos hx
  second _ hy := if_pos hy

theorem fragmentLoop : PctLoop relaxed (queryByte relaxed) .fragment .fragmentPct .fragmentHex where
  char _ hc := (query_next hc).2
  percent := rfl
  first _ hx := if_pos hx
  second _ hy := if_pos hy

theorem quiet_slash (h : PctString (pathByte relaxed) xs) (hhead : xs.head? ≠ some 47) :
    ∃ s, (s = .slash ∨ s = .path) ∧ (requestMachine relaxed).quiet .slash xs = some s := by
  by_cases hne : xs = []
  · subst hne
    exact ⟨.slash, .inl rfl, rfl⟩
  · obtain ⟨c, cs, s₁, rfl, hfirst, hquiet⟩ := pathLoop.enter .slash []
      (fun c hc hplain => (path_next hplain).2 fun h => hhead (h ▸ hc)) rfl h hne
    have hnext : (requestMachine relaxed).next = requestNext relaxed := rfl
    refine ⟨.path, .inr rfl, ?_⟩
    simp only [Automaton.quiet, hnext, hfirst, hquiet]

end Target

end ApexStorm.Http
