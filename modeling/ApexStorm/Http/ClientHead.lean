import ApexStorm.Http.ClientParser
import ApexStorm.Http.Framing

/-!
# Response heads

A head is a status line, header lines and an empty line. Each line may end with a line
feed alone. The parser consumes such a head exactly and records every line. Only when the
last header line is one of the three special ones and has no value, the parser is not
finished at its end.
-/

namespace ApexStorm.Http.Client
open ApexStorm.Lib ApexStorm.Lib.Numeral

theorem ne_of_class {p : UInt8 → Bool} {b c : UInt8} (h : p c = true) (hb : p b = false) :
    c ≠ b := by
  rintro rfl
  exact Bool.false_ne_true (hb.symm.trans h)

@[simp] theorem isChar_lf (c : UInt8) : isChar "\n" c = decide (c = 10) := isChar_singleton rfl c

@[simp] theorem isChar_cr (c : UInt8) : isChar "\r" c = decide (c = 13) := isChar_singleton rfl c

section Texts
variable {m : Memory} {pos len b : ℕ} {xs ys text : List UInt8} {c e : UInt8}

theorem slice_append (m : Memory) (pos k n : ℕ) :
    slice m pos (k + n) = slice m pos k ++ slice m (pos + k) n := by
  simp [slice, List.range_add, Function.comp_def, Nat.add_assoc]

theorem exists_slice (h : Holds m pos xs) (hlen : pos + xs.length ≤ len) :
    ∃ rest, slice m pos (len - pos) = xs ++ rest := by
  obtain ⟨k, rfl⟩ := Nat.exists_eq_add_of_le hlen
  refine ⟨slice m (pos + xs.length) k, ?_⟩
  rw [Nat.add_assoc, Nat.add_sub_cancel_left, slice_append, h.slice_eq]

theorem string_empty (m : Memory) (hpos : pos < 2 ^ 64) :
    string m pos (lenTo pos pos) = some [] := by
  rw [lenTo_eq (Nat.le_refl _) hpos, Nat.sub_self]
  rfl

def number (b : ℕ) (xs : List UInt8) : ℕ := (value b xs).getD 0

theorem digitValue_class : ∀ c : UInt8, (digitValue c).isSome = true →
    space c = false ∧ c ≠ 45 ∧ c ≠ 43 ∧ toLower c ≠ 120 := by
  apply forall_byte
  decide +kernel

theorem isSome_of_digitIn (h : digitIn b c = true) : (digitValue c).isSome = true := by
  rw [digitIn] at h
  cases hc : digitValue c with
  | none => simp [hc] at h
  | some d => rfl

theorem strtol_digits (hxs : xs.all (digitIn b) = true) (hne : xs ≠ []) (he : digitIn b e = false)
    (hx : toLower e ≠ 120) (ys : List UInt8) :
    strtol b (xs ++ e :: ys) = min (number b xs : ℤ) (2 ^ 63 - 1) := by
  have htake : (xs ++ e :: ys).takeWhile (digitIn b) = xs := by
    rw [List.takeWhile_append_of_pos (List.all_eq_true.mp hxs), List.takeWhile_cons_of_neg,
      List.append_nil]
    rw [he]
    exact Bool.false_ne_true
  obtain ⟨c, cs, rfl⟩ := List.exists_cons_of_ne_nil hne
  rw [List.all_cons, Bool.and_eq_true] at hxs
  obtain ⟨hspace, hminus, hplus, -⟩ := digitValue_class c (isSome_of_digitIn hxs.1)
  have hdrop : ((c :: cs) ++ e :: ys).dropWhile space = (c :: cs) ++ e :: ys := by
    rw [List.cons_append, List.dropWhile_cons_of_neg]
    rw [hspace]
    exact Bool.false_ne_true
  have hprefix : (((c :: cs) ++ e :: ys).take 2).map toLower ≠ ascii "0x" := by
    have hsecond : ∃ d rest, cs ++ e :: ys = d :: rest ∧ toLower d ≠ 120 := by
      cases cs with
      | nil => exact ⟨e, ys, rfl, hx⟩
      | cons d ds =>
        have hd := List.all_eq_true.mp hxs.2 d List.mem_cons_self
        exact ⟨d, _, rfl, (digitValue_class d (isSome_of_digitIn hd)).2.2.2⟩
    obtain ⟨d, rest, heq, hd⟩ := hsecond
    rw [List.cons_append, heq]
    exact fun h => hd (List.cons.inj (List.cons.inj h).2).1
  have hhead : ((c :: cs) ++ e :: ys).head? = some c := rfl
  generalize (c :: cs) ++ e :: ys = text at *
  simp [strtol, hdrop, hhead, hminus, hplus, hprefix, htake, number, -List.map_take]

theorem strncmp_iff {v t : List UInt8} (hv : 0 ∉ v) (hle : t.length ≤ v.length) :
    strncmp (cString v) (cString t) v.length = true ↔ v = t := by
  induction v generalizing t with
  | nil => simp [strncmp, List.eq_nil_of_length_eq_zero (Nat.le_zero.mp hle)]
  | cons c v ih =>
    rw [List.mem_cons, not_or] at hv
    cases t with
    | nil => simp [strncmp, cString, Ne.symm hv.1]
    | cons d t =>
      have hcons (x : UInt8) (xs : List UInt8) :
          (fun i => cString (x :: xs) (i + 1)) = cString xs := funext fun i => by simp [cString]
      have hhead (x : UInt8) (xs : List UInt8) : cString (x :: xs) 0 = x := rfl
      have hzero : (c == 0) = false := beq_eq_false_iff_ne.mpr (Ne.symm hv.1)
      rw [List.length_cons, strncmp, hcons, hcons, hhead, hhead, hzero, Bool.false_or,
        Bool.and_eq_true, beq_iff_eq, ih hv.2 (Nat.le_of_succ_le_succ hle), List.cons.injEq]

end Texts

section Reads
variable {m : Memory} {pos len : ℕ} {s s₁ s₂ s₃ : State} {r r₁ r₂ : Recorded} {o : Offsets}
  {xs ys eol : List UInt8} {c e : UInt8}

/-- The flag for a line `connection: close` is set with the first byte of the next line. -/
def settle (s : State) (r : Recorded) : Recorded :=
  if s = .closeLine then { r with close := true } else r

/-- Reading `xs` takes the parser from one state and record to another, whatever the offsets. -/
def Reads (s : State) (r : Recorded) (xs : List UInt8) (s₁ : State) (r₁ : Recorded) : Prop :=
  ∀ m pos len d, Holds m pos xs → pos + xs.length ≤ len → len < 2 ^ 31 → settle s d.2 = r →
    ∃ d₁, (clientScanner len).Steps m pos s d xs s₁ d₁ ∧ settle s₁ d₁.2 = r₁

theorem Reads.nil : Reads s r [] s r := fun _ _ _ d _ _ _ hd => ⟨d, .nil, hd⟩

theorem Reads.append (h : Reads s r xs s₁ r₁) (h' : Reads s₁ r₁ ys s₂ r₂) :
    Reads s r (xs ++ ys) s₂ r₂ := by
  intro m pos len d hm hle hlen hd
  rw [holds_append] at hm
  rw [List.length_append, ← Nat.add_assoc] at hle
  obtain ⟨d₁, hsteps, hd₁⟩ := h m pos len d hm.1 (by omega) hlen hd
  obtain ⟨d₂, hsteps', hd₂⟩ := h' m _ len d₁ hm.2 hle hlen hd₁
  exact ⟨d₂, hsteps.append hsteps', hd₂⟩

theorem Reads.of_eq (h : Reads s r xs s₁ r₁) (heq : xs = ys) : Reads s r ys s₁ r₁ := heq ▸ h

theorem acts_one {a : Action} {d : Offsets × Recorded} :
    (clientScanner len).acts m pos [a] d = doAction len m pos a d := Scanner.acts_singleton

theorem any_stops {as : List Action} (h : .done ∉ as) :
    as.any (clientScanner len).stops = false := by
  rw [List.any_eq_false]
  intro a ha hstops
  exact h (of_decide_eq_true hstops ▸ ha)

theorem steps_quiet {d : Offsets × Recorded} (hm : Holds m pos xs)
    (h : (clientScanner len).quiet s xs = some s₁) : (clientScanner len).Steps m pos s d xs s₁ d :=
  .quiet h hm.getElem

theorem reads_quiet (hs : s ≠ .closeLine ∧ s₁ ≠ .closeLine)
    (h : ∀ len, (clientScanner len).quiet s xs = some s₁) : Reads s r xs s₁ r := by
  intro m pos len d hm _ _ hd
  refine ⟨d, steps_quiet hm (h len), ?_⟩
  rw [← hd, settle, settle, if_neg hs.1, if_neg hs.2]

theorem reads_marked {a : Action} {f : Recorded → Recorded}
    (hs : s ≠ .closeLine ∧ s₃ ≠ .closeLine ∧ a ≠ .done)
    (hstart : clientNext s c = some ([.mark], s₁))
    (hquiet : ∀ len, (clientScanner len).quiet s₁ xs = some s₂)
    (hend : clientNext s₂ e = some ([a], s₃))
    (ha : ∀ m pos len o, Holds m pos ((c :: xs) ++ [e]) → pos + (c :: xs).length < len →
      len < 2 ^ 31 → o.mark = pos →
      ∃ o', doAction len m (pos + (c :: xs).length) a (o, r) = some (o', f r)) :
    Reads s r ((c :: xs) ++ [e]) s₃ (f r) := by
  intro m pos len d hm hle hlen hd
  obtain ⟨o, r₀⟩ := d
  obtain rfl : r₀ = r := by simpa [settle, hs.1] using hd
  rw [List.length_append, List.length_singleton] at hle
  obtain ⟨o', ho'⟩ := ha m pos len { o with mark := pos } hm (by omega) hlen rfl
  obtain ⟨hcs, he, -⟩ := holds_append.mp hm
  have hfirst : (clientScanner len).Steps m pos s (o, r₀) [c] s₁ ({ o with mark := pos }, r₀) :=
    .one hcs.1 hstart rfl rfl
  have hlast : (clientScanner len).Steps m (pos + (c :: xs).length) s₂ ({ o with mark := pos }, r₀)
      [e] s₃ (o', f r₀) := by
    refine .one he hend (any_stops ?_) (acts_one.trans ho')
    exact fun h => hs.2.2 (List.mem_singleton.mp h).symm
  refine ⟨(o', f r₀), (hfirst.append (steps_quiet hcs.2 (hquiet len))).append hlast, ?_⟩
  rw [settle, if_neg hs.2.1]

end Reads

section StatusLine
variable {r : Recorded} {xs ys eol : List UInt8} {c : UInt8}

def IsEol (eol : List UInt8) : Prop := eol = [10] ∨ eol = [13, 10]

def versionText (major minor : List UInt8) : List UInt8 :=
  ascii "HTTP/" ++ major ++ [46] ++ minor

def Recorded.setVersion (r : Recorded) (text : List UInt8) : Recorded :=
  if text = ascii "HTTP/1.1" then { r with data := { r.data with version := 0x11 } }
  else if text = ascii "HTTP/1.0" then { r with data := { r.data with version := 0x10 } }
  else { r with error := 1001 }

def Recorded.setStatus (r : Recorded) (code : List UInt8) : Recorded :=
  let v : ℤ := min (number 10 code : ℤ) (2 ^ 63 - 1)
  { r with status := toInt v, data := { r.data with status := (v % 2 ^ 32).toNat } }

structure Digits (xs : List UInt8) : Prop where
  ne_nil : xs ≠ []
  all : xs.all digit = true

theorem Digits.exists_cons (h : Digits xs) :
    ∃ c cs, xs = c :: cs ∧ digit c = true ∧ cs.all digit = true := by
  obtain ⟨c, cs, rfl⟩ := List.exists_cons_of_ne_nil h.ne_nil
  have hdigit := h.all
  rw [List.all_cons, Bool.and_eq_true] at hdigit
  exact ⟨c, cs, rfl, hdigit⟩

theorem quiet_digits {len : ℕ} {s s₁ : State} (h : Digits xs)
    (hstart : ∀ c, digit c = true → clientNext s c = some ([], s₁))
    (hstay : ∀ c, digit c = true → clientNext s₁ c = some ([], s₁)) :
    (clientScanner len).quiet s xs = some s₁ := by
  obtain ⟨c, cs, rfl, hc, hcs⟩ := h.exists_cons
  rw [Scanner.quiet_cons (hstart c hc)]
  exact Scanner.quiet_loop fun d hd => hstay d (List.all_eq_true.mp hcs d hd)

theorem quiet_version {major minor : List UInt8} (hmajor : Digits major) (hminor : Digits minor)
    (len : ℕ) :
    (clientScanner len).quiet (.version 1) (ascii "TTP/" ++ (major ++ [46] ++ minor)) =
      some .minor := by
  have hname : (clientScanner len).quiet (.version 1) (ascii "TTP/") = some (.version 5) := rfl
  have hdot : (clientScanner len).next .major 46 = some ([], .minorStart) := rfl
  have hmaj : (clientScanner len).quiet (.version 5) major = some .major :=
    quiet_digits hmajor (fun c hc => by simp [clientNext, hc]) fun c hc => by simp [clientNext, hc]
  rw [Scanner.quiet_append hname, List.append_assoc, Scanner.quiet_append hmaj,
    List.singleton_append, Scanner.quiet_cons hdot]
  exact quiet_digits hminor (fun c hc => by simp [clientNext, hc]) fun c hc => by
    simp [clientNext, hc]

theorem not_mem_versionText {major minor : List UInt8} (hmajor : Digits major)
    (hminor : Digits minor) : 0 ∉ versionText major minor := by
  have hdigits {xs : List UInt8} (h : Digits xs) : 0 ∉ xs := fun h0 =>
    ne_of_class (List.all_eq_true.mp h.all 0 h0) (by decide) rfl
  rw [versionText]
  simp only [List.mem_append, not_or]
  exact ⟨⟨⟨by decide, hdigits hmajor⟩, by decide⟩, hdigits hminor⟩

theorem reads_version {major minor : List UInt8} (hmajor : Digits major) (hminor : Digits minor) :
    Reads .start r (versionText major minor ++ [32]) .statusStart
      (r.setVersion (versionText major minor)) := by
  have htext : versionText major minor = 72 :: (ascii "TTP/" ++ (major ++ [46] ++ minor)) := by
    simp [versionText, ascii]
  have hlength : 8 ≤ (versionText major minor).length := by
    have := List.length_pos_iff.mpr hmajor.ne_nil
    have := List.length_pos_iff.mpr hminor.ne_nil
    simp [versionText, ascii]
    omega
  have hzero := not_mem_versionText hmajor hminor
  rw [htext] at hlength hzero ⊢
  refine reads_marked (f := (Recorded.setVersion · _)) (a := .httpVersion) (by decide) rfl
    (quiet_version hmajor hminor) rfl ?_
  intro m pos len o hm hle hlen ho
  have hholds := (holds_append.mp hm).1
  have hcmp (t : List UInt8) (ht : t.length ≤ 8) :
      strncmp (fun i => m (pos + i)) (cString t)
        (72 :: (ascii "TTP/" ++ (major ++ [46] ++ minor))).length = true ↔
      72 :: (ascii "TTP/" ++ (major ++ [46] ++ minor)) = t := by
    rw [← strncmp_iff hzero (ht.trans hlength)]
    refine Eq.congr_left (strncmp_congr (fun i hi => ?_) fun _ _ => rfl)
    rw [hholds.getElem i hi, cString_getElem hi]
  refine ⟨o, ?_⟩
  rw [doAction, ho, lenTo_eq (Nat.le_add_right _ _) (by omega), Nat.add_sub_cancel_left,
    Recorded.onResponseVersion, Recorded.setVersion]
  simp only [hcmp _ (by decide : (ascii "HTTP/1.1").length ≤ 8),
    hcmp _ (by decide : (ascii "HTTP/1.0").length ≤ 8)]

theorem digitIn_ten : ∀ c : UInt8, digitIn 10 c = digit c := by
  apply forall_byte
  decide +kernel

theorem reads_status {code : List UInt8} (h : Digits code) :
    Reads .statusStart r (code ++ [32]) .reasonStart (r.setStatus code) := by
  obtain ⟨c, cs, rfl, hc, hcs⟩ := h.exists_cons
  have hstart : clientNext .statusStart c = some ([.mark], .status) := by simp [clientNext, hc]
  have hstay (d : UInt8) (hd : digit d = true) : clientNext .status d = some ([], .status) := by
    simp [clientNext, hd]
  refine reads_marked (f := (Recorded.setStatus · _)) (a := .statusCode) (by decide) hstart
    (fun len => Scanner.quiet_loop fun d hd => hstay d (List.all_eq_true.mp hcs d hd)) rfl ?_
  intro m pos len o hm hle hlen ho
  have hfit : pos + ((c :: cs) ++ [32]).length ≤ len := by
    rw [List.length_append, List.length_singleton]
    omega
  obtain ⟨rest, hrest⟩ := exists_slice hm hfit
  have hdigits : (c :: cs).all (digitIn 10) = true := by
    simpa only [funext digitIn_ten] using h.all
  refine ⟨o, ?_⟩
  rw [doAction, ho, hrest, List.append_assoc, List.singleton_append]
  rw [strtol_digits hdigits h.ne_nil (by decide) (by decide), Recorded.onResponseStatus,
    strtol_digits hdigits h.ne_nil (by decide) (by decide)]
  rfl

theorem noBreak_cons : noBreak (c :: xs) ↔ (c ≠ 13 ∧ c ≠ 10) ∧ noBreak xs := by
  simp only [noBreak, List.mem_cons, not_or, ne_comm (a := c)]
  tauto

theorem reads_reason (hne : xs ≠ []) (hxs : noBreak xs) (heol : IsEol eol) :
    Reads .reasonStart r (xs ++ eol) .line (r.onResponseReason xs) := by
  obtain ⟨c, cs, rfl⟩ := List.exists_cons_of_ne_nil hne
  obtain ⟨hc, hcs⟩ := noBreak_cons.mp hxs
  have hstart : clientNext .reasonStart c = some ([.mark], .reason) := by
    simp [clientNext, hc.2]
  have hstay (d : UInt8) (hd : d ≠ 13 ∧ d ≠ 10) : clientNext .reason d = some ([], .reason) := by
    simp [clientNext, hd.1, hd.2]
  have hquiet (len : ℕ) : (clientScanner len).quiet .reason cs = some .reason :=
    Scanner.quiet_loop fun d hd => hstay d ⟨fun h => hcs.1 (h ▸ hd), fun h => hcs.2 (h ▸ hd)⟩
  have hreason (e : UInt8) (m : Memory) (pos len : ℕ) (o : Offsets)
      (hm : Holds m pos ((c :: cs) ++ [e])) (hle : pos + (c :: cs).length < len)
      (hlen : len < 2 ^ 31) (ho : o.mark = pos) :
      ∃ o', doAction len m (pos + (c :: cs).length) .reasonPhrase (o, r) =
        some (o', r.onResponseReason (c :: cs)) := by
    have hstring := (holds_append.mp hm).1.string_eq (by omega)
    refine ⟨o, ?_⟩
    rw [doAction, ho, hstring]
    rfl
  rcases heol with rfl | rfl
  · exact reads_marked (f := (Recorded.onResponseReason · _)) (a := .reasonPhrase)
      (by decide) hstart hquiet rfl (hreason 10)
  · have hcr : Reads .reasonStart r ((c :: cs) ++ [13]) .lineCr (r.onResponseReason (c :: cs)) :=
      reads_marked (f := (Recorded.onResponseReason · _)) (a := .reasonPhrase)
        (by decide) hstart hquiet rfl (hreason 13)
    have hlf : Reads .lineCr (r.onResponseReason (c :: cs)) [10] .line
        (r.onResponseReason (c :: cs)) := reads_quiet (by decide) fun _ => rfl
    exact (hcr.append hlf).of_eq (List.append_assoc ..)

end StatusLine

inductive AtLine : State → Prop
  | line : AtLine .line
  | closeLine : AtLine .closeLine
  | keyLine (k : Keyword) : AtLine (.keyLine k)

inductive InName : List UInt8 → State → Prop
  | named (p : List UInt8) : InName p (named p)
  | both {k : Keyword} {n : ℕ} (hk : k ≠ .digits) (hn : 0 < n) (hle : n ≤ k.text.length) :
      InName (k.text.take n) (.keyBoth k n)
  | digits {p : List UInt8} (h : Digits p) : InName p (.keyBoth .digits 1)

def lower (xs : List UInt8) : List UInt8 := xs.map toLower

section Names
variable {s : State} {p xs name : List UInt8} {c : UInt8} {k : Keyword} {n : ℕ}

theorem token_class : ∀ c : UInt8, token c = true →
    c ≠ 10 ∧ c ≠ 13 ∧ blank c = false ∧ isChar ":" c = false := by
  apply forall_byte
  decide +kernel

theorem toLower_digit : ∀ c : UInt8, digit c = true → toLower c = c := by
  apply forall_byte
  decide +kernel

theorem named_cases (p : List UInt8) : named p = .keyName p ∨ named p = .name := by
  rw [named]
  split_ifs
  · exact .inl rfl
  · exact .inr rfl

theorem named_eq_name : named p = .name ↔ ∀ k ∈ Keyword.all, ¬ p <+: k.name := by
  rw [named]
  split_ifs with hany
  · obtain ⟨k, hk, hprefix⟩ := List.any_eq_true.mp hany
    simp only [false_iff, not_forall, not_not]
    exact ⟨k, hk, List.isPrefixOf_iff_prefix.mp hprefix⟩
  · simp only [true_iff]
    intro k hk hprefix
    exact hany (List.any_eq_true.mpr ⟨k, hk, List.isPrefixOf_iff_prefix.mpr hprefix⟩)

theorem named_append (h : named p = .name) (xs : List UInt8) : named (p ++ xs) = .name := by
  rw [named_eq_name] at h ⊢
  exact fun k hk hprefix => h k hk ((List.prefix_append p xs).trans hprefix)

theorem head_name (k : Keyword) : ∃ b bs, k.name = b :: bs ∧ digit b = false := by
  cases k <;> exact ⟨_, _, rfl, by decide⟩

theorem named_of_digits (h : Digits p) : named p = .name := by
  obtain ⟨c, cs, rfl, hc, -⟩ := h.exists_cons
  rw [named_eq_name]
  intro k _ hprefix
  obtain ⟨b, bs, hname, hb⟩ := head_name k
  rw [hname, List.cons_prefix_cons] at hprefix
  exact ne_of_class hc hb hprefix.1

theorem advance_eq (hk : k ≠ .digits) :
    k.advance n c = if k.text[n]? = some (toLower c) then some (n + 1) else none := by
  cases k with
  | digits => exact absurd rfl hk
  | _ => rfl

theorem InName.step (h : InName p s) (hc : token c = true) :
    ∃ s', clientNext s c = some ([], s') ∧ InName (p ++ [toLower c]) s' := by
  obtain ⟨hlf, hcr, -, hcolon⟩ := token_class c hc
  cases h with
  | named p =>
    rcases named_cases p with hp | hp
    · exact ⟨_, by rw [hp]; simp [clientNext, hc], .named _⟩
    · refine ⟨.name, by rw [hp]; simp [clientNext, hc], ?_⟩
      rw [← named_append hp [toLower c]]
      exact .named _
  | both hk hn hle =>
    rename_i k n
    by_cases htext : k.text[n]? = some (toLower c)
    · refine ⟨.keyBoth k (n + 1), ?_, ?_⟩
      · simp [clientNext, hlf, hcr, hcolon, hc, advance_eq hk, htext]
      · have htake : k.text.take n ++ [toLower c] = k.text.take (n + 1) := by
          rw [List.take_add_one, htext]
          rfl
        rw [htake]
        exact .both hk (Nat.succ_pos n) (List.getElem?_eq_some_iff.mp htext).1
    · refine ⟨_, ?_, .named _⟩
      simp [clientNext, hlf, hcr, hcolon, hc, advance_eq hk, htext, hk]
  | digits h =>
    by_cases hdigit : digit c = true
    · refine ⟨.keyBoth .digits 1, ?_, .digits ⟨by simp, ?_⟩⟩
      · simp [clientNext, hlf, hcr, hcolon, hc, Keyword.advance, hdigit]
      · simp [h.all, toLower_digit c hdigit, hdigit]
    · refine ⟨.name, ?_, ?_⟩
      · simp [clientNext, hlf, hcr, hcolon, hc, Keyword.advance, hdigit]
      · rw [← named_append (named_of_digits h) [toLower c]]
        exact .named _

theorem afterName_of_forall (h : ∀ k : Keyword, k.name ≠ p) : afterName p = .valueStart := by
  have hnone : Keyword.all.find? (fun k => k.name = p) = none := by
    rw [List.find?_eq_none]
    intro k _ heq
    exact h k (of_decide_eq_true heq)
  rw [afterName, hnone]

theorem afterName_of_name (h : named p = .name) : afterName p = .valueStart := by
  refine afterName_of_forall fun k heq => named_eq_name.mp h k ?_ ?_
  · cases k <;> decide
  · rw [heq]

theorem InName.colon (h : InName p s) : clientNext s 58 = some ([.writeField], afterName p) := by
  cases h with
  | named p =>
    rcases named_cases p with hp | hp
    · rw [hp]
      rfl
    · rw [hp, afterName_of_name hp]
      rfl
  | both hk hn hle =>
    rename_i k n
    -- The texts of the rules are shorter than the names.
    have hshort : afterName (k.text.take n) = .valueStart := by
      refine afterName_of_forall fun k' heq => ?_
      have hname : 10 ≤ k'.name.length := by cases k' <;> decide
      have htext : k.text.length < 10 := by cases k <;> decide
      rw [heq, List.length_take] at hname
      omega
    have hcolon : isChar ":" 58 = true := by decide
    rw [hshort]
    simp [clientNext, hcolon]
  | digits h =>
    rw [afterName_of_name (named_of_digits h)]
    rfl

theorem inName_of_advance (h : k.advance 0 c = some n) : InName [toLower c] (.keyBoth k n) := by
  by_cases hk : k = .digits
  · subst hk
    rw [Keyword.advance] at h
    split_ifs at h with hdigit
    cases h
    exact .digits ⟨by simp, by simp [toLower_digit c hdigit, hdigit]⟩
  · rw [advance_eq hk] at h
    split_ifs at h with htext
    cases h
    have htake : k.text.take 1 = [toLower c] := by
      rw [List.take_add_one, htext]
      rfl
    rw [← htake]
    exact .both hk Nat.one_pos (List.getElem?_eq_some_iff.mp htext).1

theorem AtLine.enter (hs : AtLine s) (hc : token c = true) :
    ∃ as s', clientNext s c = some (as, s') ∧ InName [toLower c] s' ∧ .done ∉ as ∧
      ∀ len m pos o r, ∃ o' : Offsets, o'.fieldStart = pos ∧
        (clientScanner len).acts m pos as (o, r) = some (o', settle s r) := by
  obtain ⟨hlf, hcr, hblank, -⟩ := token_class c hc
  cases hs with
  | line =>
    refine ⟨[.startField], named [toLower c], ?_, .named _, by decide, ?_⟩
    · simp [clientNext, lineNext, hlf, hcr, hc]
    · exact fun len m pos o r => ⟨_, rfl, rfl⟩
  | closeLine =>
    refine ⟨[.writeConnectionClose, .startField], named [toLower c], ?_, .named _, by decide, ?_⟩
    · simp [clientNext, lineNext, hlf, hcr, hc]
    · exact fun len m pos o r => ⟨_, rfl, rfl⟩
  | keyLine k =>
    cases hadvance : k.advance 0 c with
    | none =>
      refine ⟨[.startField], named [toLower c], ?_, .named _, by decide, ?_⟩
      · simp [clientNext, hblank, hlf, hcr, hc, hadvance]
      · exact fun len m pos o r => ⟨_, rfl, rfl⟩
    | some n =>
      refine ⟨k.enter ++ [.startField], .keyBoth k n, ?_, inName_of_advance hadvance, ?_, ?_⟩
      · simp [clientNext, hblank, hlf, hcr, hc, hadvance]
      · cases k <;> decide
      · cases k <;> exact fun len m pos o r => ⟨_, rfl, rfl⟩

theorem InName.quiet (h : InName p s) (hxs : ∀ c ∈ xs, token c = true) (len : ℕ) :
    ∃ s', (clientScanner len).quiet s xs = some s' ∧ InName (p ++ lower xs) s' := by
  induction xs generalizing p s with
  | nil => exact ⟨s, rfl, by simpa [lower] using h⟩
  | cons c xs ih =>
    rw [List.forall_mem_cons] at hxs
    obtain ⟨s₁, hnext, h₁⟩ := h.step hxs.1
    obtain ⟨s', hquiet, h'⟩ := ih h₁ hxs.2
    refine ⟨s', ?_, by simpa [lower] using h'⟩
    rw [Scanner.quiet_cons hnext, hquiet]

theorem AtLine.reads_name {m : Memory} {pos len : ℕ} {d : Offsets × Recorded} (hs : AtLine s)
    (hne : name ≠ []) (hname : ∀ c ∈ name, token c = true) (hm : Holds m pos (name ++ [58]))
    (hle : pos + name.length < len) (hlen : len < 2 ^ 31) :
    ∃ o, (clientScanner len).Steps m pos s d (name ++ [58]) (afterName (lower name))
        (o, settle s d.2) ∧ string m o.fieldStart o.fieldLen = some name := by
  obtain ⟨c, cs, rfl⟩ := List.exists_cons_of_ne_nil hne
  rw [List.forall_mem_cons] at hname
  obtain ⟨hholds, hcolon, -⟩ := holds_append.mp hm
  obtain ⟨as, s₁, hnext, hin, hdone, hacts⟩ := hs.enter hname.1
  obtain ⟨o, ho, hacts⟩ := hacts len m pos d.1 d.2
  obtain ⟨s₂, hquiet, hin'⟩ := hin.quiet hname.2 len
  have hfirst : (clientScanner len).Steps m pos s d [c] s₁ (o, settle s d.2) :=
    .one hholds.1 hnext (any_stops hdone) hacts
  have hlast : (clientScanner len).Steps m (pos + (c :: cs).length) s₂ (o, settle s d.2) [58]
      (afterName (lower (c :: cs)))
      ({ o with fieldLen := lenTo o.fieldStart (pos + (c :: cs).length) }, settle s d.2) :=
    .one hcolon hin'.colon rfl rfl
  refine ⟨_, (hfirst.append (steps_quiet hholds.2 hquiet)).append hlast, ?_⟩
  dsimp only
  rw [ho]
  exact hholds.string_eq (by omega)

end Names

def keywordOf (p : List UInt8) : Option Keyword := Keyword.all.find? fun k => k.name = p

def startOf : Option Keyword → State
  | none => .valueStart
  | some k => .keyStart k

namespace Keyword

def begins (k : Keyword) (x : List UInt8) : Bool :=
  match k with
  | .digits => x.all digit
  | k => (lower x).isPrefixOf k.text

def place (k : Keyword) (x : List UInt8) : ℕ :=
  match k with
  | .digits => 1
  | _ => x.length

def accepts (k : Keyword) (x : List UInt8) : Bool :=
  match k with
  | .digits => x ≠ [] && x.all digit
  | k => lower x = k.text

def record (k : Keyword) (x : List UInt8) (r : Recorded) : Recorded :=
  match k with
  | .close => { r with close := true }
  | .chunked => { r with chunked := true }
  | .digits => { r with contentLen := toInt (min (number 10 x : ℤ) (2 ^ 63 - 1)) }

end Keyword

def valueAt : Option Keyword → List UInt8 → State
  | none, _ => .value
  | some k, x => if k.begins x then .keyValue k (k.place x) else .value

/-- The state behind a line; after a special name without a value its rule still waits. -/
def afterLine : Option Keyword → List UInt8 → State
  | none, _ => .line
  | some k, x =>
    if x = [] then .keyLine k else if k = .close ∧ k.accepts x then .closeLine else .line

def recordValue : Option Keyword → List UInt8 → Recorded → Recorded
  | none, _, r => r
  | some k, x, r => if k.accepts x then k.record x r else r

section Values
variable {p x name eol : List UInt8} {c : UInt8} {k : Option Keyword} {κ : Keyword} {n : ℕ}

theorem afterName_eq : afterName p = startOf (keywordOf p) := by
  rw [afterName, keywordOf]
  cases Keyword.all.find? fun k => k.name = p <;> rfl

theorem prefix_concat_iff {α : Type} {xs ys : List α} {a : α} :
    xs ++ [a] <+: ys ↔ xs <+: ys ∧ ys[xs.length]? = some a := by
  constructor
  · rintro ⟨zs, rfl⟩
    exact ⟨⟨[a] ++ zs, by simp⟩, by simp⟩
  · rintro ⟨⟨zs, rfl⟩, ha⟩
    cases zs with
    | nil => simp at ha
    | cons z zs =>
      obtain rfl : z = a := by simpa using ha
      exact ⟨zs, by simp⟩

theorem begins_iff (hκ : κ ≠ .digits) : κ.begins x = true ↔ lower x <+: κ.text := by
  rw [← List.isPrefixOf_iff_prefix]
  cases κ with
  | digits => exact absurd rfl hκ
  | _ => rfl

theorem accepts_iff (hκ : κ ≠ .digits) : κ.accepts x = true ↔ lower x = κ.text := by
  cases κ with
  | digits => exact absurd rfl hκ
  | _ => exact decide_eq_true_iff

theorem place_eq (hκ : κ ≠ .digits) : κ.place x = x.length := by
  cases κ with
  | digits => exact absurd rfl hκ
  | _ => rfl

theorem length_lower : (lower x).length = x.length := List.length_map _

theorem begins_concat (hκ : κ ≠ .digits) :
    κ.begins (x ++ [c]) = true ↔ κ.begins x = true ∧ κ.text[x.length]? = some (toLower c) := by
  rw [begins_iff hκ, begins_iff hκ, ← length_lower, ← prefix_concat_iff]
  simp [lower]

theorem begins_of_concat (h : κ.begins (x ++ [c]) = true) : κ.begins x = true := by
  by_cases hκ : κ = .digits
  · subst hκ
    simp only [Keyword.begins, List.all_append, Bool.and_eq_true] at h
    exact h.1
  · exact ((begins_concat hκ).mp h).1

theorem valueAt_concat (h : κ.begins x = true) :
    ((κ.advance (κ.place x) c).map (.keyValue κ)).getD .value = valueAt (some κ) (x ++ [c]) := by
  by_cases hκ : κ = .digits
  · subst hκ
    rw [Keyword.begins] at h
    by_cases hc : digit c = true <;>
      simp [Keyword.advance, valueAt, Keyword.begins, Keyword.place, h, hc]
  · rw [place_eq hκ, advance_eq hκ, valueAt, place_eq hκ, List.length_append]
    by_cases htext : κ.text[x.length]? = some (toLower c)
    · rw [if_pos htext, if_pos ((begins_concat hκ).mpr ⟨h, htext⟩)]
      rfl
    · rw [if_neg htext, if_neg fun hb => htext ((begins_concat hκ).mp hb).2]
      rfl

theorem start_next (hlf : c ≠ 10) (hcr : c ≠ 13) (hblank : blank c = false) :
    clientNext (startOf k) c = some ([.startValue], valueAt k [c]) := by
  cases k with
  | none => simp [startOf, clientNext, hlf, hcr, hblank, valueAt]
  | some κ =>
    have hzero : κ.advance 0 c = κ.advance (κ.place []) c := by cases κ <;> rfl
    have hnil : κ.begins [] = true := by cases κ <;> rfl
    simp [startOf, clientNext, hlf, hcr, hblank, hzero, valueAt_concat hnil]

theorem value_next (hlf : c ≠ 10) (hcr : c ≠ 13) :
    clientNext (valueAt k x) c = some ([], valueAt k (x ++ [c])) := by
  cases k with
  | none => simp [valueAt, clientNext, hlf, hcr]
  | some κ =>
    by_cases h : κ.begins x = true
    · rw [← valueAt_concat h, valueAt, if_pos h]
      simp [clientNext, hlf, hcr]
    · rw [valueAt, if_neg h, valueAt, if_neg fun hconcat => h (begins_of_concat hconcat)]
      simp [clientNext, hlf, hcr]

theorem complete_place (hne : x ≠ []) (h : κ.begins x = true) :
    κ.complete (κ.place x) = κ.accepts x := by
  by_cases hκ : κ = .digits
  · subst hκ
    rw [Keyword.begins] at h
    simp [Keyword.complete, Keyword.place, Keyword.accepts, h, hne]
  · have hcomplete (n : ℕ) : κ.complete n = true ↔ n = κ.text.length := by
      cases κ with
      | digits => exact absurd rfl hκ
      | _ => exact decide_eq_true_iff
    rw [Bool.eq_iff_iff, hcomplete, accepts_iff hκ, place_eq hκ, ← length_lower]
    exact ⟨((begins_iff hκ).mp h).eq_of_length, congrArg List.length⟩

theorem begins_of_accepts (h : κ.accepts x = true) : κ.begins x = true := by
  by_cases hκ : κ = .digits
  · subst hκ
    exact (Bool.and_eq_true_iff.mp h).2
  · rw [accepts_iff hκ] at h
    rw [begins_iff hκ, h]

theorem value_end (κ : Keyword) (hne : x ≠ []) :
    clientNext (valueAt (some κ) x) 10 = some (if κ.accepts x
      then (κ.along ++ κ.atLf.1, κ.atLf.2) else ([.writeValue], .line)) ∧
    clientNext (valueAt (some κ) x) 13 = some (if κ.accepts x
      then (κ.along ++ κ.atCr.1, κ.atCr.2) else ([.writeValue], .lineCr)) := by
  rw [valueAt]
  split_ifs with hbegins haccepts haccepts
  · simp [clientNext, complete_place hne hbegins, haccepts]
  · simp [clientNext, complete_place hne hbegins, haccepts]
  · exact absurd (begins_of_accepts haccepts) hbegins
  · simp [clientNext]

end Values

section Lines
variable {m : Memory} {pos len : ℕ} {s s' t : State} {d d' d₁ : Offsets × Recorded} {o : Offsets}
  {r : Recorded} {x xs name eol : List UInt8} {k : Option Keyword} {κ : Keyword}

theorem steps_eol {as bs cs : List Action} (heol : IsEol eol) (hm : Holds m pos eol)
    (hdone : .done ∉ as ∧ .done ∉ bs ∧ .done ∉ cs)
    (hlf : clientNext s 10 = some (as, s')) (hcr : clientNext s 13 = some (bs, t))
    (hcrlf : clientNext t 10 = some (cs, s'))
    (has : (clientScanner len).acts m pos as d = some d')
    (hbs : (clientScanner len).acts m pos bs d = some d₁)
    (hcs : (clientScanner len).acts m (pos + 1) cs d₁ = some d') :
    (clientScanner len).Steps m pos s d eol s' d' := by
  rcases heol with rfl | rfl
  · exact .one hm.1 hlf (any_stops hdone.1) has
  · have hfirst : (clientScanner len).Steps m pos s d [13] t d₁ :=
      .one hm.1 hcr (any_stops hdone.2.1) hbs
    exact hfirst.append (.one hm.2.1 hcrlf (any_stops hdone.2.2) hcs)

theorem acts_step {a : Action} {as : List Action} (hne : a ≠ .done)
    (ha : doAction len m pos a d = some d₁) :
    (clientScanner len).acts m pos (a :: as) d = (clientScanner len).acts m pos as d₁ :=
  Scanner.acts_cons (decide_eq_false hne) ha

theorem acts_two {a b : Action} (hne : a ≠ .done) (ha : doAction len m pos a d = some d₁)
    (hb : doAction len m pos b d₁ = some d') :
    (clientScanner len).acts m pos [a, b] d = some d' := by
  rw [acts_step hne ha, acts_one, hb]

theorem doAction_writeValue (hname : string m o.fieldStart o.fieldLen = some name)
    (hvalue : string m o.mark (lenTo o.mark pos) = some x) :
    doAction len m pos .writeValue (o, r) = some (o, r.onResponseHeaderField name x) := by
  rw [doAction, hname, hvalue]
  rfl

theorem afterLine_eq_line (hne : x ≠ []) (h : ¬ (κ = .close ∧ κ.accepts x = true)) :
    afterLine (some κ) x = .line := by
  rw [afterLine, if_neg hne, if_neg h]

theorem steps_value (hne : x ≠ []) (heol : IsEol eol) (hm : Holds m pos eol)
    (hname : string m o.fieldStart o.fieldLen = some name)
    (hvalue : string m o.mark (lenTo o.mark pos) = some x)
    (hlength : x.all digit = true →
      strtol 10 (slice m o.mark (len - o.mark)) = min (number 10 x : ℤ) (2 ^ 63 - 1)) :
    ∃ r', (clientScanner len).Steps m pos (valueAt k x) (o, r) eol (afterLine k x) (o, r') ∧
      settle (afterLine k x) r' = recordValue k x (r.onResponseHeaderField name x) := by
  have hwrite : doAction len m pos .writeValue (o, r) =
      some (o, r.onResponseHeaderField name x) := doAction_writeValue hname hvalue
  have hacts : (clientScanner len).acts m pos [.writeValue] (o, r) =
      some (o, r.onResponseHeaderField name x) := acts_one.trans hwrite
  -- Nothing but the header is recorded.
  have hplain (s : State) (hlf : clientNext s 10 = some ([.writeValue], .line))
      (hcr : clientNext s 13 = some ([.writeValue], .lineCr)) :
      (clientScanner len).Steps m pos s (o, r) eol .line (o, r.onResponseHeaderField name x) :=
    steps_eol heol hm (by decide) hlf hcr rfl hacts hacts rfl
  cases k with
  | none => exact ⟨_, hplain _ rfl rfl, rfl⟩
  | some κ =>
    obtain ⟨hlf, hcr⟩ := value_end κ hne
    rw [recordValue]
    by_cases haccepts : κ.accepts x = true
    · rw [if_pos haccepts] at hlf hcr ⊢
      cases κ with
      | close =>
        rw [afterLine, if_neg hne, if_pos ⟨rfl, haccepts⟩]
        exact ⟨_, steps_eol heol hm (by decide) hlf hcr rfl hacts hacts rfl, rfl⟩
      | chunked =>
        have hboth : (clientScanner len).acts m pos [.writeValue, .transChunked] (o, r) =
            some (o, Keyword.chunked.record x (r.onResponseHeaderField name x)) :=
          acts_two (by decide) hwrite rfl
        rw [afterLine_eq_line hne (by simp)]
        exact ⟨_, steps_eol heol hm (by decide) hlf hcr rfl hboth hacts rfl, rfl⟩
      | digits =>
        have hdigits := hlength (Bool.and_eq_true_iff.mp haccepts).2
        have hlen : doAction len m pos .writeContentLen (o, r) = some (o,
            { r with contentLen := toInt (min (number 10 x : ℤ) (2 ^ 63 - 1)) }) := by
          rw [doAction, hdigits]
        have hboth : (clientScanner len).acts m pos [.writeContentLen, .writeValue] (o, r) =
            some (o, Keyword.digits.record x (r.onResponseHeaderField name x)) :=
          acts_two (by decide) hlen (doAction_writeValue hname hvalue)
        rw [afterLine_eq_line hne (by simp)]
        exact ⟨_, steps_eol heol hm (by decide) hlf hcr rfl hboth hboth rfl, rfl⟩
    · rw [if_neg haccepts] at hlf hcr ⊢
      rw [afterLine_eq_line hne fun h => haccepts h.2]
      exact ⟨_, hplain _ hlf hcr, rfl⟩

theorem steps_no_value (len : ℕ) (k : Option Keyword) (r : Recorded) (heol : IsEol eol)
    (hm : Holds m pos eol) (hpos : pos < 2 ^ 63)
    (hname : string m o.fieldStart o.fieldLen = some name) :
    ∃ o', (clientScanner len).Steps m pos (startOf k) (o, r) eol (afterLine k [])
      (o', r.onResponseHeaderField name []) := by
  have hempty := string_empty m (by omega : pos < 2 ^ 64)
  have hacts : (clientScanner len).acts m pos [.startValue, .writeValue] (o, r) =
      some ({ o with mark := pos }, r.onResponseHeaderField name []) := by
    refine acts_two (by decide) rfl ?_
    exact doAction_writeValue (o := { o with mark := pos }) hname hempty
  cases k with
  | none => exact ⟨_, steps_eol heol hm (by decide) rfl rfl rfl hacts hacts rfl⟩
  | some κ => exact ⟨_, steps_eol heol hm (by decide) rfl rfl rfl hacts hacts rfl⟩

theorem steps_blanks (len : ℕ) (k : Option Keyword) (r : Recorded)
    (hxs : ∀ c ∈ xs, blank c = true) (hm : Holds m pos xs) :
    ∃ o', (clientScanner len).Steps m pos (startOf k) (o, r) xs (startOf k) (o', r) ∧
      o'.fieldStart = o.fieldStart ∧ o'.fieldLen = o.fieldLen := by
  induction xs generalizing pos o with
  | nil => exact ⟨o, .nil, rfl, rfl⟩
  | cons c xs ih =>
    rw [List.forall_mem_cons] at hxs
    have hnext : clientNext (startOf k) c = some ([.startValue], startOf k) := by
      have hlf : c ≠ 10 := ne_of_class hxs.1 (by decide)
      have hcr : c ≠ 13 := ne_of_class hxs.1 (by decide)
      cases k <;> simp [startOf, clientNext, hlf, hcr, hxs.1]
    have hfirst : (clientScanner len).Steps m pos (startOf k) (o, r) [c] (startOf k)
        ({ o with mark := pos }, r) := .one hm.1 hnext rfl rfl
    obtain ⟨o', hsteps, ho'⟩ := ih hxs.2 hm.2 (o := { o with mark := pos })
    exact ⟨o', hfirst.append hsteps, ho'⟩

theorem quiet_value (hx : x ≠ []) (hxs : noBreak xs) (len : ℕ) :
    (clientScanner len).quiet (valueAt k x) xs = some (valueAt k (x ++ xs)) := by
  induction xs generalizing x with
  | nil => rw [List.append_nil]; rfl
  | cons c xs ih =>
    obtain ⟨hc, hxs⟩ := noBreak_cons.mp hxs
    rw [Scanner.quiet_cons (value_next hc.2 hc.1), ih (by simp) hxs, List.append_assoc,
      List.singleton_append]

end Lines

/-- A header line as the parser takes it; blanks before the value do not belong to it. -/
structure HeaderLine where
  name : List UInt8
  blanks : List UInt8
  value : List UInt8
  eol : List UInt8
  name_ne : name ≠ []
  name_token : ∀ c ∈ name, token c = true
  blanks_blank : ∀ c ∈ blanks, blank c = true
  value_noBreak : noBreak value
  value_head : ∀ c ∈ value.head?, blank c = false
  eol_isEol : IsEol eol

namespace HeaderLine
variable (l : HeaderLine)

def text : List UInt8 := l.name ++ [58] ++ (l.blanks ++ (l.value ++ l.eol))

def keyword : Option Keyword := keywordOf (lower l.name)

def record (r : Recorded) : Recorded :=
  recordValue l.keyword l.value (r.onResponseHeaderField l.name l.value)

def after : State := afterLine l.keyword l.value

end HeaderLine

section Head
variable {m : Memory} {pos len : ℕ} {s : State} {d : Offsets × Recorded} {o : Offsets}
  {r : Recorded} {eol : List UInt8}

theorem atLine_after (l : HeaderLine) : AtLine l.after := by
  rw [HeaderLine.after, afterLine.eq_def]
  split
  · exact .line
  · split_ifs
    · exact .keyLine _
    · exact .closeLine
    · exact .line

theorem recordValue_nil (k : Option Keyword) : recordValue k [] r = r := by
  cases k with
  | none => rfl
  | some κ => cases κ <;> rfl

theorem settle_afterLine_nil (k : Option Keyword) : settle (afterLine k []) r = r := by
  cases k <;> rfl

theorem steps_rest {k : Option Keyword} {x name : List UInt8} (hx : noBreak x)
    (hhead : ∀ c ∈ x.head?, blank c = false) (heol : IsEol eol) (hm : Holds m pos (x ++ eol))
    (hle : pos + (x ++ eol).length ≤ len) (hlen : len < 2 ^ 31)
    (hname : string m o.fieldStart o.fieldLen = some name) :
    ∃ d', (clientScanner len).Steps m pos (startOf k) (o, r) (x ++ eol) (afterLine k x) d' ∧
      settle (afterLine k x) d'.2 = recordValue k x (r.onResponseHeaderField name x) := by
  have hfit := hle
  rw [List.length_append] at hle
  obtain ⟨hvalue, hend⟩ := holds_append.mp hm
  cases x with
  | nil =>
    obtain ⟨o', hsteps⟩ := steps_no_value len k r heol hm (by omega) hname
    refine ⟨_, hsteps, ?_⟩
    rw [settle_afterLine_nil, recordValue_nil]
  | cons c cs =>
    obtain ⟨hc, hcs⟩ := noBreak_cons.mp hx
    have hfirst : (clientScanner len).Steps m pos (startOf k) (o, r) [c] (valueAt k [c])
        ({ o with mark := pos }, r) :=
      .one hvalue.1 (start_next hc.2 hc.1 (hhead c rfl)) rfl rfl
    have hquiet : (clientScanner len).Steps m (pos + 1) (valueAt k [c]) ({ o with mark := pos }, r)
        cs (valueAt k (c :: cs)) ({ o with mark := pos }, r) :=
      steps_quiet hvalue.2 (quiet_value (by simp) hcs len)
    have hstring := hvalue.string_eq (by omega)
    have hlength (hdigits : (c :: cs).all digit = true) :
        strtol 10 (slice m pos (len - pos)) = min (number 10 (c :: cs) : ℤ) (2 ^ 63 - 1) := by
      obtain ⟨rest, hrest⟩ := exists_slice hm hfit
      rw [hrest, List.append_assoc]
      have hten : (c :: cs).all (digitIn 10) = true := by
        simpa only [funext digitIn_ten] using hdigits
      rcases heol with rfl | rfl
      · exact strtol_digits hten (by simp) (by decide) (by decide) _
      · exact strtol_digits hten (by simp) (by decide) (by decide) _
    obtain ⟨r', hsteps, hr'⟩ := steps_value (k := k) (r := r) (o := { o with mark := pos })
      (List.cons_ne_nil c cs) heol hend hname hstring hlength
    exact ⟨_, (hfirst.append hquiet).append hsteps, hr'⟩

theorem reads_line (hs : AtLine s) (l : HeaderLine) : Reads s r l.text l.after (l.record r) := by
  intro m pos len d hm hle hlen hd
  rw [HeaderLine.text] at hm hle ⊢
  obtain ⟨hm, hrest⟩ := holds_append.mp hm
  obtain ⟨hblanks, hrest⟩ := holds_append.mp hrest
  have hcolon : (l.name ++ [58]).length = l.name.length + 1 := by simp
  have hsum : (l.name ++ [58] ++ (l.blanks ++ (l.value ++ l.eol))).length =
      l.name.length + 1 + l.blanks.length + (l.value ++ l.eol).length := by
    rw [List.length_append, hcolon, List.length_append, ← Nat.add_assoc]
  obtain ⟨o, hsteps, hname⟩ :=
    hs.reads_name (d := d) l.name_ne l.name_token hm (by omega : pos + l.name.length < len) hlen
  rw [afterName_eq, hd] at hsteps
  obtain ⟨o₁, hsteps₁, hstart, hfield⟩ :=
    steps_blanks len l.keyword r (o := o) l.blanks_blank hblanks
  rw [← hstart, ← hfield] at hname
  obtain ⟨d', hsteps₂, hd'⟩ := steps_rest (k := l.keyword) (r := r) l.value_noBreak l.value_head
    l.eol_isEol hrest (by omega) hlen hname
  exact ⟨d', hsteps.append (hsteps₁.append hsteps₂), hd'⟩

theorem reads_lines (hs : AtLine s) (lines : List HeaderLine) :
    Reads s r (lines.flatMap HeaderLine.text) ((lines.getLast?.map HeaderLine.after).getD s)
      (lines.foldl (fun r l => l.record r) r) := by
  induction lines generalizing s r with
  | nil => exact .nil
  | cons l lines ih =>
    rw [List.flatMap_cons, List.foldl_cons]
    have hlast : ((l :: lines).getLast?.map HeaderLine.after).getD s =
        (lines.getLast?.map HeaderLine.after).getD l.after := by
      cases hlines : lines.getLast? <;> simp [List.getLast?_cons, hlines]
    rw [hlast]
    exact (reads_line hs l).append (ih (atLine_after l))

/-- The state at the end of a head; only one of them counts as finished. -/
def finalOf : State → State
  | .keyLine k => .keyFinal k
  | _ => .final

theorem AtLine.stops (len : ℕ) (hs : AtLine s) (heol : IsEol eol) (hm : Holds m pos eol) :
    ∃ o', (clientScanner len).Stops m pos s d eol (finalOf s)
      (o', { settle s d.2 with bodyStart := pos + eol.length }) := by
  have hlf (t t' : State) (r : Recorded) (p : ℕ) (hp : m p = 10)
      (hnext : clientNext t 10 = some ([.done], t')) :
      (clientScanner len).Stops m p t (d.1, r) [10] t' (d.1, { r with bodyStart := p + 1 }) :=
    .one hp hnext rfl rfl
  refine ⟨d.1, ?_⟩
  rcases heol with rfl | rfl
  · cases hs with
    | line => exact hlf _ _ _ _ hm.1 rfl
    | closeLine => exact .one hm.1 rfl rfl rfl
    | keyLine k => exact hlf _ _ _ _ hm.1 rfl
  · have hcr (t : State) (as : List Action) (hnext : clientNext s 13 = some (as, t))
        (has : (clientScanner len).acts m pos as d = some (d.1, settle s d.2))
        (hdone : .done ∉ as) :
        (clientScanner len).Steps m pos s d [13] t (d.1, settle s d.2) :=
      .one hm.1 hnext (any_stops hdone) has
    cases hs with
    | line => exact (hcr .lastCr [] rfl rfl (by decide)).stops (hlf _ _ _ _ hm.2.1 rfl)
    | closeLine =>
      exact (hcr .lastCr [.writeConnectionClose] rfl rfl (by decide)).stops
        (hlf _ _ _ _ hm.2.1 rfl)
    | keyLine k => exact (hcr (.keyLastCr k) [] rfl rfl (by decide)).stops (hlf _ _ _ _ hm.2.1 rfl)

end Head

structure ResponseHead where
  major : List UInt8
  minor : List UInt8
  code : List UInt8
  reason : List UInt8
  eol : List UInt8
  lines : List HeaderLine
  last : List UInt8
  major_digits : Digits major
  minor_digits : Digits minor
  code_digits : Digits code
  reason_ne : reason ≠ []
  reason_noBreak : noBreak reason
  eol_isEol : IsEol eol
  last_isEol : IsEol last

namespace ResponseHead
variable (h : ResponseHead)

def front : List UInt8 :=
  versionText h.major h.minor ++ [32] ++ (h.code ++ [32]) ++ (h.reason ++ h.eol) ++
    h.lines.flatMap HeaderLine.text

def text : List UInt8 := h.front ++ h.last

def frontRecord (r : Recorded) : Recorded :=
  h.lines.foldl (fun r l => l.record r)
    (((r.setVersion (versionText h.major h.minor)).setStatus h.code).onResponseReason h.reason)

def record (r : Recorded) : Recorded := { h.frontRecord r with bodyStart := h.text.length }

def after : State := (h.lines.getLast?.map HeaderLine.after).getD .line

/-- The last header has one of the three names and no value. -/
def Waiting : Prop := ∃ l ∈ h.lines.getLast?, l.keyword.isSome ∧ l.value = []

end ResponseHead

section Execute
variable (h : ResponseHead) {r : Recorded} {m : Memory} {len : ℕ}

theorem reads_front : Reads .start r h.front h.after (h.frontRecord r) :=
  (((reads_version h.major_digits h.minor_digits).append (reads_status h.code_digits)).append
    (reads_reason h.reason_ne h.reason_noBreak h.eol_isEol)).append (reads_lines .line h.lines)

theorem atLine_head : AtLine h.after := by
  rw [ResponseHead.after]
  cases h.lines.getLast? with
  | none => exact .line
  | some l => exact atLine_after l

theorem stops_head {o : Offsets} (hm : Holds m 0 h.text) (hle : h.text.length ≤ len)
    (hlen : len < 2 ^ 31) :
    ∃ o', (clientScanner len).Stops m 0 .start (o, r) h.text (finalOf h.after)
      (o', h.record r) := by
  rw [ResponseHead.text] at hm hle ⊢
  obtain ⟨hm, hlast⟩ := holds_append.mp hm
  rw [List.length_append] at hle
  obtain ⟨d, hsteps, hd⟩ := reads_front h m 0 len (o, r) hm (by omega) hlen rfl
  obtain ⟨o', hstops⟩ := (atLine_head h).stops len (d := d) h.last_isEol hlast
  rw [hd, Nat.zero_add, ← List.length_append] at hstops
  exact ⟨o', hsteps.stops (by rwa [Nat.zero_add])⟩

theorem finalOf_afterLine (k : Option Keyword) (x : List UInt8) :
    finalOf (afterLine k x) = .final ↔ ¬ (k.isSome ∧ x = []) := by
  cases k with
  | none => simp [afterLine, finalOf]
  | some κ =>
    by_cases hx : x = []
    · simp [afterLine, finalOf, hx]
    · rw [afterLine, if_neg hx]
      split_ifs <;> simp [finalOf, hx]

theorem finalOf_after : finalOf h.after = .final ↔ ¬ h.Waiting := by
  rw [ResponseHead.after, ResponseHead.Waiting]
  cases h.lines.getLast? with
  | none => simp [finalOf]
  | some l => simpa [HeaderLine.after] using finalOf_afterLine l.keyword l.value

theorem error_record (l : HeaderLine) : (l.record r).error = r.error := by
  have hfield : (r.onResponseHeaderField l.name l.value).error = r.error := if_neg l.name_ne
  have hvalue (k : Option Keyword) (r : Recorded) : (recordValue k l.value r).error = r.error := by
    cases k with
    | none => rfl
    | some κ =>
      rw [recordValue]
      split_ifs
      · cases κ <;> rfl
      · rfl
  rw [HeaderLine.record, hvalue, hfield]

theorem error_lines (lines : List HeaderLine) :
    (lines.foldl (fun r l => l.record r) r).error = r.error := by
  induction lines generalizing r with
  | nil => rfl
  | cons l lines ih => rw [List.foldl_cons, ih, error_record]

def ResponseHead.KnownVersion : Prop :=
  versionText h.major h.minor = ascii "HTTP/1.1" ∨ versionText h.major h.minor = ascii "HTTP/1.0"

theorem error_head (hr : r.error = 0) : (h.record r).error = 0 ↔ h.KnownVersion := by
  have hfront : (h.record r).error = (r.setVersion (versionText h.major h.minor)).error :=
    error_lines h.lines
  rw [hfront, Recorded.setVersion, ResponseHead.KnownVersion]
  split_ifs <;> simp [*]

theorem holds_cString (text rest : List UInt8) : Holds (cString (text ++ rest)) 0 text := by
  apply holds_of_getElem
  intro i hi
  rw [Nat.zero_add, cString_getElem (by rw [List.length_append]; omega),
    List.getElem_append_left hi]

theorem execute_of_stops {p : HttpResponseParer} {s s' : State} {r' : Recorded}
    {text rest : List UInt8} (hcs : p.cs = some s) (hne : text ≠ [])
    (hlen : (text ++ rest).length < 2 ^ 31) (hbody : p.recorded.bodyStart ≤ (text ++ rest).length)
    (hstops : ∀ m len, Holds m 0 text → text.length ≤ len → len < 2 ^ 31 →
      ∃ o', (clientScanner len).Stops m 0 s (⟨0, 0, 0⟩, p.recorded) text s' (o', r')) :
    ∃ m', p.execute (cString (text ++ rest)) (text ++ rest).length =
        some (⟨some s', r'⟩, m', text.length) ∧ slice m' 0 rest.length = rest := by
  have hpos : 0 < text.length := List.length_pos_iff.mpr hne
  obtain ⟨o', ho'⟩ := hstops _ (text ++ rest).length (holds_cString text rest)
    (by rw [List.length_append]; omega) hlen
  have hscan : p.scan (cString (text ++ rest)) (text ++ rest).length =
      some ⟨some s', (o', r'), text.length⟩ := by
    rw [HttpResponseParer.scan, hcs]
    have hrun := ho' rest.length
    rw [← List.length_append, Nat.zero_add] at hrun
    exact hrun
  have hzero : cString (text ++ rest) (text ++ rest).length = 0 := by simp [cString]
  refine ⟨_, execute_eq hzero ⟨by rw [List.length_append]; omega, hlen⟩ hbody hscan, ?_⟩
  dsimp only
  rw [List.length_append, Nat.add_sub_cancel_left]
  apply List.ext_getElem (length_slice ..)
  intro i hi hi'
  rw [getElem_slice, Nat.zero_add, if_pos hi', cString_getElem (by rw [List.length_append]; omega),
    List.getElem_append_right (Nat.le_add_right _ _)]
  simp

def ResponseHead.parser (status : ℤ) : HttpResponseParer :=
  ⟨some (finalOf h.after), h.record (HttpResponseParer.new status).recorded⟩

theorem parser_hasError (status : ℤ) :
    (h.parser status).hasError = false ↔ h.KnownVersion := by
  rw [← error_head h (r := (HttpResponseParer.new status).recorded) rfl]
  rw [HttpResponseParer.hasError, ResponseHead.parser, Option.isNone_some, Bool.or_false,
    decide_eq_false_iff_not, not_not]

theorem parser_isFinished (status : ℤ) : (h.parser status).isFinished = true ↔ ¬ h.Waiting := by
  rw [← finalOf_after]
  simp [HttpResponseParer.isFinished, ResponseHead.parser]

theorem execute_head (rest : List UInt8) (status : ℤ) (hlen : (h.text ++ rest).length < 2 ^ 31) :
    ∃ m, (HttpResponseParer.new status).execute (cString (h.text ++ rest))
        (h.text ++ rest).length = some (h.parser status, m, h.text.length) ∧
      slice m 0 rest.length = rest := by
  have hne : h.text ≠ [] := by
    simp [ResponseHead.text, ResponseHead.front, versionText, ascii]
  exact execute_of_stops (p := .new status) rfl hne hlen (Nat.zero_le _)
    fun m len hm hle hlen => stops_head h hm hle hlen

/-- A call on a head consumes the head, records it and leaves the rest. -/
theorem head_parsed_exactly (rest : List UInt8) (status : ℤ)
    (hlen : (h.text ++ rest).length < 2 ^ 31) :
    ∃ p m, (HttpResponseParer.new status).execute (cString (h.text ++ rest))
        (h.text ++ rest).length = some (p, m, h.text.length) ∧ slice m 0 rest.length = rest ∧
      p.recorded = h.record (HttpResponseParer.new status).recorded ∧
      (p.hasError = false ↔ h.KnownVersion) ∧ (p.isFinished = true ↔ ¬ h.Waiting) := by
  obtain ⟨m, hexec, hslice⟩ := execute_head h rest status hlen
  exact ⟨_, m, hexec, hslice, rfl, parser_hasError h status, parser_isFinished h status⟩

end Execute

def lengthLine : HeaderLine where
  name := ascii "Content-Length"
  blanks := []
  value := []
  eol := [13, 10]
  name_ne := by decide
  name_token := List.all_eq_true.mp (by decide)
  blanks_blank := by simp
  value_noBreak := by decide
  value_head := by simp
  eol_isEol := .inr rfl

def lengthHead : ResponseHead where
  major := ascii "1"
  minor := ascii "1"
  code := ascii "200"
  reason := ascii "OK"
  eol := [10]
  lines := [lengthLine]
  last := [13, 10]
  major_digits := ⟨by decide, by decide⟩
  minor_digits := ⟨by decide, by decide⟩
  code_digits := ⟨by decide, by decide⟩
  reason_ne := by decide
  reason_noBreak := by decide
  eol_isEol := .inl rfl
  last_isEol := .inr rfl

theorem head_parsed_exactly_lengthHead :
    ∃ p m, (HttpResponseParer.new 0).execute
        (cString (ascii "HTTP/1.1 200 OK\nContent-Length:\r\n\r\nbody")) 39 = some (p, m, 35) ∧
      slice m 0 4 = ascii "body" ∧ p.hasError = false ∧ p.isFinished = false := by
  have htext : lengthHead.text ++ ascii "body" =
      ascii "HTTP/1.1 200 OK\nContent-Length:\r\n\r\nbody" := by decide +kernel
  obtain ⟨p, m, hexec, hslice, -, herror, hfinished⟩ :=
    head_parsed_exactly lengthHead (ascii "body") 0 (by decide +kernel)
  rw [htext] at hexec
  refine ⟨p, m, hexec, hslice, herror.mpr (.inl (by decide +kernel)), ?_⟩
  rw [← Bool.not_eq_true, hfinished, not_not]
  exact ⟨lengthLine, rfl, by decide +kernel, rfl⟩

end ApexStorm.Http.Client
