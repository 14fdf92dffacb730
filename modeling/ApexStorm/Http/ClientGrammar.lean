import ApexStorm.Http.ClientChunk

/-!
# What the response parser accepts

The parser finishes on nothing but the head of a chunk or a status line with header lines
and an empty line. The lines are the ones described with the heads, and one more kind: the
value of the three special headers may stand on a later line, behind any number of spaces
and line breaks. The proof says for every state what the bytes read so far look like.
-/

namespace ApexStorm.Http.Client
open ApexStorm.Lib

def Keyword.Fits : Keyword → List UInt8 → Prop
  | .digits, v => Digits v
  | k, v => lower v = k.text

/-- A header line; the second kind is a special header in the words of its own rule. -/
inductive Line : List UInt8 → Prop
  | field (l : HeaderLine) : Line l.text
  | rule {k : Keyword} {name spaces value eol : List UInt8} (hname : lower name = k.name)
      (hspaces : ∀ c ∈ spaces, space c = true) (hvalue : k.Fits value) (heol : IsEol eol) :
      Line (name ++ [58] ++ (spaces ++ (value ++ eol)))

/-- A status line, of which only the first byte of the reason may be a carriage return, and
header lines. -/
inductive Lines : List UInt8 → Prop
  | status {major minor code reason eol : List UInt8} {c : UInt8} (hmajor : Digits major)
      (hminor : Digits minor) (hcode : Digits code) (hc : c ≠ 10) (hreason : noBreak reason)
      (heol : IsEol eol) :
      Lines (versionText major minor ++ [32] ++ (code ++ [32]) ++ (c :: reason ++ eol))
  | line {xs l : List UInt8} : Lines xs → Line l → Lines (xs ++ l)

def WellFormed (xs : List UInt8) : Prop :=
  (∃ h : ChunkHead, xs = h.text) ∨ ∃ ys eol, Lines ys ∧ IsEol eol ∧ xs = ys ++ eol

def ChunkOpen (xs : List UInt8) : Prop :=
  ∃ size : List UInt8, ∃ exts : List ChunkExt, size ≠ [] ∧ (∀ c ∈ size, xdigit c = true) ∧
    xs = size ++ exts.flatMap fun e => 59 :: e.text

def NameRead (xs name : List UInt8) : Prop :=
  ∃ ys, Lines ys ∧ xs = ys ++ name ∧ name ≠ [] ∧ ∀ c ∈ name, token c = true

def ValueRead (xs name v : List UInt8) : Prop :=
  ∃ ys blanks, Lines ys ∧ xs = ys ++ (name ++ [58] ++ (blanks ++ v)) ∧ name ≠ [] ∧
    (∀ c ∈ name, token c = true) ∧ (∀ c ∈ blanks, blank c = true) ∧ noBreak v ∧
    ∀ c ∈ v.head?, blank c = false

def RuleRead (k : Keyword) (xs v : List UInt8) : Prop :=
  ∃ ys name spaces, Lines ys ∧ xs = ys ++ (name ++ [58] ++ (spaces ++ v)) ∧
    lower name = k.name ∧ ∀ c ∈ spaces, space c = true

def Keyword.Place (k : Keyword) (n : ℕ) (v : List UInt8) : Prop :=
  match k with
  | .digits => (∀ c ∈ v, digit c = true) ∧ (n = 1 → v ≠ [])
  | k => lower v = k.text.take n ∧ n ≤ k.text.length

def Read (xs : List UInt8) : State → Prop
  | .start => xs = []
  | .chunk => xs ≠ [] ∧ ∀ c ∈ xs, xdigit c = true
  | .extNameStart => ∃ ys, ChunkOpen ys ∧ xs = ys ++ [59]
  | .extName => ∃ ys x, ChunkOpen ys ∧ xs = ys ++ 59 :: x ∧ x ≠ [] ∧
      ∀ c ∈ x, token c = true
  | .extValueStart => ∃ ys x, ChunkOpen ys ∧ xs = ys ++ 59 :: (x ++ [61]) ∧ x ≠ [] ∧
      ∀ c ∈ x, token c = true
  | .extValue => ∃ ys x v, ChunkOpen ys ∧ xs = ys ++ 59 :: (x ++ [61] ++ v) ∧ x ≠ [] ∧
      (∀ c ∈ x, token c = true) ∧ v ≠ [] ∧ ∀ c ∈ v, token c = true
  | .version n => n ≤ 5 ∧ xs = (ascii "HTTP/").take n
  | .major => ∃ major, Digits major ∧ xs = ascii "HTTP/" ++ major
  | .minorStart => ∃ major, Digits major ∧ xs = ascii "HTTP/" ++ major ++ [46]
  | .minor => ∃ major minor, Digits major ∧ Digits minor ∧ xs = versionText major minor
  | .statusStart => ∃ major minor, Digits major ∧ Digits minor ∧
      xs = versionText major minor ++ [32]
  | .status => ∃ major minor code, Digits major ∧ Digits minor ∧ Digits code ∧
      xs = versionText major minor ++ [32] ++ code
  | .reasonStart => ∃ major minor code, Digits major ∧ Digits minor ∧ Digits code ∧
      xs = versionText major minor ++ [32] ++ (code ++ [32])
  | .reason => ∃ major minor code c reason, Digits major ∧ Digits minor ∧ Digits code ∧
      c ≠ 10 ∧ noBreak reason ∧
      xs = versionText major minor ++ [32] ++ (code ++ [32]) ++ (c :: reason)
  | .line | .closeLine => Lines xs
  | .name => ∃ x, NameRead xs x
  | .keyName p => ∃ x, NameRead xs x ∧ lower x = p
  | .valueStart => ∃ x, ValueRead xs x []
  | .value => ∃ x v, v ≠ [] ∧ ValueRead xs x v
  | .lineCr | .closeCr | .chunkedCr => Lines (xs ++ [10])
  | .keyStart k => ∃ x, ValueRead xs x [] ∧ lower x = k.name
  | .keyValue k n => ∃ x v, v ≠ [] ∧ ValueRead xs x v ∧ lower x = k.name ∧ k.Place n v
  | .keyLine k => Lines xs ∧ RuleRead k xs []
  | .keyCr k => Lines (xs ++ [10]) ∧ RuleRead k xs []
  | .keyLastCr k => WellFormed (xs ++ [10]) ∧ RuleRead k xs []
  | .keySpace k => RuleRead k xs []
  | .keyAlone k n => ∃ v, RuleRead k xs v ∧ k.Place n v
  | .keyBoth k n => ∃ x v, NameRead xs x ∧ RuleRead k xs v ∧ k.Place n v ∧
      (k ≠ .digits → lower x = lower v)
  | .lastCr => WellFormed (xs ++ [10])
  | .final => WellFormed xs
  | .keyFinal k => WellFormed xs ∧ RuleRead k xs []

section pieces
variable {xs ys x v eol : List UInt8} {c : UInt8} {k : Keyword} {n n' : ℕ}

theorem Digits.one (hc : digit c = true) : Digits [c] := ⟨List.cons_ne_nil _ _, by simpa using hc⟩

theorem Digits.concat (h : Digits xs) (hc : digit c = true) : Digits (xs ++ [c]) :=
  ⟨by simp, by simpa [hc] using h.all⟩

theorem noBreak_concat (h : noBreak v) (hlf : c ≠ 10) (hcr : c ≠ 13) : noBreak (v ++ [c]) := by
  simpa [noBreak, hlf.symm, hcr.symm] using h

theorem forall_concat {p : UInt8 → Bool} (h : ∀ b ∈ xs, p b = true) (hc : p c = true) :
    ∀ b ∈ xs ++ [c], p b = true := by
  simpa [or_imp, forall_and] using ⟨h, hc⟩

theorem forall_one {p : UInt8 → Bool} (hc : p c = true) : ∀ b ∈ [c], p b = true := by
  simpa using hc

theorem isEol_lf : IsEol [10] := .inl rfl

theorem isEol_crlf : IsEol [13, 10] := .inr rfl

theorem space_of_blank (h : blank c = true) : space c = true := by
  simp only [blank, Bool.or_eq_true, decide_eq_true_eq] at h
  obtain ((rfl | rfl) | rfl) | rfl := h <;> decide

theorem lower_concat : lower (xs ++ [c]) = lower xs ++ [toLower c] := by simp [lower]

theorem Lines.startName (h : Lines xs) (hc : token c = true) : NameRead (xs ++ [c]) [c] :=
  ⟨xs, h, rfl, List.cons_ne_nil _ _, forall_one hc⟩

theorem NameRead.char (h : NameRead xs x) (hc : token c = true) :
    NameRead (xs ++ [c]) (x ++ [c]) := by
  obtain ⟨ys, hys, rfl, -, hx⟩ := h
  exact ⟨ys, hys, List.append_assoc .., by simp, forall_concat hx hc⟩

theorem NameRead.colon (h : NameRead xs x) : ValueRead (xs ++ [58]) x [] := by
  obtain ⟨ys, hys, rfl, hne, hx⟩ := h
  exact ⟨ys, [], hys, by simp, hne, hx, by simp, by simp [noBreak], by simp⟩

theorem ValueRead.blank (h : ValueRead xs x []) (hc : blank c = true) :
    ValueRead (xs ++ [c]) x [] := by
  obtain ⟨ys, blanks, hys, rfl, hne, hx, hblanks, hv, hhead⟩ := h
  exact ⟨ys, blanks ++ [c], hys, by simp, hne, hx, forall_concat hblanks hc, hv, hhead⟩

theorem ValueRead.char (h : ValueRead xs x v) (hlf : c ≠ 10) (hcr : c ≠ 13)
    (hc : v = [] → Client.blank c = false) : ValueRead (xs ++ [c]) x (v ++ [c]) := by
  obtain ⟨ys, blanks, hys, rfl, hne, hx, hblanks, hv, hhead⟩ := h
  refine ⟨ys, blanks, hys, by simp, hne, hx, hblanks, noBreak_concat hv hlf hcr, ?_⟩
  cases v with
  | nil => simpa using hc rfl
  | cons b v => simpa using hhead

theorem ValueRead.line (h : ValueRead xs x v) (heol : IsEol eol) : Lines (xs ++ eol) := by
  obtain ⟨ys, blanks, hys, rfl, hne, hx, hblanks, hv, hhead⟩ := h
  have hline := hys.line (.field ⟨x, blanks, v, eol, hne, hx, hblanks, hv, hhead, heol⟩)
  simpa [HeaderLine.text] using hline

theorem ValueRead.rule (h : ValueRead xs x v) (hk : lower x = k.name) : RuleRead k xs v := by
  obtain ⟨ys, blanks, hys, rfl, -, -, hblanks, -, -⟩ := h
  exact ⟨ys, x, blanks, hys, rfl, hk, fun c hc => space_of_blank (hblanks c hc)⟩

theorem RuleRead.spaces (h : RuleRead k xs []) (hys : ∀ c ∈ ys, space c = true) :
    RuleRead k (xs ++ ys) [] := by
  obtain ⟨zs, x, spaces, hzs, rfl, hx, hspaces⟩ := h
  refine ⟨zs, x, spaces ++ ys, hzs, by simp, hx, ?_⟩
  simpa [or_imp, forall_and] using ⟨hspaces, hys⟩

theorem RuleRead.char (h : RuleRead k xs v) : RuleRead k (xs ++ [c]) (v ++ [c]) := by
  obtain ⟨ys, x, spaces, hys, rfl, hx, hspaces⟩ := h
  exact ⟨ys, x, spaces, hys, by simp, hx, hspaces⟩

theorem RuleRead.line (h : RuleRead k xs v) (hv : k.Fits v) (heol : IsEol eol) :
    Lines (xs ++ eol) := by
  obtain ⟨ys, x, spaces, hys, rfl, hx, hspaces⟩ := h
  simpa using hys.line (.rule hx hspaces hv heol)

theorem place_zero (k : Keyword) : k.Place 0 [] := by
  cases k <;> simp [Keyword.Place, lower]

theorem Keyword.Place.advance (h : k.Place n v) (hadv : k.advance n c = some n') :
    k.Place n' (v ++ [c]) := by
  cases k with
  | digits =>
    simp only [Keyword.advance] at hadv
    split_ifs at hadv with hc
    cases hadv
    exact ⟨forall_concat h.1 hc, fun _ => by simp⟩
  | close | chunked =>
    simp only [Keyword.advance] at hadv
    split_ifs at hadv with hc
    cases hadv
    obtain ⟨hv, hle⟩ := h
    refine ⟨?_, (List.getElem?_eq_some_iff.mp hc).1⟩
    rw [lower_concat, hv, List.take_add_one, hc]
    rfl

theorem Keyword.Place.take (h : k.Place n v) (hk : k ≠ .digits) : lower v = k.text.take n := by
  cases k with
  | digits => exact absurd rfl hk
  | close | chunked => exact h.1

theorem Keyword.Place.fits (h : k.Place n v) (hdone : k.complete n = true) : k.Fits v := by
  cases k with
  | digits =>
    simp only [Keyword.complete, decide_eq_true_eq] at hdone
    exact ⟨h.2 hdone, List.all_eq_true.mpr h.1⟩
  | close | chunked =>
    simp only [Keyword.complete, decide_eq_true_eq] at hdone
    obtain ⟨hv, -⟩ := h
    rw [hdone, List.take_length] at hv
    exact hv

theorem Lines.wellFormed (h : Lines xs) (heol : IsEol eol) : WellFormed (xs ++ eol) :=
  .inr ⟨xs, eol, h, heol, rfl⟩

theorem ChunkOpen.wellFormed (h : ChunkOpen xs) (heol : IsEol eol) : WellFormed (xs ++ eol) := by
  obtain ⟨size, exts, hne, hsize, rfl⟩ := h
  exact .inl ⟨⟨size, exts, eol, hne, hsize, heol⟩, rfl⟩

theorem ChunkOpen.ext (h : ChunkOpen xs) (e : ChunkExt) : ChunkOpen (xs ++ 59 :: e.text) := by
  obtain ⟨size, exts, hne, hsize, rfl⟩ := h
  exact ⟨size, exts ++ [e], hne, hsize, by simp⟩

end pieces

section steps
variable {xs x v : List UInt8} {c : UInt8} {k : Keyword} {n : ℕ} {as pre : List Action}
  {s s' : State}

theorem isChar_eq {str : String} {b : UInt8} (hstr : ascii str = [b]) (h : isChar str c = true) :
    c = b := by
  rw [isChar_singleton hstr, decide_eq_true_eq] at h
  exact h

theorem isChar_ne {str : String} {b : UInt8} (hstr : ascii str = [b])
    (h : ¬ isChar str c = true) : c ≠ b := by
  rintro rfl
  exact h ((isChar_singleton hstr c).trans (by simp))

theorem read_chunkEnd (h : ChunkOpen xs) (hnext : chunkEnd pre c = some (as, s')) :
    Read (xs ++ [c]) s' := by
  rw [chunkEnd] at hnext
  split_ifs at hnext with hlf hcr hsemi <;> cases hnext
  · obtain rfl : c = 10 := isChar_eq rfl hlf
    exact h.wellFormed isEol_lf
  · obtain rfl : c = 13 := isChar_eq rfl hcr
    rw [Read, List.append_assoc]
    exact h.wellFormed isEol_crlf
  · obtain rfl : c = 59 := isChar_eq rfl hsemi
    exact ⟨xs, h, rfl⟩

theorem read_named (h : NameRead xs x) : Read xs (named (lower x)) := by
  rw [named]
  split_ifs
  · exact ⟨x, h, rfl⟩
  · exact ⟨x, h⟩

theorem read_afterName (h : NameRead xs x) : Read (xs ++ [58]) (afterName (lower x)) := by
  rw [afterName]
  split
  · next k hk =>
    have hname : k.name = lower x := by simpa using List.find?_some hk
    exact ⟨x, h.colon, hname.symm⟩
  · exact ⟨x, h.colon⟩

theorem read_lineNext (h : Lines xs) (hnext : lineNext pre c = some (as, s')) :
    Read (xs ++ [c]) s' := by
  rw [lineNext] at hnext
  split_ifs at hnext with hlf hcr htoken <;> cases hnext
  · obtain rfl : c = 10 := isChar_eq rfl hlf
    exact h.wellFormed isEol_lf
  · obtain rfl : c = 13 := isChar_eq rfl hcr
    rw [Read, List.append_assoc]
    exact h.wellFormed isEol_crlf
  · exact read_named (h.startName htoken)

theorem read_ruleNext (h : RuleRead k xs []) (hnext : ruleNext k c = some (as, s')) :
    Read (xs ++ [c]) s' := by
  rw [ruleNext] at hnext
  split_ifs at hnext with hspace
  · cases hnext
    exact h.spaces (forall_one hspace)
  · obtain ⟨n, hadv, hn⟩ := Option.map_eq_some_iff.mp hnext
    cases hn
    exact ⟨[c], h.char, (place_zero k).advance hadv⟩

theorem read_atLf (h : RuleRead k xs v) (hv : k.Fits v) : Read (xs ++ [10]) k.atLf.2 := by
  cases k <;> exact h.line hv isEol_lf

theorem read_atCr (h : RuleRead k xs v) (hv : k.Fits v) : Read (xs ++ [13]) k.atCr.2 := by
  have hline := h.line hv isEol_crlf
  cases k <;> simpa [Keyword.atCr, Read] using hline

theorem read_next_chunk
    (hs : s = .chunk ∨ s = .extNameStart ∨ s = .extName ∨ s = .extValueStart ∨ s = .extValue)
    (h : Read xs s) (hnext : clientNext s c = some (as, s')) : Read (xs ++ [c]) s' := by
  rcases hs with rfl | rfl | rfl | rfl | rfl <;> simp only [clientNext] at hnext
  · obtain ⟨hne, hxs⟩ := h
    split_ifs at hnext with hc
    · cases hnext
      exact ⟨by simp, forall_concat hxs hc⟩
    · exact read_chunkEnd ⟨xs, [], hne, hxs, by simp⟩ hnext
  · obtain ⟨ys, hys, rfl⟩ := h
    split_ifs at hnext with hc
    cases hnext
    exact ⟨ys, [c], hys, by simp, by simp, forall_one hc⟩
  · obtain ⟨ys, x, hys, rfl, hne, hx⟩ := h
    split_ifs at hnext with hc heq
    · cases hnext
      exact ⟨ys, x ++ [c], hys, by simp, by simp, forall_concat hx hc⟩
    · cases hnext
      obtain rfl : c = 61 := isChar_eq rfl heq
      exact ⟨ys, x, hys, by simp, hne, hx⟩
    · exact read_chunkEnd (hys.ext ⟨x, none, hne, hx, by simp, by simp⟩) hnext
  · obtain ⟨ys, x, hys, rfl, hne, hx⟩ := h
    split_ifs at hnext with hc
    cases hnext
    exact ⟨ys, x, [c], hys, by simp, hne, hx, by simp, forall_one hc⟩
  · obtain ⟨ys, x, v, hys, rfl, hne, hx, hvne, hv⟩ := h
    split_ifs at hnext with hc
    · cases hnext
      exact ⟨ys, x, v ++ [c], hys, by simp, hne, hx, by simp, forall_concat hv hc⟩
    · exact read_chunkEnd (hys.ext ⟨x, some v, hne, hx, by simpa using hvne, by simpa using hv⟩)
        hnext

theorem read_next_version
    (hs : (∃ n, s = .version n) ∨ s = .major ∨ s = .minorStart ∨ s = .minor)
    (h : Read xs s) (hnext : clientNext s c = some (as, s')) : Read (xs ++ [c]) s' := by
  rcases hs with ⟨n, rfl⟩ | rfl | rfl | rfl <;> simp only [clientNext] at hnext
  · obtain ⟨hle, rfl⟩ := h
    split_ifs at hnext with hlt hc hdigit <;> cases hnext
    · refine ⟨hlt, ?_⟩
      rw [List.take_add_one, hc]
      rfl
    · have hn : n = 5 := by omega
      subst hn
      exact ⟨[c], .one hdigit, rfl⟩
  · obtain ⟨major, hmajor, rfl⟩ := h
    split_ifs at hnext with hc hdot <;> cases hnext
    · exact ⟨major ++ [c], hmajor.concat hc, by simp⟩
    · obtain rfl : c = 46 := isChar_eq rfl hdot
      exact ⟨major, hmajor, rfl⟩
  · obtain ⟨major, hmajor, rfl⟩ := h
    split_ifs at hnext with hc
    cases hnext
    exact ⟨major, [c], hmajor, .one hc, rfl⟩
  · obtain ⟨major, minor, hmajor, hminor, rfl⟩ := h
    split_ifs at hnext with hc hspace <;> cases hnext
    · exact ⟨major, minor ++ [c], hmajor, hminor.concat hc, by simp [versionText]⟩
    · obtain rfl : c = 32 := isChar_eq rfl hspace
      exact ⟨major, minor, hmajor, hminor, rfl⟩

theorem read_next_status
    (hs : s = .statusStart ∨ s = .status ∨ s = .reasonStart ∨ s = .reason)
    (h : Read xs s) (hnext : clientNext s c = some (as, s')) : Read (xs ++ [c]) s' := by
  rcases hs with rfl | rfl | rfl | rfl <;> simp only [clientNext] at hnext
  · obtain ⟨major, minor, hmajor, hminor, rfl⟩ := h
    split_ifs at hnext with hc
    cases hnext
    exact ⟨major, minor, [c], hmajor, hminor, .one hc, rfl⟩
  · obtain ⟨major, minor, code, hmajor, hminor, hcode, rfl⟩ := h
    split_ifs at hnext with hc hspace <;> cases hnext
    · exact ⟨major, minor, code ++ [c], hmajor, hminor, hcode.concat hc, by simp⟩
    · obtain rfl : c = 32 := isChar_eq rfl hspace
      exact ⟨major, minor, code, hmajor, hminor, hcode, by simp⟩
  · obtain ⟨major, minor, code, hmajor, hminor, hcode, rfl⟩ := h
    split_ifs at hnext with hlf
    cases hnext
    exact ⟨major, minor, code, c, [], hmajor, hminor, hcode, isChar_ne rfl hlf, by simp [noBreak],
      rfl⟩
  · obtain ⟨major, minor, code, b, reason, hmajor, hminor, hcode, hb, hreason, rfl⟩ := h
    split_ifs at hnext with hlf hcr <;> cases hnext
    · obtain rfl : c = 10 := isChar_eq rfl hlf
      simpa [Read] using Lines.status hmajor hminor hcode hb hreason isEol_lf
    · obtain rfl : c = 13 := isChar_eq rfl hcr
      simpa [Read] using Lines.status hmajor hminor hcode hb hreason isEol_crlf
    · exact ⟨major, minor, code, b, reason ++ [c], hmajor, hminor, hcode, hb,
        noBreak_concat hreason (isChar_ne rfl hlf) (isChar_ne rfl hcr), by simp⟩

theorem read_fieldEnd (h : ValueRead xs x v) :
    Lines (xs ++ [10]) ∧ Lines (xs ++ [13] ++ [10]) :=
  ⟨h.line isEol_lf, by simpa using h.line isEol_crlf⟩

theorem read_next_field
    (hs : s = .line ∨ s = .closeLine ∨ s = .name ∨ (∃ p, s = .keyName p) ∨ s = .valueStart ∨
      s = .value ∨ s = .lineCr ∨ s = .closeCr ∨ s = .chunkedCr ∨ s = .lastCr)
    (h : Read xs s) (hnext : clientNext s c = some (as, s')) : Read (xs ++ [c]) s' := by
  rcases hs with rfl | rfl | rfl | ⟨p, rfl⟩ | rfl | rfl | rfl | rfl | rfl | rfl <;>
    simp only [clientNext] at hnext
  · exact read_lineNext h hnext
  · exact read_lineNext h hnext
  · obtain ⟨x, hx⟩ := h
    split_ifs at hnext with hc hcolon <;> cases hnext
    · exact ⟨x ++ [c], hx.char hc⟩
    · obtain rfl : c = 58 := isChar_eq rfl hcolon
      exact ⟨x, hx.colon⟩
  · obtain ⟨x, hx, rfl⟩ := h
    split_ifs at hnext with hc hcolon <;> cases hnext
    · rw [← lower_concat]
      exact read_named (hx.char hc)
    · obtain rfl : c = 58 := isChar_eq rfl hcolon
      exact read_afterName hx
  · obtain ⟨x, hx⟩ := h
    split_ifs at hnext with hlf hcr hblank <;> cases hnext
    · obtain rfl : c = 10 := isChar_eq rfl hlf
      exact (read_fieldEnd hx).1
    · obtain rfl : c = 13 := isChar_eq rfl hcr
      exact (read_fieldEnd hx).2
    · exact ⟨x, hx.blank hblank⟩
    · exact ⟨x, [c], by simp, hx.char (isChar_ne rfl hlf) (isChar_ne rfl hcr) fun _ => by
        simpa using hblank⟩
  · obtain ⟨x, v, hne, hx⟩ := h
    split_ifs at hnext with hlf hcr <;> cases hnext
    · obtain rfl : c = 10 := isChar_eq rfl hlf
      exact (read_fieldEnd hx).1
    · obtain rfl : c = 13 := isChar_eq rfl hcr
      exact (read_fieldEnd hx).2
    · exact ⟨x, v ++ [c], by simp, hx.char (isChar_ne rfl hlf) (isChar_ne rfl hcr) fun hv =>
        absurd hv hne⟩
  all_goals
    split_ifs at hnext with hlf
    cases hnext
    obtain rfl : c = 10 := isChar_eq rfl hlf
    exact h

theorem read_next_keyValue (hs : (∃ k, s = .keyStart k) ∨ ∃ k n, s = .keyValue k n)
    (h : Read xs s) (hnext : clientNext s c = some (as, s')) : Read (xs ++ [c]) s' := by
  rcases hs with ⟨k, rfl⟩ | ⟨k, n, rfl⟩ <;> simp only [clientNext] at hnext
  · obtain ⟨x, hx, hk⟩ := h
    split_ifs at hnext with hlf hcr hblank <;> cases hnext
    · obtain rfl : c = 10 := isChar_eq rfl hlf
      exact ⟨(read_fieldEnd hx).1, (hx.rule hk).spaces (forall_one rfl)⟩
    · obtain rfl : c = 13 := isChar_eq rfl hcr
      exact ⟨(read_fieldEnd hx).2, (hx.rule hk).spaces (forall_one rfl)⟩
    · exact ⟨x, hx.blank hblank, hk⟩
    · have hchar := hx.char (isChar_ne rfl hlf) (isChar_ne rfl hcr) fun _ => by simpa using hblank
      cases hadv : k.advance 0 c with
      | none => exact ⟨x, [c], by simp, hchar⟩
      | some n => exact ⟨x, [c], by simp, hchar, hk, (place_zero k).advance hadv⟩
  · obtain ⟨x, v, hne, hx, hk, hplace⟩ := h
    split_ifs at hnext with hlf hdone hcr hdone <;> cases hnext
    · obtain rfl : c = 10 := isChar_eq rfl hlf
      exact read_atLf (hx.rule hk) (hplace.fits hdone)
    · obtain rfl : c = 10 := isChar_eq rfl hlf
      exact (read_fieldEnd hx).1
    · obtain rfl : c = 13 := isChar_eq rfl hcr
      exact read_atCr (hx.rule hk) (hplace.fits hdone)
    · obtain rfl : c = 13 := isChar_eq rfl hcr
      exact (read_fieldEnd hx).2
    · have hchar := hx.char (isChar_ne rfl hlf) (isChar_ne rfl hcr) fun hv => absurd hv hne
      cases hadv : k.advance n c with
      | none => exact ⟨x, v ++ [c], by simp, hchar⟩
      | some n' => exact ⟨x, v ++ [c], by simp, hchar, hk, hplace.advance hadv⟩

theorem read_next_keyLine
    (hs : ∃ k, s = .keyLine k ∨ s = .keyCr k ∨ s = .keyLastCr k ∨ s = .keySpace k ∨
      s = .keyFinal k)
    (h : Read xs s) (hnext : clientNext s c = some (as, s')) : Read (xs ++ [c]) s' := by
  obtain ⟨k, rfl | rfl | rfl | rfl | rfl⟩ := hs <;> simp only [clientNext] at hnext
  · obtain ⟨hlines, hrule⟩ := h
    split_ifs at hnext with hblank hlf hcr htoken
    · cases hnext
      exact hrule.spaces (forall_one (space_of_blank hblank))
    · cases hnext
      obtain rfl : c = 10 := isChar_eq rfl hlf
      exact ⟨hlines.wellFormed isEol_lf, hrule.spaces (forall_one rfl)⟩
    · cases hnext
      obtain rfl : c = 13 := isChar_eq rfl hcr
      refine ⟨?_, hrule.spaces (forall_one rfl)⟩
      rw [List.append_assoc]
      exact hlines.wellFormed isEol_crlf
    · -- the byte may begin the value of the rule and a name at the same time
      split at hnext
      · next n hadv =>
        cases hnext
        exact ⟨[c], [c], hlines.startName htoken, hrule.char, (place_zero k).advance hadv,
          fun _ => rfl⟩
      · cases hnext
        exact read_named (hlines.startName htoken)
  · obtain ⟨hlines, hrule⟩ := h
    split_ifs at hnext with hlf
    · cases hnext
      obtain rfl : c = 10 := isChar_eq rfl hlf
      exact ⟨hlines, hrule.spaces (forall_one rfl)⟩
    · exact read_ruleNext hrule hnext
  · obtain ⟨hwhole, hrule⟩ := h
    split_ifs at hnext with hlf
    · cases hnext
      obtain rfl : c = 10 := isChar_eq rfl hlf
      exact ⟨hwhole, hrule.spaces (forall_one rfl)⟩
    · exact read_ruleNext hrule hnext
  · exact read_ruleNext h hnext
  · exact read_ruleNext h.2 hnext

theorem read_next_keyWord (hs : (∃ k n, s = .keyAlone k n) ∨ ∃ k n, s = .keyBoth k n)
    (h : Read xs s) (hnext : clientNext s c = some (as, s')) : Read (xs ++ [c]) s' := by
  rcases hs with ⟨k, n, rfl⟩ | ⟨k, n, rfl⟩ <;>
    simp only [clientNext, Bool.and_eq_true] at hnext
  · obtain ⟨v, hrule, hplace⟩ := h
    split_ifs at hnext with hlf hcr
    · obtain rfl : c = 10 := isChar_eq rfl hlf.2
      rw [← show k.atLf.2 = s' from congrArg Prod.snd (Option.some.inj hnext)]
      exact read_atLf hrule (hplace.fits hlf.1)
    · obtain rfl : c = 13 := isChar_eq rfl hcr.2
      rw [← show k.atCr.2 = s' from congrArg Prod.snd (Option.some.inj hnext)]
      exact read_atCr hrule (hplace.fits hcr.1)
    · obtain ⟨n', hadv, hn⟩ := Option.map_eq_some_iff.mp hnext
      cases hn
      exact ⟨v ++ [c], hrule.char, hplace.advance hadv⟩
  · obtain ⟨x, v, hx, hrule, hplace, hsame⟩ := h
    have hboth : ∀ n', token c = true → k.advance n c = some n' →
        Read (xs ++ [c]) (.keyBoth k n') := by
      intro n' htoken hadv
      refine ⟨x ++ [c], v ++ [c], hx.char htoken, hrule.char, hplace.advance hadv, fun hk => ?_⟩
      rw [lower_concat, lower_concat, hsame hk]
    split_ifs at hnext with hlf hcr hcolon htoken hk
    · obtain rfl : c = 10 := isChar_eq rfl hlf.2
      rw [← show k.atLf.2 = s' from congrArg Prod.snd (Option.some.inj hnext)]
      exact read_atLf hrule (hplace.fits hlf.1)
    · obtain rfl : c = 13 := isChar_eq rfl hcr.2
      rw [← show k.atCr.2 = s' from congrArg Prod.snd (Option.some.inj hnext)]
      exact read_atCr hrule (hplace.fits hcr.1)
    · cases hnext
      obtain rfl : c = 58 := isChar_eq rfl hcolon
      exact ⟨x, hx.colon⟩
    · split at hnext
      · next n' hadv =>
        cases hnext
        exact hboth n' htoken hadv
      · cases hnext
        exact ⟨x ++ [c], hx.char htoken⟩
    · split at hnext
      · next n' hadv =>
        cases hnext
        exact hboth n' htoken hadv
      · cases hnext
        rw [← hplace.take hk, ← hsame hk, ← lower_concat]
        exact read_named (hx.char htoken)

theorem read_next (h : Read xs s) (hnext : clientNext s c = some (as, s')) :
    Read (xs ++ [c]) s' := by
  cases hs : s with
  | start =>
    subst hs
    simp only [clientNext] at hnext
    obtain rfl : xs = [] := h
    split_ifs at hnext with hH hc <;> cases hnext
    · obtain rfl : c = 72 := isChar_eq rfl hH
      exact ⟨by decide, rfl⟩
    · exact ⟨by simp, forall_one hc⟩
  | final =>
    subst hs
    cases hnext
  | chunk | extNameStart | extName | extValueStart | extValue =>
    exact read_next_chunk (by simp [hs]) h hnext
  | version _ | major | minorStart | minor => exact read_next_version (by simp [hs]) h hnext
  | statusStart | status | reasonStart | reason =>
    exact read_next_status (by simp [hs]) h hnext
  | line | closeLine | name | keyName _ | valueStart | value | lineCr | closeCr | chunkedCr
  | lastCr => exact read_next_field (by simp [hs]) h hnext
  | keyStart _ | keyValue _ _ => exact read_next_keyValue (by simp [hs]) h hnext
  | keyLine _ | keyCr _ | keyLastCr _ | keySpace _ | keyFinal _ =>
    exact read_next_keyLine (by simp [hs]) h hnext
  | keyAlone _ _ | keyBoth _ _ => exact read_next_keyWord (by simp [hs]) h hnext

end steps

section accepted
variable {p p' : HttpResponseParer} {m m' : Memory} {len n : ℕ}

theorem read_of_execute {status : ℤ} {s : State}
    (h : (HttpResponseParer.new status).execute m len = some (p', m', n))
    (hs : p'.cs = some s) : Read (slice m 0 n) s := by
  rw [HttpResponseParer.execute] at h
  obtain ⟨⟨q, offset⟩, hexec, hq⟩ := Option.bind_eq_some_iff.mp h
  cases hq
  rw [HttpResponseParer.httpclientParserExecute] at hexec
  split_ifs at hexec
  obtain ⟨⟨cs, ⟨o, r⟩, pos⟩, hscan, he⟩ := Option.bind_eq_some_iff.mp hexec
  dsimp only at he
  split_ifs at he
  cases he
  have hread := Scanner.run_language (L := fun s xs => Read xs s)
    (fun s xs c as s' h hnext => read_next h hnext) hscan
    (rfl : Read [] .start) s hs
  simpa [slice] using hread

/-- A parser that is finished after one call has consumed a response head or the head of a
chunk. -/
theorem finished_well_formed (status : ℤ)
    (h : (HttpResponseParer.new status).execute m len = some (p', m', n))
    (hfinished : p'.isFinished = true) : WellFormed (slice m 0 n) :=
  read_of_execute h (s := .final) (by simpa [HttpResponseParer.isFinished] using hfinished)

end accepted

def foldedHead : List UInt8 := ascii "HTTP/1.1 200 OK\r\nContent-Length:\r\n 5\r\n\r\n"

theorem finished_well_formed_foldedHead : foldedHead.length = 40 ∧ WellFormed foldedHead := by
  have hexec : ((HttpResponseParer.new 0).execute (cString foldedHead) 40).map
      (fun r => (r.1.isFinished, r.2.2)) = some (true, 40) := by decide +kernel
  obtain ⟨⟨p, m, n⟩, hr, heq⟩ := Option.map_eq_some_iff.mp hexec
  rw [Prod.mk.injEq] at heq
  obtain ⟨hfinished, rfl⟩ := heq
  have htext : slice (cString foldedHead) 0 40 = foldedHead := by decide +kernel
  exact ⟨by decide +kernel, htext ▸ finished_well_formed 0 hr hfinished⟩

end ApexStorm.Http.Client
