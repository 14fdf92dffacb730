import Mathlib.Data.List.TakeWhile
import ApexStorm.Log.Format

/-!
# What a pattern means

A pattern that is put together from texts and directives is cut into these parts again,
so it formats an event to the texts of its parts. An unknown name and a brace that stays
open are reported. Of the two signs of `%%` only the first is consumed: the second starts
a directive with what follows.
-/

namespace ApexStorm.Log

/-- A text, or `%name` with or without a format in braces. -/
inductive Segment
  | literal (text : List Char)
  | directive (name : List Char) (fmt : Option (List Char))

namespace Segment

def text : Segment → List Char
  | .literal t => t
  | .directive name none => '%' :: name
  | .directive name (some fmt) => '%' :: (name ++ '\x7b' :: (fmt ++ ['\x7d']))

def WellFormed : Segment → Prop
  | .literal t => '%' ∉ t
  | .directive name fmt =>
    name ≠ [] ∧ (∀ c ∈ name, c.isAlpha = true) ∧ ∀ f, fmt = some f → '\x7d' ∉ f

def letters : List Char := ['m', 'p', 'r', 'c', 't', 'n', 'd', 'f', 'l', 'T', 'F', 'N']

def Known : Segment → Prop
  | .literal _ => True
  | .directive name _ => ∃ x ∈ letters, name = [x]

def value (strftime : String → ℕ → String) (level : Level) (event : LogEvent) (x : Char)
    (fmt : List Char) : String :=
  match x with
  | 'm' => event.content
  | 'p' => level.toString
  | 'r' => ToString.toString event.elapse
  | 'c' => event.logger
  | 't' => ToString.toString event.threadId
  | 'n' => "\n"
  | 'd' => strftime (if fmt = [] then "%Y-%m-%d %H:%M:%S" else String.ofList fmt) event.time
  | 'f' => event.file
  | 'l' => ToString.toString event.line
  | 'T' => "\t"
  | 'F' => ToString.toString event.fiberId
  | 'N' => event.threadName
  | _ => ""

def render (strftime : String → ℕ → String) (level : Level) (event : LogEvent) : Segment → String
  | .literal t => String.ofList t
  | .directive [x] fmt => value strftime level event x (fmt.getD [])
  | .directive _ _ => ""

end Segment

open Segment

def textOf (segs : List Segment) : List Char := segs.flatMap text

def Stops (cs : List Char) : Prop :=
  ∀ c, cs.head? = some c → c.isAlpha = false ∧ c ≠ '\x7b' ∧ c ≠ '\x7d'

/-- No directive without braces runs into the text behind it, which `tail` goes on. -/
def Separated (tail : List Char) : List Segment → Prop
  | [] => True
  | .directive _ none :: segs => Stops (textOf segs ++ tail) ∧ Separated tail segs
  | _ :: segs => Separated tail segs

section Scan
variable {name f cs normal : List Char}

theorem inStr_of_isAlpha {c : Char} (h : c.isAlpha = true) : inStr c = true := by
  simp [inStr, h]

theorem Stops.inStr (h : Stops cs) {c : Char} (hc : cs.head? = some c) : inStr c = false := by
  obtain ⟨halpha, -, hclose⟩ := h c hc
  simp [Log.inStr, halpha, hclose]

theorem takeWhile_inStr (hname : ∀ c ∈ name, inStr c = true)
    (hcs : ∀ c, cs.head? = some c → inStr c = false) :
    (name ++ cs).takeWhile inStr = name ∧ (name ++ cs).dropWhile inStr = cs := by
  rw [List.takeWhile_append_of_pos hname, List.dropWhile_append_of_pos hname]
  cases cs with
  | nil => simp
  | cons c cs => simp [hcs c rfl]

theorem scan_plain (hname : ∀ c ∈ name, inStr c = true) (hcs : Stops cs) :
    scan (name ++ cs) = .plain name := by
  obtain ⟨htake, hdrop⟩ := takeWhile_inStr hname fun c hc => hcs.inStr hc
  rw [scan, htake, hdrop]
  split
  · next body => exact absurd rfl (hcs '\x7b' rfl).2.1
  · rfl

theorem scan_open (hname : ∀ c ∈ name, inStr c = true) (body : List Char) :
    scan (name ++ '\x7b' :: body) =
      if body.contains '\x7d' then .braced name (body.takeWhile (· ≠ '\x7d'))
      else .unterminated := by
  have hbrace : ∀ c, ('\x7b' :: body).head? = some c → inStr c = false := by
    rintro c ⟨⟩
    rfl
  obtain ⟨htake, hdrop⟩ := takeWhile_inStr hname hbrace
  rw [scan, htake, hdrop]
  rfl

theorem scan_braced (hname : ∀ c ∈ name, inStr c = true) (hf : '\x7d' ∉ f) (cs : List Char) :
    scan (name ++ '\x7b' :: (f ++ '\x7d' :: cs)) = .braced name f := by
  have hfree : ∀ c ∈ f, decide (c ≠ '\x7d') = true := by
    intro c hc
    simpa using ne_of_mem_of_not_mem hc hf
  rw [scan_open hname, if_pos (by simp), List.takeWhile_append_of_pos hfree]
  simp

theorem pieces_skip (k : ℕ) (normal cs : List Char) :
    pieces k normal cs = pieces 0 normal (cs.drop k) := by
  induction k generalizing cs with
  | zero => rfl
  | succ k ih =>
    cases cs with
    | nil => rfl
    | cons c cs => rw [pieces, ih, List.drop_succ_cons]

theorem pieces_char {c : Char} (hc : c ≠ '%') :
    pieces 0 normal (c :: cs) = pieces 0 (normal ++ [c]) cs := by
  rw [pieces, if_pos hc]

theorem pieces_double (hhead : cs.head? = some '%') :
    pieces 0 normal ('%' :: cs) = pieces 0 (normal ++ ['%']) cs := by
  rw [pieces, if_neg (by simp), if_pos hhead]

theorem pieces_text (h : '%' ∉ cs) (tail : List Char) :
    pieces 0 normal (cs ++ tail) = pieces 0 (normal ++ cs) tail := by
  induction cs generalizing normal with
  | nil => simp
  | cons c cs ih =>
    rw [List.mem_cons, not_or] at h
    rw [List.cons_append, pieces_char (Ne.symm h.1), ih h.2, List.append_assoc]
    rfl

def behind (normal name fmt : List Char) (rest : List Piece × Bool) : List Piece × Bool :=
  (flush normal ++ .directive name fmt :: rest.1, rest.2)

theorem pieces_plain (hhead : cs.head? ≠ some '%') (hscan : scan cs = .plain name) :
    pieces 0 normal ('%' :: cs) = behind normal name [] (pieces name.length [] cs) := by
  rw [pieces, if_neg (by simp), if_neg hhead, hscan]
  rfl

theorem pieces_braced (hhead : cs.head? ≠ some '%') (hscan : scan cs = .braced name f) :
    pieces 0 normal ('%' :: cs) =
      behind normal name f (pieces (name.length + f.length + 2) [] cs) := by
  rw [pieces, if_neg (by simp), if_neg hhead, hscan]
  rfl

theorem pieces_open (hhead : cs.head? ≠ some '%') (hscan : scan cs = .unterminated) :
    pieces 0 normal ('%' :: cs) =
      (.literal "<<pattern_error>>".toList :: (pieces 0 normal cs).1, true) := by
  rw [pieces, if_neg (by simp), if_neg hhead, hscan]

theorem pieces_induction {P : ℕ → List Char → Prop} (nil : ∀ k, P k [])
    (skip : ∀ k c cs, P k cs → P (k + 1) (c :: cs))
    (char : ∀ c cs, c ≠ '%' → P 0 cs → P 0 (c :: cs))
    (double : ∀ cs, cs.head? = some '%' → P 0 cs → P 0 ('%' :: cs))
    (plain : ∀ cs name, cs.head? ≠ some '%' → scan cs = .plain name → P name.length cs →
      P 0 ('%' :: cs))
    (braced : ∀ cs name f, cs.head? ≠ some '%' → scan cs = .braced name f →
      P (name.length + f.length + 2) cs → P 0 ('%' :: cs))
    (unterminated : ∀ cs, cs.head? ≠ some '%' → scan cs = .unterminated → P 0 cs →
      P 0 ('%' :: cs)) (k : ℕ) (cs : List Char) : P k cs := by
  induction cs generalizing k with
  | nil => exact nil k
  | cons c cs ih =>
    cases k with
    | succ k => exact skip k c cs (ih k)
    | zero =>
      by_cases hc : c = '%'
      · subst hc
        by_cases hhead : cs.head? = some '%'
        · exact double cs hhead (ih 0)
        · cases hscan : scan cs with
          | plain name => exact plain cs name hhead hscan (ih _)
          | braced name f => exact braced cs name f hhead hscan (ih _)
          | unterminated => exact unterminated cs hhead hscan (ih 0)
      · exact char c cs hc (ih 0)

theorem head_ne_percent (hname : ∀ c ∈ name, c.isAlpha = true) (hcs : cs.head? ≠ some '%') :
    (name ++ cs).head? ≠ some '%' := by
  cases name with
  | nil => exact hcs
  | cons c name =>
    intro hhead
    obtain rfl : c = '%' := by simpa using hhead
    exact absurd (hname '%' List.mem_cons_self) (by decide)

theorem pieces_directive {fmt : Option (List Char)} (h : (directive name fmt).WellFormed)
    (tail : List Char) (hstops : fmt = none → Stops tail) :
    pieces 0 normal ((directive name fmt).text ++ tail) =
      behind normal name (fmt.getD []) (pieces 0 [] tail) := by
  obtain ⟨hne, halpha, hfmt⟩ := h
  have hname : ∀ c ∈ name, inStr c = true := fun c hc => inStr_of_isAlpha (halpha c hc)
  cases fmt with
  | none =>
    have hhead : (name ++ tail).head? ≠ some '%' := by
      rw [List.head?_append_of_ne_nil _ hne, ← List.append_nil name]
      exact head_ne_percent halpha (by simp)
    rw [text, List.cons_append, pieces_plain hhead (scan_plain hname (hstops rfl)), pieces_skip,
      List.drop_left]
    rfl
  | some f =>
    have hbody : (name ++ '\x7b' :: (f ++ ['\x7d'])) ++ tail =
        name ++ '\x7b' :: (f ++ '\x7d' :: tail) := by simp
    have hlength : (name ++ '\x7b' :: (f ++ ['\x7d'])).length = name.length + f.length + 2 := by
      simp
      omega
    rw [text, List.cons_append, hbody, pieces_braced (head_ne_percent halpha (by simp))
      (scan_braced hname (hfmt f rfl) tail), pieces_skip, ← hbody, ← hlength, List.drop_left]
    rfl

/-- The entries of the segments and of the text behind them. Texts that no directive separates are
one entry. -/
def cut (tail : List Char) : List Char → List Segment → List Piece × Bool
  | normal, [] => pieces 0 normal tail
  | normal, .literal t :: segs => cut tail (normal ++ t) segs
  | normal, .directive name fmt :: segs => behind normal name (fmt.getD []) (cut tail [] segs)

theorem pieces_textOf {segs : List Segment} (hsegs : ∀ s ∈ segs, s.WellFormed) {tail : List Char}
    (hsep : Separated tail segs) :
    pieces 0 normal (textOf segs ++ tail) = cut tail normal segs := by
  induction segs generalizing normal with
  | nil => rfl
  | cons s segs ih =>
    rw [List.forall_mem_cons] at hsegs
    rw [textOf, List.flatMap_cons, List.append_assoc]
    cases s with
    | literal t =>
      rw [cut, ← ih hsegs.2 hsep]
      exact pieces_text hsegs.1 _
    | directive name fmt =>
      have hstops : (fmt = none → Stops (textOf segs ++ tail)) ∧ Separated tail segs := by
        cases fmt with
        | none => exact ⟨fun _ => hsep.1, hsep.2⟩
        | some f => exact ⟨nofun, hsep⟩
      rw [cut, ← ih hsegs.2 hstops.2]
      exact pieces_directive hsegs.1 _ hstops.1

theorem Separated.percent {segs : List Segment} (h : Separated [] segs) (cs : List Char) :
    Separated ('%' :: cs) segs := by
  induction segs with
  | nil => trivial
  | cons s segs ih =>
    match s, h with
    | .directive _ none, ⟨hstops, hsep⟩ =>
      refine ⟨?_, ih hsep⟩
      intro c hc
      cases htext : textOf segs with
      | nil =>
        rw [htext] at hc
        obtain rfl : '%' = c := by simpa using hc
        decide
      | cons c' text =>
        rw [htext] at hc hstops
        exact hstops c hc
    | .directive _ (some _), hsep => exact ih hsep
    | .literal _, hsep => exact ih hsep

theorem cut_error {segs : List Segment} {tail : List Char} {b : Bool}
    (h : ∀ n, (pieces 0 n tail).2 = b) : (cut tail normal segs).2 = b := by
  induction segs generalizing normal with
  | nil => exact h normal
  | cons s segs ih =>
    cases s with
    | literal t => exact ih
    | directive name fmt => exact ih

theorem pieces_unterminated (hname : ∀ c ∈ name, c.isAlpha = true) (hf : '\x7d' ∉ f)
    (normal : List Char) : (pieces 0 normal ('%' :: (name ++ '\x7b' :: f))).2 = true := by
  have hscan : scan (name ++ '\x7b' :: f) = .unterminated := by
    rw [scan_open fun c hc => inStr_of_isAlpha (hname c hc), if_neg (by simpa using hf)]
  rw [pieces_open (head_ne_percent hname (by simp)) hscan]

end Scan

section Render
variable (strftime : String → ℕ → String) (level : Level) (event : LogEvent)

theorem formatItem_eq_none {name : List Char} (h : ∀ x ∈ letters, name ≠ [x]) (fmt : String) :
    formatItem (String.ofList name) fmt = none := by
  rw [formatItem]
  all_goals
    intro heq
    have hname := congrArg String.toList heq
    rw [String.toList_ofList] at hname
    exact h _ (by decide) hname

def Piece.text (p : Piece) : String := (item p).1.format strftime level event

def textOfPieces (ps : List Piece) : String :=
  String.join (ps.map (Piece.text strftime level event))

theorem LogFormatter.format_eq (f : LogFormatter) :
    f.format strftime level event =
      textOfPieces strftime level event (pieces 0 [] f.pattern.toList).1 := by
  rw [format, items, textOfPieces, String.join, List.foldl_map, List.foldl_map]
  rfl

@[simp] theorem textOfPieces_append (ps qs : List Piece) :
    textOfPieces strftime level event (ps ++ qs) =
      textOfPieces strftime level event ps ++ textOfPieces strftime level event qs := by
  rw [textOfPieces, List.map_append, String.join_append]
  rfl

@[simp] theorem textOfPieces_cons (p : Piece) (ps : List Piece) :
    textOfPieces strftime level event (p :: ps) =
      p.text strftime level event ++ textOfPieces strftime level event ps :=
  String.join_cons

@[simp] theorem textOfPieces_flush (normal : List Char) :
    textOfPieces strftime level event (flush normal) = String.ofList normal := by
  rw [flush]
  split_ifs with h
  · rw [h]
    rfl
  · rw [textOfPieces_cons]
    exact String.append_empty

theorem flush_item (normal : List Char) : (flush normal).any (item · |>.2) = false := by
  rw [flush]
  split_ifs <;> rfl

theorem item_known {x : Char} (hx : x ∈ letters) (fmt : List Char) :
    (item (.directive [x] fmt)).2 = false := by
  simp only [letters, List.mem_cons, List.not_mem_nil, or_false] at hx
  rcases hx with rfl | rfl | rfl | rfl | rfl | rfl | rfl | rfl | rfl | rfl | rfl | rfl <;> rfl

theorem text_known {x : Char} (hx : x ∈ letters) (fmt : List Char) :
    Piece.text strftime level event (.directive [x] fmt) = value strftime level event x fmt := by
  simp only [letters, List.mem_cons, List.not_mem_nil, or_false] at hx
  rcases hx with rfl | rfl | rfl | rfl | rfl | rfl | rfl | rfl | rfl | rfl | rfl | rfl
  case inr.inr.inr.inr.inr.inr.inl =>
    have hempty : String.ofList fmt = "" ↔ fmt = [] :=
      ⟨fun h => String.ofList_injective h, fun h => h ▸ rfl⟩
    change strftime (if String.ofList fmt = "" then _ else _) _ =
      strftime (if fmt = [] then _ else _) _
    simp only [hempty]
  all_goals rfl

theorem item_unknown {name : List Char} (h : ∀ x ∈ letters, name ≠ [x]) (fmt : List Char) :
    (item (.directive name fmt)).2 = true := by
  rw [item, formatItem_eq_none h]

theorem cut_known {segs : List Segment} (hknown : ∀ s ∈ segs, s.Known) (normal : List Char) :
    (cut [] normal segs).1.any (item · |>.2) = false := by
  induction segs generalizing normal with
  | nil => exact flush_item normal
  | cons s segs ih =>
    rw [List.forall_mem_cons] at hknown
    cases s with
    | literal t => exact ih hknown.2 _
    | directive name fmt =>
      obtain ⟨x, hx, rfl⟩ := hknown.1
      simp only [cut, behind, List.any_append, List.any_cons, flush_item, item_known hx,
        ih hknown.2, Bool.or_self]

theorem textOfPieces_cut {segs : List Segment} (hknown : ∀ s ∈ segs, s.Known)
    (normal : List Char) :
    textOfPieces strftime level event (cut [] normal segs).1 =
      String.ofList normal ++ String.join (segs.map (render strftime level event)) := by
  induction segs generalizing normal with
  | nil => simp [cut, pieces]
  | cons s segs ih =>
    rw [List.forall_mem_cons] at hknown
    rw [List.map_cons, String.join_cons]
    cases s with
    | literal t =>
      rw [cut, ih hknown.2, String.ofList_append, String.append_assoc]
      rfl
    | directive name fmt =>
      obtain ⟨x, hx, rfl⟩ := hknown.1
      simp only [cut, behind, textOfPieces_append, textOfPieces_flush, textOfPieces_cons,
        text_known strftime level event hx, ih hknown.2]
      rfl

theorem cut_unknown {segs : List Segment} {s : Segment} (hs : s ∈ segs) (hunknown : ¬s.Known)
    (tail normal : List Char) : (cut tail normal segs).1.any (item · |>.2) = true := by
  induction segs generalizing normal with
  | nil => cases hs
  | cons r segs ih =>
    cases r with
    | literal t =>
      rcases List.mem_cons.mp hs with rfl | hs
      · exact absurd trivial hunknown
      · exact ih hs _
    | directive name fmt =>
      simp only [cut, behind, List.any_append, List.any_cons, Bool.or_eq_true]
      rcases List.mem_cons.mp hs with rfl | hs
      · have hname : ∀ x ∈ letters, name ≠ [x] := fun x hx heq => hunknown ⟨x, hx, heq⟩
        exact .inr (.inl (item_unknown hname _))
      · exact .inr (.inr (ih hs _))

end Render

/-- A pattern of well-formed segments is without error exactly if all its directives are known, and
then it formats every event to the texts of its segments. A brace that is left open at the end is an
error. -/
theorem pattern_compositional (segs : List Segment) (hsegs : ∀ s ∈ segs, s.WellFormed)
    (hsep : Separated [] segs) :
    ((∀ s ∈ segs, s.Known) →
      (LogFormatter.mk (String.ofList (textOf segs))).isError = false ∧
      ∀ strftime level event,
        (LogFormatter.mk (String.ofList (textOf segs))).format strftime level event =
          String.join (segs.map (render strftime level event))) ∧
    ((∃ s ∈ segs, ¬s.Known) → (LogFormatter.mk (String.ofList (textOf segs))).isError = true) ∧
    ∀ name f : List Char, (∀ c ∈ name, c.isAlpha = true) → '\x7d' ∉ f →
      (LogFormatter.mk
        (String.ofList (textOf segs ++ '%' :: (name ++ '\x7b' :: f)))).isError = true := by
  have hcut : pieces 0 [] (textOf segs) = cut [] [] segs := by
    rw [← pieces_textOf hsegs hsep, List.append_nil]
  have hopen : (cut [] [] segs).2 = false := cut_error fun n => rfl
  refine ⟨fun hknown => ⟨?_, ?_⟩, ?_, ?_⟩
  · rw [LogFormatter.isError, String.toList_ofList, hcut]
    simp only [hopen, cut_known hknown, Bool.or_self]
  · intro strftime level event
    rw [LogFormatter.format_eq, String.toList_ofList, hcut,
      textOfPieces_cut strftime level event hknown]
    exact String.empty_append
  · rintro ⟨s, hs, hunknown⟩
    rw [LogFormatter.isError, String.toList_ofList, hcut]
    simp only [cut_unknown hs hunknown, Bool.or_true]
  · intro name f hname hf
    rw [LogFormatter.isError, String.toList_ofList, pieces_textOf hsegs (hsep.percent _)]
    simp only [cut_error fun n => pieces_unterminated hname hf n, Bool.true_or]

-- A text, a directive with a format and one without.
theorem pattern_compositional_mixed :
    (LogFormatter.mk "[%d\x7b%H\x7d] %m").isError = false ∧
      (LogFormatter.mk "[%d\x7b%H\x7d] %m").format (fun f _ => f) .info
        ⟨"root", "a.cpp", 1, 0, 1, 0, 0, "main", "x"⟩ = "[%H] x" := by
  have h := (pattern_compositional [.literal ['['], .directive ['d'] (some ['%', 'H']),
    .literal [']', ' '], .directive ['m'] none] (by simp [WellFormed])
    (by simp [Separated, Stops, textOf])).1 (by simp [Known, letters])
  exact ⟨h.1, h.2 _ _ _⟩

section Percent
variable {normal p q : List Char} {k : ℕ}

theorem scan_append (h : scan p ≠ .unterminated) (cs : List Char) :
    scan (p ++ '%' :: cs) = scan p := by
  have hname : ∀ c ∈ p.takeWhile inStr, inStr c = true := fun c hc => List.mem_takeWhile_imp hc
  have hhead : ∀ c, (p.dropWhile inStr).head? = some c → inStr c = false := by
    intro c hc
    have hnot := List.head?_dropWhile_not inStr p
    rw [hc] at hnot
    exact hnot
  obtain ⟨name, rest, hp⟩ : ∃ name rest, name = p.takeWhile inStr ∧ rest = p.dropWhile inStr :=
    ⟨_, _, rfl, rfl⟩
  rw [← hp.1] at hname
  rw [← hp.2] at hhead
  obtain rfl : p = name ++ rest := by rw [hp.1, hp.2, List.takeWhile_append_dropWhile]
  have hsign : ∀ cs, Stops ('%' :: cs) := by
    rintro cs c ⟨⟩
    decide
  rw [List.append_assoc]
  cases rest with
  | nil =>
    rw [List.nil_append, scan_plain hname (hsign cs), scan_plain hname]
    rintro c ⟨⟩
  | cons c body =>
    by_cases hc : c = '\x7b'
    · subst hc
      rw [scan_open hname] at h
      split_ifs at h with hclose
      · obtain ⟨f, rest, rfl, hf⟩ := List.eq_append_cons_of_mem (List.contains_iff_mem.mp hclose)
        rw [scan_braced hname hf, List.cons_append, List.append_assoc, List.cons_append,
          scan_braced hname hf]
      · exact absurd rfl h
    · have hstops : ∀ cs, Stops (c :: cs) := by
        rintro cs c' ⟨⟩
        have hin := hhead c rfl
        simp only [inStr, Bool.or_eq_false_iff, decide_eq_false_iff_not] at hin
        exact ⟨hin.1, hc, hin.2⟩
      rw [scan_plain hname (hstops _), List.cons_append, scan_plain hname (hstops _)]

theorem scan_length (p : List Char) :
    (∀ str, scan p = .plain str → str.length ≤ p.length) ∧
      ∀ str fmt, scan p = .braced str fmt → str.length + fmt.length + 2 ≤ p.length := by
  have htake : (p.takeWhile inStr).length + (p.dropWhile inStr).length = p.length := by
    rw [← List.length_append, List.takeWhile_append_dropWhile]
  rw [scan]
  split
  · next body hdrop =>
    rw [hdrop, List.length_cons] at htake
    split_ifs with hclose
    · refine ⟨nofun, ?_⟩
      rintro str fmt ⟨⟩
      obtain ⟨f, rest, rfl, hf⟩ := List.eq_append_cons_of_mem (List.contains_iff_mem.mp hclose)
      have hfree : ∀ c ∈ f, decide (c ≠ '\x7d') = true := by
        intro c hc
        simpa using ne_of_mem_of_not_mem hc hf
      rw [List.takeWhile_append_of_pos hfree]
      simp only [List.length_append, List.length_cons] at htake ⊢
      simp
      omega
    · exact ⟨nofun, nofun⟩
  · refine ⟨?_, nofun⟩
    rintro str ⟨⟩
    omega

theorem getLast?_tail {c : Char} (h : (c :: p).getLast? ≠ some '%') : p.getLast? ≠ some '%' := by
  intro htail
  rw [List.getLast?_cons, htail] at h
  exact h rfl

theorem head_append {cs : List Char} (hlast : ('%' :: p).getLast? ≠ some '%')
    (hhead : p.head? ≠ some '%') : (p ++ '%' :: cs).head? ≠ some '%' := by
  have hp : p ≠ [] := by
    rintro rfl
    exact hlast rfl
  rwa [List.head?_append_of_ne_nil _ hp]

/-- A pattern in which no brace stays open is cut in the same way in front of a further sign, where
the literal it ends with goes on. -/
theorem pieces_append (hk : k ≤ p.length) (hopen : (pieces k normal p).2 = false)
    (hlast : p.getLast? ≠ some '%') :
    ∃ ps n, pieces k normal p = (ps ++ flush n, false) ∧ ∀ cs,
      pieces k normal (p ++ '%' :: cs) =
        (ps ++ (pieces 0 n ('%' :: cs)).1, (pieces 0 n ('%' :: cs)).2) := by
  induction k, p using pieces_induction generalizing normal with
  | nil k =>
    obtain rfl : k = 0 := Nat.le_zero.mp hk
    exact ⟨[], normal, rfl, fun cs => rfl⟩
  | skip k c p ih => exact ih (Nat.le_of_succ_le_succ hk) hopen (getLast?_tail hlast)
  | char c p hc ih =>
    rw [pieces_char hc] at hopen ⊢
    simp only [List.cons_append, pieces_char hc]
    exact ih (Nat.zero_le _) hopen (getLast?_tail hlast)
  | double p hhead ih =>
    rw [pieces_double hhead] at hopen ⊢
    have hhead' : ∀ cs, (p ++ '%' :: cs).head? = some '%' := fun cs => by simp [hhead]
    simp only [List.cons_append, pieces_double (hhead' _)]
    exact ih (Nat.zero_le _) hopen (getLast?_tail hlast)
  | plain p str hhead hscan ih =>
    rw [pieces_plain hhead hscan] at hopen ⊢
    obtain ⟨ps, n, hp, htail⟩ := ih ((scan_length p).1 str hscan) hopen (getLast?_tail hlast)
    refine ⟨flush normal ++ .directive str [] :: ps, n, by simp [behind, hp], fun cs => ?_⟩
    have hscan' := (scan_append (by simp [hscan]) cs).trans hscan
    rw [List.cons_append, pieces_plain (head_append hlast hhead) hscan', htail]
    simp [behind]
  | braced p str fmt hhead hscan ih =>
    rw [pieces_braced hhead hscan] at hopen ⊢
    obtain ⟨ps, n, hp, htail⟩ := ih ((scan_length p).2 str fmt hscan) hopen (getLast?_tail hlast)
    refine ⟨flush normal ++ .directive str fmt :: ps, n, by simp [behind, hp], fun cs => ?_⟩
    have hscan' := (scan_append (by simp [hscan]) cs).trans hscan
    rw [List.cons_append, pieces_braced (head_append hlast hhead) hscan', htail]
    simp [behind]
  | unterminated p hhead hscan ih =>
    rw [pieces_open hhead hscan] at hopen
    cases hopen

def isErrorOf (r : List Piece × Bool) : Bool := r.2 || r.1.any (item · |>.2)

theorem isErrorOf_behind (normal name fmt : List Char) (r : List Piece × Bool) :
    isErrorOf (behind normal name fmt r) = ((item (.directive name fmt)).2 || isErrorOf r) := by
  simp only [isErrorOf, behind, List.any_append, List.any_cons, flush_item, Bool.false_or]
  rw [Bool.or_left_comm]

theorem isErrorOf_normal (k : ℕ) (normal cs : List Char) :
    isErrorOf (pieces k normal cs) = isErrorOf (pieces k [] cs) := by
  induction k, cs using pieces_induction generalizing normal with
  | nil k =>
    have hnil : ∀ n, isErrorOf (pieces k n []) = false := fun n => by
      simp [isErrorOf, pieces, flush_item]
    rw [hnil, hnil]
  | skip k c cs ih => exact ih normal
  | char c cs hc ih => rw [pieces_char hc, pieces_char hc, ih, ih ([] ++ [c])]
  | double cs hhead ih => rw [pieces_double hhead, pieces_double hhead, ih, ih ([] ++ ['%'])]
  | plain cs str hhead hscan ih =>
    rw [pieces_plain hhead hscan, pieces_plain hhead hscan, isErrorOf_behind, isErrorOf_behind]
  | braced cs str fmt hhead hscan ih =>
    rw [pieces_braced hhead hscan, pieces_braced hhead hscan, isErrorOf_behind, isErrorOf_behind]
  | unterminated cs hhead hscan ih =>
    rw [pieces_open hhead hscan, pieces_open hhead hscan]
    rfl

theorem textOfPieces_behind (strftime : String → ℕ → String) (level : Level) (event : LogEvent)
    (normal name fmt : List Char) (r : List Piece × Bool) :
    textOfPieces strftime level event (behind normal name fmt r).1 =
      String.ofList normal ++ textOfPieces strftime level event (behind [] name fmt r).1 := by
  simp [behind]

theorem textOfPieces_normal (strftime : String → ℕ → String) (level : Level) (event : LogEvent)
    (k : ℕ) (normal cs : List Char) (hok : isErrorOf (pieces k normal cs) = false) :
    textOfPieces strftime level event (pieces k normal cs).1 =
      String.ofList normal ++ textOfPieces strftime level event (pieces k [] cs).1 := by
  induction k, cs using pieces_induction generalizing normal with
  | nil k => simp [pieces]
  | skip k c cs ih => exact ih normal hok
  | char c cs hc ih =>
    rw [pieces_char hc] at hok
    have hok' := (isErrorOf_normal 0 ([] ++ [c]) cs).trans ((isErrorOf_normal _ _ _).symm.trans hok)
    rw [pieces_char hc, pieces_char hc, ih _ hok, ih _ hok', String.ofList_append,
      String.append_assoc]
    rfl
  | double cs hhead ih =>
    rw [pieces_double hhead] at hok
    have hok' := (isErrorOf_normal 0 ([] ++ ['%']) cs).trans
      ((isErrorOf_normal _ _ _).symm.trans hok)
    rw [pieces_double hhead, pieces_double hhead, ih _ hok, ih _ hok', String.ofList_append,
      String.append_assoc]
    rfl
  | plain cs str hhead hscan ih =>
    rw [pieces_plain hhead hscan, pieces_plain hhead hscan, textOfPieces_behind]
  | braced cs str fmt hhead hscan ih =>
    rw [pieces_braced hhead hscan, pieces_braced hhead hscan, textOfPieces_behind]
  | unterminated cs hhead hscan ih =>
    rw [pieces_open hhead hscan] at hok
    cases hok

theorem scan_name (p : List Char) :
    (∀ name, scan p = .plain name → name = p.takeWhile inStr) ∧
      ∀ name fmt, scan p = .braced name fmt → name = p.takeWhile inStr := by
  rw [scan]
  split
  · split_ifs
    · refine ⟨nofun, ?_⟩
      rintro name fmt ⟨⟩
      rfl
    · exact ⟨nofun, nofun⟩
  · refine ⟨?_, nofun⟩
    rintro name ⟨⟩
    rfl

/-- A sign in front of a pattern without error is in error itself, is one more sign, or makes a
directive out of a letter of the pattern. -/
theorem percent_cases (hok : isErrorOf (pieces 0 [] ('%' :: q)) = false) :
    q.head? = some '%' ∨ ∃ x ∈ letters, ∃ fmt r, q.head? = some x ∧
      pieces 0 [] ('%' :: q) = behind [] [x] fmt r := by
  have hdirective : ∀ name fmt r, name = q.takeWhile inStr →
      pieces 0 [] ('%' :: q) = behind [] name fmt r → ∃ x ∈ letters, q.head? = some x ∧
      pieces 0 [] ('%' :: q) = behind [] [x] fmt r := by
    intro name fmt r hname hpieces
    rw [hpieces, isErrorOf_behind, Bool.or_eq_false_iff] at hok
    by_contra hunknown
    have hnone : ∀ x ∈ letters, name ≠ [x] := by
      intro x hx heq
      refine hunknown ⟨x, hx, ?_, heq ▸ hpieces⟩
      rw [heq] at hname
      cases q with
      | nil => cases hname
      | cons c q =>
        rw [List.takeWhile_cons] at hname
        split_ifs at hname
        rw [(List.cons.inj hname).1]
        rfl
    rw [item_unknown hnone] at hok
    cases hok.1
  by_cases hhead : q.head? = some '%'
  · exact .inl hhead
  · right
    cases hscan : scan q with
    | plain name =>
      obtain ⟨x, hx, hq, hpieces⟩ :=
        hdirective name [] _ ((scan_name q).1 _ hscan) (pieces_plain hhead hscan)
      exact ⟨x, hx, _, _, hq, hpieces⟩
    | braced name fmt =>
      obtain ⟨x, hx, hq, hpieces⟩ :=
        hdirective name fmt _ ((scan_name q).2 _ _ hscan) (pieces_braced hhead hscan)
      exact ⟨x, hx, _, _, hq, hpieces⟩
    | unterminated =>
      rw [pieces_open hhead hscan] at hok
      cases hok

def sampleEvent : LogEvent := ⟨"?", "?", 0, 0, 0, 0, 0, "?", "?"⟩

theorem value_head {x : Char} (hx : x ∈ letters) (fmt : List Char) :
    ∃ c, (value (fun _ _ => "1970-01-01 00:00:00") .debug sampleEvent x fmt).toList.head? = some c ∧
      c ≠ x := by
  have hfmt : value (fun _ _ => "1970-01-01 00:00:00") .debug sampleEvent x fmt =
      value (fun _ _ => "1970-01-01 00:00:00") .debug sampleEvent x [] := by
    rfl
  have hhead : (letters.all fun x =>
      (value (fun _ _ => "1970-01-01 00:00:00") .debug sampleEvent x []).toList.head?.any
        (· != x)) = true := by
    decide
  rw [hfmt]
  simpa [Option.any_eq_true] using List.all_eq_true.mp hhead x hx

theorem percent_ne (hq : isErrorOf (pieces 0 [] q) = false)
    (hok : isErrorOf (pieces 0 [] ('%' :: q)) = false) :
    ∃ strftime level event, textOfPieces strftime level event (pieces 0 [] ('%' :: q)).1 ≠
      textOfPieces strftime level event (pieces 0 [] q).1 := by
  refine ⟨fun _ _ => "1970-01-01 00:00:00", .debug, sampleEvent, fun heq => ?_⟩
  rcases percent_cases hok with hhead | ⟨x, hx, fmt, r, hhead, hpieces⟩
  · rw [pieces_double hhead] at heq hok
    rw [textOfPieces_normal _ _ _ _ _ _ hok] at heq
    have hlength := congrArg String.length heq
    rw [String.length_append] at hlength
    simp at hlength
  · cases q with
    | nil => cases hhead
    | cons c q =>
      obtain rfl : c = x := by simpa using hhead
      have hc : c ≠ '%' := by
        rintro rfl
        exact absurd hx (by decide)
      obtain ⟨c', hc', hne⟩ := value_head hx fmt
      rw [pieces_char hc] at hq heq
      rw [hpieces, textOfPieces_normal _ _ _ _ _ _ hq] at heq
      have hfirst := congrArg (·.toList.head?) heq
      simp only [behind, textOfPieces_append, textOfPieces_flush, textOfPieces_cons,
        text_known _ _ _ hx, String.toList_append, String.toList_ofList, List.nil_append,
        List.head?_append, hc'] at hfirst
      exact hne (Option.some.inj hfirst)

end Percent

/-- `%%` between two patterns is one sign. -/
def Escapes (p q : String) : Prop :=
  (LogFormatter.mk (p ++ "%%" ++ q)).isError = false ∧ ∀ strftime level event,
    (LogFormatter.mk (p ++ "%%" ++ q)).format strftime level event =
      (LogFormatter.mk p).format strftime level event ++ "%" ++
        (LogFormatter.mk q).format strftime level event

/-- The second sign of `%%` is read together with the pattern behind it, which is never what that
pattern means on its own. -/
theorem escape_reads_directive (p q : String) (hp : (LogFormatter.mk p).isError = false)
    (hq : (LogFormatter.mk q).isError = false) (hlast : p.toList.getLast? ≠ some '%') :
    (LogFormatter.mk (p ++ "%%" ++ q)).isError = (LogFormatter.mk ("%" ++ q)).isError ∧
    ((LogFormatter.mk ("%" ++ q)).isError = false → ∀ strftime level event,
      (LogFormatter.mk (p ++ "%%" ++ q)).format strftime level event =
        (LogFormatter.mk p).format strftime level event ++ "%" ++
          (LogFormatter.mk ("%" ++ q)).format strftime level event) ∧
    ¬Escapes p q := by
  have herror : ∀ s, (LogFormatter.mk s).isError = isErrorOf (pieces 0 [] s.toList) := fun s => rfl
  have hsign : ("%" ++ q).toList = '%' :: q.toList := by simp
  have hboth : (p ++ "%%" ++ q).toList = p.toList ++ '%' :: '%' :: q.toList := by simp
  have hopen : (pieces 0 [] p.toList).2 = false := by
    rw [herror, isErrorOf, Bool.or_eq_false_iff] at hp
    exact hp.1
  obtain ⟨ps, n, hcut, htail⟩ := pieces_append (Nat.zero_le _) hopen hlast
  -- The first sign joins the literal that is being read, the second one stays in front of `q`.
  have hread : pieces 0 [] (p ++ "%%" ++ q).toList =
      (ps ++ (pieces 0 (n ++ ['%']) ('%' :: q.toList)).1,
        (pieces 0 (n ++ ['%']) ('%' :: q.toList)).2) := by
    rw [hboth, htail, pieces_double rfl]
  have hsame : (LogFormatter.mk (p ++ "%%" ++ q)).isError =
      (LogFormatter.mk ("%" ++ q)).isError := by
    have hps : ps.any (item · |>.2) = false := by
      rw [herror, isErrorOf, hcut, List.any_append, Bool.or_eq_false_iff,
        Bool.or_eq_false_iff] at hp
      exact hp.2.1
    rw [herror, herror, hread, hsign, ← isErrorOf_normal 0 (n ++ ['%']), isErrorOf, isErrorOf,
      List.any_append, hps, Bool.false_or]
  have hformat : (LogFormatter.mk ("%" ++ q)).isError = false → ∀ strftime level event,
      (LogFormatter.mk (p ++ "%%" ++ q)).format strftime level event =
        (LogFormatter.mk p).format strftime level event ++ "%" ++
          (LogFormatter.mk ("%" ++ q)).format strftime level event := by
    intro hok strftime level event
    rw [herror, hsign, ← isErrorOf_normal 0 (n ++ ['%'])] at hok
    rw [LogFormatter.format_eq, LogFormatter.format_eq, LogFormatter.format_eq, hread, hcut, hsign]
    rw [textOfPieces_append, textOfPieces_append,
      textOfPieces_normal strftime level event _ _ _ hok, textOfPieces_flush,
      String.ofList_append, String.append_assoc, String.append_assoc, String.append_assoc]
  refine ⟨hsame, hformat, ?_⟩
  rintro ⟨hok, hescapes⟩
  rw [hsame] at hok
  rw [herror] at hq
  obtain ⟨strftime, level, event, hne⟩ := percent_ne hq (by rw [← hsign, ← herror]; exact hok)
  have heq := (hformat hok strftime level event).symm.trans (hescapes strftime level event)
  rw [String.append_right_inj, LogFormatter.format_eq, LogFormatter.format_eq, hsign] at heq
  exact hne heq

-- A letter behind `%%` is read as a directive.
theorem escape_reads_directive_letter :
    (LogFormatter.mk "a%%m").isError = false ∧ ¬Escapes "a" "m" := by
  have h := escape_reads_directive "a" "m" (by decide) (by decide) (by decide)
  exact ⟨h.1.trans (by decide), h.2.2⟩

/-- `%%` alone is in error. -/
theorem percent_alone_rejected :
    (LogFormatter.mk "").isError = false ∧ (LogFormatter.mk ("" ++ "%%" ++ "")).isError = true := by
  decide

end ApexStorm.Log
