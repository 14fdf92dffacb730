import Mathlib.Data.List.DropRight
import ApexStorm.Http.Body
import ApexStorm.Http.Framing

/-!
# The lengths that a printed message declares

The fields of a message are read off the lines behind its first one. The printer adds a
length and a connection field of its own. It leaves out a header named `connection`, but
not one named `content-length`, such as the parser puts into every request with a body.
-/

namespace ApexStorm.Http
open Lib Lines

def blank (c : UInt8) : Bool := c = 32 || c = 9

def strip (xs : List UInt8) : List UInt8 := (xs.dropWhile blank).rdropWhile blank

def fieldValue (name line : List UInt8) : Option (List UInt8) :=
  if 58 ∈ line ∧ (line.takeWhile (· ≠ 58)).map toLower = name then
    some (strip (line.dropWhile (· ≠ 58)).tail)
  else none

def values (name : String) (lines : List (List UInt8)) : List (List UInt8) :=
  lines.filterMap (fieldValue (ascii name))

structure Declares (lines : List (List UInt8)) (body : List UInt8) (close : Bool) : Prop where
  single : (values "content-length" lines).length ≤ 1
  right : ∀ v ∈ values "content-length" lines, v = showNat body.length
  present : body ≠ [] → values "content-length" lines ≠ []
  connection : values "connection" lines = [if close then ascii "close" else ascii "keep-alive"]

/-- All lines behind the first one that are printed in front of the body. -/
def printedLines (text body : List UInt8) : List (List UInt8) :=
  (split (text.take (text.length - body.length))).tail

/-- The lines behind the first one that a reader takes for fields, up to an empty one. -/
def receivedLines (text : List UInt8) : List (List UInt8) := (split text).tail.takeWhile (· ≠ [])

/-- The header block is right as it is printed and as it is read. -/
structure DeclaresLength (text body : List UInt8) (close : Bool) : Prop where
  printed : Declares (printedLines text body) body close
  received : Declares (receivedLines text) body close

structure Quiet (lines : List (List UInt8)) (body : List UInt8) : Prop where
  connection : values "connection" lines = []
  length : values "content-length" lines = [] ∨
    body = [] ∧ values "content-length" lines = [ascii "0"]

/-- What the texts of a message may print in front of the connection field and behind it. An empty
line would hide the fields behind it. -/
structure Harmless (front behind : List (List UInt8)) (body : List UInt8) : Prop where
  quiet : Quiet (front ++ behind) body
  front_ne : [] ∉ front
  behind_ne : body ≠ [] → [] ∉ behind

section Fields
variable {name xs ys : List UInt8}

theorem fieldValue_colon (h : 58 ∉ xs) :
    fieldValue name (xs ++ 58 :: ys) =
      if xs.map toLower = name then some (strip ys) else none := by
  have hkeep : ∀ c ∈ xs, decide (c ≠ 58) = true := by
    intro c hc
    exact decide_eq_true (ne_of_mem_of_not_mem hc h)
  rw [fieldValue, List.takeWhile_append_of_pos hkeep, List.dropWhile_append_of_pos hkeep]
  simp

@[simp] theorem values_append (name : String) (ls ls' : List (List UInt8)) :
    values name (ls ++ ls') = values name ls ++ values name ls' := List.filterMap_append

theorem values_sublist (name : String) {ls ls' : List (List UInt8)} (h : ls.Sublist ls') :
    (values name ls).Sublist (values name ls') := h.filterMap _

theorem strip_blank (xs : List UInt8) : strip (32 :: xs) = strip xs := rfl

theorem strip_of_forall (h : ∀ c ∈ xs, blank c = false) : strip xs = xs := by
  have hfront : xs.dropWhile blank = xs := by
    rw [List.dropWhile_eq_self_iff]
    intro hpos
    simp [h _ (List.getElem_mem hpos)]
  rw [strip, hfront, List.rdropWhile_eq_self_iff]
  intro hne
  simp [h _ (List.getLast_mem hne)]

theorem strip_showNat (n : ℕ) : strip (showNat n) = showNat n := by
  refine strip_of_forall fun c hc => ?_
  obtain ⟨hvalue, hspace⟩ := showNat_byte c hc
  have htab : c ≠ 9 := by
    rintro rfl
    exact absurd hvalue (by decide)
  simp [blank, hspace, htab]

theorem values_connectionLine (close : Bool) :
    values "connection" [connectionLine close] =
      [if close then ascii "close" else ascii "keep-alive"] ∧
    values "content-length" [connectionLine close] = [] := by
  cases close <;> decide +kernel

theorem values_lengthLines (body : List UInt8) :
    values "connection" (lengthLines body) = [] ∧
    values "content-length" (lengthLines body) =
      if body ≠ [] then [showNat body.length] else [] := by
  have hline : ascii "content-length: " ++ showNat body.length =
      ascii "content-length" ++ 58 :: 32 :: showNat body.length := rfl
  have hcolon : 58 ∉ ascii "content-length" := by decide
  rw [lengthLines]
  split_ifs with hbody
  · rw [values, values, hline, List.filterMap_cons, List.filterMap_cons, fieldValue_colon hcolon,
      fieldValue_colon hcolon, if_neg (by decide), if_pos (by decide), strip_blank, strip_showNat]
    exact ⟨rfl, rfl⟩
  · exact ⟨rfl, rfl⟩

end Fields

section Lines
variable {start body rest : List UInt8} {lines : List (List UInt8)}

theorem flatMap_split (h : ∀ l ∈ lines, IsLine l) : lines.flatMap split = lines := by
  induction lines with
  | nil => rfl
  | cons l lines ih =>
    rw [List.forall_mem_cons] at h
    rw [List.flatMap_cons, split_of_not_mem h.1.cr, ih h.2, List.singleton_append]

/-- A printed line may hold breaks of its own, and then it is more than one. -/
theorem tail_split_block (start : List UInt8) (lines : List (List UInt8)) (xs : List UInt8) :
    (split (block (start :: lines) ++ xs)).tail =
      (split start).tail ++ lines.flatMap split ++ split xs := by
  rw [split_block, List.flatMap_cons, List.append_assoc,
    List.tail_append_of_ne_nil (split_ne_nil start), List.append_assoc]

theorem values_printedLines (hrest : rest = body ∨ body = [] ∧ rest = crlf) (name : String) :
    values name (printedLines (frame (start :: lines) rest) body) =
      values name ((split start).tail ++ lines.flatMap split) := by
  rw [printedLines, frame]
  obtain rfl | ⟨rfl, rfl⟩ := hrest
  · rw [List.length_append, Nat.add_sub_cancel, List.take_left, tail_split_block, values_append]
    exact List.append_nil _
  · rw [List.length_nil, Nat.sub_zero, List.take_length, List.append_assoc, tail_split_block,
      values_append]
    exact List.append_nil _

theorem takeWhile_append_empty (ls ls' : List (List UInt8)) :
    (ls ++ [] :: ls').takeWhile (· ≠ []) = ls.takeWhile (· ≠ []) := by
  induction ls with
  | nil => rfl
  | cons l ls ih => simp only [List.cons_append, List.takeWhile_cons, ih]

theorem takeWhile_of_mem (h : [] ∈ lines) (ls : List (List UInt8)) :
    (lines ++ ls).takeWhile (· ≠ []) = lines.takeWhile (· ≠ []) := by
  obtain ⟨a, b, rfl⟩ := List.append_of_mem h
  rw [List.append_assoc, List.cons_append, takeWhile_append_empty, takeWhile_append_empty]

theorem takeWhile_of_not_mem (h : [] ∉ lines) (ls : List (List UInt8)) :
    (lines ++ ls).takeWhile (· ≠ []) = lines ++ ls.takeWhile (· ≠ []) := by
  refine List.takeWhile_append_of_pos fun l hl => ?_
  exact decide_eq_true (ne_of_mem_of_not_mem hl h)

theorem not_mem_of_isLine (h : ∀ l ∈ lines, IsLine l) : [] ∉ lines :=
  fun hmem => (h [] hmem).ne_nil rfl

theorem receivedLines_frame :
    receivedLines (frame (start :: lines) rest) =
      ((split start).tail ++ lines.flatMap split).takeWhile (· ≠ []) := by
  have hempty : split (crlf ++ rest) = [] :: split rest := split_append_crlf [] rest
  rw [receivedLines, frame, List.append_assoc, tail_split_block, hempty, takeWhile_append_empty]

end Lines

section Declares
variable {lines ps qs : List (List UInt8)} {body : List UInt8} {close : Bool}

theorem lengths_iff (vs : List (List UInt8)) (body : List UInt8) :
    ((vs ++ if body ≠ [] then [showNat body.length] else []).length ≤ 1 ∧
      (∀ v ∈ vs ++ if body ≠ [] then [showNat body.length] else [], v = showNat body.length) ∧
      (body ≠ [] → (vs ++ if body ≠ [] then [showNat body.length] else []) ≠ [])) ↔
    vs = [] ∨ body = [] ∧ vs = [ascii "0"] := by
  by_cases hbody : body = []
  · have hzero : showNat body.length = ascii "0" := by
      rw [hbody]
      decide
    rw [hzero, if_neg (not_not.mpr hbody), List.append_nil]
    rcases vs with - | ⟨v, - | ⟨v', vs⟩⟩
    · simp [hbody]
    · simp [hbody]
    · simp
  · rw [if_pos hbody, List.length_append, List.length_singleton]
    constructor
    · rintro ⟨hsingle, -⟩
      exact .inl (List.length_eq_zero_iff.mp (by omega))
    · rintro (rfl | ⟨hempty, -⟩)
      · simp
      · exact absurd hempty hbody

theorem connections_iff (vs vs' : List (List UInt8)) (c : List UInt8) :
    vs ++ ([c] ++ vs') = [c] ↔ vs ++ vs' = [] := by
  constructor
  · intro h
    have hlen := congrArg List.length h
    rw [List.length_append, List.length_append, List.length_singleton] at hlen
    rw [← List.length_eq_zero_iff, List.length_append]
    omega
  · intro h
    obtain ⟨rfl, rfl⟩ := List.append_eq_nil_iff.mp h
    rfl

theorem declares_iff (h : ∀ name, values name lines =
      values name (ps ++ ([connectionLine close] ++ (qs ++ lengthLines body)))) :
    Declares lines body close ↔ Quiet (ps ++ qs) body := by
  obtain ⟨hconnection, hno⟩ := values_connectionLine close
  obtain ⟨hno', hlength⟩ := values_lengthLines body
  have hconnections := h "connection"
  have hlengths := h "content-length"
  simp only [values_append, hconnection, hno', List.append_nil] at hconnections
  simp only [values_append, hno, hlength, List.append_nil, ← List.append_assoc] at hlengths
  have hsame := connections_iff (values "connection" ps) (values "connection" qs)
    (if close then ascii "close" else ascii "keep-alive")
  have hright := lengths_iff (values "content-length" ps ++ values "content-length" qs) body
  rw [← hconnections, ← values_append] at hsame
  rw [← hlengths, ← values_append] at hright
  constructor
  · intro hd
    exact ⟨hsame.mp hd.connection, hright.mp ⟨hd.single, hd.right, hd.present⟩⟩
  · intro hquiet
    obtain ⟨hsingle, hvalue, hpresent⟩ := hright.mpr hquiet.length
    exact ⟨hsingle, hvalue, hpresent, hsame.mpr hquiet.connection⟩

theorem Quiet.sublist {ls : List (List UInt8)} (h : Quiet lines []) (hsub : ls.Sublist lines) :
    Quiet ls [] := by
  have hconnection := values_sublist "connection" hsub
  have hlength := values_sublist "content-length" hsub
  rw [h.connection] at hconnection
  refine ⟨List.sublist_nil.mp hconnection, ?_⟩
  obtain hnone | ⟨-, hzero⟩ := h.length
  · rw [hnone] at hlength
    exact .inl (List.sublist_nil.mp hlength)
  · rw [hzero, List.sublist_singleton] at hlength
    exact hlength.imp_right fun hone => ⟨rfl, hone⟩

-- the reader loses what stands behind an empty line, and only a length may be missed
theorem declares_takeWhile_iff (h : Quiet (ps ++ qs) body) :
    Declares ((ps ++ ([connectionLine close] ++ (qs ++ lengthLines body))).takeWhile (· ≠ []))
      body close ↔ [] ∉ ps ∧ (body ≠ [] → [] ∉ qs) := by
  have hline : [] ∉ [connectionLine close] := by
    rw [List.mem_singleton]
    exact (isLine_connectionLine close).ne_nil.symm
  constructor
  · intro hd
    have hps : [] ∉ ps := by
      intro hmem
      have hfew := values_sublist "connection"
        ((List.takeWhile_sublist (l := ps) (· ≠ [])).trans (List.sublist_append_left ps qs))
      rw [h.connection, ← takeWhile_of_mem hmem, hd.connection] at hfew
      cases hfew
    refine ⟨hps, fun hbody hmem => ?_⟩
    have hnone := h.length.resolve_right fun hempty => hbody hempty.1
    have hfew := values_sublist "content-length"
      ((List.takeWhile_sublist (l := qs) (· ≠ [])).append_left ps)
    rw [hnone, List.sublist_nil, values_append] at hfew
    refine hd.present hbody ?_
    rw [takeWhile_of_not_mem hps, takeWhile_of_not_mem hline, takeWhile_of_mem hmem, values_append,
      values_append, (values_connectionLine close).2]
    exact hfew
  · rintro ⟨hps, hqs⟩
    rw [takeWhile_of_not_mem hps, takeWhile_of_not_mem hline]
    by_cases hbody : body = []
    · subst hbody
      refine (declares_iff fun name => ?_).mpr
        (h.sublist ((List.takeWhile_sublist (l := qs) (· ≠ [])).append_left ps))
      simp [lengthLines]
    · have hlast := takeWhile_of_not_mem (not_mem_of_isLine (isLine_lengthLines body)) []
      rw [takeWhile_of_not_mem (hqs hbody), ← List.append_nil (lengthLines body), hlast]
      refine (declares_iff fun name => ?_).mpr h
      simp

theorem declaresLength_iff {text : List UInt8}
    (hprinted : ∀ name, values name (printedLines text body) =
      values name (ps ++ ([connectionLine close] ++ (qs ++ lengthLines body))))
    (hreceived : receivedLines text =
      (ps ++ ([connectionLine close] ++ (qs ++ lengthLines body))).takeWhile (· ≠ [])) :
    DeclaresLength text body close ↔ Harmless ps qs body := by
  constructor
  · rintro ⟨hall, hread⟩
    have hquiet := (declares_iff hprinted).mp hall
    rw [hreceived, declares_takeWhile_iff hquiet] at hread
    exact ⟨hquiet, hread.1, hread.2⟩
  · rintro ⟨hquiet, hps, hqs⟩
    refine ⟨(declares_iff hprinted).mpr hquiet, ?_⟩
    rw [hreceived, declares_takeWhile_iff hquiet]
    exact ⟨hps, hqs⟩

end Declares

def HttpRequest.brokenStart (method : Option HttpMethod) (r : HttpRequest) : List (List UInt8) :=
  (split (r.startLine method)).tail

def HttpRequest.ownLines (r : HttpRequest) : List (List UInt8) :=
  (headerLines (ascii ":") r.headers).flatMap split

def HttpResponse.brokenStart (r : HttpResponse) : List (List UInt8) := (split r.statusLine).tail

def HttpResponse.ownLines (r : HttpResponse) : List (List UInt8) :=
  (headerLines (ascii ": ") r.headers).flatMap split

/-- A message declares its length and its connection once, and rightly, exactly if its own texts
are harmless. A response prints them all in front of the connection field. -/
theorem declares_length_iff (method : Option HttpMethod) (q : HttpRequest) (r : HttpResponse) :
    (DeclaresLength (q.dumpAs method) q.body q.close ↔
      Harmless (q.brokenStart method) q.ownLines q.body) ∧
    (DeclaresLength r.dump r.body r.close ↔
      Harmless (r.brokenStart ++ r.ownLines) [] r.body) := by
  have hconnection := fun close => split_of_not_mem (isLine_connectionLine close).cr
  have hlength := fun body => flatMap_split (isLine_lengthLines body)
  constructor
  · have hlines : (connectionLine q.close :: headerLines (ascii ":") q.headers ++
        lengthLines q.body).flatMap split =
        [connectionLine q.close] ++ (q.ownLines ++ lengthLines q.body) := by
      rw [List.flatMap_append, List.flatMap_cons, hconnection, hlength, List.append_assoc]
      rfl
    apply declaresLength_iff
    · intro name
      rw [HttpRequest.dumpAs_eq, values_printedLines (.inl rfl), hlines]
      rfl
    · rw [HttpRequest.dumpAs_eq, receivedLines_frame, hlines]
      rfl
  · have hlines : (headerLines (ascii ": ") r.headers ++
        connectionLine r.close :: lengthLines r.body).flatMap split =
        r.ownLines ++ ([connectionLine r.close] ++ ([] ++ lengthLines r.body)) := by
      rw [List.flatMap_append, List.flatMap_cons, hconnection, hlength]
      rfl
    have hrest : (if r.body ≠ [] then r.body else crlf) = r.body ∨
        r.body = [] ∧ (if r.body ≠ [] then r.body else crlf) = crlf := by
      by_cases hbody : r.body = []
      · exact .inr ⟨hbody, if_neg (not_not.mpr hbody)⟩
      · exact .inl (if_pos hbody)
    apply declaresLength_iff
    · intro name
      rw [HttpResponse.dump_eq, values_printedLines hrest, hlines, ← List.append_assoc]
      rfl
    · rw [HttpResponse.dump_eq, receivedLines_frame, hlines, ← List.append_assoc]
      rfl

def receivedHello : HttpRequest :=
  { HttpRequest.new with
    method := .POST
    headers := [(ascii "content-length", ascii "5")]
    body := ascii "hello" }

/-- A request that was received with its length declares it twice when it is printed. -/
theorem received_length_repeated :
    ((Session.new (requestMachine false) 0 fun _ => 0).recvRequest (requestMachine false) 3
        (fun _ => 0) (Wire.push (helloHead ++ ascii "hello") fun _ => .items [])).map
          (·.request) = some (some receivedHello) ∧
    values "content-length" (receivedLines receivedHello.dump) = [ascii "5", ascii "5"] ∧
    ¬DeclaresLength receivedHello.dump receivedHello.body receivedHello.close := by
  have htwice : values "content-length" (receivedLines receivedHello.dump) =
      [ascii "5", ascii "5"] := by decide +kernel
  refine ⟨by decide +kernel, htwice, fun h => ?_⟩
  have hsingle := h.received.single
  rw [htwice] at hsingle
  exact absurd hsingle (by decide)

section Plain
variable {name : String} {headers : List (List UInt8 × List UInt8)}

def lengthValues (headers : List (List UInt8 × List UInt8)) : List (List UInt8) :=
  (headers.filter fun h => foldKey h.1 = ascii "content-length").map (strip ·.2)

theorem values_map {sep : List UInt8} (hsep : ∀ v, strip (sep ++ v) = strip v)
    (hnames : ∀ h ∈ headers, 58 ∉ h.1 ∧ 0 ∉ h.1) :
    values name (headers.map fun h => h.1 ++ 58 :: sep ++ h.2) =
      (headers.filter fun h => foldKey h.1 = ascii name).map (strip ·.2) := by
  induction headers with
  | nil => rfl
  | cons h hs ih =>
    rw [List.forall_mem_cons] at hnames
    have hfold : foldKey h.1 = h.1.map toLower := by
      rw [foldKey, List.takeWhile_eq_self_iff.mpr]
      intro c hc
      exact decide_eq_true (ne_of_mem_of_not_mem hc hnames.1.2)
    have hline : fieldValue (ascii name) (h.1 ++ 58 :: sep ++ h.2) =
        if foldKey h.1 = ascii name then some (strip h.2) else none := by
      rw [List.append_assoc, List.cons_append, fieldValue_colon hnames.1.1, hsep, hfold]
    rw [values, List.map_cons, List.filterMap_cons, hline]
    by_cases hname : foldKey h.1 = ascii name
    · rw [if_pos hname, List.filter_cons_of_pos (by simpa using hname), List.map_cons,
        ← ih hnames.2]
      rfl
    · rw [if_neg hname, List.filter_cons_of_neg (by simpa using hname), ← ih hnames.2]
      rfl

theorem perm_lengthValues (headers : List (List UInt8 × List UInt8)) :
    (lengthValues (inOrder headers)).Perm (lengthValues headers) :=
  ((List.perm_insertionSort _ headers).filter _).map _

theorem values_headerLines (sep : List UInt8) (hsep : ∀ v, strip (sep ++ v) = strip v)
    (hnames : ∀ h ∈ headers, 58 ∉ h.1 ∧ 0 ∉ h.1) :
    values "connection" (headerLines (58 :: sep) headers) = [] ∧
      (values "content-length" (headerLines (58 :: sep) headers)).Perm (lengthValues headers) := by
  have hkept : ∀ h ∈ (inOrder headers).filter fun h => foldKey h.1 ≠ foldKey (ascii "connection"),
      58 ∉ h.1 ∧ 0 ∉ h.1 := by
    intro h hh
    exact hnames h ((List.perm_insertionSort _ headers).subset (List.mem_of_mem_filter hh))
  have hconnection : foldKey (ascii "connection") = ascii "connection" := by decide
  rw [headerLines, values_map hsep hkept, values_map hsep hkept, List.filter_filter,
    List.filter_filter, hconnection]
  constructor
  · rw [List.map_eq_nil_iff, List.filter_eq_nil_iff]
    intro h _
    simp
  · have hother : ascii "content-length" ≠ ascii "connection" := by decide
    have hsame : (inOrder headers).filter (fun h => decide (foldKey h.1 = ascii "content-length") &&
        decide (foldKey h.1 ≠ ascii "connection")) =
        (inOrder headers).filter fun h => foldKey h.1 = ascii "content-length" := by
      refine List.filter_congr fun h _ => ?_
      by_cases hname : foldKey h.1 = ascii "content-length"
      · simp [hname, hother]
      · simp [hname]
    rw [hsame]
    exact perm_lengthValues headers

theorem quiet_iff_of_perm {lines vs : List (List UInt8)} {body : List UInt8}
    (hconnection : values "connection" lines = [])
    (hperm : (values "content-length" lines).Perm vs) :
    Quiet lines body ↔ vs = [] ∨ body = [] ∧ vs = [ascii "0"] := by
  have hnil : values "content-length" lines = [] ↔ vs = [] := by
    rw [← List.perm_nil, hperm.congr_left, List.perm_nil]
  have hzero : values "content-length" lines = [ascii "0"] ↔ vs = [ascii "0"] := by
    rw [← List.perm_singleton, hperm.congr_left, List.perm_singleton]
  rw [← hnil, ← hzero]
  exact ⟨fun h => h.length, fun h => ⟨hconnection, h⟩⟩

theorem HttpRequest.harmless_iff (method : Option HttpMethod) {r : HttpRequest} (h : r.Clean)
    (hnames : ∀ x ∈ r.headers, 58 ∉ x.1 ∧ 0 ∉ x.1) :
    Harmless (r.brokenStart method) r.ownLines r.body ↔
      lengthValues r.headers = [] ∨ r.body = [] ∧ lengthValues r.headers = [ascii "0"] := by
  have hlines := isLine_headerLines (by decide) (by decide : noBreak (ascii ":")) h.headers
  obtain ⟨hconnection, hperm⟩ := values_headerLines [] (fun _ => rfl) hnames
  rw [brokenStart, ownLines, split_of_not_mem (isLine_startLine method h).cr, flatMap_split hlines,
    ← quiet_iff_of_perm hconnection hperm]
  exact ⟨fun hh => hh.quiet, fun hh => ⟨hh, List.not_mem_nil, fun _ => not_mem_of_isLine hlines⟩⟩

theorem HttpResponse.harmless_iff {r : HttpResponse} (h : r.Clean)
    (hnames : ∀ x ∈ r.headers, 58 ∉ x.1 ∧ 0 ∉ x.1) :
    Harmless (r.brokenStart ++ r.ownLines) [] r.body ↔
      lengthValues r.headers = [] ∨ r.body = [] ∧ lengthValues r.headers = [ascii "0"] := by
  have hlines := isLine_headerLines (by decide) (by decide : noBreak (ascii ": ")) h.headers
  obtain ⟨hconnection, hperm⟩ := values_headerLines [32] strip_blank hnames
  rw [brokenStart, ownLines, split_of_not_mem (isLine_statusLine h).cr, flatMap_split hlines,
    ← quiet_iff_of_perm hconnection hperm, List.tail_cons, List.nil_append]
  constructor
  · intro hh
    have hquiet := hh.quiet
    rwa [List.append_nil] at hquiet
  · intro hquiet
    refine ⟨?_, not_mem_of_isLine hlines, fun _ => List.not_mem_nil⟩
    rwa [List.append_nil]

end Plain
end ApexStorm.Http
