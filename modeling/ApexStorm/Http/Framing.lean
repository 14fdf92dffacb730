import ApexStorm.Lib.Lines
import ApexStorm.Http.Print

/-!
# The frame of a printed message

A printed message is a block of lines, an empty line and a body. Requests have exactly
this frame. A response without a body has one empty line too many, which belongs to the
next message.
-/

namespace ApexStorm.Http
open Lib Lines

/-- `HttpMethodToString` of any method; the method of `none` is `HIT_INVALID_METHOD`. -/
def methodText : Option HttpMethod → List UInt8
  | some m => httpMethodToString m
  | none => ascii "<unknown>"

def HttpRequest.dumpAs (method : Option HttpMethod) (r : HttpRequest) : List UInt8 :=
  methodText method ++ ascii " " ++ r.path ++
    (if r.query = [] then [] else ascii "?") ++ r.query ++
    (if r.fragment = [] then [] else ascii "#") ++ r.fragment ++
    ascii " " ++ showVersion r.version ++ ascii "\r\n" ++
    showConnection r.close ++ (inOrder r.headers).flatMap (showHeader (ascii ":")) ++
    if r.body ≠ [] then showBody r.body else ascii "\r\n"

theorem HttpRequest.dumpAs_method (r : HttpRequest) : r.dumpAs (some r.method) = r.dump := rfl

def noBreak (xs : List UInt8) : Prop := 13 ∉ xs ∧ 10 ∉ xs

structure HttpRequest.Clean (r : HttpRequest) : Prop where
  path : noBreak r.path
  query : noBreak r.query
  fragment : noBreak r.fragment
  headers : ∀ h ∈ r.headers, noBreak h.1 ∧ noBreak h.2

structure HttpResponse.Clean (r : HttpResponse) : Prop where
  reason : noBreak r.reason
  headers : ∀ h ∈ r.headers, noBreak h.1 ∧ noBreak h.2

section Lines
variable {xs ys : List UInt8}

instance (xs : List UInt8) : Decidable (noBreak xs) := inferInstanceAs (Decidable (_ ∧ _))

theorem noBreak.append (hxs : noBreak xs) (hys : noBreak ys) : noBreak (xs ++ ys) :=
  ⟨List.not_mem_append hxs.1 hys.1, List.not_mem_append hxs.2 hys.2⟩

theorem noBreak_showNat (n : ℕ) : noBreak (showNat n) := by
  have hbyte : ∀ c ∈ showNat n, 32 ≤ c := by
    intro c hc
    simpa [valueByte] using (Bool.and_eq_true_iff.mp (showNat_byte c hc).1).1
  exact ⟨fun h => absurd (hbyte 13 h) (by decide), fun h => absurd (hbyte 10 h) (by decide)⟩

theorem noBreak_showVersion (v : UInt8) : noBreak (showVersion v) :=
  (((by decide : noBreak (ascii "HTTP/")).append (noBreak_showNat _)).append
    (by decide : noBreak (ascii "."))).append (noBreak_showNat _)

theorem noBreak_ite {p : Prop} [Decidable p] (hxs : noBreak xs) (hys : noBreak ys) :
    noBreak (if p then xs else ys) := by
  split_ifs
  · exact hxs
  · exact hys

theorem noBreak_of_all (h : (xs.all fun c => c != 13 && c != 10) = true) : noBreak xs := by
  rw [List.all_eq_true] at h
  exact ⟨fun hcr => absurd (h 13 hcr) (by decide), fun hlf => absurd (h 10 hlf) (by decide)⟩

theorem noBreak_methodText (m : Option HttpMethod) : noBreak (methodText m) := by
  cases m with
  | none => decide
  | some m =>
    have htable : ∀ x ∈ httpMethodMap, (x.2.all fun c => c != 13 && c != 10) = true := by
      decide +kernel
    exact noBreak_of_all (htable _ (mem_httpMethodMap m))

theorem noBreak_httpStatusToString (status : ℕ) : noBreak (httpStatusToString status) := by
  have htable : ∀ x ∈ httpStatusMap, (x.2.all fun c => c != 13 && c != 10) = true := by
    decide +kernel
  rw [httpStatusToString]
  cases hfind : httpStatusMap.find? fun x => x.1 = status with
  | none => exact (by decide : noBreak (ascii "<unknown>"))
  | some x => exact noBreak_of_all (htable x (List.mem_of_find?_eq_some hfind))

def connectionLine (close : Bool) : List UInt8 :=
  ascii "connection: " ++ if close then ascii "close" else ascii "keep-alive"

theorem isLine_connectionLine (close : Bool) : IsLine (connectionLine close) := by
  cases close <;> exact ⟨by decide, by decide, by decide⟩

theorem showConnection_eq (close : Bool) : showConnection close = connectionLine close ++ crlf := by
  cases close <;> rfl

def headerLines (sep : List UInt8) (headers : List (List UInt8 × List UInt8)) :
    List (List UInt8) :=
  ((inOrder headers).filter fun h => foldKey h.1 ≠ foldKey (ascii "connection")).map fun h =>
    h.1 ++ sep ++ h.2

theorem showHeader_eq (sep : List UInt8) (hs : List (List UInt8 × List UInt8)) :
    hs.flatMap (showHeader sep) =
      block ((hs.filter fun h => foldKey h.1 ≠ foldKey (ascii "connection")).map fun h =>
        h.1 ++ sep ++ h.2) := by
  induction hs with
  | nil => rfl
  | cons h hs ih =>
    rw [List.flatMap_cons, ih, showHeader]
    by_cases hkey : foldKey h.1 = foldKey (ascii "connection")
    · simp [hkey]
    · simp [hkey]
      rfl

theorem isLine_headerLines {sep : List UInt8} (hne : sep ≠ []) (hsep : noBreak sep)
    {headers : List (List UInt8 × List UInt8)}
    (hheaders : ∀ h ∈ headers, noBreak h.1 ∧ noBreak h.2) :
    ∀ l ∈ headerLines sep headers, IsLine l := by
  intro l hl
  obtain ⟨h, hh, rfl⟩ := List.mem_map.mp hl
  have hmem : h ∈ headers := (List.perm_insertionSort _ headers).subset (List.mem_of_mem_filter hh)
  obtain ⟨hname, hvalue⟩ := hheaders h hmem
  exact .append (by simp [hne]) (hname.append hsep) hvalue

def lengthLines (body : List UInt8) : List (List UInt8) :=
  if body ≠ [] then [ascii "content-length: " ++ showNat body.length] else []

theorem isLine_lengthLines (body : List UInt8) : ∀ l ∈ lengthLines body, IsLine l := by
  intro l hl
  rw [lengthLines] at hl
  split_ifs at hl
  · obtain rfl := List.mem_singleton.mp hl
    exact .append (by simp [ascii]) (by decide : noBreak (ascii "content-length: "))
      (noBreak_showNat _)
  · cases hl

theorem showBody_eq (body blank : List UInt8) :
    (if body ≠ [] then showBody body else crlf ++ blank) =
      block (lengthLines body) ++ crlf ++ if body ≠ [] then body else blank := by
  by_cases hbody : body = []
  · simp [hbody, lengthLines, block]
  · simp [hbody, lengthLines, showBody]
    rfl

end Lines

namespace HttpRequest

def startLine (method : Option HttpMethod) (r : HttpRequest) : List UInt8 :=
  methodText method ++ ascii " " ++ r.path ++
    (if r.query = [] then [] else ascii "?") ++ r.query ++
    (if r.fragment = [] then [] else ascii "#") ++ r.fragment ++ ascii " " ++ showVersion r.version

theorem isLine_startLine (method : Option HttpMethod) {r : HttpRequest} (h : r.Clean) :
    IsLine (r.startLine method) := by
  have hmark : ∀ (p : Prop) [Decidable p] (s : String), noBreak (ascii s) →
      noBreak (if p then [] else ascii s) := fun p _ s hs => noBreak_ite (by decide) hs
  have hpath := ((noBreak_methodText method).append (by decide : noBreak (ascii " "))).append h.path
  have hquery := (hpath.append (hmark (r.query = []) "?" (by decide))).append h.query
  have hfragment := (hquery.append (hmark (r.fragment = []) "#" (by decide))).append h.fragment
  exact .append (by simp [showVersion, ascii])
    (hfragment.append (by decide : noBreak (ascii " "))) (noBreak_showVersion r.version)

theorem dumpAs_eq (method : Option HttpMethod) (r : HttpRequest) :
    r.dumpAs method = frame (r.startLine method ::
      (connectionLine r.close :: headerLines (ascii ":") r.headers ++ lengthLines r.body))
        r.body := by
  have hsame : (if r.body ≠ [] then r.body else []) = r.body :=
    ite_eq_left_iff.mpr fun h => (not_not.mp h).symm
  have hbody := showBody_eq r.body []
  rw [List.append_nil, hsame] at hbody
  have htext : r.dumpAs method = r.startLine method ++ crlf ++ showConnection r.close ++
      (inOrder r.headers).flatMap (showHeader (ascii ":")) ++
        if r.body ≠ [] then showBody r.body else crlf := rfl
  rw [htext, hbody, showConnection_eq, showHeader_eq]
  simp [frame, headerLines]

theorem framed_dumpAs (method : Option HttpMethod) {r : HttpRequest} (h : r.Clean) :
    Framed (r.dumpAs method) r.body := by
  refine ⟨_, _, isLine_startLine method h, ?_, dumpAs_eq method r⟩
  rw [List.forall_mem_append, List.forall_mem_cons]
  exact ⟨⟨isLine_connectionLine _, isLine_headerLines (by decide) (by decide) h.headers⟩,
    isLine_lengthLines r.body⟩

end HttpRequest

namespace HttpResponse

def statusLine (r : HttpResponse) : List UInt8 :=
  showVersion r.version ++ ascii " " ++ showNat r.status ++ ascii " " ++
    if r.reason = [] then httpStatusToString r.status else r.reason

theorem isLine_statusLine {r : HttpResponse} (h : r.Clean) : IsLine r.statusLine := by
  have hversion := (noBreak_showVersion r.version).append (by decide : noBreak (ascii " "))
  have hstatus := (hversion.append (noBreak_showNat r.status)).append
    (by decide : noBreak (ascii " "))
  exact .append (by simp [showVersion, ascii]) hstatus
    (noBreak_ite (noBreak_httpStatusToString r.status) h.reason)

-- behind the empty line of an empty body stands a second one
theorem dump_eq (r : HttpResponse) :
    r.dump = frame (r.statusLine ::
      (headerLines (ascii ": ") r.headers ++ connectionLine r.close :: lengthLines r.body))
        (if r.body ≠ [] then r.body else crlf) := by
  have htext : r.dump = r.statusLine ++ crlf ++
      (inOrder r.headers).flatMap (showHeader (ascii ": ")) ++ showConnection r.close ++
        if r.body ≠ [] then showBody r.body else crlf ++ crlf := rfl
  rw [htext, showBody_eq, showConnection_eq, showHeader_eq]
  simp [frame, headerLines]

theorem framed_dump {r : HttpResponse} (h : r.Clean) :
    Framed r.dump (if r.body ≠ [] then r.body else crlf) := by
  refine ⟨_, _, isLine_statusLine h, ?_, dump_eq r⟩
  rw [List.forall_mem_append, List.forall_mem_cons]
  exact ⟨isLine_headerLines (by decide) (by decide) h.headers, isLine_connectionLine _,
    isLine_lengthLines r.body⟩

end HttpResponse

/-- The text is a frame of the body, and the body is all that follows the first empty line. -/
def FramesExactly (text body : List UInt8) : Prop :=
  Framed text body ∧ afterBlank text = some body

/-- Requests are framed exactly, whatever their method; responses are if they have a body. -/
theorem dump_frames_exactly_iff (method : Option HttpMethod) (q : HttpRequest) (hq : q.Clean)
    (r : HttpResponse) (hr : r.Clean) :
    FramesExactly (q.dumpAs method) q.body ∧ (FramesExactly r.dump r.body ↔ r.body ≠ []) := by
  have hrequest := HttpRequest.framed_dumpAs method hq
  have hresponse := HttpResponse.framed_dump hr
  refine ⟨⟨hrequest, hrequest.afterBlank_eq⟩, ?_⟩
  constructor
  · rintro ⟨-, hafter⟩ hbody
    rw [hresponse.afterBlank_eq, if_neg (not_not.mpr hbody), hbody] at hafter
    exact absurd hafter (by decide)
  · intro hbody
    rw [if_pos hbody] at hresponse
    exact ⟨hresponse, hresponse.afterBlank_eq⟩

def samplePost : HttpRequest :=
  { HttpRequest.new with
    method := .POST
    path := ascii "/form"
    query := ascii "id=7"
    headers := [(ascii "Host", ascii "apexstorm"), (ascii "Accept", [])]
    body := ascii "a\r\n\r\nb" }

def sampleAnswer : HttpResponse :=
  { HttpResponse.new 0x11 true with
    headers := [(ascii "Server", ascii "apexstorm")]
    body := ascii "hi" }

-- The body of the request has an empty line of its own.
theorem dump_frames_exactly_iff_hi :
    FramesExactly samplePost.dump (ascii "a\r\n\r\nb") ∧
      FramesExactly sampleAnswer.dump (ascii "hi") := by
  have hpost : samplePost.Clean := ⟨by decide, by decide, by decide, by decide⟩
  have hanswer : sampleAnswer.Clean := ⟨by decide, by decide⟩
  obtain ⟨hq, hr⟩ := dump_frames_exactly_iff (some .POST) samplePost hpost sampleAnswer hanswer
  exact ⟨samplePost.dumpAs_method ▸ hq, hr.mpr (by decide)⟩

/-- The default response of a server has no body. -/
theorem empty_response_adds_line :
    afterBlank (HttpResponse.new 0x11 true).dump = some crlf ∧
      ¬FramesExactly (HttpResponse.new 0x11 true).dump (HttpResponse.new 0x11 true).body := by
  have hafter : afterBlank (HttpResponse.new 0x11 true).dump = some crlf := by decide +kernel
  refine ⟨hafter, fun h => ?_⟩
  rw [h.2] at hafter
  exact absurd hafter (by decide)

end ApexStorm.Http
