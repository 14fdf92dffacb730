import ApexStorm.Http.Body
import ApexStorm.Http.Message

/-!
# The loop of the HTTP server

`handleClient` answers one request after the other. The response says what `m_close` of
the request says, and no callback of the parser ever changes the `true` that the
constructor gave it; the loop goes by the option of the server alone.
-/

namespace ApexStorm.Http
open Lib

/-- What a client sees of the server: a call of `recvRequest`, its result, a response, the end. -/
inductive Event
  | receive
  | request (q : HttpRequest)
  | response (text : List UInt8)
  | close
  deriving DecidableEq, Repr

structure Env where
  queryStart : ℕ
  data : Memory
  spare : Memory

section Server
variable [LexicalCast] {σ : Type} (A : Automaton σ)

/-- The loop, for as many rounds as there are environments. An exception ends the fiber. -/
def handleClient (keepalive : Bool) (fuel : ℕ) : List Env → Wire UInt8 → List Event
  | [], _ => [.receive]
  | e :: es, w =>
    .receive :: match (Session.new A e.queryStart e.data).recvRequest A fuel e.spare w with
    | none => []
    | some r =>
      match r.request with
      | none => [.close]
      | some q =>
        let rsp := { HttpResponse.new q.version (q.close || !keepalive) with
          body := ascii "hello apexstorm" }
        .request q :: .response rsp.dump ::
          if keepalive then handleClient keepalive fuel es r.rest else [.close]

end Server

def HttpRequest.asksClose (q : HttpRequest) : Bool :=
  (q.getHeader (ascii "connection")).map foldKey = some (ascii "close")

def SaysClose (text : List UInt8) : Prop := ascii "\r\nconnection: close\r\n" <:+: text

/-- A response says that the connection is closed exactly when that comes next, and it comes next
when the request has asked for it. -/
def Truthful : List Event → Prop
  | .request q :: .response text :: es =>
    (SaysClose text ↔ es.head? = some .close) ∧ (q.asksClose = true → es.head? = some .close) ∧
      Truthful es
  | _ :: es => Truthful es
  | [] => True

section Truth
variable [LexicalCast] {σ : Type} {A : Automaton σ} {keepalive : Bool} {fuel : ℕ} {w : Wire UInt8}

/-- No request that is received has `m_close` cleared, whatever its headers say. -/
theorem close_of_recvRequest {queryStart : ℕ} {data spare : Memory} {r : Received} {q : HttpRequest}
    (h : (Session.new A queryStart data).recvRequest A fuel spare w = some r)
    (hq : r.request = some q) : q.close = true := by
  obtain ⟨⟨status, s, w'⟩, hloop, h⟩ := Option.bind_eq_some_iff.mp h
  dsimp only at h
  split_ifs at h with hstatus
  · subst hstatus
    obtain ⟨body, rfl⟩ := recvBody_request h hq
    exact (((Buffered.new queryStart data).recvLoop hloop).resolve_left nofun).rest.2
  · cases h
    cases hq

omit [LexicalCast] in
theorem says_close (version : UInt8) (body : List UInt8) :
    SaysClose ({ HttpResponse.new version true with body := body }).dump := by
  have hline : ascii "\r\nconnection: close\r\n" = ascii "\r\n" ++ showConnection true := by
    decide +kernel
  refine ⟨showVersion version ++ ascii " " ++ showNat 200 ++ ascii " " ++ httpStatusToString 200,
    if body ≠ [] then showBody body else ascii "\r\n\r\n", ?_⟩
  rw [hline]
  simp [HttpResponse.dump, HttpResponse.new, inOrder]

/-- The connection header tells the truth exactly when the option is off or there is no request to
answer. -/
theorem truthful_iff_keepalive_off (A : Automaton σ) (keepalive : Bool) (e : Env) (w : Wire UInt8) :
    (∀ fuel es, Truthful (handleClient A keepalive fuel (e :: es) w)) ↔
      keepalive = false ∨ ∀ fuel r,
        (Session.new A e.queryStart e.data).recvRequest A fuel e.spare w = some r →
          r.request = none := by
  constructor
  · intro h
    by_contra hcon
    simp only [not_or, Bool.not_eq_false, not_forall] at hcon
    obtain ⟨rfl, fuel, r, hr, hsome⟩ := hcon
    obtain ⟨q, hq⟩ := Option.ne_none_iff_exists'.mp hsome
    have htrue := h fuel []
    simp only [handleClient, hr, hq, close_of_recvRequest hr hq, Bool.true_or, if_true,
      Truthful] at htrue
    have hnext := htrue.1.mp (says_close _ _)
    cases hnext
  · intro h fuel es
    cases hr : (Session.new A e.queryStart e.data).recvRequest A fuel e.spare w with
    | none => simp [handleClient, hr, Truthful]
    | some r =>
      cases hq : r.request with
      | none => simp [handleClient, hr, hq, Truthful]
      | some q =>
        have hoff := h.resolve_right fun hnone => by simp [hnone fuel r hr] at hq
        subst hoff
        simp only [handleClient, hr, hq, Bool.not_false, Bool.or_true, Bool.false_eq_true, if_false,
          Truthful, List.head?_cons, implies_true, and_true, iff_true]
        exact says_close _ _

end Truth

def askKeepAlive : Wire UInt8 :=
  Wire.push (ascii "GET / HTTP/1.1\r\nconnection: keep-alive\r\n\r\n") fun _ => .items []

/-- The response says `close`, and the server goes on to read. -/
theorem said_close_read_on :
    handleClient (requestMachine false) true 2 [⟨0, fun _ => 0, fun _ => 0⟩] askKeepAlive =
      [.receive, .request ⟨.GET, 0x11, true, ascii "/", [], [],
          [(ascii "connection", ascii "keep-alive")], []⟩,
        .response (ascii ("HTTP/1.1 200 OK\r\nconnection: close\r\n" ++
          "content-length: 15\r\n\r\nhello apexstorm")), .receive] ∧
    ¬ Truthful
      (handleClient (requestMachine false) true 2 [⟨0, fun _ => 0, fun _ => 0⟩] askKeepAlive) := by
  have htrace : handleClient (requestMachine false) true 2 [⟨0, fun _ => 0, fun _ => 0⟩]
      askKeepAlive =
      [.receive, .request ⟨.GET, 0x11, true, ascii "/", [], [],
          [(ascii "connection", ascii "keep-alive")], []⟩,
        .response (ascii ("HTTP/1.1 200 OK\r\nconnection: close\r\n" ++
          "content-length: 15\r\n\r\nhello apexstorm")), .receive] := by decide +kernel
  refine ⟨htrace, ?_⟩
  rw [htrace]
  intro h
  simp only [Truthful] at h
  have hnext := h.1.mp ⟨ascii "HTTP/1.1 200 OK",
    ascii "content-length: 15\r\n\r\nhello apexstorm", by decide +kernel⟩
  cases hnext

end ApexStorm.Http
