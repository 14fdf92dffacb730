import ApexStorm.Http.ClientPrint
import ApexStorm.Http.Print
import ApexStorm.Http.Server

/-!
# A client and the server

A client prints requests onto the connection, the server receives each of them, answers
it, and the client parses the answer. For requests that fit the buffer of the server and
arrive one at a time, what each side reads is what the other side has printed.
-/

namespace ApexStorm.Http
open Lib

/-- The request as the server sees it; it has the headers that were printed. -/
def HttpRequest.received (r : HttpRequest) : HttpRequest := { parsedHead r with body := r.body }

/-- The response of `HttpServer::handleClient`. -/
def HttpRequest.answer (r : HttpRequest) : HttpResponse :=
  { HttpResponse.new r.version true with body := ascii "hello apexstorm" }

section receive
variable {relaxed : Bool} {r : HttpRequest} {w : Wire UInt8}

variable [LexicalCast]

end receive

section serve
variable [LexicalCast] {relaxed : Bool} {r : HttpRequest} {w : Wire UInt8}

end serve

end ApexStorm.Http
