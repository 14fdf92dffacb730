import ApexStorm.Http.Parser

/-!
# Printing requests and responses

What `HttpRequest::dump` and `HttpResponse::dump` put on a stream. The headers are a
`std::map` ordered by `strcasecmp`, so they are printed in the order of their folded
names.
-/

namespace ApexStorm.Http

def showNat (n : ℕ) : List UInt8 := (Nat.toDigits 10 n).map fun c => c.toNat.toUInt8

def httpMethodToString (m : HttpMethod) : List UInt8 :=
  ((httpMethodMap.find? fun x => x.1 = m).map (·.2)).getD (ascii "<unknown>")

/-- The texts as the preprocessor makes them: a hyphen is spelt with blanks. -/
def httpStatusMap : List (ℕ × List UInt8) :=
  [(100, ascii "Continue"), (101, ascii "Switching Protocols"), (102, ascii "Processing"),
    (200, ascii "OK"), (201, ascii "Created"), (202, ascii "Accepted"),
    (203, ascii "Non - Authoritative Information"), (204, ascii "No Content"),
    (205, ascii "Reset Content"), (206, ascii "Partial Content"), (207, ascii "Multi - Status"),
    (208, ascii "Already Reported"), (226, ascii "IM Used"), (300, ascii "Multiple Choices"),
    (301, ascii "Moved Permanently"), (302, ascii "Found"), (303, ascii "See Other"),
    (304, ascii "Not Modified"), (305, ascii "Use Proxy"), (307, ascii "Temporary Redirect"),
    (308, ascii "Permanent Redirect"), (400, ascii "Bad Request"), (401, ascii "Unauthorized"),
    (402, ascii "Payment Required"), (403, ascii "Forbidden"), (404, ascii "Not Found"),
    (405, ascii "Method Not Allowed"), (406, ascii "Not Acceptable"),
    (407, ascii "Proxy Authentication Required"), (408, ascii "Request Timeout"),
    (409, ascii "Conflict"), (410, ascii "Gone"), (411, ascii "Length Required"),
    (412, ascii "Precondition Failed"), (413, ascii "Payload Too Large"),
    (414, ascii "URI Too Long"), (415, ascii "Unsupported Media Type"),
    (416, ascii "Range Not Satisfiable"), (417, ascii "Expectation Failed"),
    (421, ascii "Misdirected Request"), (422, ascii "Unprocessable Entity"), (423, ascii "Locked"),
    (424, ascii "Failed Dependency"), (426, ascii "Upgrade Required"),
    (428, ascii "Precondition Required"), (429, ascii "Too Many Requests"),
    (431, ascii "Request Header Fields Too Large"), (451, ascii "Unavailable For Legal Reasons"),
    (500, ascii "Internal Server Error"), (501, ascii "Not Implemented"),
    (502, ascii "Bad Gateway"), (503, ascii "Service Unavailable"),
    (504, ascii "Gateway Timeout"), (505, ascii "HTTP Version Not Supported"),
    (506, ascii "Variant Also Negotiates"), (507, ascii "Insufficient Storage"),
    (508, ascii "Loop Detected"), (510, ascii "Not Extended"),
    (511, ascii "Network Authentication Required")]

/-- `setStatus` stores any number, so a status is its code. -/
def httpStatusToString (status : ℕ) : List UInt8 :=
  ((httpStatusMap.find? fun x => x.1 = status).map (·.2)).getD (ascii "<unknown>")

structure HttpResponse where
  status : ℕ
  version : UInt8
  close : Bool
  body : List UInt8
  reason : List UInt8
  headers : List (List UInt8 × List UInt8)
  deriving DecidableEq, Repr

def HttpResponse.new (version : UInt8) (close : Bool) : HttpResponse :=
  ⟨200, version, close, [], [], []⟩

/-- The order in which the map is traversed. -/
def inOrder (headers : List (List UInt8 × List UInt8)) : List (List UInt8 × List UInt8) :=
  headers.insertionSort fun a b => foldKey a.1 ≤ foldKey b.1

def showVersion (version : UInt8) : List UInt8 :=
  ascii "HTTP/" ++ showNat (version >>> 4).toNat ++ ascii "." ++ showNat (version &&& 0x0F).toNat

def showConnection (close : Bool) : List UInt8 :=
  ascii "connection: " ++ (if close then ascii "close" else ascii "keep-alive") ++ ascii "\r\n"

/-- One line; a header named `connection` has been printed on its own. -/
def showHeader (sep : List UInt8) (h : List UInt8 × List UInt8) : List UInt8 :=
  if foldKey h.1 = foldKey (ascii "connection") then [] else h.1 ++ sep ++ h.2 ++ ascii "\r\n"

def showBody (body : List UInt8) : List UInt8 :=
  ascii "content-length: " ++ showNat body.length ++ ascii "\r\n\r\n" ++ body

def HttpRequest.dump (r : HttpRequest) : List UInt8 :=
  httpMethodToString r.method ++ ascii " " ++ r.path ++
    (if r.query = [] then [] else ascii "?") ++ r.query ++
    (if r.fragment = [] then [] else ascii "#") ++ r.fragment ++
    ascii " " ++ showVersion r.version ++ ascii "\r\n" ++
    showConnection r.close ++ (inOrder r.headers).flatMap (showHeader (ascii ":")) ++
    if r.body ≠ [] then showBody r.body else ascii "\r\n"

def HttpResponse.dump (r : HttpResponse) : List UInt8 :=
  showVersion r.version ++ ascii " " ++ showNat r.status ++ ascii " " ++
    (if r.reason = [] then httpStatusToString r.status else r.reason) ++ ascii "\r\n" ++
    (inOrder r.headers).flatMap (showHeader (ascii ": ")) ++ showConnection r.close ++
    if r.body ≠ [] then showBody r.body else ascii "\r\n\r\n"

example : ({ HttpResponse.new 0x11 true with body := ascii "hi" }).dump =
    ascii "HTTP/1.1 200 OK\r\nconnection: close\r\ncontent-length: 2\r\n\r\nhi" := by
  decide +kernel

end ApexStorm.Http
