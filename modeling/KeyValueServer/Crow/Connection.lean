import KeyValueServer.Crow.Router
import KeyValueServer.Text.HttpHead

/-!
# A connection

A connection has one response, which every request fills again.  The handler of a request assigns it, or only its code,
or names a file; `end` completes it, and the connection sends the head and what belongs behind it.

Small bodies are written asynchronously: the response is cleared when the write is done, and until then it stays
completed.  Large bodies and files are written at once, and the response is cleared at once.

Requests for which the connection does something else have no place here (`Request.plain`).  The parser, timeouts and
failing writes are left out, and so are middlewares, of which the server has none.
-/

namespace KeyValueServer

namespace Crow

/-! ### Headers -/

/-- `ci_map`, in the order of insertion. -/
abbrev Headers := List (Bytes × Bytes)

def iequals (l r : Bytes) : Bool := l.map Text.toLower = r.map Text.toLower

namespace Headers

def count (headers : Headers) (key : Bytes) : Nat := headers.countP (iequals ·.1 key)

def erase (headers : Headers) (key : Bytes) : Headers := headers.filter (!iequals ·.1 key)

def emplace (headers : Headers) (key value : Bytes) : Headers := headers ++ [(key, value)]

/-- `get_header_value`. -/
def value (headers : Headers) (key : Bytes) : Bytes := ((headers.find? (iequals ·.1 key)).map Prod.snd).getD []

end Headers

/-! ### Requests -/

/-- A request as the parser hands it over: the value of a header ends before the line does.  `CONNECT` and `Upgrade` ask
for another protocol, `Expect` may ask for a reply before the body. -/
structure Request where
  method : HTTPMethod
  url : Bytes
  headers : Headers
  body : Bytes
  version : Nat × Nat
  keepAliveFlag : Bool
  closeFlag : Bool
  oneLine : ∀ header ∈ headers, 10 ∉ header.2
  plain : method ≠ .connect ∧ headers.count (ascii "upgrade") = 0 ∧ headers.count (ascii "expect") = 0

namespace Request

/-- `set_connection_parameters`. -/
def keepAlive (req : Request) : Bool :=
  if req.version = (1, 0) then req.keepAliveFlag else req.version = (1, 1)

def closeConnection (req : Request) : Bool :=
  if req.version = (1, 0) then !req.keepAliveFlag else if req.version = (1, 1) then req.closeFlag else false

/-- A request of HTTP/1.1 has to name the host. -/
def isInvalid (req : Request) : Bool := req.version = (1, 1) && req.headers.count (ascii "host") = 0

end Request

/-! ### Responses -/

/-- The lines of `statusCodes`, without their ends. -/
def statusCodes : List (Nat × Bytes) :=
  [(100, ascii "HTTP/1.1 100 Continue"), (101, ascii "HTTP/1.1 101 Switching Protocols"),
    (200, ascii "HTTP/1.1 200 OK"), (201, ascii "HTTP/1.1 201 Created"), (202, ascii "HTTP/1.1 202 Accepted"),
    (203, ascii "HTTP/1.1 203 Non-Authoritative Information"), (204, ascii "HTTP/1.1 204 No Content"),
    (205, ascii "HTTP/1.1 205 Reset Content"), (206, ascii "HTTP/1.1 206 Partial Content"),
    (300, ascii "HTTP/1.1 300 Multiple Choices"), (301, ascii "HTTP/1.1 301 Moved Permanently"),
    (302, ascii "HTTP/1.1 302 Found"), (303, ascii "HTTP/1.1 303 See Other"), (304, ascii "HTTP/1.1 304 Not Modified"),
    (307, ascii "HTTP/1.1 307 Temporary Redirect"), (308, ascii "HTTP/1.1 308 Permanent Redirect"),
    (400, ascii "HTTP/1.1 400 Bad Request"), (401, ascii "HTTP/1.1 401 Unauthorized"),
    (403, ascii "HTTP/1.1 403 Forbidden"), (404, ascii "HTTP/1.1 404 Not Found"),
    (405, ascii "HTTP/1.1 405 Method Not Allowed"), (407, ascii "HTTP/1.1 407 Proxy Authentication Required"),
    (409, ascii "HTTP/1.1 409 Conflict"), (410, ascii "HTTP/1.1 410 Gone"),
    (413, ascii "HTTP/1.1 413 Payload Too Large"), (415, ascii "HTTP/1.1 415 Unsupported Media Type"),
    (416, ascii "HTTP/1.1 416 Range Not Satisfiable"), (417, ascii "HTTP/1.1 417 Expectation Failed"),
    (428, ascii "HTTP/1.1 428 Precondition Required"), (429, ascii "HTTP/1.1 429 Too Many Requests"),
    (451, ascii "HTTP/1.1 451 Unavailable For Legal Reasons"), (500, ascii "HTTP/1.1 500 Internal Server Error"),
    (501, ascii "HTTP/1.1 501 Not Implemented"), (502, ascii "HTTP/1.1 502 Bad Gateway"),
    (503, ascii "HTTP/1.1 503 Service Unavailable"), (504, ascii "HTTP/1.1 504 Gateway Timeout"),
    (506, ascii "HTTP/1.1 506 Variant Also Negotiates")]

def mimeTypes : List (Bytes × Bytes) :=
  [(ascii "shtml", ascii "text/html"), (ascii "htm", ascii "text/html"), (ascii "html", ascii "text/html"),
    (ascii "css", ascii "text/css"), (ascii "xml", ascii "text/xml"), (ascii "gif", ascii "image/gif"),
    (ascii "jpg", ascii "image/jpeg"), (ascii "jpeg", ascii "image/jpeg"), (ascii "js", ascii "application/javascript"),
    (ascii "atom", ascii "application/atom+xml"), (ascii "rss", ascii "application/rss+xml"),
    (ascii "mml", ascii "text/mathml"), (ascii "txt", ascii "text/plain"),
    (ascii "jad", ascii "text/vnd.sun.j2me.app-descriptor"), (ascii "wml", ascii "text/vnd.wap.wml"),
    (ascii "htc", ascii "text/x-component"), (ascii "avif", ascii "image/avif"), (ascii "png", ascii "image/png"),
    (ascii "svgz", ascii "image/svg+xml"), (ascii "svg", ascii "image/svg+xml"), (ascii "tiff", ascii "image/tiff"),
    (ascii "tif", ascii "image/tiff"), (ascii "wbmp", ascii "image/vnd.wap.wbmp"), (ascii "webp", ascii "image/webp"),
    (ascii "ico", ascii "image/x-icon"), (ascii "jng", ascii "image/x-jng"), (ascii "bmp", ascii "image/x-ms-bmp"),
    (ascii "woff", ascii "font/woff"), (ascii "woff2", ascii "font/woff2"),
    (ascii "ear", ascii "application/java-archive"), (ascii "war", ascii "application/java-archive"),
    (ascii "jar", ascii "application/java-archive"), (ascii "json", ascii "application/json"),
    (ascii "hqx", ascii "application/mac-binhex40"), (ascii "doc", ascii "application/msword"),
    (ascii "pdf", ascii "application/pdf"), (ascii "ai", ascii "application/postscript"),
    (ascii "eps", ascii "application/postscript"), (ascii "ps", ascii "application/postscript"),
    (ascii "rtf", ascii "application/rtf"), (ascii "m3u8", ascii "application/vnd.apple.mpegurl"),
    (ascii "kml", ascii "application/vnd.google-earth.kml+xml"),
    (ascii "kmz", ascii "application/vnd.google-earth.kmz"), (ascii "xls", ascii "application/vnd.ms-excel"),
    (ascii "eot", ascii "application/vnd.ms-fontobject"), (ascii "ppt", ascii "application/vnd.ms-powerpoint"),
    (ascii "odg", ascii "application/vnd.oasis.opendocument.graphics"),
    (ascii "odp", ascii "application/vnd.oasis.opendocument.presentation"),
    (ascii "ods", ascii "application/vnd.oasis.opendocument.spreadsheet"),
    (ascii "odt", ascii "application/vnd.oasis.opendocument.text"),
    (ascii "pptx", ascii "application/vnd.openxmlformats-officedocument.presentationml.presentation"),
    (ascii "xlsx", ascii "application/vnd.openxmlformats-officedocument.spreadsheetml.sheet"),
    (ascii "docx", ascii "application/vnd.openxmlformats-officedocument.wordprocessingml.document"),
    (ascii "wmlc", ascii "application/vnd.wap.wmlc"), (ascii "wasm", ascii "application/wasm"),
    (ascii "7z", ascii "application/x-7z-compressed"), (ascii "cco", ascii "application/x-cocoa"),
    (ascii "jardiff", ascii "application/x-java-archive-diff"), (ascii "jnlp", ascii "application/x-java-jnlp-file"),
    (ascii "run", ascii "application/x-makeself"), (ascii "pm", ascii "application/x-perl"),
    (ascii "pl", ascii "application/x-perl"), (ascii "pdb", ascii "application/x-pilot"),
    (ascii "prc", ascii "application/x-pilot"), (ascii "rar", ascii "application/x-rar-compressed"),
    (ascii "rpm", ascii "application/x-redhat-package-manager"), (ascii "sea", ascii "application/x-sea"),
    (ascii "swf", ascii "application/x-shockwave-flash"), (ascii "sit", ascii "application/x-stuffit"),
    (ascii "tk", ascii "application/x-tcl"), (ascii "tcl", ascii "application/x-tcl"),
    (ascii "crt", ascii "application/x-x509-ca-cert"), (ascii "pem", ascii "application/x-x509-ca-cert"),
    (ascii "der", ascii "application/x-x509-ca-cert"), (ascii "xpi", ascii "application/x-xpinstall"),
    (ascii "xhtml", ascii "application/xhtml+xml"), (ascii "xspf", ascii "application/xspf+xml"),
    (ascii "zip", ascii "application/zip"), (ascii "dll", ascii "application/octet-stream"),
    (ascii "exe", ascii "application/octet-stream"), (ascii "bin", ascii "application/octet-stream"),
    (ascii "deb", ascii "application/octet-stream"), (ascii "dmg", ascii "application/octet-stream"),
    (ascii "img", ascii "application/octet-stream"), (ascii "iso", ascii "application/octet-stream"),
    (ascii "msm", ascii "application/octet-stream"), (ascii "msp", ascii "application/octet-stream"),
    (ascii "msi", ascii "application/octet-stream"), (ascii "kar", ascii "audio/midi"),
    (ascii "midi", ascii "audio/midi"), (ascii "mid", ascii "audio/midi"), (ascii "mp3", ascii "audio/mpeg"),
    (ascii "ogg", ascii "audio/ogg"), (ascii "m4a", ascii "audio/x-m4a"), (ascii "ra", ascii "audio/x-realaudio"),
    (ascii "3gp", ascii "video/3gpp"), (ascii "3gpp", ascii "video/3gpp"), (ascii "ts", ascii "video/mp2t"),
    (ascii "mp4", ascii "video/mp4"), (ascii "mpg", ascii "video/mpeg"), (ascii "mpeg", ascii "video/mpeg"),
    (ascii "mov", ascii "video/quicktime"), (ascii "webm", ascii "video/webm"), (ascii "flv", ascii "video/x-flv"),
    (ascii "m4v", ascii "video/x-m4v"), (ascii "mng", ascii "video/x-mng"), (ascii "asf", ascii "video/x-ms-asf"),
    (ascii "asx", ascii "video/x-ms-asf"), (ascii "wmv", ascii "video/x-ms-wmv"),
    (ascii "avi", ascii "video/x-msvideo")]

structure Response where
  code : Nat := 200
  body : Bytes := []
  headers : Headers := []
  skipBody : Bool := false
  manualLengthHeader : Bool := false
  completed : Bool := false
  /-- What can be read of the file to send, when there is one. -/
  file : Option Bytes := none
  deriving DecidableEq

/-- What `stat` and reading tell of a file. -/
structure File where
  size : Nat
  content : Bytes

namespace Response

def setHeader (res : Response) (key value : Bytes) : Response :=
  { res with headers := (res.headers.erase key).emplace key value }

def addHeader (res : Response) (key value : Bytes) : Response :=
  { res with headers := res.headers.emplace key value }

/-- `operator=`, which leaves `skip_body` and `manual_length_header` as they are. -/
def assign (res r : Response) : Response :=
  { res with code := r.code, body := r.body, headers := r.headers, completed := r.completed, file := r.file }

def clear (res : Response) : Response :=
  { res with body := [], code := 200, headers := [], completed := false, file := none }

/-- `end`, without the call of the handler. -/
def finish (res : Response) : Response :=
  if res.completed then res
  else if res.skipBody then
    { res.setHeader (ascii "Content-Length") (JsonText.decimal res.body.length) with
      completed := true, body := [], manualLengthHeader := true }
  else { res with completed := true }

/-- What follows the last dot; all of the path when there is none. -/
def extension (path : Bytes) : Bytes := (path.reverse.takeWhile (· ≠ 46)).reverse

/-- `set_static_file_info_unsafe`; when the file is missing, the response is ended there. -/
def setStaticFileInfo (res : Response) (path : Bytes) : Option File → Response
  | none => { res with code := 404, file := none }
  | some file =>
    let res := { res with file := some file.content, code := 200 }
    let res := res.addHeader (ascii "Content-Length") (JsonText.decimal file.size)
    if extension path = [] then res
    else
      match mimeTypes.lookup (extension path) with
      | some mimeType => res.addHeader (ascii "Content-Type") mimeType
      | none => res.addHeader (ascii "Content-Type") (ascii "text/plain")

end Response

/-! ### Handlers -/

/-- What the router and the handlers do with the response before they end it: they assign a new one, set the code
(`get_error`), or name a file.  A handler that throws out of the router does not end it. -/
inductive Reply
  | response (code : Nat) (headers : Headers) (body : Bytes)
  | error (code : Nat)
  | file (path : Bytes)
  | thrown

def Response.fill (files : Bytes → Option File) (res : Response) : Reply → Response
  | .response code headers body => res.assign { code, headers, body }
  | .error code => { res with code }
  | .file path => res.setStaticFileInfo path (files path)
  | .thrown => res

/-! ### Writing -/

def serverName : Bytes := ascii "Crow/1.0"

/-- `res_stream_threshold_`. -/
def streamThreshold : Nat := 1048576

/-- The size of the pieces of large bodies and of the buffer for files. -/
def blockSize : Nat := 16384

/-- What a request meets: the date, and what is in the buffer for files. -/
structure Arrival where
  request : Request
  date : Bytes
  buf : Bytes
  oneLine : 10 ∉ date
  bufSize : buf.length = blockSize

namespace Response

/-- A location without a scheme is one on this host. -/
def fixLocation (res : Response) (req : Request) : Response :=
  let location := res.headers.value (ascii "Location")
  if location ≠ [] ∧ ¬ ascii "://" <:+: location then
    res.setHeader (ascii "location") (ascii "http://" ++ req.headers.value (ascii "Host") ++ location)
  else res

/-- `prepare_buffers`, as far as it changes the response: a code without a line becomes 500, and an error without a body
gets its line for one. -/
def prepare (res : Response) : Response :=
  let code := if (statusCodes.lookup res.code).isSome then res.code else 500
  let line := (statusCodes.lookup code).getD []
  let body := if 400 ≤ code ∧ res.body = [] then line.drop 9 ++ Text.HttpHead.lineEnd else res.body
  { res with code, body }

/-- The buffers of the head. -/
def head (res : Response) (addKeepAlive : Bool) (date : Bytes) : Text.HttpHead where
  statusLine := (statusCodes.lookup res.code).getD []
  fields :=
    res.headers ++
      (if !res.manualLengthHeader && res.headers.count (ascii "content-length") = 0 then
        [(ascii "Content-Length", JsonText.decimal res.body.length)] else []) ++
      (if res.headers.count (ascii "server") = 0 then [(ascii "Server", serverName)] else []) ++
      (if res.headers.count (ascii "date") = 0 then [(ascii "Date", date)] else []) ++
      (if addKeepAlive then [(ascii "Connection", ascii "Keep-Alive")] else [])

end Response

/-- The loop of `do_write_general` over a large body. -/
def bodyPieces : Nat → Bytes → List Bytes
  | 0, body => [body]
  | fuel + 1, body =>
    if blockSize < body.length then body.take blockSize :: bodyPieces fuel (body.drop blockSize) else [body]

/-- The loop of `do_write_static`: it reads into the buffer what is left of the file, and writes the whole buffer. -/
def fileBlocks : Nat → Bytes → Bytes → List Bytes
  | 0, _, _ => []
  | fuel + 1, content, buf =>
    if content = [] then []
    else
      let read := content.take blockSize
      let buf := read ++ buf.drop read.length
      buf :: fileBlocks fuel (content.drop blockSize) buf

structure Connection where
  res : Response := {}
  resBodyCopy : Bytes := []
  addKeepAlive : Bool := false
  closeConnection : Bool := false
  isOpen : Bool := true
  /-- How many asynchronous writes are not done. -/
  writing : Nat := 0
  /-- The heads that were given to the socket, each with the bytes behind it. -/
  written : List (Text.HttpHead × Bytes) := []

namespace Connection

/-- The end of a write that was not asynchronous. -/
def finishWrite (c : Connection) : Connection :=
  { c with isOpen := c.isOpen && !c.closeConnection, res := c.res.finish.clear }

def doWriteStatic (c : Connection) (head : Text.HttpHead) (content buf : Bytes) : Connection :=
  { c with written := c.written ++ [(head, (fileBlocks content.length content buf).flatten)] }.finishWrite

def doWriteGeneral (c : Connection) (head : Text.HttpHead) : Connection :=
  if c.res.body.length < streamThreshold then
    { c with
      res := { c.res with body := c.resBodyCopy }
      resBodyCopy := c.res.body
      writing := c.writing + 1
      written := c.written ++ [(head, c.res.body)] }
  else
    { c with
      res := { c.res with body := [] }
      written := c.written ++ [(head, (bodyPieces c.res.body.length c.res.body).flatten)] }.finishWrite

def completeRequest (c : Connection) (a : Arrival) : Connection :=
  let res := (c.res.fixLocation a.request).prepare
  let head := res.head c.addKeepAlive a.date
  match res.file with
  | some content => { c with res }.doWriteStatic head content a.buf
  | none => { c with res }.doWriteGeneral head

/-- An asynchronous write is done. -/
def writeDone (c : Connection) : Connection :=
  { c with
    res := c.res.clear
    resBodyCopy := []
    writing := c.writing - 1
    isOpen := c.isOpen && !c.closeConnection }

section Handle

variable {S : Type} (app : S → Request → Reply × S) (files : Bytes → Option File)

/-- A valid request that finds the response empty: the application handles it. -/
def handleValid (c : Connection) (s : S) (a : Arrival) : Connection × S :=
  let (reply, s) := app s a.request
  let res := if a.request.method = .head then { c.res with skipBody := true } else c.res
  let filled := res.fill files reply
  match reply with
  | .thrown => ({ c with res := filled }, s)
  | _ =>
    let c := { c with res := filled.finish }.completeRequest a
    (if c.addKeepAlive then { c with res := c.res.setHeader (ascii "connection") (ascii "Keep-Alive") } else c, s)

/-- `handle`.  A response that is still completed is sent again. -/
def handle (c : Connection) (s : S) (a : Arrival) : Connection × S :=
  let c := { c with addKeepAlive := a.request.keepAlive, closeConnection := a.request.closeConnection }
  if a.request.isInvalid then ({ c with res := c.res.assign { code := 400 } }.completeRequest a, s)
  else if c.res.completed then (c.completeRequest a, s)
  else c.handleValid app files s a

end Handle

end Connection

end Crow

end KeyValueServer
