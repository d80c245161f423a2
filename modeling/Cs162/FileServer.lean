import Cs162.LibHttp

/-!
# The file server

`handle_files_request` of `hw2/httpserver.c`, with the functions of `hw2/libhttp.c` that it calls.
A connection is handled in a process of its own, so `server_files_directory` is as the command line
left it. The path asked for is appended to it in place.

A `Machine` says what the process finds: the files, and what is in memory that was not written to.
`none` is a `NULL` that is followed, or a byte written or read outside of an array.
-/

namespace Cs162

open CLib

namespace FileServer

/-! ## Requests -/

/-- `LIBHTTP_REQUEST_MAX_SIZE`. -/
def requestMaxSize : ℕ := 8192

def isUpper (b : UInt8) : Bool := byte 'A' ≤ b ∧ b ≤ byte 'Z'

def inPath (b : UInt8) : Bool := b ≠ byte ' ' ∧ b ≠ byte '\n'

/-- `http_request_parse` of the bytes that `read` takes. -/
def httpRequestParse (sent : List UInt8) : Option HttpRequest :=
  let msg := (cstr (sent.take requestMaxSize)).bytes
  let method := msg.takeWhile isUpper
  if method = [] then none else
  match msg.dropWhile isUpper with
  | [] => none
  | c :: rest =>
    if c ≠ byte ' ' then none else
    let path := rest.takeWhile inPath
    if path = [] then none else
    if byte '\n' ∈ rest.dropWhile inPath then some ⟨cstr method, cstr path⟩ else none

/-! ## Responses -/

def httpGetResponseMessage : ℕ → CStr
  | 100 => .ofString "Continue"
  | 200 => .ofString "OK"
  | 301 => .ofString "Moved Permanently"
  | 302 => .ofString "Found"
  | 304 => .ofString "Not Modified"
  | 400 => .ofString "Bad Request"
  | 401 => .ofString "Unauthorized"
  | 403 => .ofString "Forbidden"
  | 404 => .ofString "Not Found"
  | 405 => .ofString "Method Not Allowed"
  | _ => .ofString "Internal Server Error"

/-- What `http_start_response` writes. -/
def httpStartResponse (statusCode : ℕ) : List UInt8 :=
  (CStr.ofString "HTTP/1.0 ").bytes ++ decimal statusCode ++
    byte ' ' :: (httpGetResponseMessage statusCode).bytes ++ crlf

def httpSendHeader (key value : CStr) : List UInt8 :=
  key.bytes ++ [byte ':', byte ' '] ++ value.bytes ++ crlf

/-- The text from the last such byte on. -/
def strrchr (s : List UInt8) (c : UInt8) : Option (List UInt8) :=
  if c ∈ s then some (c :: (s.reverse.takeWhile (· ≠ c)).reverse) else none

def httpGetMimeType (fileName : CStr) : CStr :=
  match strrchr fileName.bytes (byte '.') with
  | none => .ofString "text/plain"
  | some fileExtension =>
    let is := fun s : String => fileExtension = (CStr.ofString s).bytes
    if is ".html" ∨ is ".htm" then .ofString "text/html"
    else if is ".jpg" ∨ is ".jpeg" then .ofString "image/jpeg"
    else if is ".png" then .ofString "image/png"
    else if is ".css" then .ofString "text/css"
    else if is ".js" then .ofString "application/javascript"
    else if is ".pdf" then .ofString "application/pdf"
    else .ofString "text/plain"

structure Response where
  status : ℕ
  headers : List (CStr × CStr)
  body : List UInt8

/-- What is written for a response, call by call. -/
def Response.pieces (r : Response) : List (List UInt8) :=
  httpStartResponse r.status :: r.headers.map (fun h => httpSendHeader h.1 h.2) ++ [crlf, r.body]

def contentType : CStr := .ofString "Content-type"

def contentLength : CStr := .ofString "Content-length"

/-- The three responses with a body of known length. -/
def found (type : CStr) (body : List UInt8) : Response where
  status := 200
  headers := [(contentType, type), (contentLength, cstr (decimal body.length))]
  body := body

def notFound : Response where
  status := 404
  headers := [(contentType, .ofString "text/html")]
  body := (CStr.ofString ("<center>" ++ "<h1>ERROR 4040, NOT FOUND</h1>" ++ "<hr>" ++
    "<p>This is a custom page</p>" ++ "</center>")).bytes

/-! ## The handler -/

/-- What is at a path: a directory, with the names `readdir` gives if it can be opened, a file, with
its contents if it can be opened, or something else. -/
inductive Entry
  | dir (names : Option (List CStr))
  | reg (contents : Option (List UInt8))
  | other

/-- What `st_mode` says. -/
inductive Kind
  | dir
  | reg
  | other
deriving DecidableEq

def Entry.kind : Entry → Kind
  | dir _ => .dir
  | reg _ => .reg
  | other => .other

/-- The files, `server_files_directory` with the number of bytes that may be written from there on,
and what is there already of the two results of `stat` and behind the contents of `index.html`. -/
structure Machine where
  files : CStr → Option Entry
  directory : CStr
  room : ℕ
  pathStat : Kind
  fullPathStat : Kind
  bufferEnd : UInt8

/-- The size of `retvalue`. -/
def retvalueSize : ℕ := 1024

/-- What the loop appends to `retvalue` for an entry of the directory. -/
def listItem (path name : CStr) : List UInt8 :=
  (CStr.ofString "<a href=\"").bytes ++ path.bytes ++ byte '/' :: name.bytes ++
    (CStr.ofString "\">").bytes ++ name.bytes ++ (CStr.ofString "</a>").bytes ++
    (CStr.ofString "<p>").bytes

def listing (path : CStr) (names : List CStr) : List UInt8 := names.flatMap (listItem path)

def indexName : CStr := .ofString "/index.html"

def strcat (s t : CStr) : CStr := cstr (s.bytes ++ t.bytes)

namespace Machine

variable (m : Machine)

/-- `fopen` and `fread`. -/
def contents (path : CStr) : Option (List UInt8) :=
  match m.files path with
  | some (.reg contents) => contents
  | _ => none

/-- `opendir` and `readdir`; there are no names if the directory cannot be opened. -/
def names (path : CStr) : List CStr :=
  match m.files path with
  | some (.dir names) => names.getD []
  | _ => []

/-- `stat` leaves its result as it is if there is nothing at the path. -/
def stat (path : CStr) (before : Kind) : Kind := (m.files path).elim before Entry.kind

def fullPath (request : HttpRequest) : CStr := strcat m.directory request.path

/-- The branch for a directory. -/
def sendDirectory (request : HttpRequest) (fullPath : CStr) : Option Response :=
  let retvalue := listing request.path (m.names fullPath)
  let indexPath := strcat fullPath indexName
  if retvalueSize < retvalue.length + 1 ∨ m.room < indexPath.strlen + 1 then none
  else if m.stat indexPath m.fullPathStat = .reg then do
    let buffer := (← m.contents indexPath) ++ [m.bufferEnd]
    -- `strlen` reads on behind a buffer without a NUL.
    if 0 ∈ buffer then return found (.ofString "text/html") (cstr buffer).bytes else none
  else return found (.ofString "text/html") retvalue

end Machine

/-- `handle_files_request`, given what `read` takes, if it does not fail. -/
def handleFilesRequest (m : Machine) (received : Option (List UInt8)) : Option Response := do
  let request ← httpRequestParse (← received)
  let fullPath := m.fullPath request
  if m.room < fullPath.strlen + 1 then none
  else
    match m.stat fullPath m.pathStat with
    | .dir => m.sendDirectory request fullPath
    | .reg => return found (httpGetMimeType fullPath) (← m.contents fullPath)
    | .other => return notFound

end FileServer

end Cs162
