import Cs162.KvConstants
import Cs162.Lib.Text

/-!
# HTTP messages

`libhttp.c`. A message is received with one `read` of at most `LIBHTTP_MESSAGE_MAX_SIZE` bytes and
parsed as a C string, so what follows a NUL byte is not looked at. A message to send is built in
`msg->body`, whose contents are the list of bytes here.

A cursor into a response is what is left of the read buffer from there, the NUL behind what was read
included. So the end of the list is the end of the buffer, and a read there is one too far.
-/

namespace Cs162

open CLib

/-- `struct http_request`. -/
structure HttpRequest where
  method : CStr
  path : CStr
deriving DecidableEq

/-- The methods `http_is_valid_method` and `is_valid_method` know. -/
def validMethods : List CStr := [.ofString "GET", .ofString "PUT", .ofString "DELETE", .ofString "POST"]

/-- A prefix of a method passes, the empty one too. -/
def httpIsValidMethod (method : List UInt8) (len : ℕ) : Bool :=
  validMethods.any fun m => strncmp method m.bytes len

/-- What one `read` takes of the bytes a peer sends. -/
def readMessage (sent : List UInt8) : List UInt8 := sent.take libhttpMessageMaxSize

def httpRequestParse (sent : List UInt8) : Option HttpRequest :=
  let readBuffer := readMessage sent
  if readBuffer = [] then none else
  let msg := (cstr readBuffer).bytes
  match strchr msg (byte ' ') with
  | none => none
  | some methodLen =>
    if httpIsValidMethod msg methodLen = false then none else
    match msg.drop (methodLen + 1) with
    | [] => none
    | c :: rest =>
      if c ≠ byte '/' then none else
      match rest.findIdx? fun c => c = byte ' ' ∨ c = byte '\n' with
      | none => none
      | some n => some ⟨cstr (msg.take methodLen), cstr (c :: rest.take n)⟩

def isValidMethod (method : CStr) : Bool := validMethods.any (method = ·)

def httpStartRequest (method url : CStr) : Option (List UInt8) :=
  if isValidMethod method then
    some (method.bytes ++ byte ' ' :: url.bytes ++ (CStr.ofString " HTTP/1.1\r\n").bytes)
  else none

def httpEndHeaders (body : List UInt8) : List UInt8 := body ++ (CStr.ofString "\r\n").bytes

/-! ## Responses -/

/-- `struct http_response`. -/
structure HttpResponse where
  status : ℤ
  body : CStr
deriving DecidableEq

/-- How `http_response_parse` ends without a response: it returns `NULL`, or it reads a byte beyond
its buffer, hands `strncmp` a `NULL`, copies a body into too small an allocation, or dies of
`fatal_malloc`. The last one stands for a loop that goes on. -/
inductive HttpFailure
  | null
  | pastEnd
  | nullPhrase
  | overflow
  | fatalMalloc
  | endless
deriving DecidableEq

def httpGetResponseMessage : ℤ → Option CStr
  | 100 => some (.ofString "Continue")
  | 200 => some (.ofString "OK")
  | 201 => some (.ofString "Created")
  | 202 => some (.ofString "Accepted")
  | 204 => some (.ofString "No Content")
  | 301 => some (.ofString "Moved Permanently")
  | 302 => some (.ofString "Found")
  | 304 => some (.ofString "Not Modified")
  | 400 => some (.ofString "Bad Request")
  | 401 => some (.ofString "Unauthorized")
  | 403 => some (.ofString "Forbidden")
  | 404 => some (.ofString "Not Found")
  | 405 => some (.ofString "Method Not Allowed")
  | 500 => some (.ofString "Internal Server Error")
  | _ => none

def crlf : List UInt8 := [13, 10]

/-- `strstr` of a line end: the first `"\r\n"`, or else the first `"\n"`. -/
def lineEnd (text : List UInt8) : Option ℕ :=
  match strstr text crlf with
  | some n => some n
  | none => strstr text [10]

def contentLengthName : CStr := .ofString "Content-Length"

/-- One header of `http_response_parse`, `line` being the text from `read_start` on: the end of the
line, and `content_length`. -/
def httpHeader (line : List UInt8) (contentLength : ℤ) : Except HttpFailure (ℕ × ℤ) :=
  match lineEnd line, strstr line [byte ':', byte ' '] with
  | some readLimit, some readEnd =>
    if readLimit < readEnd then .error .null
    else if strncmp line contentLengthName.bytes readEnd then
      let value := strtol (line.drop (readEnd + 2))
      let rest := line.drop (readEnd + 2 + value.2)
      if readEnd + 2 + value.2 + (rest.takeWhile (· = byte ' ')).length ≠ readLimit then
        .error .null
      else .ok (readLimit, value.1.bmod (2 ^ 32))
    else .ok (readLimit, contentLength)
  | _, _ => .error .null

/-- The loop through the headers, from a cursor at a line end on. -/
def httpHeaders : ℕ → List UInt8 → ℤ → Except HttpFailure (List UInt8 × ℤ)
  | 0, _, _ => .error .endless
  | fuel + 1, readEnd, contentLength =>
    let text := (cstr readEnd).bytes
    if strncmp text [10, 10] 2 ∨ strncmp text (crlf ++ crlf) 4 then .ok (readEnd, contentLength)
    else
      let readStart := readEnd.drop 2
      if readStart = [] then .error .pastEnd
      else do
        let header ← httpHeader (cstr readStart).bytes contentLength
        httpHeaders fuel (readStart.drop header.1) header.2

/-- The body of a response, copied from `read_start`. -/
def httpBody (readStart : List UInt8) (status contentLength : ℤ) :
    Except HttpFailure HttpResponse :=
  let size := (contentLength + 1).bmod (2 ^ 32)
  let body := cstr readStart
  if size < 0 then .error .fatalMalloc
  else if readStart = [] then .error .pastEnd
  else if size < body.strlen + 1 then .error .overflow
  else .ok ⟨status, body⟩

def httpResponseParse (sent : List UInt8) : Except HttpFailure HttpResponse :=
  let bytes := readMessage sent
  if bytes = [] then .error .null else
  let readBuffer := bytes ++ [0]
  let text := (cstr readBuffer).bytes
  if strchr text (byte ' ') ≠ some 8 then .error .null else
  if strncmp text (CStr.ofString "HTTP/1.1").bytes 8 = false ∧
    strncmp text (CStr.ofString "HTTP/1.0").bytes 8 = false then .error .null else
  let value := strtol (text.drop 9)
  let status := value.1.bmod (2 ^ 16)
  if status = 0 ∨ value.2 ≠ 3 ∨ (text.drop 12).head? ≠ some (byte ' ') then .error .null else
  match lineEnd (text.drop 13) with
  | none => .error .null
  | some n =>
    match httpGetResponseMessage status with
    | none => .error .nullPhrase
    | some phrase =>
      if strncmp (text.drop 13) phrase.bytes n = false then .error .null
      else do
        let headers ← httpHeaders readBuffer.length (readBuffer.drop (13 + n)) (-1)
        httpBody (headers.1.drop 4) status headers.2

def httpStartResponse (statusCode : ℕ) : Option (List UInt8) := do
  let status ← httpGetResponseMessage statusCode
  return (CStr.ofString "HTTP/1.1 ").bytes ++ decimal statusCode ++ byte ' ' :: status.bytes ++ crlf

def httpAddHeader (body key value : List UInt8) : List UInt8 :=
  body ++ key ++ [byte ':', byte ' '] ++ value ++ crlf

def httpAddString (body : List UInt8) : Option CStr → List UInt8
  | none => body
  | some data => body ++ data.bytes

end Cs162
