import Cs162.KvMessage

/-!
# What is printed into fixed buffers

`url_encode` prints into a buffer of 128 bytes, `kvrequest_send` has a message printed into one of
`LIBHTTP_MESSAGE_MAX_SIZE + 1`, and `tpcleader_register` prints an address into an array of its own
size. Here these functions are followed with the number of bytes they write.
-/

namespace Cs162

open CLib

/-- A buffer: what was printed into it, up to the cursor `end`, and how many of its bytes were
written. -/
structure Printed where
  text : List UInt8
  written : ℕ
deriving DecidableEq

namespace Printed

def empty : Printed := ⟨[], 0⟩

/-- `end += sprintf(buf + end, ..)`: the terminator is written behind the cursor. -/
def sprintf (buf : Printed) (piece : List UInt8) : Printed where
  text := buf.text ++ piece
  written := max buf.written (buf.text.length + piece.length + 1)

end Printed

/-- The size of `buf` in `url_encode`. -/
def urlBufSize : ℕ := 128

def urlEncodePrinted (params : UrlParams) : Printed :=
  let buf := match params.path with
    | some path => Printed.empty.sprintf (byte '/' :: path.bytes ++ [byte '?'])
    | none => Printed.empty.sprintf [byte '/', byte '?']
  let buf := match params.key with
    | some key => buf.sprintf (UrlParam.key.name.bytes ++ byte '=' :: key.bytes ++ [byte '&'])
    | none => buf
  match params.val with
  | some val => buf.sprintf (UrlParam.val.name.bytes ++ byte '=' :: val.bytes ++ [byte '&'])
  | none => buf

def httpStartRequestPrinted (method url : CStr) : Option Printed :=
  if isValidMethod method then
    some (Printed.empty.sprintf
      (method.bytes ++ byte ' ' :: url.bytes ++ (CStr.ofString " HTTP/1.1\r\n").bytes))
  else none

def httpEndHeadersPrinted (msg : Printed) : Printed := msg.sprintf (CStr.ofString "\r\n").bytes

/-- The buffers of a call of `kvrequest_send`: the URL's, and the message before and after the end
of the headers. -/
structure SendPrinted where
  url : Printed
  started : Printed
  ended : Printed

def kvrequestSendPrinted (kvreq : KvRequest) : Option SendPrinted := do
  let method ← httpMethodForRequestType kvreq.type
  let params : UrlParams := ⟨pathForRequestType kvreq.type, kvreq.key, kvreq.val⟩
  let started ← httpStartRequestPrinted method (urlEncode params)
  return ⟨urlEncodePrinted params, started, httpEndHeadersPrinted started⟩

/-- `kvrequest_send` stays inside its buffers. -/
def SendInside (kvreq : KvRequest) : Prop := ∀ p ∈ kvrequestSendPrinted kvreq,
  p.url.written ≤ urlBufSize ∧ p.started.text.length ≤ libhttpMessageMaxSize ∧
    p.ended.text.length ≤ libhttpMessageMaxSize

instance (kvreq : KvRequest) : Decidable (SendInside kvreq) :=
  inferInstanceAs (Decidable (∀ p ∈ kvrequestSendPrinted kvreq, _))

/-- The length of the array `address` in `tpcleader_register`. -/
def addressSize (host port : CStr) : ℕ := host.strlen + port.strlen

def addressPrinted (host port : CStr) : Printed :=
  Printed.empty.sprintf (port.bytes ++ byte ':' :: host.bytes)

end Cs162
