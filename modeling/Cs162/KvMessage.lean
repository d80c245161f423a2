import Cs162.LibHttp
import Cs162.LibUrl

/-!
# Requests and responses

`kvmessage.c`. A request is the request line of an HTTP message: the method and the path give its
type, the URL parameters its key and value. A response is a status code, which gives its type, and a
body.
-/

namespace Cs162

open CLib

/-- `kvrequest_t`; `none` is `NULL`. -/
structure KvRequest where
  type : MsgType
  key : Option CStr
  val : Option CStr
deriving DecidableEq

/-- `kvresponse_t`; `none` is `NULL`. -/
structure KvResponse where
  type : MsgType
  body : Option CStr
deriving DecidableEq

/-- The type of a request with this method and these parameters, if they go together. -/
def requestType (method : CStr) (params : UrlParams) : Option MsgType :=
  if method = .ofString "GET" then
    if params.key = none then some .index else some .getreq
  else if method = .ofString "PUT" then
    if params.key = none ∨ params.val = none then none else some .putreq
  else if method = .ofString "DELETE" then
    if params.key = none then none else some .delreq
  else if method = .ofString "POST" then
    if params.path = some registerPath then
      if params.key = none ∨ params.val = none then none else some .register
    else if params.path = some msgCommit then some .commit
    else if params.path = some abortPath then some .abort
    else none
  else none

/-- `kvrequest_recieve` of the bytes a peer sends. -/
def kvrequestRecieve (sent : List UInt8) : Option KvRequest := do
  let req ← httpRequestParse sent
  let params := urlDecode req.path
  let type ← requestType req.method params
  return ⟨type, params.key, params.val⟩

def httpMethodForRequestType : MsgType → Option CStr
  | .getreq => some (.ofString "GET")
  | .putreq => some (.ofString "PUT")
  | .delreq => some (.ofString "DELETE")
  | .register | .commit | .abort => some (.ofString "POST")
  | _ => none

def pathForRequestType : MsgType → Option CStr
  | .register => some registerPath
  | .commit => some msgCommit
  | .abort => some abortPath
  | _ => none

/-- The bytes `kvrequest_send` writes. -/
def kvrequestSend (kvreq : KvRequest) : Option (List UInt8) := do
  let method ← httpMethodForRequestType kvreq.type
  let msg ← httpStartRequest method (urlEncode ⟨pathForRequestType kvreq.type, kvreq.key, kvreq.val⟩)
  return httpEndHeaders msg

def kvresponseGetStatusCode : ℤ → MsgType
  | 200 => .getresp
  | 201 => .success
  | 500 => .error
  | 202 => .vote
  | 204 => .ack
  | _ => .empty

/-- `kvresponse_recieve` of the bytes a peer sends. -/
def kvresponseRecieve (sent : List UInt8) : Except HttpFailure KvResponse := do
  let res ← httpResponseParse sent
  if kvresponseGetStatusCode res.status = .empty then .error .null
  else return ⟨kvresponseGetStatusCode res.status, some res.body⟩

def httpCodeForResponseType : MsgType → Option ℕ
  | .getresp => some 200
  | .success => some 201
  | .error => some 500
  | .vote => some 202
  | .ack => some 204
  | _ => none

/-- The bytes `kvresponse_send` writes. -/
def kvresponseSend (kvres : KvResponse) : Option (List UInt8) := do
  let code ← httpCodeForResponseType kvres.type
  let msg ← httpStartResponse code
  let lenbuf := match kvres.body with
    | none => [48]
    | some body => decimal body.strlen
  return httpAddString (httpEndHeaders (httpAddHeader msg contentLengthName.bytes lenbuf)) kvres.body

end Cs162
