import Cs162.KvConstants
import Mathlib.Data.Int.Notation

/-!
# URL parameters

`liburl.c`. Cursors into the URL are given by the bytes they have before them. The lengths `pathlen`
and `keylen` are `int`s. `url_encode` prints into a buffer of 128 bytes, which is taken to be large
enough here.
-/

namespace Cs162

open CLib

/-- `struct url_params`. -/
structure UrlParams where
  path : Option CStr
  key : Option CStr
  val : Option CStr
deriving DecidableEq

/-- The parameters `param_ptr` points into. -/
inductive UrlParam
  | key
  | val
deriving DecidableEq

def UrlParam.name : UrlParam → CStr
  | key => .ofString "key"
  | val => .ofString "val"

def UrlParams.set (params : UrlParams) : UrlParam → CStr → UrlParams
  | .key, s => { params with key := some s }
  | .val, s => { params with val := some s }

/-- A value is stored where `param_ptr` points, if it points anywhere. -/
def UrlParams.store (params : UrlParams) (param : Option UrlParam) (s : CStr) : UrlParams :=
  param.elim params (params.set · s)

/-- A length or a distance of two cursors as an `int`. -/
def intLength (n : ℕ) : ℤ := (n : ℤ).bmod (2 ^ 32)

/-- An `int` as a `size_t`. -/
def intSize (k : ℤ) : ℕ := (k % 2 ^ 64).toNat

/-- `param_ptr`: any prefix of a name is taken for it, the empty one too. -/
def paramPtr (key : List UInt8) (keylen : ℤ) : Option UrlParam :=
  if strncmp key UrlParam.key.name.bytes (intSize keylen) then some .key
  else if strncmp key UrlParam.val.name.bytes (intSize keylen) then some .val
  else none

/-- The distance to the next `&`, or to the terminator if there is none. -/
def segEnd (url : List UInt8) : ℕ := (strchr url (byte '&')).getD url.length

/-- The parameter loop of `url_decode`, from the cursor `url` on. Each round passes at least one
byte. -/
def urlDecodeLoop : ℕ → List UInt8 → UrlParams → UrlParams
  | 0, _, params => params
  | fuel + 1, url, params =>
    match strchr url (byte '=') with
    | none => params
    | some keyEnd =>
      let readEnd := segEnd url
      let paramValue := cstr ((url.drop (keyEnd + 1)).take (readEnd - keyEnd - 1))
      let params' := params.store (paramPtr url (intLength keyEnd)) paramValue
      if readEnd < url.length then urlDecodeLoop fuel (url.drop (readEnd + 1)) params' else params'

/-- The path `url_decode` copies, up to the `?` or, with `strcpy`, up to the end. -/
def copiedPath (url : CStr) : Option CStr :=
  match strchr url.bytes (byte '?') with
  | none => if 1 < intLength url.strlen then some (cstr (url.bytes.drop 1)) else none
  | some readEnd =>
    let pathlen := intLength readEnd
    if 1 < pathlen then some (cstr ((url.bytes.drop 1).take (pathlen - 1).toNat)) else none

/-- What `url_decode` returns, if it does: see `urlDecodeCursors`. -/
def urlDecode (url : CStr) : UrlParams :=
  match strchr url.bytes (byte '?') with
  | none => ⟨copiedPath url, none, none⟩
  | some readEnd =>
    urlDecodeLoop url.strlen (url.bytes.drop (readEnd + 1)) ⟨copiedPath url, none, none⟩

/-- What `url_encode` prints for a parameter that is not `NULL`. -/
def printParam (param : UrlParam) : Option CStr → List UInt8
  | none => []
  | some s => param.name.bytes ++ byte '=' :: s.bytes ++ [byte '&']

/-- What `url_encode` prints into its buffer before it cuts off the last separator. -/
def urlEncodeBuf (params : UrlParams) : List UInt8 :=
  byte '/' :: params.path.elim [] CStr.bytes ++ byte '?' ::
    (printParam .key params.key ++ printParam .val params.val)

def urlEncode (params : UrlParams) : CStr := cstr (urlEncodeBuf params).dropLast

end Cs162
