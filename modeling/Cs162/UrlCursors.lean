import Cs162.LibUrl

/-!
# The cursors of `url_decode`

`url_decode` in `liburl.c` again, with its cursors as offsets into the URL, and with what may go
wrong: a byte behind the terminator may not be read, `strcpy` may not write behind the bytes
allocated for the path, and `malloc` may not be asked for a negative size. The copies of values are
recorded as they are made.
-/

namespace Cs162

open CLib

/-- A copy of a parameter's value: where the cursors stand, and the bytes written to what
`malloc(read_end - key_end)` returns. -/
structure ParamCopy where
  keyEnd : ℕ
  readEnd : ℕ
  paramValue : List UInt8
deriving DecidableEq

/-- How the call ends: `params` is returned, the path is copied behind its bytes, a byte behind the
terminator is read, `malloc` fails as it is asked for a negative size, or the loop does not end. -/
inductive DecodeEnd
  | returns (params : UrlParams)
  | pathOverrun
  | pastEnd
  | fatalMalloc
  | endless
deriving DecidableEq

/-- `strncpy` of `n` bytes, padded with terminators. -/
def strncpy (src : List UInt8) (n : ℕ) : List UInt8 := (cstr src).bytes.takeD n 0

/-- The loop, from its condition on, with the cursors `url` and `read_end`. -/
def decodeLoop (text : CStr) : ℕ → ℕ → ℕ → UrlParams → List ParamCopy × DecodeEnd
  | 0, _, _, _ => ([], .endless)
  | fuel + 1, url, readEnd, params =>
    if text.strlen < readEnd then ([], .pastEnd)
    else if readEnd = text.strlen then ([], .returns params)
    else if text.strlen < url then ([], .pastEnd)
    else
      let rest := text.bytes.drop url
      match strchr rest (byte '=') with
      | none => ([], .returns params)
      | some distance =>
        let keyEnd := url + distance
        let readEnd := url + segEnd rest
        match paramPtr rest (intLength distance) with
        | none =>
          if url = text.strlen then ([], .returns params)
          else decodeLoop text fuel (readEnd + 1) readEnd params
        | some param =>
          if readEnd ≤ keyEnd then ([⟨keyEnd, readEnd, []⟩], .fatalMalloc)
          else
            let paramValue :=
              strncpy (text.bytes.drop (keyEnd + 1)) (readEnd - keyEnd - 1) ++ [0]
            let next := decodeLoop text fuel (readEnd + 1) readEnd
              (params.set param (cstr paramValue))
            (⟨keyEnd, readEnd, paramValue⟩ :: next.1, next.2)

/-- `malloc(pathlen)` is too small for `strcpy` if there is no `?` and `pathlen` is cut down. -/
def PathOverrun (url : CStr) : Prop :=
  byte '?' ∉ url.bytes ∧ 1 < intLength url.strlen ∧ intLength url.strlen < url.strlen

instance (url : CStr) : Decidable (PathOverrun url) := inferInstanceAs (Decidable (_ ∧ _))

def urlDecodeCursors (url : CStr) : List ParamCopy × DecodeEnd :=
  if PathOverrun url then ([], .pathOverrun)
  else
    let params : UrlParams := ⟨copiedPath url, none, none⟩
    match strchr url.bytes (byte '?') with
    | none => ([], .returns params)
    | some readEnd => decodeLoop url (url.strlen + 1) (readEnd + 1) readEnd params

end Cs162
