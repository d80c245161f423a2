import Cs162.Lib.Bytes

/-!
# The constants the key-value system shares

`kvconstants.h`: message types, length limits, error codes and message texts.
-/

namespace Cs162

open CLib

/-- `msgtype_t`. Its objects are plain `int`s, so uninitialised memory or a damaged log file may
also hold a value that no enumerator names. -/
inductive MsgType
  | index
  | getreq
  | putreq
  | delreq
  | register
  | commit
  | abort
  | getresp
  | success
  | error
  | vote
  | ack
  | empty
  | other (code : ℕ)
deriving DecidableEq

namespace MsgType

/-- The value stored for a message type. -/
def code : MsgType → ℕ
  | index => 0
  | getreq => 1
  | putreq => 2
  | delreq => 3
  | register => 4
  | commit => 5
  | abort => 6
  | getresp => 7
  | success => 8
  | error => 9
  | vote => 10
  | ack => 11
  | empty => 12
  | other c => c

/-- The message type a stored value denotes. -/
def ofCode : ℕ → MsgType
  | 0 => index
  | 1 => getreq
  | 2 => putreq
  | 3 => delreq
  | 4 => register
  | 5 => commit
  | 6 => abort
  | 7 => getresp
  | 8 => success
  | 9 => error
  | 10 => vote
  | 11 => ack
  | 12 => empty
  | c + 13 => other (c + 13)

end MsgType

def maxKeylen : ℕ := 1024

def maxVallen : ℕ := 1024

/-- The size of the one `read` a message is received with (`libhttp.c`). -/
def libhttpMessageMaxSize : ℕ := 8192

def errKeylen : ℤ := -11

def errVallen : ℤ := -12

def errNokey : ℤ := -13

def errInvldmsg : ℤ := -14

def errFilaccess : ℤ := -17

def msgCommit : CStr := .ofString "commit"

def abortPath : CStr := .ofString "abort"

def registerPath : CStr := .ofString "register"

def errmsgNoKey : CStr := .ofString "error: no key"

def errmsgInvalidRequest : CStr := .ofString "error: invalid request"

def errmsgNotAtCapacity : CStr := .ofString "error: follower_capacity not yet full"

def errmsgFollowerCapacity : CStr := .ofString "error: follower capacity already full"

def errmsgGenericError : CStr := .ofString "error: unable to process request"

def errmsgEndOfHandleTpc : CStr := .ofString "error: end of kserver_handle_tpc"

end Cs162
