import Cs162.Wire

/-!
# Registering with the leader

`main/kvfollower.c` and `kvserver_register_leader`: a follower connects to the leader, sends it the
host and the port it will listen at, and reads the reply. It gives up where the function returns a
negative number, as its comment says it does on an error, and else goes on to `server_run`.
-/

namespace Cs162

open CLib

/-- The `hostname` and the `port` of a `kvserver_t`. -/
structure Endpoint where
  hostname : CStr
  port : Int32

/-- `port_string`, an array of 6 bytes. -/
def portString (port : Int32) : Option CStr :=
  if (signedDecimal port.toInt).length + 1 ≤ 6 then some (cstr (signedDecimal port.toInt)) else none

/-- The request that `kvserver_register_leader` sends. -/
def registerRequest (e : Endpoint) : Option KvRequest := do
  let port ← portString e.port
  return ⟨.register, some e.hostname, some port⟩

/-- What `kvserver_register_leader` returns for the bytes of the reply. -/
def registerReturn (received : List UInt8) : Option ℤ :=
  (contactOf received).map fun
    | .reply res => if res.type = .success then 1 else 0
    | _ => 0

/-- The bytes of a response. -/
def responseBytes (res : KvResponse) : List UInt8 := (kvresponseSend res).getD []

end Cs162
