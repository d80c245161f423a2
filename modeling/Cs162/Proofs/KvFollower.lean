import Cs162.KvFollower
import Cs162.Proofs.CutMessages
import Cs162.Proofs.TpcLeader

/-!
# Registration messages

A follower's request, if all of it arrives, gives the leader the follower's host and port, and any
part of it gives the leader the same or no request (`registerRequest_sent`). The follower returns 1
only for a `SUCCESS` of the leader, and 0 for all else it can read of a reply
(`registerReturn_answer`): it never returns a negative number.
-/

namespace Cs162

open CLib

/-- The follower's request goes through its buffers and is read back. -/
structure Endpoint.Printable (e : Endpoint) : Prop where
  clean : Clean e.hostname
  port : (signedDecimal e.port.toInt).length ≤ 5
  url : e.hostname.strlen + (signedDecimal e.port.toInt).length ≤ 107

/-- The followers that `kvfollower` starts, as long as their ports have at most five digits. -/
theorem printable_local {port : Int32} (hlow : -9999 ≤ port.toInt) (hhigh : port.toInt ≤ 99999) :
    Endpoint.Printable ⟨.ofString "127.0.0.1", port⟩ := by
  have hlen : (signedDecimal port.toInt).length ≤ 5 := by
    unfold signedDecimal
    split_ifs
    · exact Nat.succ_le_succ (length_decimal_le (by omega) (by omega))
    · exact length_decimal_le (by omega) (by omega)
  have hhost : (CStr.ofString "127.0.0.1").strlen = 9 := rfl
  have hclean : Clean (.ofString "127.0.0.1") := by
    unfold Clean
    decide
  exact ⟨hclean, hlen, by simp only [hhost]; omega⟩

/-- The follower as the leader's list has it. -/
def Endpoint.member (strhash64 : CStr → UInt64) (e : Endpoint) : Member :=
  ⟨strhash64 (followerAddress (cstr (signedDecimal e.port.toInt)) e.hostname), e.hostname,
    .ofInt e.port.toInt⟩

section Request

variable {e : Endpoint}

/-- The request of a follower, for its port as a string. -/
def Endpoint.request (e : Endpoint) : KvRequest :=
  ⟨.register, some e.hostname, some (cstr (signedDecimal e.port.toInt))⟩

theorem Endpoint.Printable.registerRequest (h : e.Printable) :
    registerRequest e = some e.request := by
  simp [Cs162.registerRequest, portString, Nat.succ_le_succ h.port, Endpoint.request]

theorem Endpoint.Printable.sendable (h : e.Printable) : Sendable e.request := by
  have hport : (cstr (signedDecimal e.port.toInt)).bytes = signedDecimal e.port.toInt :=
    bytes_cstr (notMem_signedDecimal rfl (by decide) _)
  refine ⟨⟨?_, ?_⟩, ⟨.ofString "POST", by decide, rfl, ?_⟩, ?_⟩
  · rintro k ⟨⟩
    exact h.clean
  · rintro v ⟨⟩
    simp only [Clean, hport]
    exact ⟨notMem_signedDecimal rfl (by decide) _, notMem_signedDecimal rfl (by decide) _,
      notMem_signedDecimal rfl (by decide) _⟩
  · have hget : CStr.ofString "POST" ≠ .ofString "GET" := by decide
    have hput : CStr.ofString "POST" ≠ .ofString "PUT" := by decide
    have hdel : CStr.ofString "POST" ≠ .ofString "DELETE" := by decide
    simp [requestType, hget, hput, hdel, Endpoint.request, pathForRequestType]
  · have hpath : registerPath.strlen = 8 := rfl
    have hurl := h.url
    simp only [UrlFits, Endpoint.request, pathForRequestType, Option.elim, CStr.strlen, hport]
      at hpath hurl ⊢
    omega

/-- Whatever arrives of a follower's request is read as that request or as none. -/
theorem registerRequest_sent (h : e.Printable) : ∃ msg, kvrequestSend e.request = some msg ∧
    msg.length ≤ libhttpMessageMaxSize ∧
    ∀ n, (kvrequestRecieve (msg.take n) = none ∧ n < msg.length) ∨
      kvrequestRecieve (msg.take n) = some e.request := by
  obtain ⟨head, tail, hmsg, htail, hlen, hcut⟩ := kvrequestRecieve_cut h.sendable
  have hpos := List.length_pos_of_ne_nil htail
  refine ⟨head ++ tail, hmsg, hlen, fun n => ?_⟩
  rw [hcut n, List.length_append]
  split
  · exact .inl ⟨rfl, by omega⟩
  · exact .inr rfl

end Request

/-- What a follower returns for what arrives of an answer. -/
theorem registerReturn_answer {res : KvResponse} (htype : res.type ∈ [MsgType.success, .error])
    (hlen : (responseBytes res).length ≤ libhttpMessageMaxSize) (n : ℕ) :
    ∃ ret : ℤ, registerReturn ((responseBytes res).take n) = some ret ∧ (ret = 0 ∨ ret = 1) ∧
      (ret = 1 → res.type = .success) ∧
      (res.type = .success → (responseBytes res).length ≤ n → ret = 1) := by
  have hmem : res.type ∈ [MsgType.getresp, .success, .error, .vote, .ack] := by
    simp only [List.mem_cons, List.not_mem_nil, or_false] at htype ⊢
    tauto
  obtain ⟨head, hsend, hcut⟩ := kvresponseRecieve_cut rfl hmem
  have hbytes : responseBytes res = head ++ (res.body.getD (.ofString "")).bytes := by
    rw [responseBytes, hsend, Option.getD_some]
  rw [hbytes] at hlen ⊢
  have hread := hcut hlen n
  simp only [registerReturn, contactOf, List.length_append]
  by_cases hn : n < head.length
  · rw [if_pos hn] at hread
    exact ⟨0, by rw [hread]; rfl, .inl rfl, by simp, fun _ hle => by omega⟩
  · rw [if_neg hn] at hread
    rw [hread]
    by_cases hsuccess : res.type = .success
    · exact ⟨1, by simp [hsuccess], .inr rfl, fun _ => hsuccess, fun _ _ => rfl⟩
    · exact ⟨0, by simp [hsuccess], .inl rfl, by simp, fun hs => absurd hs hsuccess⟩

end Cs162
