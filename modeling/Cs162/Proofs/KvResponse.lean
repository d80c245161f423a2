import Cs162.KvMessage
import Cs162.Proofs.HttpRender

/-!
# Responses

A response that arrives whole is taken apart where it was put together: the status line ends at the
first line break, the one header states the length of what follows the blank line, and the body is
not looked at (`kvresponse_roundtrip`).
-/

namespace Cs162

open CLib

/-- A response whose only header is the length of its body is taken apart again. -/
theorem httpResponseParse_printed {version : List UInt8} {code : ℕ} {phrase body : CStr}
    (hversion : version ∈ httpVersions) (hphrase : httpGetResponseMessage code = some phrase)
    (hfits : (renderResponse crlf version code phrase.bytes
      [(contentLengthName.bytes, decimal body.strlen)] body.bytes).length ≤ libhttpMessageMaxSize) :
    httpResponseParse (renderResponse crlf version code phrase.bytes
      [(contentLengthName.bytes, decimal body.strlen)] body.bytes) = .ok ⟨code, body⟩ := by
  have hplain := List.forall_mem_singleton.2 (contentLength_plain body.strlen)
  have hbody : body.strlen ≤ 2 ^ 13 := by
    refine le_trans ?_ hfits
    simp only [renderResponse, renderHeaders, List.length_append, List.length_cons, CStr.strlen]
    omega
  have hnumber := readNumber_decimal (n := body.strlen) (by omega) (renderHeaders crlf [] body.bytes)
  have hread : readLengths [(contentLengthName.bytes, decimal body.strlen)] body.bytes (-1)
      = some (body.strlen : ℤ) := by
    rw [readLengths, if_pos (List.isPrefixOf_iff_prefix.2 List.prefix_rfl), hnumber]
    rfl
  rw [httpResponseParse_rendered hversion hphrase hplain body.noNul hfits, hread]
  have hint : IsInt (body.strlen : ℤ) := ⟨by omega, by omega⟩
  exact (httpBody_eq_iff hint code).2 ⟨le_rfl, by omega⟩

theorem httpCodeForResponseType_spec {type : MsgType} {code : ℕ}
    (h : httpCodeForResponseType type = some code) :
    kvresponseGetStatusCode code = type ∧ type ≠ .empty ∧
      ∃ phrase, httpGetResponseMessage code = some phrase := by
  cases type <;> cases h <;> exact ⟨rfl, by simp, _, rfl⟩

/-- A response of one of the five types is received as it was sent, if one read delivers it whole; a
body that is missing arrives empty. -/
theorem kvresponse_roundtrip (kvres : KvResponse)
    (htype : kvres.type ∈ [MsgType.getresp, .success, .error, .vote, .ack]) :
    ∃ msg, kvresponseSend kvres = some msg ∧ (msg.length ≤ libhttpMessageMaxSize →
      kvresponseRecieve msg
        = .ok ⟨kvres.type, some (kvres.body.getD (.ofString ""))⟩) := by
  obtain ⟨type, body⟩ := kvres
  obtain ⟨code, hcode⟩ : ∃ code, httpCodeForResponseType type = some code := by
    simp only [List.mem_cons, List.not_mem_nil, or_false] at htype
    rcases htype with rfl | rfl | rfl | rfl | rfl <;> exact ⟨_, rfl⟩
  obtain ⟨hback, hempty, phrase, hphrase⟩ := httpCodeForResponseType_spec hcode
  set data := body.getD (.ofString "") with hdata
  have hmsg : kvresponseSend ⟨type, body⟩ = some (renderResponse crlf (CStr.ofString "HTTP/1.1").bytes
      code phrase.bytes [(contentLengthName.bytes, decimal data.strlen)] data.bytes) := by
    have hend : (CStr.ofString "\r\n").bytes = crlf := rfl
    have hversion : (CStr.ofString "HTTP/1.1 ").bytes
        = (CStr.ofString "HTTP/1.1").bytes ++ [byte ' '] := rfl
    rcases body with _ | body
    · have : data.bytes = [] := rfl
      simp [kvresponseSend, hcode, httpStartResponse, hphrase, httpAddHeader, httpEndHeaders, hend,
        httpAddString, this, decimal, renderResponse, renderHeaders, renderHeader, hversion,
        CStr.strlen]
    · simp [kvresponseSend, hcode, httpStartResponse, hphrase, httpAddHeader, httpEndHeaders, hend,
        httpAddString, hdata, renderResponse, renderHeaders, renderHeader, hversion]
  refine ⟨_, hmsg, fun hlen => ?_⟩
  rw [kvresponseRecieve, httpResponseParse_printed (by decide) hphrase hlen, ok_bind, hback,
    if_neg hempty]
  rfl

theorem kvresponse_roundtrip_blankLine : ∃ msg,
    kvresponseSend ⟨.getresp, some (.ofString "\r\n\r\nContent-Length: 1\r\n")⟩ = some msg ∧
      (msg.length ≤ libhttpMessageMaxSize → kvresponseRecieve msg
        = .ok ⟨.getresp, some (.ofString "\r\n\r\nContent-Length: 1\r\n")⟩) :=
  kvresponse_roundtrip ⟨.getresp, some (.ofString "\r\n\r\nContent-Length: 1\r\n")⟩ (by simp)

end Cs162
