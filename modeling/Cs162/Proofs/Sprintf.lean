import Cs162.Proofs.LibUrl
import Cs162.Sprintf

/-!
# Bounds of what is printed

The messages `kvrequest_send` makes of admitted requests are short enough, but the URL's buffer is
large enough for short keys and values only, and the array for an address never is
(`printed_inside_iff`).
-/

namespace Cs162

open CLib

/-- A request within the limits of `kvserver_put_check`, of a type that `kvrequest_send` encodes. -/
structure Admitted (kvreq : KvRequest) : Prop where
  type : httpMethodForRequestType kvreq.type ≠ none
  key : ∀ k ∈ kvreq.key, 1 ≤ k.strlen ∧ k.strlen ≤ maxKeylen
  val : ∀ v ∈ kvreq.val, v.strlen ≤ maxVallen

/-- The path, the key and the value are short enough together. Each parameter takes 5 bytes more
than its value has. -/
def UrlFits (kvreq : KvRequest) : Prop :=
  (pathForRequestType kvreq.type).elim 0 CStr.strlen + kvreq.key.elim 0 (·.strlen + 5)
    + kvreq.val.elim 0 (·.strlen + 5) ≤ 125

instance (kvreq : KvRequest) : Decidable (UrlFits kvreq) := inferInstanceAs (Decidable (_ ≤ _))

/-! ## Texts and extents -/

theorem text_urlEncodePrinted (params : UrlParams) :
    (urlEncodePrinted params).text = urlEncodeBuf params := by
  obtain ⟨path, key, val⟩ := params
  rcases path with _ | p <;> rcases key with _ | k <;> rcases val with _ | v <;>
    simp [urlEncodePrinted, Printed.sprintf, Printed.empty, urlEncodeBuf, printParam]

/-- The terminator is the last byte written. -/
theorem written_urlEncodePrinted (params : UrlParams) :
    (urlEncodePrinted params).written = (urlEncodeBuf params).length + 1 := by
  rw [← text_urlEncodePrinted]
  obtain ⟨path, key, val⟩ := params
  rcases path with _ | p <;> rcases key with _ | k <;> rcases val with _ | v <;>
    simp [urlEncodePrinted, Printed.sprintf, Printed.empty] <;> omega

theorem length_urlEncodeBuf (params : UrlParams) : (urlEncodeBuf params).length
    = params.path.elim 0 CStr.strlen + params.key.elim 0 (·.strlen + 5)
      + params.val.elim 0 (·.strlen + 5) + 2 := by
  obtain ⟨path, key, val⟩ := params
  have hname : ∀ param : UrlParam, param.name.bytes.length = 3 := fun param => by
    cases param <;> rfl
  rcases path with _ | p <;> rcases key with _ | k <;> rcases val with _ | v <;>
    simp [urlEncodeBuf, printParam, hname, CStr.strlen] <;> omega

/-- The messages are those that are sent. -/
theorem kvrequestSend_eq (kvreq : KvRequest) :
    kvrequestSend kvreq = (kvrequestSendPrinted kvreq).map (·.ended.text) := by
  unfold kvrequestSend kvrequestSendPrinted httpStartRequest httpStartRequestPrinted
  rcases httpMethodForRequestType kvreq.type with _ | method
  · rfl
  · by_cases hvalid : isValidMethod method = true <;>
      simp [hvalid, httpEndHeaders, httpEndHeadersPrinted, Printed.sprintf, Printed.empty]

theorem method_valid {type : MsgType} {method : CStr}
    (h : httpMethodForRequestType type = some method) :
    isValidMethod method = true ∧ method.bytes.length ≤ 6 := by
  have hall : ∀ method ∈ validMethods, isValidMethod method = true ∧ method.bytes.length ≤ 6 := by
    decide +kernel
  refine hall method ?_
  cases type <;> simp only [httpMethodForRequestType, reduceCtorEq, Option.some.injEq] at h <;>
    subst h <;> decide +kernel

/-! ## The bounds -/

/-- The message is short enough if the URL is. -/
theorem sendInside_iff {kvreq : KvRequest} (h : httpMethodForRequestType kvreq.type ≠ none) :
    SendInside kvreq ↔ UrlFits kvreq := by
  obtain ⟨method, hmethod⟩ := Option.ne_none_iff_exists'.1 h
  obtain ⟨hvalid, hmethodLen⟩ := method_valid hmethod
  set params : UrlParams := ⟨pathForRequestType kvreq.type, kvreq.key, kvreq.val⟩ with hparams
  have hlen := length_urlEncodeBuf params
  have hurl : (urlEncode params).bytes.length = (urlEncodeBuf params).length - 1 := by
    rw [bytes_urlEncode, List.length_dropLast]
  let started := Printed.empty.sprintf
    (method.bytes ++ byte ' ' :: (urlEncode params).bytes ++ (CStr.ofString " HTTP/1.1\r\n").bytes)
  have hprinted : kvrequestSendPrinted kvreq
      = some ⟨urlEncodePrinted params, started, httpEndHeadersPrinted started⟩ := by
    simp [kvrequestSendPrinted, hmethod, httpStartRequestPrinted, hvalid, started, params]
  have hstarted : started.text.length = method.bytes.length + (urlEncode params).bytes.length
      + 12 := by
    have hversion : (CStr.ofString " HTTP/1.1\r\n").bytes.length = 11 := by decide +kernel
    simp [started, Printed.sprintf, Printed.empty, hversion]
    omega
  have hended : (httpEndHeadersPrinted started).text.length = started.text.length + 2 := by
    have hcrlf : (CStr.ofString "\r\n").bytes.length = 2 := by decide +kernel
    simp [httpEndHeadersPrinted, Printed.sprintf, hcrlf]
  simp only [SendInside, hprinted, Option.mem_some_iff, forall_eq']
  rw [written_urlEncodePrinted, hended, hstarted, hurl, hlen]
  simp only [UrlFits, urlBufSize, libhttpMessageMaxSize, params]
  omega

/-- Admitted requests are sent inside the buffers just if path, key and value fit into the URL's
buffer, and no address fits into its array. -/
theorem printed_inside_iff {kvreq : KvRequest} (h : Admitted kvreq) (host port : CStr) :
    (SendInside kvreq ↔ UrlFits kvreq) ∧
      ¬ (addressPrinted host port).written ≤ addressSize host port := by
  refine ⟨sendInside_iff h.type, fun hle => ?_⟩
  simp [addressPrinted, Printed.sprintf, Printed.empty, addressSize, CStr.strlen] at hle
  omega

theorem shortPut_inside :
    SendInside ⟨.putreq, some (.ofString "k"), some (.ofString "v")⟩ := by
  have hadmitted : Admitted ⟨.putreq, some (.ofString "k"), some (.ofString "v")⟩ := by
    constructor <;> decide +kernel
  have hfits : UrlFits ⟨.putreq, some (.ofString "k"), some (.ofString "v")⟩ := by decide +kernel
  exact (printed_inside_iff hadmitted (.ofString "localhost") (.ofString "9000")).1.2 hfits

/-- A GET request of a key of the greatest length. -/
def longGet : KvRequest := ⟨.getreq, some (cstr (List.replicate maxKeylen 97)), none⟩

theorem longGet_not_inside : Admitted longGet ∧ ¬ SendInside longGet ∧
    ¬ (addressPrinted (.ofString "localhost") (.ofString "9000")).written
      ≤ addressSize (.ofString "localhost") (.ofString "9000") := by
  have hadmitted : Admitted longGet := by
    constructor <;> decide +kernel
  have hfits : ¬ UrlFits longGet := by decide +kernel
  exact ⟨hadmitted, mt (sendInside_iff hadmitted.type).1 hfits, by decide +kernel⟩

end Cs162
