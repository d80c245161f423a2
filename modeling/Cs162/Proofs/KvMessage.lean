import Cs162.KvMessage
import Cs162.Proofs.UrlDecode
import Cs162.Proofs.TpcLog

/-!
# Forwarding a request

A leader that received a request sends it on to followers. What `kvrequest_recieve` returns is
clean enough to be printed as a URL and a request line (`kvrequestRecieve_spec`), so a follower
that receives the message whole returns the same request (`kvrequest_forward`).
-/

namespace Cs162

open CLib

/-! ## The request line -/

/-- The path of a request ends before the first space or line break. -/
theorem httpRequestParse_path {sent : List UInt8} {req : HttpRequest}
    (h : httpRequestParse sent = some req) :
    byte ' ' ∉ req.path.bytes ∧ byte '\n' ∉ req.path.bytes ∧
      req.path.strlen ≤ libhttpMessageMaxSize := by
  unfold httpRequestParse at h
  simp only at h
  split_ifs at h
  split at h
  · cases h
  split_ifs at h
  split at h
  · cases h
  rename_i methodLen _ _ _ c rest hdrop
  split_ifs at h with hc
  rw [ne_eq, not_not] at hc
  split at h
  · cases h
  rename_i n hn
  cases h
  have hbefore : ∀ b ∈ rest.take n, b ≠ byte ' ' ∧ b ≠ byte '\n' := by
    intro b hb
    obtain ⟨i, hi, hib⟩ := List.mem_iff_getElem.1 hb
    rw [List.length_take] at hi
    rw [List.getElem_take] at hib
    have hi' := (List.findIdx?_eq_some_iff_getElem.1 hn).2.2 i (by omega)
    rw [hib] at hi'
    simpa using hi'
  have hpath : ∀ b ∈ (cstr (c :: rest.take n)).bytes, b ≠ byte ' ' ∧ b ≠ byte '\n' := by
    intro b hb
    rcases List.mem_cons.1 (cstr_subset _ hb) with rfl | hb
    · rw [hc]
      decide
    · exact hbefore b hb
  have hmsg : (cstr (readMessage sent)).bytes.length ≤ libhttpMessageMaxSize :=
    (List.takeWhile_prefix _).length_le.trans (List.length_take_le _ _)
  refine ⟨fun hb => (hpath _ hb).1 rfl, fun hb => (hpath _ hb).2 rfl, ?_⟩
  calc (cstr (c :: rest.take n)).strlen
      ≤ (c :: rest.take n).length := (List.takeWhile_prefix _).length_le
    _ ≤ (c :: rest).length := by simp
    _ ≤ libhttpMessageMaxSize := by
        rw [← hdrop, List.length_drop]
        omega

theorem httpIsValidMethod_of_mem {method : CStr} (h : method ∈ validMethods) (rest : List UInt8) :
    httpIsValidMethod (method.bytes ++ rest) method.bytes.length = true :=
  List.any_eq_true.2 ⟨method, h, strncmp_append _ _⟩

/-- A request line that arrives whole is taken apart again. -/
theorem httpRequestParse_line {method url : CStr} {u tail : List UInt8} (hm : method ∈ validMethods)
    (hurl : url.bytes = byte '/' :: u) (hsp : byte ' ' ∉ url.bytes) (hnl : byte '\n' ∉ url.bytes)
    (htail : 0 ∉ tail)
    (hlen : (method.bytes ++ byte ' ' :: (url.bytes ++ byte ' ' :: tail)).length
      ≤ libhttpMessageMaxSize) :
    httpRequestParse (method.bytes ++ byte ' ' :: (url.bytes ++ byte ' ' :: tail))
      = some ⟨method, url⟩ := by
  have hread : readMessage (method.bytes ++ byte ' ' :: (url.bytes ++ byte ' ' :: tail))
      = method.bytes ++ byte ' ' :: (url.bytes ++ byte ' ' :: tail) := List.take_of_length_le hlen
  have hmsg : (cstr (method.bytes ++ byte ' ' :: (url.bytes ++ byte ' ' :: tail))).bytes
      = method.bytes ++ byte ' ' :: (url.bytes ++ byte ' ' :: tail) := by
    refine bytes_cstr fun h => ?_
    have h0 : (0 : UInt8) ≠ byte ' ' := by decide
    simp [method.noNul, url.noNul, htail, h0] at h
  have hspace : strchr (method.bytes ++ byte ' ' :: (url.bytes ++ byte ' ' :: tail)) (byte ' ')
      = some method.bytes.length := by
    refine strchr_append ?_ _
    simp only [validMethods, List.mem_cons, List.not_mem_nil, or_false] at hm
    rcases hm with rfl | rfl | rfl | rfl <;> decide
  have hdrop : (method.bytes ++ byte ' ' :: (url.bytes ++ byte ' ' :: tail)).drop
      (method.bytes.length + 1) = byte '/' :: (u ++ byte ' ' :: tail) := by
    rw [← List.drop_drop, List.drop_left, List.drop_succ_cons, List.drop_zero, hurl,
      List.cons_append]
  have hend : (u ++ byte ' ' :: tail).findIdx? (fun c => c = byte ' ' ∨ c = byte '\n')
      = some u.length := by
    have hnone : u.findIdx? (fun c => c = byte ' ' ∨ c = byte '\n') = none := by
      rw [List.findIdx?_eq_none_iff]
      intro b hb
      rw [decide_eq_false_iff_not, not_or]
      refine ⟨?_, ?_⟩ <;> rintro rfl
      · exact hsp (hurl ▸ List.mem_cons_of_mem _ hb)
      · exact hnl (hurl ▸ List.mem_cons_of_mem _ hb)
    rw [List.findIdx?_append, hnone, List.findIdx?_cons]
    simp
  unfold httpRequestParse
  simp only [hread, hmsg, hspace, httpIsValidMethod_of_mem hm, hdrop, hend, List.take_left,
    cstr_bytes, ← hurl]
  simp

/-! ## Types -/

/-- What a method and parameters of a type come to: the type is sent with a method and a path that
denote it again. -/
theorem requestType_send {method : CStr} {params : UrlParams} {type : MsgType}
    (h : requestType method params = some type) (htype : type ≠ .index) :
    ∃ method' ∈ validMethods, httpMethodForRequestType type = some method' ∧
      requestType method' ⟨pathForRequestType type, params.key, params.val⟩ = some type := by
  have hdistinct : CStr.ofString "PUT" ≠ .ofString "GET" ∧ CStr.ofString "DELETE" ≠ .ofString "GET" ∧
      CStr.ofString "DELETE" ≠ .ofString "PUT" ∧ CStr.ofString "POST" ≠ .ofString "GET" ∧
      CStr.ofString "POST" ≠ .ofString "PUT" ∧ CStr.ofString "POST" ≠ .ofString "DELETE" ∧
      msgCommit ≠ registerPath ∧ abortPath ≠ registerPath ∧ abortPath ≠ msgCommit := by decide
  obtain ⟨h1, h2, h3, h4, h5, h6, h7, h8, h9⟩ := hdistinct
  unfold requestType at h
  split_ifs at h <;> cases h <;>
    first
    | exact absurd rfl htype
    | exact ⟨_, by simp [validMethods], rfl, by simp_all [requestType, pathForRequestType]⟩

theorem pathForRequestType_clean (type : MsgType) : ∀ p ∈ pathForRequestType type,
    p.bytes ≠ [] ∧ byte ' ' ∉ p.bytes ∧ byte '\n' ∉ p.bytes ∧ byte '?' ∉ p.bytes := by
  intro p hp
  cases type <;> cases hp <;> decide

/-! ## Requests -/

theorem kvrequestRecieve_spec {sent : List UInt8} {r : KvRequest}
    (h : kvrequestRecieve sent = some r) : UrlParams.All Clean ⟨none, r.key, r.val⟩ ∧
      ∃ method path, requestType method ⟨path, r.key, r.val⟩ = some r.type := by
  simp only [kvrequestRecieve, Option.pure_def, Option.bind_eq_bind, Option.bind_eq_some_iff] at h
  obtain ⟨req, hreq, type, htype, hr⟩ := h
  cases hr
  obtain ⟨hsp, hnl, -⟩ := httpRequestParse_path hreq
  exact ⟨urlDecode_clean hsp hnl, req.method, (urlDecode req.path).path, htype⟩

theorem notMem_urlEncode {params : UrlParams} {c : UInt8} (hc : c ∈ [byte ' ', byte '\n'])
    (hpath : ∀ p ∈ params.path, c ∉ p.bytes) (hparams : params.All Clean) :
    c ∉ (urlEncode params).bytes := by
  rw [bytes_urlEncode]
  intro h
  have h' := List.dropLast_subset _ h
  obtain ⟨path, key, val⟩ := params
  have hkey : ∀ k ∈ key, c ∉ k.bytes := fun k hk => by
    obtain ⟨-, h1, h2⟩ := hparams.1 k hk
    rcases List.mem_cons.1 hc with rfl | hc
    · exact h1
    · cases List.mem_singleton.1 hc
      exact h2
  have hval : ∀ v ∈ val, c ∉ v.bytes := fun v hv => by
    obtain ⟨-, h1, h2⟩ := hparams.2 v hv
    rcases List.mem_cons.1 hc with rfl | hc
    · exact h1
    · cases List.mem_singleton.1 hc
      exact h2
  have hname : ∀ param : UrlParam, c ∉ param.name.bytes := fun param => by
    simp only [List.mem_cons, List.not_mem_nil, or_false] at hc
    rcases hc with rfl | rfl <;> cases param <;> decide
  have hlit : c ≠ byte '/' ∧ c ≠ byte '?' ∧ c ≠ byte '=' ∧ c ≠ byte '&' := by
    simp only [List.mem_cons, List.not_mem_nil, or_false] at hc
    rcases hc with rfl | rfl <;> decide
  rcases path with _ | p <;> rcases key with _ | k <;> rcases val with _ | v <;>
    simp_all [urlEncodeBuf, printParam]

/-- The strings of a request fit a log entry. -/
theorem kvrequestRecieve_fits {sent : List UInt8} {r : KvRequest}
    (h : kvrequestRecieve sent = some r) : r.Fits := by
  simp only [kvrequestRecieve, Option.pure_def, Option.bind_eq_bind, Option.bind_eq_some_iff] at h
  obtain ⟨req, hreq, type, -, hr⟩ := h
  cases hr
  obtain ⟨-, -, hlen⟩ := httpRequestParse_path hreq
  obtain ⟨hkey, hval⟩ := urlDecode_strlen req.path
  unfold libhttpMessageMaxSize at hlen
  unfold KvRequest.Fits
  rcases hk : (urlDecode req.path).key with _ | k <;> rcases hv : (urlDecode req.path).val with _ | v
  · simp
  · have := hval v hv
    simp only [Option.elim_none, Option.elim_some]
    omega
  · have := hkey k hk
    simp only [Option.elim_none, Option.elim_some]
    omega
  · have := hkey k hk
    have := hval v hv
    simp only [Option.elim_some]
    omega

/-- A message that sends a received request on is received as that request, if one read delivers
it whole. -/
theorem kvrequest_forward (sent : List UInt8) (r : KvRequest)
    (h : kvrequestRecieve sent = some r) (htype : r.type ≠ .index) :
    ∃ msg, kvrequestSend r = some msg ∧
      (msg.length ≤ libhttpMessageMaxSize → kvrequestRecieve msg = some r) := by
  obtain ⟨hclean, method, path, hreq⟩ := kvrequestRecieve_spec h
  obtain ⟨method', hmem, hmethod, htype'⟩ := requestType_send hreq htype
  set params : UrlParams := ⟨pathForRequestType r.type, r.key, r.val⟩ with hparams
  have hvalid : isValidMethod method' = true := List.any_eq_true.2 ⟨method', hmem, by simp⟩
  have hpath : IsPath params.path := fun p hp =>
    ⟨(pathForRequestType_clean _ p hp).1, (pathForRequestType_clean _ p hp).2.2.2⟩
  obtain ⟨u, hu⟩ : ∃ u, (urlEncode params).bytes = byte '/' :: u := by
    rw [bytes_urlEncode, urlEncodeBuf, List.cons_append,
      List.dropLast_cons_of_ne_nil (by simp)]
    exact ⟨_, rfl⟩
  have hmsg : kvrequestSend r = some (method'.bytes ++ byte ' ' :: ((urlEncode params).bytes ++
      byte ' ' :: ((CStr.ofString "HTTP/1.1\r\n").bytes ++ (CStr.ofString "\r\n").bytes))) := by
    have hline : (CStr.ofString " HTTP/1.1\r\n").bytes
        = byte ' ' :: (CStr.ofString "HTTP/1.1\r\n").bytes := rfl
    simp [kvrequestSend, hmethod, httpStartRequest, hvalid, httpEndHeaders, hline, hparams]
  refine ⟨_, hmsg, fun hlen => ?_⟩
  have hshort : (urlEncode params).strlen < 2 ^ 31 := by
    simp only [libhttpMessageMaxSize, List.length_append, List.length_cons] at hlen
    rw [CStr.strlen]
    omega
  have hparse := httpRequestParse_line hmem hu
    (notMem_urlEncode (by simp) (fun p hp => (pathForRequestType_clean _ p hp).2.1) hclean)
    (notMem_urlEncode (by simp) (fun p hp => (pathForRequestType_clean _ p hp).2.2.1) hclean)
    (by decide) hlen
  simp only [kvrequestRecieve, hparse, Option.bind_eq_bind, Option.bind_some,
    urlDecode_urlEncode hpath hclean hshort, htype', Option.pure_def]
  rfl

theorem kvrequest_forward_put : ∃ msg,
    kvrequestSend ⟨.putreq, some (.ofString "a=b?"), some (.ofString "")⟩ = some msg ∧
      (msg.length ≤ libhttpMessageMaxSize →
        kvrequestRecieve msg = some ⟨.putreq, some (.ofString "a=b?"), some (.ofString "")⟩) :=
  kvrequest_forward (CStr.ofString "PUT /x?k=a=b?&=c&k=a=b?&va= \n").bytes _ rfl (by decide)

end Cs162
