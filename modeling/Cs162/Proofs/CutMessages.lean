import Cs162.Proofs.HttpRender
import Cs162.Proofs.KvMessage
import Cs162.Proofs.Sprintf

/-!
# Messages that arrive cut off

A request that is cut off in its URL or before is no request, and one cut off behind it is the whole
one (`kvrequestRecieve_cut`). A response that is cut off in its headers is no response, but one cut
off in its body is a response with what there is of the body (`kvresponseRecieve_cut`): the length
in its header is only an upper bound.
-/

namespace Cs162

open CLib

/-! ## Requests -/

section Request

variable {method url : CStr} {u tail : List UInt8}

/-- A request line that ends before the end of its URL. -/
theorem httpRequestParse_short (hm : method ∈ validMethods) (hurl : url.bytes = byte '/' :: u)
    (hsp : byte ' ' ∉ url.bytes) (hnl : byte '\n' ∉ url.bytes) {n : ℕ}
    (hn : n ≤ (method.bytes ++ byte ' ' :: url.bytes).length)
    (hlen : (method.bytes ++ byte ' ' :: url.bytes).length ≤ libhttpMessageMaxSize) :
    httpRequestParse ((method.bytes ++ byte ' ' :: url.bytes).take n) = none := by
  have hspace : byte ' ' ∉ method.bytes := by
    simp only [validMethods, List.mem_cons, List.not_mem_nil, or_false] at hm
    rcases hm with rfl | rfl | rfl | rfl <;> decide
  have hread : readMessage ((method.bytes ++ byte ' ' :: url.bytes).take n)
      = (method.bytes ++ byte ' ' :: url.bytes).take n :=
    List.take_of_length_le ((List.length_take_le _ _).trans (hn.trans hlen))
  have hmsg : (cstr ((method.bytes ++ byte ' ' :: url.bytes).take n)).bytes
      = (method.bytes ++ byte ' ' :: url.bytes).take n := by
    refine bytes_cstr fun h => ?_
    have h0 : (0 : UInt8) ≠ byte ' ' := by decide
    have h := List.take_subset _ _ h
    simp [method.noNul, url.noNul, h0] at h
  unfold httpRequestParse
  simp only [hread, hmsg]
  rcases Nat.lt_or_ge method.bytes.length n with hlt | hge
  · obtain ⟨k, rfl⟩ := Nat.exists_eq_add_of_lt hlt
    have htake : (method.bytes ++ byte ' ' :: url.bytes).take (method.bytes.length + k + 1)
        = method.bytes ++ byte ' ' :: url.bytes.take k := by
      rw [Nat.add_assoc, List.take_length_add_append, List.take_succ_cons]
    have hdrop : (method.bytes ++ byte ' ' :: url.bytes.take k).drop (method.bytes.length + 1)
        = url.bytes.take k := by
      rw [← List.drop_drop, List.drop_left]
      rfl
    rw [htake, strchr_append hspace]
    simp only [httpIsValidMethod_of_mem hm, hdrop]
    rcases k with _ | k
    · simp
    · have hslash : url.bytes.take (k + 1) = byte '/' :: u.take k := by
        rw [hurl, List.take_succ_cons]
      have hnone : (u.take k).findIdx? (fun c => c = byte ' ' ∨ c = byte '\n') = none := by
        rw [List.findIdx?_eq_none_iff]
        intro b hb
        have hb := List.take_subset _ _ hb
        rw [decide_eq_false_iff_not, not_or]
        refine ⟨?_, ?_⟩ <;> rintro rfl
        · exact hsp (hurl ▸ List.mem_cons_of_mem _ hb)
        · exact hnl (hurl ▸ List.mem_cons_of_mem _ hb)
      simp only [hslash, hnone, ite_self]
  · rw [List.take_append_of_le_length hge,
      strchr_eq_none.2 fun h => hspace (List.take_subset _ _ h)]
    simp

/-- A request line that ends behind its URL. -/
theorem httpRequestParse_cut (hm : method ∈ validMethods) (hurl : url.bytes = byte '/' :: u)
    (hsp : byte ' ' ∉ url.bytes) (hnl : byte '\n' ∉ url.bytes) (htail : 0 ∉ tail)
    (hlen : (method.bytes ++ byte ' ' :: url.bytes ++ byte ' ' :: tail).length
      ≤ libhttpMessageMaxSize) (n : ℕ) :
    httpRequestParse ((method.bytes ++ byte ' ' :: url.bytes ++ byte ' ' :: tail).take n) =
      if n ≤ (method.bytes ++ byte ' ' :: url.bytes).length then none
      else some ⟨method, url⟩ := by
  rw [List.length_append] at hlen
  split
  · rename_i hn
    rw [List.take_append_of_le_length hn]
    exact httpRequestParse_short hm hurl hsp hnl hn (by omega)
  · rename_i hn
    obtain ⟨k, rfl⟩ := Nat.exists_eq_add_of_lt (Nat.lt_of_not_le hn)
    rw [Nat.add_assoc, List.take_length_add_append, List.take_succ_cons, List.append_assoc,
      List.cons_append]
    refine httpRequestParse_line hm hurl hsp hnl (fun h => htail (List.take_subset _ _ h)) ?_
    have := (List.take_prefix k tail).length_le
    simp only [List.length_append, List.length_cons] at hlen ⊢
    omega

end Request

/-- A request that `kvrequest_send` makes a message of, inside its buffers, that is decoded again. -/
structure Sendable (r : KvRequest) : Prop where
  clean : UrlParams.All Clean ⟨none, r.key, r.val⟩
  method : ∃ method ∈ validMethods, httpMethodForRequestType r.type = some method ∧
    requestType method ⟨pathForRequestType r.type, r.key, r.val⟩ = some r.type
  fits : UrlFits r

/-- A message whose first part is not the request yet, and with any of its second part is. -/
theorem kvrequestRecieve_cut {r : KvRequest} (h : Sendable r) : ∃ head tail,
    kvrequestSend r = some (head ++ tail) ∧ tail ≠ [] ∧
      (head ++ tail).length ≤ libhttpMessageMaxSize ∧
      ∀ n, kvrequestRecieve ((head ++ tail).take n) = if n ≤ head.length then none else some r := by
  obtain ⟨hclean, ⟨method, hmem, hmethod, htype⟩, hfits⟩ := h
  set params : UrlParams := ⟨pathForRequestType r.type, r.key, r.val⟩ with hparams
  obtain ⟨hvalid, hmethodLen⟩ := method_valid hmethod
  have hpath : IsPath params.path := fun p hp =>
    ⟨(pathForRequestType_clean _ p hp).1, (pathForRequestType_clean _ p hp).2.2.2⟩
  obtain ⟨u, hu⟩ : ∃ u, (urlEncode params).bytes = byte '/' :: u := by
    rw [bytes_urlEncode, urlEncodeBuf, List.cons_append,
      List.dropLast_cons_of_ne_nil (by simp)]
    exact ⟨_, rfl⟩
  have hmsg : kvrequestSend r = some (method.bytes ++ byte ' ' :: (urlEncode params).bytes ++
      byte ' ' :: ((CStr.ofString "HTTP/1.1\r\n").bytes ++ (CStr.ofString "\r\n").bytes)) := by
    have hline : (CStr.ofString " HTTP/1.1\r\n").bytes
        = byte ' ' :: (CStr.ofString "HTTP/1.1\r\n").bytes := rfl
    simp [kvrequestSend, hmethod, httpStartRequest, hvalid, httpEndHeaders, hline, hparams]
  have hlen : (method.bytes ++ byte ' ' :: (urlEncode params).bytes ++
      byte ' ' :: ((CStr.ofString "HTTP/1.1\r\n").bytes ++ (CStr.ofString "\r\n").bytes)).length
        ≤ libhttpMessageMaxSize := by
    have hurlLen : (urlEncode params).bytes.length = (urlEncodeBuf params).length - 1 := by
      rw [bytes_urlEncode, List.length_dropLast]
    have hbuf := length_urlEncodeBuf params
    have hend : ((CStr.ofString "HTTP/1.1\r\n").bytes ++ (CStr.ofString "\r\n").bytes).length = 12 := by
      decide +kernel
    unfold UrlFits at hfits
    rw [List.length_append, List.length_append, List.length_cons, List.length_cons, hend, hurlLen,
      hbuf]
    simp only [hparams, libhttpMessageMaxSize]
    omega
  have hshort : (urlEncode params).strlen < 2 ^ 31 := by
    simp only [libhttpMessageMaxSize, List.length_append, List.length_cons] at hlen
    rw [CStr.strlen]
    omega
  refine ⟨_, _, hmsg, List.cons_ne_nil _ _, hlen, fun n => ?_⟩
  have hparse := httpRequestParse_cut hmem hu
    (notMem_urlEncode (by simp) (fun p hp => (pathForRequestType_clean _ p hp).2.1) hclean)
    (notMem_urlEncode (by simp) (fun p hp => (pathForRequestType_clean _ p hp).2.2.1) hclean)
    (by decide) hlen n
  rw [kvrequestRecieve, hparse]
  split
  · rfl
  · simp only [Option.bind_eq_bind, Option.bind_some, urlDecode_urlEncode hpath hclean hshort,
      htype, Option.pure_def]
    rfl

/-! ## Responses -/

theorem lineEnd_of_notMem {text : List UInt8} (h : 10 ∉ text) : lineEnd text = none := by
  rcases hend : lineEnd text with _ | n
  · rfl
  · rcases lineEnd_drop hend with hpre | hpre
    · exact absurd (List.mem_of_mem_drop (hpre.subset List.mem_cons_self)) h
    · exact absurd (List.mem_of_mem_drop (hpre.subset (by decide))) h

theorem statusLine_of_notMem {text : List UInt8} (h : 10 ∉ text) : statusLine text = none := by
  simp only [statusLine, lineEnd_of_notMem fun hmem => h (List.mem_of_mem_drop hmem),
    Option.map_none, ite_self]

/-- Without a line end to come, the loop through the headers finds no header. -/
theorem httpHeaders_of_notMem {rest : List UInt8} (h : 10 ∉ rest) (hnul : 0 ∉ rest) (fuel : ℕ)
    (old : ℤ) : httpHeaders (fuel + 1) (crlf ++ rest ++ [0]) old = .error .null := by
  have hblank : ¬ BlankLine (crlf ++ rest ++ [0]) := by
    rw [blankLine_iff]
    rintro (hpre | hpre)
    · obtain ⟨t, ht⟩ := hpre
      exact absurd (List.cons.inj ht).1 (by decide)
    · rw [List.append_assoc, List.prefix_append_right_inj] at hpre
      have h10 : (10 : UInt8) ∈ rest ++ [0] := hpre.subset (by decide)
      simp [h] at h10
  have hdrop : (crlf ++ rest ++ [0]).drop 2 = rest ++ [0] := rfl
  have hheader : httpHeader rest old = .error .null := by
    rw [httpHeader, lineEnd_of_notMem h]
  rw [httpHeaders_succ, if_neg hblank, hdrop, if_neg (by simp), cstr_terminated hnul, hheader,
    error_bind]

/-- What `kvresponse_send` prints before the body. -/
def responseHead (version : List UInt8) (code : ℕ) (phrase : List UInt8) (h : Header) :
    List UInt8 :=
  version ++ byte ' ' :: (decimal code ++ byte ' ' :: (phrase ++ crlf ++ (renderHeader crlf h ++ crlf)))

theorem renderResponse_eq (version : List UInt8) (code : ℕ) (phrase : List UInt8) (h : Header)
    (body : List UInt8) : renderResponse crlf version code phrase [h] body
      = responseHead version code phrase h ++ body := by
  simp only [renderResponse, responseHead, renderHeaders, List.flatMap_cons, List.flatMap_nil,
    List.append_nil, List.append_assoc, List.cons_append]

section Cut

variable {version : List UInt8} {code : ℕ} {phrase : CStr} {h : Header}

theorem notMem_responseHead (hversion : version ∈ httpVersions) (code : ℕ) (phrase : CStr)
    (hplain : h.Plain) : 0 ∉ responseHead version code phrase.bytes h := by
  have := notMem_renderResponse hversion code phrase (show 0 ∉ crlf by decide)
    (List.forall_mem_singleton.2 hplain) List.not_mem_nil
  rwa [renderResponse_eq, List.append_nil] at this

/-- A header or the blank line behind it is cut off. -/
theorem httpHeaders_cut (hplain : h.Plain) {k : ℕ} (hk : k < (renderHeader crlf h ++ crlf).length)
    (fuel : ℕ) (old : ℤ) :
    httpHeaders (fuel + 2) (crlf ++ (renderHeader crlf h ++ crlf).take k ++ [0]) old
      = .error .null := by
  have hnul : 0 ∉ renderHeader crlf h ++ crlf := by
    have := notMem_renderHeaders (show 0 ∉ crlf by decide) (List.forall_mem_singleton.2 hplain)
      (List.not_mem_nil (a := (0 : UInt8)))
    simpa [renderHeaders] using this
  rcases Nat.lt_or_ge k (renderHeader crlf h).length with hlt | hge
  · have hline : renderHeader crlf h = (h.1 ++ [byte ':', byte ' '] ++ h.2 ++ [13]) ++ [10] := by
      simp only [renderHeader, crlf, List.append_assoc, List.cons_append, List.nil_append]
    have h10 : 10 ∉ h.1 ++ [byte ':', byte ' '] ++ h.2 ++ [13] := by
      have hlf := hplain.lf
      rw [List.mem_append, not_or] at hlf
      simp [hlf.1, hlf.2, byte]
    have htake : (renderHeader crlf h ++ crlf).take k
        = (h.1 ++ [byte ':', byte ' '] ++ h.2 ++ [13]).take k := by
      rw [List.take_append_of_le_length hlt.le, hline]
      rw [hline, List.length_append, List.length_singleton] at hlt
      exact List.take_append_of_le_length (Nat.le_of_lt_succ hlt)
    exact httpHeaders_of_notMem (htake ▸ fun hmem => h10 (List.take_subset _ _ hmem))
      (fun hmem => hnul (List.take_subset _ _ hmem)) (fuel + 1) old
  · obtain ⟨j, rfl⟩ := Nat.exists_eq_add_of_le hge
    rw [List.length_append] at hk
    have htake : (renderHeader crlf h ++ crlf).take ((renderHeader crlf h).length + j)
        = renderHeader crlf h ++ crlf.take j := List.take_length_add_append _
    have hshort : 10 ∉ crlf.take j ∧ 0 ∉ crlf.take j := by
      have hj : j < 2 := Nat.lt_of_add_lt_add_left hk
      rcases j with _ | _ | j
      · decide
      · decide
      · omega
    have hcursor : crlf ++ (renderHeader crlf h ++ crlf.take j) ++ [0]
        = crlf ++ renderHeader crlf h ++ (crlf.take j ++ [0]) := by simp only [List.append_assoc]
    have hdrop : (crlf ++ renderHeader crlf h ++ (crlf.take j ++ [0])).drop 2
        = renderHeader crlf h ++ crlf.take j ++ [0] := by
      simp only [List.append_assoc]
      rfl
    have hbytes : 0 ∉ renderHeader crlf h ++ crlf.take j := by
      rw [← htake]
      exact fun hmem => hnul (List.take_subset _ _ hmem)
    have hnext : (renderHeader crlf h ++ crlf.take j ++ [0]).drop
        (h.1 ++ [byte ':', byte ' '] ++ h.2).length = crlf ++ crlf.take j ++ [0] := by
      have hsplit : renderHeader crlf h ++ crlf.take j ++ [0]
          = (h.1 ++ [byte ':', byte ' '] ++ h.2) ++ (crlf ++ crlf.take j ++ [0]) := by
        simp [renderHeader]
      rw [hsplit, List.drop_left]
    have hlast : ∀ c, httpHeaders (fuel + 1) (crlf ++ crlf.take j ++ [0]) c = .error .null :=
      fun c => httpHeaders_of_notMem hshort.1 hshort.2 fuel c
    rw [htake, hcursor, httpHeaders_succ, if_neg (not_blankLine_header hplain _), hdrop,
      if_neg (by simp), cstr_terminated hbytes, httpHeader_rendered hplain]
    simp only
    split_ifs
    · rcases readNumber h.2 (crlf ++ crlf.take j) with _ | c
      · rfl
      · simp only [ok_bind, hnext]
        exact hlast c
    · simp only [ok_bind, hnext]
      exact hlast old

theorem notMem_lf (hversion : version ∈ httpVersions)
    (hphrase : httpGetResponseMessage code = some phrase) :
    10 ∉ version ++ byte ' ' :: (decimal code ++ byte ' ' :: (phrase.bytes ++ [13])) := by
  have hver : ∀ version ∈ httpVersions, 10 ∉ version := by decide
  have hdec := notMem_decimal (show isdigit 10 = false from rfl) code
  have hphr : 10 ∉ phrase.bytes := by
    unfold httpGetResponseMessage at hphrase
    split at hphrase
    all_goals first
      | (obtain rfl := Option.some.inj hphrase
         decide)
      | cases hphrase
  simp [hver version hversion, hdec, hphr, byte]

theorem responseHead_eq (version : List UInt8) (code : ℕ) (phrase : CStr) (h : Header) :
    responseHead version code phrase.bytes h
      = (version ++ byte ' ' :: (decimal code ++ byte ' ' :: (phrase.bytes ++ [13]))) ++
        ([10] ++ (renderHeader crlf h ++ crlf)) := by
  simp only [responseHead, crlf, List.append_assoc, List.cons_append, List.nil_append]

/-- A response that ends before its body does. -/
theorem httpResponseParse_short (hversion : version ∈ httpVersions)
    (hphrase : httpGetResponseMessage code = some phrase) (hplain : h.Plain) {n : ℕ}
    (hn : n < (responseHead version code phrase.bytes h).length)
    (hlen : (responseHead version code phrase.bytes h).length ≤ libhttpMessageMaxSize) :
    httpResponseParse ((responseHead version code phrase.bytes h).take n) = .error .null := by
  set head := responseHead version code phrase.bytes h with hhead
  have hnul : 0 ∉ head.take n := fun hmem =>
    notMem_responseHead hversion code phrase hplain (List.take_subset _ _ hmem)
  have hbuffer : readBuffer (head.take n) = head.take n ++ [0] := by
    rw [readBuffer, readMessage, List.take_of_length_le]
    exact (List.length_take_le _ _).trans (hn.le.trans hlen)
  have htext : receivedText (head.take n) = head.take n := by
    rw [receivedText, hbuffer, cstr_terminated hnul]
  rw [httpResponseParse_eq, htext]
  obtain ⟨line, hline⟩ : ∃ line, line = version ++ byte ' ' :: (decimal code ++ byte ' ' ::
      (phrase.bytes ++ [13])) := ⟨_, rfl⟩
  rw [responseHead_eq, ← hline] at hhead
  rcases Nat.lt_or_ge line.length n with hlt | hge
  · obtain ⟨k, rfl⟩ := Nat.exists_eq_add_of_lt hlt
    have hk : k < (renderHeader crlf h ++ crlf).length := by
      rw [hhead, List.length_append, List.singleton_append, List.length_cons] at hn
      omega
    obtain ⟨rest, hrest⟩ : ∃ rest, rest = (renderHeader crlf h ++ crlf).take k := ⟨_, rfl⟩
    have htake : head.take (line.length + k + 1)
        = version ++ byte ' ' :: (decimal code ++ byte ' ' :: (phrase.bytes ++ crlf ++ rest)) := by
      rw [hhead, Nat.add_assoc, List.take_length_add_append, List.singleton_append,
        List.take_succ_cons, ← hrest, hline]
      simp only [crlf, List.append_assoc, List.cons_append, List.nil_append]
    have hcmp : strncmp ((head.take (line.length + k + 1)).drop 13) phrase.bytes phrase.strlen
        = true := by
      rw [htake, show 13 = 13 + 0 from rfl, drop_status hversion hphrase, List.append_assoc]
      exact strncmp_append _ _
    have hcursor : (head.take (line.length + k + 1) ++ [0]).drop (13 + phrase.strlen)
        = crlf ++ rest ++ [0] := by
      have hsplit : head.take (line.length + k + 1) ++ [0] = version ++ byte ' ' :: (decimal code ++
          byte ' ' :: (phrase.bytes ++ (crlf ++ rest ++ [0]))) := by simp [htake]
      rw [hsplit, drop_status hversion hphrase]
      exact List.drop_left
    obtain ⟨fuel, hfuel⟩ : ∃ fuel, (head.take (line.length + k + 1) ++ [0]).length = fuel + 2 := by
      refine ⟨(head.take (line.length + k + 1)).length - 1, ?_⟩
      rw [htake]
      simp only [List.length_append, List.length_cons, List.length_nil]
      omega
    rw [htake, statusLine_rendered hversion hphrase, ← htake]
    simp only [hphrase]
    rw [if_pos hcmp, parseRest, hbuffer, hcursor, hfuel, hrest, httpHeaders_cut hplain hk,
      error_bind]
  · have h10 : 10 ∉ head.take n := by
      rw [hhead, List.take_append_of_le_length hge]
      exact fun hmem => notMem_lf hversion hphrase (hline ▸ List.take_subset _ _ hmem)
    rw [statusLine_of_notMem h10]

end Cut

/-- A response that ends in its body. -/
theorem httpResponseParse_cutBody {version : List UInt8} {code : ℕ} {phrase body : CStr}
    (hversion : version ∈ httpVersions) (hphrase : httpGetResponseMessage code = some phrase)
    (hfits : (renderResponse crlf version code phrase.bytes
      [(contentLengthName.bytes, decimal body.strlen)] body.bytes).length ≤ libhttpMessageMaxSize)
    (n : ℕ) :
    httpResponseParse (renderResponse crlf version code phrase.bytes
      [(contentLengthName.bytes, decimal body.strlen)] (body.cutOff n).bytes)
        = .ok ⟨code, body.cutOff n⟩ := by
  have hplain := List.forall_mem_singleton.2 (contentLength_plain body.strlen)
  have hcut : (body.cutOff n).bytes.length ≤ body.strlen := (List.take_prefix n _).length_le
  simp only [renderResponse_eq, List.length_append] at hfits ⊢
  have hbody : body.strlen ≤ 2 ^ 13 := by
    unfold libhttpMessageMaxSize at hfits
    simp only [CStr.strlen]
    omega
  have hnumber := readNumber_decimal (n := body.strlen) (by omega)
    (renderHeaders crlf [] (body.cutOff n).bytes)
  have hread : readLengths [(contentLengthName.bytes, decimal body.strlen)] (body.cutOff n).bytes (-1)
      = some (body.strlen : ℤ) := by
    rw [readLengths, if_pos (List.isPrefixOf_iff_prefix.2 List.prefix_rfl), hnumber]
    rfl
  have hint : IsInt (body.strlen : ℤ) := ⟨by omega, by omega⟩
  have hlen : (renderResponse crlf version code phrase.bytes
      [(contentLengthName.bytes, decimal body.strlen)] (body.cutOff n).bytes).length
        ≤ libhttpMessageMaxSize := by
    rw [renderResponse_eq, List.length_append]
    exact (Nat.add_le_add_left hcut _).trans hfits
  rw [← renderResponse_eq, httpResponseParse_rendered hversion hphrase hplain (body.cutOff n).noNul
    hlen, hread]
  refine (httpBody_eq_iff hint code).2 ⟨?_, by omega⟩
  exact Int.ofNat_le.2 hcut

/-- What is received of a response that is cut off. -/
theorem kvresponseRecieve_cut {kvres : KvResponse} {data : CStr}
    (hdata : data = kvres.body.getD (.ofString ""))
    (htype : kvres.type ∈ [MsgType.getresp, .success, .error, .vote, .ack]) : ∃ head,
      kvresponseSend kvres = some (head ++ data.bytes) ∧
        ((head ++ data.bytes).length ≤ libhttpMessageMaxSize → ∀ n,
          kvresponseRecieve ((head ++ data.bytes).take n) = if n < head.length then .error .null
            else .ok ⟨kvres.type, some (data.cutOff (n - head.length))⟩) := by
  obtain ⟨type, body⟩ := kvres
  obtain ⟨code, hcode⟩ : ∃ code, httpCodeForResponseType type = some code := by
    simp only [List.mem_cons, List.not_mem_nil, or_false] at htype
    rcases htype with rfl | rfl | rfl | rfl | rfl <;> exact ⟨_, rfl⟩
  have hspec : kvresponseGetStatusCode code = type ∧ type ≠ .empty ∧
      ∃ phrase, httpGetResponseMessage code = some phrase := by
    cases type <;> cases hcode <;> exact ⟨rfl, by simp, _, rfl⟩
  obtain ⟨hback, hempty, phrase, hphrase⟩ := hspec
  set version := (CStr.ofString "HTTP/1.1").bytes with hversion
  set header : Header := (contentLengthName.bytes, decimal data.strlen) with hheader
  have hmsg : kvresponseSend ⟨type, body⟩
      = some (responseHead version code phrase.bytes header ++ data.bytes) := by
    have hend : (CStr.ofString "\r\n").bytes = crlf := rfl
    have hstart : (CStr.ofString "HTTP/1.1 ").bytes = version ++ [byte ' '] := rfl
    rcases body with _ | body
    · have hnil : data.bytes = [] := by rw [hdata]; rfl
      simp [kvresponseSend, hcode, httpStartResponse, hphrase, httpAddHeader, httpEndHeaders, hend,
        httpAddString, hnil, decimal, responseHead, renderHeader, hstart, CStr.strlen, hheader]
    · have hsome : data = body := hdata
      simp [kvresponseSend, hcode, httpStartResponse, hphrase, httpAddHeader, httpEndHeaders, hend,
        httpAddString, hsome, responseHead, renderHeader, hstart, hheader]
  refine ⟨_, hmsg, fun hlen n => ?_⟩
  have hmem : version ∈ httpVersions := by decide
  have hplain : header.Plain := contentLength_plain data.strlen
  rw [kvresponseRecieve]
  split
  · rename_i hn
    have hle : (responseHead version code phrase.bytes header).length ≤ libhttpMessageMaxSize := by
      rw [List.length_append] at hlen
      omega
    rw [List.take_append_of_le_length hn.le, httpResponseParse_short hmem hphrase hplain hn hle,
      error_bind]
  · rename_i hn
    obtain ⟨k, rfl⟩ := Nat.exists_eq_add_of_le (Nat.le_of_not_lt hn)
    rw [List.take_length_add_append, Nat.add_sub_cancel_left, ← renderResponse_eq]
    rw [← renderResponse_eq] at hlen
    have hparse := httpResponseParse_cutBody hmem hphrase hlen k
    rw [CStr.cutOff] at hparse
    rw [hparse, ok_bind, hback, if_neg hempty]
    rfl

end Cs162
