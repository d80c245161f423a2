import Cs162.Proofs.HttpResponse

/-!
# Responses put together

A response is its status line, its headers, a blank line and its body, with one of the two line
ends. With `"\r\n"` the loop through the headers stops at each of them once (`httpHeaders_rendered`).
It takes every header whose name is a prefix of `Content-Length` for that one, so its value must be
a number, and the last of these numbers bounds the body.

With `"\n"` the body never arrives as it was sent (`renderResponse_lf`): the cursor is moved four
bytes from the blank line whatever the line ends are.
-/

namespace Cs162

open CLib

/-- A header's name and value. -/
abbrev Header := List UInt8 × List UInt8

def renderHeader (ending : List UInt8) (h : Header) : List UInt8 :=
  h.1 ++ [byte ':', byte ' '] ++ h.2 ++ ending

def renderHeaders (ending : List UInt8) (headers : List Header) (body : List UInt8) : List UInt8 :=
  headers.flatMap (renderHeader ending) ++ ending ++ body

def renderResponse (ending version : List UInt8) (code : ℕ) (phrase : List UInt8)
    (headers : List Header) (body : List UInt8) : List UInt8 :=
  version ++ byte ' ' :: (decimal code ++ byte ' ' ::
    (phrase ++ ending ++ renderHeaders ending headers body))

/-- A name and a value without line ends and NULs, the name without the separator. -/
structure Header.Plain (h : Header) : Prop where
  cr : 13 ∉ h.1 ++ h.2
  lf : 10 ∉ h.1 ++ h.2
  nul : 0 ∉ h.1 ++ h.2
  colon : ¬ [byte ':', byte ' '] <:+: h.1

/-- The number `strtol` reads from a header's value if, but for spaces, it ends at the end of the
line. The line end and the bytes behind it are `rest`. -/
def readNumber (value rest : List UInt8) : Option ℤ :=
  let number := strtol (value ++ rest)
  if number.2 + (((value ++ rest).drop number.2).takeWhile (· = byte ' ')).length = value.length then
    some (number.1.bmod (2 ^ 32))
  else none

/-- Every header that is taken for `Content-Length` has a number, and the last of these is enough for
the body. -/
def LengthsRead (headers : List Header) (body : List UInt8) : Prop :=
  ∀ pre h post, headers = pre ++ h :: post → h.1 <+: contentLengthName.bytes →
    ∃ c, readNumber h.2 (crlf ++ renderHeaders crlf post body) = some c ∧
      ((∀ h' ∈ post, ¬ h'.1 <+: contentLengthName.bytes) → body.length ≤ c ∧ c + 1 < 2 ^ 31)

variable {headers : List Header} {h : Header} {body rest name : List UInt8}

/-! ## One header -/

theorem lineEnd_crlf {line : List UInt8} (h : 13 ∉ line) (rest : List UInt8) :
    lineEnd (line ++ crlf ++ rest) = some line.length := by
  have := strstr_append [10] rest h
  simp only [lineEnd, crlf, this]

/-- The separator behind a name is the first one. -/
theorem strstr_colon : ∀ {name : List UInt8}, ¬ [byte ':', byte ' '] <:+: name →
    strstr (name ++ [byte ':', byte ' '] ++ rest) [byte ':', byte ' '] = some name.length
  | [], _ => rfl
  | c :: name, h => by
    have hname : ¬ [byte ':', byte ' '] <:+: name := fun hi =>
      h (hi.trans (List.suffix_cons _ _).isInfix)
    have hhead : [byte ':', byte ' '].isPrefixOf (c :: (name ++ [byte ':', byte ' '] ++ rest))
        = false := by
      refine Bool.eq_false_iff.2 fun hpre => ?_
      obtain ⟨t, ht⟩ := List.isPrefixOf_iff_prefix.1 hpre
      rcases name with _ | ⟨d, name⟩
      · exact absurd (List.cons.inj (List.cons.inj ht).2).1 (by decide)
      · obtain ⟨h1, h2⟩ := List.cons.inj ht
        obtain ⟨h3, -⟩ := List.cons.inj h2
        exact h ⟨[], name, by rw [← h1, ← h3]; rfl⟩
    have ih := strstr_colon hname
    simp only [List.cons_append] at ih ⊢
    rw [strstr, hhead, if_neg Bool.false_ne_true, ih]
    rfl

/-- What `http_response_parse` does with a header, whose name may be a prefix of the one it looks
for. -/
theorem httpHeader_rendered (hplain : h.Plain) (rest : List UInt8) (old : ℤ) :
    httpHeader (renderHeader crlf h ++ rest) old =
      let n := (h.1 ++ [byte ':', byte ' '] ++ h.2).length
      if h.1.isPrefixOf contentLengthName.bytes then
        match readNumber h.2 (crlf ++ rest) with
        | none => .error .null
        | some c => .ok (n, c)
      else .ok (n, old) := by
  obtain ⟨name, value⟩ := h
  have h13 : 13 ∉ name ++ [byte ':', byte ' '] ++ value := by
    have hcr := hplain.cr
    rw [List.mem_append] at hcr
    simp only [List.mem_append]
    rintro ((h | h) | h)
    · exact hcr (.inl h)
    · exact absurd h (by decide)
    · exact hcr (.inr h)
  have hend := lineEnd_crlf h13 rest
  have hcolon : strstr (name ++ [byte ':', byte ' '] ++ (value ++ crlf ++ rest)) [byte ':', byte ' ']
      = some name.length := strstr_colon hplain.colon
  have hname := strncmp_append_length name ([byte ':', byte ' '] ++ value ++ crlf ++ rest)
    contentLengthName.bytes
  have hdrop : ∀ k, (name ++ [byte ':', byte ' '] ++ value ++ crlf ++ rest).drop
      (name.length + 2 + k) = (value ++ (crlf ++ rest)).drop k := by
    intro k
    simp only [List.append_assoc]
    rw [← List.drop_drop, ← List.drop_drop, List.drop_left]
    rfl
  have hvalue := hdrop 0
  have hlen : (name ++ [byte ':', byte ' '] ++ value).length = name.length + 2 + value.length := by
    simp only [List.length_append, List.length_cons, List.length_nil]
  simp only [renderHeader, List.append_assoc, Nat.add_zero, List.drop_zero]
    at hend hcolon hname hdrop hvalue hlen ⊢
  simp only [httpHeader, hend, hcolon, hname, hvalue, hdrop, hlen]
  rw [if_neg (by omega)]
  by_cases hcl : name.isPrefixOf contentLengthName.bytes = true
  swap
  · rw [if_neg hcl, if_neg hcl]
  rw [if_pos hcl, if_pos hcl, readNumber]
  by_cases hread : (strtol (value ++ (crlf ++ rest))).2 + (((value ++ (crlf ++ rest)).drop
      (strtol (value ++ (crlf ++ rest))).2).takeWhile (· = byte ' ')).length = value.length
  · rw [if_neg (by omega), if_pos hread]
  · rw [if_pos (by omega), if_neg hread]

/-! ## The loop through the headers -/

/-- The value of `content_length` behind the headers. -/
def readLengths : List Header → List UInt8 → ℤ → Option ℤ
  | [], _, contentLength => some contentLength
  | h :: headers, body, contentLength =>
    if h.1.isPrefixOf contentLengthName.bytes then
      (readNumber h.2 (crlf ++ renderHeaders crlf headers body)).bind (readLengths headers body)
    else readLengths headers body contentLength

/-- The string in a buffer that ends with its only NUL. -/
theorem cstr_terminated {buf : List UInt8} (h : 0 ∉ buf) : (cstr (buf ++ [0])).bytes = buf := by
  have := cstr_layout ⟨buf, h⟩
  exact congrArg CStr.bytes this

theorem renderHeaders_cons (ending : List UInt8) (h : Header) (headers : List Header)
    (body : List UInt8) : renderHeaders ending (h :: headers) body
      = renderHeader ending h ++ renderHeaders ending headers body := by
  simp only [renderHeaders, List.flatMap_cons, List.append_assoc]

theorem notMem_renderHeaders {ending : List UInt8} (hending : 0 ∉ ending)
    (hplain : ∀ h ∈ headers, h.Plain) (hbody : 0 ∉ body) :
    0 ∉ renderHeaders ending headers body := by
  have hheader : ∀ h ∈ headers, 0 ∉ renderHeader ending h := by
    intro h hh
    have hnul := (hplain h hh).nul
    rw [List.mem_append, not_or] at hnul
    simp [renderHeader, hnul.1, hnul.2, hending, byte]
  simp only [renderHeaders, List.mem_append, List.mem_flatMap, not_or, not_exists, not_and]
  exact ⟨⟨hheader, hending⟩, hbody⟩

theorem length_le_renderHeaders (ending : List UInt8) (headers : List Header) (body : List UInt8) :
    headers.length ≤ (renderHeaders ending headers body).length := by
  induction headers with
  | nil => exact Nat.zero_le _
  | cons h headers ih =>
    rw [renderHeaders_cons, renderHeader]
    simp only [List.length_append, List.length_cons]
    omega

/-- The cursor behind a line is not at the blank line if a header follows. -/
theorem not_blankLine_header (hplain : h.Plain) (rest : List UInt8) :
    ¬ BlankLine (crlf ++ renderHeader crlf h ++ rest) := by
  obtain ⟨name, value⟩ := h
  rw [blankLine_iff]
  rintro (hpre | hpre)
  · obtain ⟨t, ht⟩ := hpre
    exact absurd (List.cons.inj ht).1 (by decide)
  · rw [List.append_assoc, List.prefix_append_right_inj] at hpre
    obtain ⟨t, ht⟩ := hpre
    rcases name with _ | ⟨c, name⟩
    · exact absurd (List.cons.inj ht).1 (by decide)
    · have hc : 13 = c := (List.cons.inj ht).1
      exact hplain.cr (hc ▸ List.mem_cons_self)

theorem httpHeaders_rendered (hbody : 0 ∉ body) : ∀ {headers : List Header},
    (∀ h ∈ headers, h.Plain) → ∀ (fuel : ℕ) (old : ℤ),
    httpHeaders (fuel + headers.length + 1) (crlf ++ renderHeaders crlf headers body ++ [0]) old
      = match readLengths headers body old with
        | none => .error .null
        | some c => .ok (crlf ++ crlf ++ body ++ [0], c)
  | [], _, fuel, old => by
    have hblank : BlankLine (crlf ++ renderHeaders crlf [] body ++ [0]) :=
      blankLine_iff.2 (.inr ⟨body ++ [0], by simp [renderHeaders]⟩)
    rw [List.length_nil, Nat.add_zero, httpHeaders_succ, if_pos hblank, readLengths]
    simp [renderHeaders]
  | h :: headers, hplain, fuel, old => by
    obtain ⟨hh, hplain⟩ := List.forall_mem_cons.1 hplain
    have ih := httpHeaders_rendered hbody hplain fuel
    set rest := renderHeaders crlf headers body with hrest
    have hline := renderHeaders_cons crlf h headers body
    have hnul : 0 ∉ renderHeader crlf h ++ rest := by
      rw [hrest, ← hline]
      exact notMem_renderHeaders (by decide) (List.forall_mem_cons.2 ⟨hh, hplain⟩) hbody
    have hblank := not_blankLine_header hh (rest ++ [0])
    have hdrop : (crlf ++ renderHeader crlf h ++ (rest ++ [0])).drop 2
        = renderHeader crlf h ++ rest ++ [0] := by
      simp only [List.append_assoc]
      rfl
    have hnext : (renderHeader crlf h ++ rest ++ [0]).drop
        (h.1 ++ [byte ':', byte ' '] ++ h.2).length = crlf ++ rest ++ [0] := by
      have hsplit : renderHeader crlf h ++ rest ++ [0]
          = (h.1 ++ [byte ':', byte ' '] ++ h.2) ++ (crlf ++ rest ++ [0]) := by simp [renderHeader]
      rw [hsplit, List.drop_left]
    have hcursor : crlf ++ renderHeaders crlf (h :: headers) body ++ [0]
        = crlf ++ renderHeader crlf h ++ (rest ++ [0]) := by
      rw [hline]
      simp only [List.append_assoc]
      rfl
    rw [hcursor, List.length_cons, httpHeaders_succ, if_neg hblank, hdrop, if_neg (by simp),
      cstr_terminated hnul, httpHeader_rendered hh, readLengths]
    simp only
    split_ifs
    · rcases readNumber h.2 (crlf ++ rest) with _ | c
      · rfl
      · simp only [ok_bind, hnext, Option.bind_some]
        exact ih c
    · simp only [ok_bind, hnext]
      exact ih old

/-! ## The status line -/

def httpVersions : List (List UInt8) :=
  [(CStr.ofString "HTTP/1.1").bytes, (CStr.ofString "HTTP/1.0").bytes]

theorem httpVersions_spec : ∀ version ∈ httpVersions,
    version.length = 8 ∧ byte ' ' ∉ version ∧ 0 ∉ version := by decide

theorem notMem_renderResponse {ending version : List UInt8} (hversion : version ∈ httpVersions)
    (code : ℕ) (phrase : CStr) (hending : 0 ∉ ending) (hplain : ∀ h ∈ headers, h.Plain)
    (hbody : 0 ∉ body) : 0 ∉ renderResponse ending version code phrase.bytes headers body := by
  have hdec := notMem_decimal (show isdigit 0 = false from rfl)
  have hheaders := notMem_renderHeaders hending hplain hbody
  have hversionNul := (httpVersions_spec version hversion).2.2
  simp [renderResponse, hversionNul, hdec, phrase.noNul, hheaders, hending, byte]

/-- A code with a phrase is printed with three digits. -/
theorem httpGetResponseMessage_spec {code : ℕ} {phrase : CStr}
    (h : httpGetResponseMessage code = some phrase) :
    0 < code ∧ code < 2 ^ 15 ∧ (decimal code).length = 3 ∧ 13 ∉ phrase.bytes := by
  have hcode : code ∈ [100, 200, 201, 202, 204, 301, 302, 304, 400, 401, 403, 404, 405, 500] ∧
      13 ∉ phrase.bytes := by
    unfold httpGetResponseMessage at h
    split at h
    all_goals first
      | (rename_i hc
         obtain rfl := Option.some.inj h
         exact ⟨by simp; omega, by decide⟩)
      | cases h
  have hdec : ∀ n ∈ [100, 200, 201, 202, 204, 301, 302, 304, 400, 401, 403, 404, 405, 500],
      0 < n ∧ n < 2 ^ 15 ∧ (decimal n).length = 3 := by
    simp [decimal]
  obtain ⟨h1, h2, h3⟩ := hdec code hcode.1
  exact ⟨h1, h2, h3, hcode.2⟩

section Rendered

variable {version : List UInt8} {code : ℕ} {phrase : CStr}
  (hversion : version ∈ httpVersions) (hphrase : httpGetResponseMessage code = some phrase)

include hversion hphrase

omit hphrase in
/-- What is left behind the version and the space after it. -/
theorem drop_version (text : List UInt8) (k : ℕ) :
    (version ++ byte ' ' :: text).drop (9 + k) = text.drop k := by
  rw [← List.drop_drop, show 9 = version.length + 1 by rw [(httpVersions_spec version hversion).1],
    ← List.drop_drop, List.drop_left]
  rfl

/-- What is left behind the status and the space after it. -/
theorem drop_status (line : List UInt8) (k : ℕ) :
    (version ++ byte ' ' :: (decimal code ++ byte ' ' :: line)).drop (13 + k) = line.drop k := by
  have hdigits := (httpGetResponseMessage_spec hphrase).2.2.1
  rw [show 13 + k = 9 + ((decimal code).length + (1 + k)) by omega, drop_version hversion,
    ← List.drop_drop, List.drop_left, ← List.drop_drop]
  rfl

theorem statusLine_rendered (rest : List UInt8) :
    statusLine (version ++ byte ' ' :: (decimal code ++ byte ' ' :: (phrase.bytes ++ crlf ++ rest)))
      = some ((code : ℤ), phrase.strlen) := by
  obtain ⟨hpos, hlt, hdigits, hcr⟩ := httpGetResponseMessage_spec hphrase
  obtain ⟨hlen, hspace, -⟩ := httpVersions_spec version hversion
  set line := phrase.bytes ++ crlf ++ rest with hline
  set text := version ++ byte ' ' :: (decimal code ++ byte ' ' :: line) with htext
  have hdrop := drop_version hversion (decimal code ++ byte ' ' :: line)
  have hdrop9 : text.drop 9 = decimal code ++ byte ' ' :: line := hdrop 0
  have hdrop12 : text.drop 12 = byte ' ' :: line := by
    have hnext : (decimal code ++ byte ' ' :: line).drop 3 = byte ' ' :: line := by
      rw [← hdigits, List.drop_left]
    exact (hdrop 3).trans hnext
  have hdrop13 : text.drop 13 = line := drop_status hversion hphrase line 0
  have hnumber := strtol_decimal (n := code) (by omega) (show isdigit (byte ' ') = false from rfl)
    line
  have hend : lineEnd line = some phrase.strlen := lineEnd_crlf hcr rest
  have hcmp : strncmp text (CStr.ofString "HTTP/1.1").bytes 8 = true ∨
      strncmp text (CStr.ofString "HTTP/1.0").bytes 8 = true := by
    have happend : strncmp text version version.length = true := strncmp_append version _
    rw [hlen] at happend
    rw [httpVersions, List.mem_pair] at hversion
    rcases hversion with h | h
    · exact .inl (h ▸ happend)
    · exact .inr (h ▸ happend)
  have hchr : strchr text (byte ' ') = some 8 := by
    rw [htext, strchr_append hspace, hlen]
  have hstatus : (code : ℤ).bmod (2 ^ 16) = code := Int.bmod_eq_of_le (by omega) (by omega)
  have hne : (code : ℤ) ≠ 0 := by omega
  simp only [statusLine, hdrop9, hdrop12, hdrop13, hnumber, hstatus, hend]
  rw [if_pos ⟨hchr, hcmp, hne, hdigits, rfl⟩]
  rfl

/-- A response with `"\r\n"`s is read line by line. -/
theorem httpResponseParse_rendered (hplain : ∀ h ∈ headers, h.Plain) (hbody : 0 ∉ body)
    (hfits : (renderResponse crlf version code phrase.bytes headers body).length
      ≤ libhttpMessageMaxSize) :
    httpResponseParse (renderResponse crlf version code phrase.bytes headers body)
      = match readLengths headers body (-1) with
        | none => .error .null
        | some c => httpBody (body ++ [0]) code c := by
  have hnul := notMem_renderResponse hversion code phrase (show 0 ∉ crlf by decide) hplain hbody
  set sent := renderResponse crlf version code phrase.bytes headers body with hsent
  have hbuffer : readBuffer sent = sent ++ [0] := by
    rw [readBuffer, readMessage, List.take_of_length_le hfits]
  have htext : receivedText sent = sent := by
    rw [receivedText, hbuffer, cstr_terminated hnul]
  have hline : statusLine sent = some ((code : ℤ), phrase.strlen) :=
    statusLine_rendered hversion hphrase (renderHeaders crlf headers body)
  have hcmp : strncmp (sent.drop 13) phrase.bytes phrase.strlen = true := by
    rw [hsent, renderResponse, show 13 = 13 + 0 from rfl, drop_status hversion hphrase,
      List.append_assoc]
    exact strncmp_append _ _
  have hcursor : (sent ++ [0]).drop (13 + phrase.strlen)
      = crlf ++ renderHeaders crlf headers body ++ [0] := by
    have hsplit : sent ++ [0] = version ++ byte ' ' :: (decimal code ++ byte ' ' ::
        (phrase.bytes ++ (crlf ++ renderHeaders crlf headers body ++ [0]))) := by
      simp [hsent, renderResponse]
    rw [hsplit, drop_status hversion hphrase]
    exact List.drop_left
  obtain ⟨fuel, hfuel⟩ : ∃ fuel, (sent ++ [0]).length = fuel + headers.length + 1 := by
    have hmany := length_le_renderHeaders crlf headers body
    refine ⟨(sent ++ [0]).length - (headers.length + 1), ?_⟩
    simp only [hsent, renderResponse, List.length_append, List.length_cons]
    omega
  rw [httpResponseParse_eq, htext, hline]
  simp only [hphrase]
  rw [if_pos hcmp, parseRest, hbuffer, hcursor, hfuel, httpHeaders_rendered hbody hplain]
  rcases readLengths headers body (-1) with _ | c
  · rfl
  · rfl

end Rendered

/-! ## The length of the body -/

/-- A body is copied as it is, if it is copied at all. -/
theorem httpBody_eq_iff {body : CStr} {contentLength : ℤ} (hint : IsInt contentLength) (status : ℤ) :
    httpBody (body.bytes ++ [0]) status contentLength = .ok ⟨status, body⟩ ↔
      body.strlen ≤ contentLength ∧ contentLength + 1 < 2 ^ 31 := by
  have hstr : cstr (body.bytes ++ [0]) = body := cstr_layout body
  have hsafe : SafeParse (httpBody (body.bytes ++ [0]) status contentLength) ↔ _ :=
    httpBody_safe_iff hint status
  rw [hstr, and_iff_right (by simp)] at hsafe
  rw [← hsafe]
  simp only [httpBody, hstr]
  split_ifs <;> simp

theorem readNumber_isInt {value rest : List UInt8} {c : ℤ} (h : readNumber value rest = some c) :
    IsInt c := by
  simp only [readNumber] at h
  split_ifs at h
  exact Option.some.inj h ▸ isInt_bmod _

theorem readLengths_isInt : ∀ {headers : List Header} {old c : ℤ}, IsInt old →
    readLengths headers body old = some c → IsInt c
  | [], old, c, hint, h => Option.some.inj h ▸ hint
  | hd :: headers, old, c, hint, h => by
    rw [readLengths] at h
    split_ifs at h
    · obtain ⟨c', hc', h⟩ := Option.bind_eq_some_iff.1 h
      exact readLengths_isInt (readNumber_isInt hc') h
    · exact readLengths_isInt hint h

theorem readNumber_decimal {n : ℕ} (hn : n < 2 ^ 31) (rest : List UInt8) :
    readNumber (decimal n) (crlf ++ rest) = some (n : ℤ) := by
  have hnumber := strtol_decimal (n := n) (by omega) (show isdigit 13 = false from rfl) (10 :: rest)
  have hspace : ((13 :: 10 :: rest).takeWhile (· = byte ' ')).length = 0 := rfl
  have hmod : (n : ℤ).bmod (2 ^ 32) = n := Int.bmod_eq_of_le (by omega) (by omega)
  change readNumber (decimal n) (13 :: 10 :: rest) = _
  simp only [readNumber, hnumber, List.drop_left, hspace, hmod, Nat.add_zero, if_true]

theorem contentLength_plain (n : ℕ) : Header.Plain (contentLengthName.bytes, decimal n) := by
  have hnot : ∀ c, isdigit c = false → c ∉ contentLengthName.bytes →
      c ∉ contentLengthName.bytes ++ decimal n := fun c hc hname h =>
    (List.mem_append.1 h).elim hname (notMem_decimal hc n)
  refine ⟨hnot 13 rfl (by decide), hnot 10 rfl (by decide), hnot 0 rfl (by decide), fun h => ?_⟩
  exact absurd (h.subset List.mem_cons_self) (show byte ':' ∉ contentLengthName.bytes by decide)

theorem lengthsRead_cons : LengthsRead (h :: headers) body ↔
    (h.1 <+: contentLengthName.bytes →
      ∃ c, readNumber h.2 (crlf ++ renderHeaders crlf headers body) = some c ∧
        ((∀ h' ∈ headers, ¬ h'.1 <+: contentLengthName.bytes) →
          body.length ≤ c ∧ c + 1 < 2 ^ 31)) ∧ LengthsRead headers body := by
  refine ⟨fun hread => ⟨hread [] h headers rfl, fun pre x post heq => ?_⟩, fun ⟨hhead, hread⟩ => ?_⟩
  · exact hread (h :: pre) x post (by rw [heq, List.cons_append])
  · rintro (_ | ⟨y, pre⟩) x post heq
    · obtain ⟨rfl, rfl⟩ := List.cons.inj heq
      exact hhead
    · exact hread pre x post (List.cons.inj heq).2

/-- Headers that are not taken for `Content-Length`. -/
theorem readLengths_of_none : ∀ {headers : List Header},
    (∀ h ∈ headers, ¬ h.1 <+: contentLengthName.bytes) → ∀ old : ℤ,
    readLengths headers body old = some old
  | [], _, _ => rfl
  | h :: headers, hno, old => by
    obtain ⟨hh, hno⟩ := List.forall_mem_cons.1 hno
    rw [readLengths, if_neg fun hpre => hh (List.isPrefixOf_iff_prefix.1 hpre)]
    exact readLengths_of_none hno old

/-- The loop's last number is that of the last header taken. -/
theorem readLengths_iff : ∀ {headers : List Header},
    (∃ h ∈ headers, h.1 <+: contentLengthName.bytes) → ∀ old : ℤ,
    ((∃ c, readLengths headers body old = some c ∧ body.length ≤ c ∧ c + 1 < 2 ^ 31) ↔
      LengthsRead headers body)
  | [], hsome, _ => by simp at hsome
  | h :: headers, hsome, old => by
    rw [lengthsRead_cons, readLengths]
    by_cases hlater : ∃ h' ∈ headers, h'.1 <+: contentLengthName.bytes
    · have ih := readLengths_iff hlater
      by_cases htaken : h.1 <+: contentLengthName.bytes
      · rw [if_pos (List.isPrefixOf_iff_prefix.2 htaken)]
        rcases readNumber h.2 (crlf ++ renderHeaders crlf headers body) with _ | c
        · simp [htaken]
        · have hno : ¬ ∀ h' ∈ headers, ¬ h'.1 <+: contentLengthName.bytes := by simpa using hlater
          rw [Option.bind_some, ih c]
          exact ⟨fun hread => ⟨fun _ => ⟨c, rfl, fun hall => absurd hall hno⟩, hread⟩,
            fun hread => hread.2⟩
      · rw [if_neg fun hpre => htaken (List.isPrefixOf_iff_prefix.1 hpre), ih old]
        exact ⟨fun hread => ⟨fun hpre => absurd hpre htaken, hread⟩, fun hread => hread.2⟩
    · have hno : ∀ h' ∈ headers, ¬ h'.1 <+: contentLengthName.bytes := by simpa using hlater
      have htaken : h.1 <+: contentLengthName.bytes := by
        obtain ⟨h', hh', hpre⟩ := hsome
        rcases List.mem_cons.1 hh' with rfl | hh'
        · exact hpre
        · exact absurd hpre (hno h' hh')
      have hvacuous : LengthsRead headers body := fun pre x post heq hpre =>
        absurd hpre (hno x (heq ▸ by simp))
      rw [if_pos (List.isPrefixOf_iff_prefix.2 htaken)]
      rcases readNumber h.2 (crlf ++ renderHeaders crlf headers body) with _ | c
      · simp [htaken]
      · rw [Option.bind_some, readLengths_of_none hno]
        refine ⟨fun ⟨c', hc', hlen⟩ => ⟨fun _ => ⟨c', hc', fun _ => hlen⟩, hvacuous⟩, fun hread => ?_⟩
        obtain ⟨c', hc', hlen⟩ := hread.1 htaken
        exact ⟨c', hc', hlen hno⟩

/-! ## Line ends of one byte -/

/-- The loop ends at a blank line. -/
theorem httpHeaders_blank : ∀ {fuel : ℕ} {cursor cursor' : List UInt8} {old new : ℤ},
    httpHeaders fuel cursor old = .ok (cursor', new) → cursor' <:+ cursor ∧ BlankLine cursor'
  | 0, _, _, _, _, h => by cases h
  | fuel + 1, cursor, cursor', old, new, h => by
    rw [httpHeaders_succ] at h
    split_ifs at h with hblank
    · obtain ⟨rfl, -⟩ := Prod.mk.inj (Except.ok.inj h)
      exact ⟨List.suffix_rfl, hblank⟩
    · rcases httpHeader_cases (cstr (cursor.drop 2)).bytes old with hnull | ⟨n, c, hok, -, -⟩
      · rw [hnull] at h
        cases h
      · rw [hok, ok_bind] at h
        obtain ⟨hsuffix, hblank'⟩ := httpHeaders_blank h
        exact ⟨hsuffix.trans ((List.drop_suffix _ _).trans (List.drop_suffix _ _)), hblank'⟩

theorem httpBody_body {readStart : List UInt8} {status contentLength : ℤ} {res : HttpResponse}
    (h : httpBody readStart status contentLength = .ok res) :
    readStart ≠ [] ∧ res.body = cstr readStart := by
  simp only [httpBody] at h
  split_ifs at h with h1 h2 h3
  obtain rfl := Except.ok.inj h
  exact ⟨h2, rfl⟩

/-- The body of a response starts four bytes behind the start of a blank line. -/
theorem httpResponseParse_body {sent : List UInt8} {res : HttpResponse}
    (h : httpResponseParse sent = .ok res) : ∃ cursor, cursor <:+ readBuffer sent ∧
      BlankLine cursor ∧ cursor.drop 4 ≠ [] ∧ res.body = cstr (cursor.drop 4) := by
  rw [httpResponseParse_eq] at h
  rcases hline : statusLine (receivedText sent) with _ | ⟨status, n⟩
  · rw [hline] at h
    cases h
  simp only [hline] at h
  rcases hphrase : httpGetResponseMessage status with _ | phrase
  · rw [hphrase] at h
    cases h
  simp only [hphrase] at h
  split_ifs at h
  rw [parseRest] at h
  rcases hheaders : httpHeaders (readBuffer sent).length ((readBuffer sent).drop (13 + n)) (-1)
    with e | ⟨cursor, contentLength⟩
  · rw [hheaders] at h
    cases h
  · rw [hheaders] at h
    obtain ⟨hsuffix, hblank⟩ := httpHeaders_blank hheaders
    obtain ⟨hne, hbody⟩ := httpBody_body h
    exact ⟨cursor, hsuffix.trans (List.drop_suffix _ _), hblank, hne, hbody⟩

/-- Before the blank line is a byte that is no line end. -/
theorem renderResponse_last (version : List UInt8) (code : ℕ) (phrase : List UInt8)
    (hplain : ∀ h ∈ headers, h.Plain) (hne : headers ≠ []) (body : List UInt8) :
    ∃ front c, c ≠ 10 ∧
      renderResponse [10] version code phrase headers body = front ++ [c, 10, 10] ++ body := by
  rcases headers.eq_nil_or_concat' with rfl | ⟨init, ⟨name, value⟩, rfl⟩
  · exact absurd rfl hne
  obtain ⟨front, c, hc, hline⟩ : ∃ front c, c ≠ 10 ∧
      name ++ [byte ':', byte ' '] ++ value = front ++ [c] := by
    rcases value.eq_nil_or_concat' with rfl | ⟨value, c, rfl⟩
    · exact ⟨name ++ [byte ':'], byte ' ', by decide, by simp⟩
    · refine ⟨name ++ [byte ':', byte ' '] ++ value, c, ?_, by simp⟩
      rintro rfl
      exact (hplain _ (List.mem_append_right _ (List.mem_singleton.2 rfl))).lf (by simp)
  refine ⟨version ++ byte ' ' :: (decimal code ++ byte ' ' :: (phrase ++ [10] ++
    init.flatMap (renderHeader [10]) ++ front)), c, hc, ?_⟩
  simp only [renderResponse, renderHeaders, List.flatMap_append, List.flatMap_cons,
    List.flatMap_nil, renderHeader, hline]
  simp

/-- The body of a response with `"\n"`s does not arrive. -/
theorem renderResponse_lf {version : List UInt8} {code : ℕ} {phrase : List UInt8}
    (hplain : ∀ h ∈ headers, h.Plain) (hne : headers ≠ []) {body : CStr}
    (hnul : 0 ∉ renderResponse [10] version code phrase headers body.bytes)
    (hfits : (renderResponse [10] version code phrase headers body.bytes).length
      ≤ libhttpMessageMaxSize) (status : ℤ) :
    httpResponseParse (renderResponse [10] version code phrase headers body.bytes)
      ≠ .ok ⟨status, body⟩ := by
  intro h
  obtain ⟨cursor, hsuffix, hblank, hdrop, hbody⟩ := httpResponseParse_body h
  obtain ⟨front, c, hc, hsent⟩ := renderResponse_last version code phrase hplain hne body.bytes
  rw [readBuffer, readMessage, List.take_of_length_le hfits, hsent] at hsuffix
  rw [hsent] at hnul
  -- the cursor is four bytes before the body and its terminator
  have htail : cursor.drop 4 = body.bytes ++ [0] := by
    rcases List.suffix_concat_iff.1 ((List.drop_suffix 4 cursor).trans hsuffix) with hnil |
      ⟨s, hs, hsuffix'⟩
    · exact absurd hnil hdrop
    · have hs0 : 0 ∉ s := fun h0 => hnul (hsuffix'.subset h0)
      have hbytes : body.bytes = s := by
        rw [show body = cstr (cursor.drop 4) from hbody, hs, cstr_terminated hs0]
      rw [hs, hbytes]
  obtain ⟨a, b, d, e, hcursor⟩ : ∃ a b d e, cursor = [a, b, d, e] ++ (body.bytes ++ [0]) := by
    rcases cursor with _ | ⟨a, _ | ⟨b, _ | ⟨d, _ | ⟨e, rest⟩⟩⟩⟩
    · exact absurd rfl hdrop
    · exact absurd rfl hdrop
    · exact absurd rfl hdrop
    · exact absurd rfl hdrop
    · exact ⟨a, b, d, e, by rw [← htail]; rfl⟩
  obtain ⟨t, ht⟩ := hsuffix
  have hsame : ((t ++ [a]) ++ [b, d, e]) ++ (body.bytes ++ [0])
      = (front ++ [c, 10, 10]) ++ (body.bytes ++ [0]) := by simpa [hcursor] using ht
  have hfront : (t ++ [a]) ++ [b, d, e] = front ++ [c, 10, 10] := List.append_cancel_right hsame
  have hb : b = c := by
    have hlast := (List.append_inj' hfront rfl).2
    exact (List.cons.inj hlast).1
  rcases blankLine_iff.1 hblank with ⟨r, hr⟩ | ⟨r, hr⟩
  · rw [hcursor] at hr
    exact hc (hb ▸ (List.cons.inj (List.cons.inj hr).2).1.symm)
  · rw [hcursor] at hr
    exact hc (hb ▸ (List.cons.inj (List.cons.inj hr).2).1.symm)

/-! ## Both line ends -/

/-- A response arrives as it was sent just if its lines end with `"\r\n"` and every header taken for
`Content-Length` is a number, the last of them enough for the body. -/
theorem renderResponse_parse_iff (ending version : List UInt8) (code : ℕ) (phrase : CStr)
    (headers : List Header) (body : CStr) (hending : ending ∈ [crlf, [10]])
    (hversion : version ∈ httpVersions) (hphrase : httpGetResponseMessage code = some phrase)
    (hplain : ∀ h ∈ headers, h.Plain)
    (hlength : headers.filter (fun h => h.1 = contentLengthName.bytes)
      = [(contentLengthName.bytes, decimal body.strlen)])
    (hfits : (renderResponse ending version code phrase.bytes headers body.bytes).length
      ≤ libhttpMessageMaxSize) :
    httpResponseParse (renderResponse ending version code phrase.bytes headers body.bytes)
      = .ok ⟨code, body⟩ ↔ ending = crlf ∧ LengthsRead headers body.bytes := by
  have hmem : (contentLengthName.bytes, decimal body.strlen) ∈ headers :=
    List.mem_of_mem_filter (hlength ▸ List.mem_singleton.2 rfl)
  rw [List.mem_pair] at hending
  rcases hending with rfl | rfl
  · have htaken : ∃ h ∈ headers, h.1 <+: contentLengthName.bytes := ⟨_, hmem, List.prefix_rfl⟩
    rw [and_iff_right rfl, ← readLengths_iff htaken (-1),
      httpResponseParse_rendered hversion hphrase hplain body.noNul hfits]
    have hone : IsInt (-1) := ⟨by decide, by decide⟩
    rcases hread : readLengths headers body.bytes (-1) with _ | c
    · simp
    · simp only [Option.some.injEq, exists_eq_left']
      exact httpBody_eq_iff (readLengths_isInt hone hread) code
  · have hnul := notMem_renderResponse hversion code phrase (show 0 ∉ [10] by decide) hplain
      body.noNul
    have hne := renderResponse_lf hplain (List.ne_nil_of_mem hmem) hnul hfits code
    exact ⟨fun h => absurd h hne, fun h => absurd h.1 (by decide)⟩

theorem renderResponse_parse_iff_crlf :
    httpResponseParse (renderResponse crlf (CStr.ofString "HTTP/1.1").bytes 200
      (CStr.ofString "OK").bytes [(contentLengthName.bytes, decimal 1)] (CStr.ofString "x").bytes)
      = .ok ⟨200, .ofString "x"⟩ := by
  have hlen : (CStr.ofString "x").strlen = 1 := by decide
  have hread : LengthsRead [(contentLengthName.bytes, decimal 1)] (CStr.ofString "x").bytes := by
    have hnumber := readNumber_decimal (n := 1) (by omega)
      (renderHeaders crlf [] (CStr.ofString "x").bytes)
    have hnone : LengthsRead [] (CStr.ofString "x").bytes := fun pre h post heq => by simp at heq
    exact lengthsRead_cons.2 ⟨fun _ => ⟨_, hnumber, fun _ => ⟨by decide, by decide⟩⟩, hnone⟩
  have hfits : (renderResponse crlf (CStr.ofString "HTTP/1.1").bytes 200 (CStr.ofString "OK").bytes
      [(contentLengthName.bytes, decimal 1)] (CStr.ofString "x").bytes).length
        ≤ libhttpMessageMaxSize := by
    simp [renderResponse, renderHeaders, renderHeader, decimal]
    decide
  exact (renderResponse_parse_iff crlf _ 200 (.ofString "OK") _ (.ofString "x") (by simp)
    (by decide) rfl (List.forall_mem_singleton.2 (contentLength_plain 1)) (by simp [hlen])
    hfits).2 ⟨rfl, hread⟩

theorem lfResponse_not_parsed : ¬ ∀ (ending version : List UInt8) (code : ℕ) (phrase : CStr)
    (headers : List Header) (body : CStr), ending ∈ [crlf, [10]] → version ∈ httpVersions →
    httpGetResponseMessage code = some phrase → (∀ h ∈ headers, h.Plain) →
    headers.filter (fun h => h.1 = contentLengthName.bytes)
      = [(contentLengthName.bytes, decimal body.strlen)] →
    (renderResponse ending version code phrase.bytes headers body.bytes).length
      ≤ libhttpMessageMaxSize →
    httpResponseParse (renderResponse ending version code phrase.bytes headers body.bytes)
      = .ok ⟨code, body⟩ := by
  intro hall
  have hlen : (CStr.ofString "x").strlen = 1 := by decide
  have h := hall [10] (CStr.ofString "HTTP/1.1").bytes 200 (.ofString "OK")
    [(contentLengthName.bytes, decimal 1)] (.ofString "x") (by simp) (by decide) rfl
    (List.forall_mem_singleton.2 (contentLength_plain 1)) (by simp [hlen])
  have hsent : renderResponse [10] (CStr.ofString "HTTP/1.1").bytes 200 (CStr.ofString "OK").bytes
      [(contentLengthName.bytes, decimal 1)] (CStr.ofString "x").bytes
        = (CStr.ofString "HTTP/1.1 200 OK\nContent-Length: 1\n\nx").bytes := by
    simp [renderResponse, renderHeaders, renderHeader, decimal]
    decide
  rw [hsent] at h
  have hrun : ∀ res, httpResponseParse
      (CStr.ofString "HTTP/1.1 200 OK\nContent-Length: 1\n\nx").bytes ≠ .ok res := by
    intro res hok
    have : httpResponseParse (CStr.ofString "HTTP/1.1 200 OK\nContent-Length: 1\n\nx").bytes
      = .error .pastEnd := by decide +kernel
    rw [this] at hok
    cases hok
  exact hrun _ (h (by decide))

end Cs162
