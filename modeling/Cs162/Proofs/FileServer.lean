import Cs162.FileServer
import Cs162.Lib.SendLoop
import Cs162.Lib.Words

/-!
# What the file server answers

Exactly the requests are parsed whose first line is whole in the first `read`. They are answered as
the comment over `handle_files_request` says just if all is `Ready` for it: for a path with nothing
there the answer depends on what the stack holds, and `index.html` is sent as a string.

The length goes out before the file, so no part of an answer passes for a whole one, and the
promised answer arrives where no `write` fails. One that fails is the last one, as its signal ends
the process of the connection.
-/

namespace Cs162

open CLib

namespace FileServer

/-! ## The request line -/

/-- What a request may go on with behind its path, up to the end of the line. -/
structure IsLine (request : HttpRequest) (rest : List UInt8) : Prop where
  method_ne : request.method.bytes ≠ []
  method : ∀ b ∈ request.method.bytes, isUpper b = true
  path_ne : request.path.bytes ≠ []
  path : ∀ b ∈ request.path.bytes, inPath b = true
  rest_head : ∀ b ∈ rest.head?, b = byte ' '
  noLf : byte '\n' ∉ rest
  noNul : 0 ∉ rest

def line (request : HttpRequest) (rest : List UInt8) : List UInt8 :=
  request.method.bytes ++ byte ' ' :: (request.path.bytes ++ (rest ++ [byte '\n']))

/-- Exactly the requests are parsed whose first line arrives whole with the first `read`: a method
in capitals, a path up to the next blank, and anything behind it. -/
theorem httpRequestParse_iff {sent : List UInt8} {request : HttpRequest} :
    httpRequestParse sent = some request ↔
      ∃ rest, IsLine request rest ∧ line request rest <+: sent.take requestMaxSize := by
  have hnoNul : 0 ∉ (cstr (sent.take requestMaxSize)).bytes := (cstr _).noNul
  rw [httpRequestParse]
  simp only
  constructor
  · intro h
    split_ifs at h with hmethod
    split at h
    · cases h
    next c after hafter =>
    split_ifs at h with hc hpath hlf
    rw [ne_eq, not_not] at hc
    subst hc
    obtain ⟨rest, tail, hrest, hnolf⟩ := List.eq_append_cons_of_mem hlf
    have hmsg : (cstr (sent.take requestMaxSize)).bytes =
        (cstr (sent.take requestMaxSize)).bytes.takeWhile isUpper ++
          byte ' ' :: (after.takeWhile inPath ++ (rest ++ byte '\n' :: tail)) := by
      rw [← hrest, List.takeWhile_append_dropWhile, ← hafter, List.takeWhile_append_dropWhile]
    have hmethodNul : 0 ∉ (cstr (sent.take requestMaxSize)).bytes.takeWhile isUpper :=
      fun h => hnoNul ((List.takeWhile_subset _) h)
    rw [hmsg] at hnoNul
    simp only [List.mem_append, List.mem_cons, not_or] at hnoNul
    obtain ⟨-, -, hpathNul, hrestNul, -⟩ := hnoNul
    cases h
    refine ⟨rest, ⟨?_, ?_, ?_, ?_, ?_, hnolf, hrestNul⟩, ?_⟩
    · rwa [bytes_cstr hmethodNul]
    · rw [bytes_cstr hmethodNul]
      exact fun b hb => List.mem_takeWhile_imp hb
    · rwa [bytes_cstr hpathNul]
    · rw [bytes_cstr hpathNul]
      exact fun b hb => List.mem_takeWhile_imp hb
    · rintro b hb
      rcases rest with _ | ⟨b', rest⟩
      · cases hb
      · obtain rfl : b' = b := Option.some.inj hb
        have hstop : inPath b' = false := dropWhile_head hrest
        have hne : b' ≠ byte '\n' := fun h => hnolf (h ▸ List.mem_cons_self)
        simpa [inPath, hne] using hstop
    · refine List.IsPrefix.trans ⟨tail, ?_⟩ (List.takeWhile_prefix (· ≠ (0 : UInt8)))
      refine Eq.trans ?_ hmsg.symm
      simp only [line, bytes_cstr hmethodNul, bytes_cstr hpathNul, List.append_assoc,
        List.cons_append, List.nil_append]
  · rintro ⟨rest, hline, hprefix⟩
    have hlineNul : 0 ∉ line request rest := by
      have h0 : (0 : UInt8) ≠ byte ' ' ∧ (0 : UInt8) ≠ byte '\n' := by decide
      simp [line, request.method.noNul, request.path.noNul, hline.noNul, h0]
    obtain ⟨tail, hmsg⟩ := (prefix_cstr_iff hlineNul).2 hprefix
    rw [line, List.append_assoc, List.cons_append, List.append_assoc, List.append_assoc,
      List.singleton_append] at hmsg
    obtain ⟨hmethod, hafter⟩ := span_append hline.method
      (r := byte ' ' :: (request.path.bytes ++ (rest ++ byte '\n' :: tail)))
      (by rintro b ⟨⟩; decide)
    have hstop : ∀ b ∈ (rest ++ byte '\n' :: tail).head?, inPath b = false := by
      rcases rest with _ | ⟨b, rest⟩
      · rintro b ⟨⟩
        decide
      · rintro b' ⟨⟩
        rw [hline.rest_head b rfl]
        decide
    obtain ⟨hpath, hbehind⟩ := span_append hline.path hstop
    simp only [← hmsg, hmethod, hafter, hpath, hbehind, cstr_bytes, if_neg hline.method_ne,
      if_neg hline.path_ne, ne_eq, not_true_eq_false, if_false]
    rw [if_pos (by simp)]

/-! ## The response -/

namespace Machine

variable (m : Machine)

/-- When the `index.html` of a directory does no harm: there is none, and what is left in memory
does not look like one, or it has no NUL and the byte behind it is one by chance. -/
def IndexReady (indexPath : CStr) : Prop :=
  match m.files indexPath with
  | none => m.fullPathStat ≠ .reg
  | some (.reg (some contents)) => 0 ∉ contents ∧ m.bufferEnd = 0
  | some (.reg none) => False
  | some _ => True

/-- When a request is answered as promised: the path fits behind the directory of the server; what
is not there does not look, from what is left in memory, as if it was; a file can be opened; and the
listing of a directory, which is always made, fits, as does the path of its `index.html`. -/
def Ready (request : HttpRequest) : Prop :=
  let fullPath := m.fullPath request
  fullPath.strlen < m.room ∧
    match m.files fullPath with
    | none => m.pathStat = .other
    | some (.reg contents) => contents.isSome
    | some (.dir names) => (listing request.path (names.getD [])).length < retvalueSize ∧
        (strcat fullPath indexName).strlen < m.room ∧ m.IndexReady (strcat fullPath indexName)
    | some .other => True

end Machine

variable {m : Machine} {request : HttpRequest}

def Response.bytes (r : Response) : List UInt8 := r.pieces.flatten

theorem bytes_decimal (n : ℕ) : (cstr (decimal n)).bytes = decimal n :=
  bytes_cstr (notMem_decimal (by decide) n)

/-- The response with the file, up to what varies. -/
theorem found_bytes (type : CStr) (body : List UInt8) : (found type body).bytes =
    (CStr.ofString "HTTP/1.0 200 OK\r\nContent-type: ").bytes ++ (type.bytes ++ 13 ::
      (10 :: (CStr.ofString "Content-length: ").bytes ++ (decimal body.length ++ 13 ::
        (10 :: crlf ++ body)))) := by
  have hstart : httpStartResponse 200 ++ (contentType.bytes ++ [byte ':', byte ' ']) =
      (CStr.ofString "HTTP/1.0 200 OK\r\nContent-type: ").bytes := by decide
  have hlength : contentLength.bytes ++ [byte ':', byte ' '] =
      (CStr.ofString "Content-length: ").bytes := by decide
  rw [← hstart, ← hlength]
  simp [Response.bytes, Response.pieces, found, httpSendHeader, bytes_decimal, crlf]

/-- No response with a file starts another one. -/
theorem found_begins {type type' : CStr} {body body' : List UInt8} (htype : 13 ∉ type.bytes)
    (htype' : 13 ∉ type'.bytes) (h : (found type body).bytes <+: (found type' body').bytes) :
    type = type' ∧ body = body' := by
  rw [found_bytes, found_bytes, List.prefix_append_right_inj] at h
  obtain ⟨hsame, h⟩ := prefix_append_cons htype htype' h
  rw [List.prefix_append_right_inj] at h
  obtain ⟨hlength, h⟩ := prefix_append_cons (notMem_decimal (by decide) _)
    (notMem_decimal (by decide) _) h
  rw [List.prefix_append_right_inj] at h
  have hlen : body.length = body'.length := by
    rw [← digits_decimal_end body.length, hlength, digits_decimal_end]
  exact ⟨CStr.ext hsame, h.eq_of_length hlen⟩

theorem not_found_begins_notFound (type : CStr) (body : List UInt8) :
    ¬ (found type body).bytes <+: notFound.bytes := by
  rintro ⟨rest, h⟩
  have hstatus : ((found type body).bytes ++ rest)[9]? = notFound.bytes[9]? := by rw [h]
  rw [found_bytes, List.append_assoc, List.getElem?_append_left (by decide)] at hstatus
  exact absurd hstatus (by decide)

theorem httpGetMimeType_plain (fileName : CStr) : 13 ∉ (httpGetMimeType fileName).bytes := by
  have hplain : ∀ type ∈ ["text/plain", "text/html", "image/jpeg", "image/png", "text/css",
      "application/javascript", "application/pdf"], 13 ∉ (CStr.ofString type).bytes := by decide
  unfold httpGetMimeType
  split
  · exact hplain _ (by simp)
  · simp only
    split_ifs <;> exact hplain _ (by simp)

/-- What the handler sends: a file or a list, or that there is none. -/
def Response.IsAnswer (r : Response) : Prop :=
  r = notFound ∨ ∃ type body, 13 ∉ type.bytes ∧ r = found type body

theorem handle_isAnswer {received : Option (List UInt8)} {response : Response}
    (h : handleFilesRequest m received = some response) : response.IsAnswer := by
  have hhtml : 13 ∉ (CStr.ofString "text/html").bytes := by decide
  simp only [handleFilesRequest, Option.bind_eq_bind, Option.bind_eq_some_iff] at h
  obtain ⟨sent, -, request, -, h⟩ := h
  split_ifs at h
  split at h
  · unfold Machine.sendDirectory at h
    simp only at h
    split_ifs at h
    · simp only [Option.bind_eq_bind, Option.bind_eq_some_iff] at h
      obtain ⟨contents, -, h⟩ := h
      split_ifs at h
      cases h
      exact .inr ⟨_, _, hhtml, rfl⟩
    · cases h
      exact .inr ⟨_, _, hhtml, rfl⟩
  · simp only [Option.bind_eq_some_iff] at h
    obtain ⟨contents, -, h⟩ := h
    cases h
    exact .inr ⟨_, _, httpGetMimeType_plain _, rfl⟩
  · cases h
    exact .inl rfl

/-- Whatever becomes of the calls of `write`: if what arrives starts with the whole response for
some file, then it is the response that is sent, and all of it has arrived. -/
theorem served_whole {received : Option (List UInt8)} {response : Response}
    (h : handleFilesRequest m received = some response) (rs : List WriteResult) {type : CStr}
    {body : List UInt8} (htype : 13 ∉ type.bytes)
    (harrived : (found type body).bytes <+: SendLoop.sendAll response.pieces rs) :
    response = found type body ∧ SendLoop.sendAll response.pieces rs = response.bytes := by
  have hsent : SendLoop.sendAll response.pieces rs <+: response.bytes :=
    SendLoop.sendAll_begins response.pieces rs
  have hwhole := harrived.trans hsent
  rcases handle_isAnswer h with rfl | ⟨type', body', htype', rfl⟩
  · exact absurd hwhole (not_found_begins_notFound type body)
  · obtain ⟨rfl, rfl⟩ := found_begins htype htype' hwhole
    exact ⟨rfl, hsent.eq_of_length_le harrived.length_le⟩

/-- A single file, of two bytes. -/
def twoBytes : Machine where
  files path := if path = .ofString "www/a.css" then some (.reg (some [0, 255])) else none
  directory := .ofString "www"
  room := 100
  pathStat := .other
  fullPathStat := .other
  bufferEnd := 0

theorem served_whole_twoBytes : ∃ response,
    handleFilesRequest twoBytes (some ((CStr.ofString "GET /a.css HTTP/1.0\n").bytes)) =
      some response ∧
    response = found (.ofString "text/css") [0, 255] ∧
    SendLoop.sendAll response.pieces (.short 7 :: List.replicate 5 .full) = response.bytes := by
  have hhandle : handleFilesRequest twoBytes (some (CStr.ofString "GET /a.css HTTP/1.0\n").bytes) =
      some (found (.ofString "text/css") [0, 255]) := rfl
  exact ⟨_, hhandle, served_whole hhandle _ (by decide) (by decide)⟩

end FileServer

end Cs162
