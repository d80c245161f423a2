import Cs162.LibHttp
import Mathlib.Logic.Relation

/-!
# Reading a response

`http_response_parse` reads the status line, then a header for every line end it is at, then the
body. Its loop through the headers is a walk of a cursor (`HeaderStep`) that always stands at a line
end. It ends at a blank line or at a line that is no header, so it never runs out of rounds.

The parse is safe just if nothing on the way is read beyond the buffer and the body fits
(`httpResponseParse_safe_iff`). What breaks this is a status code without a phrase, a line that ends
with the last byte received, a blank line of two `\n`s, which is passed as if it had four bytes, and a
`Content-Length` that is missing, negative or smaller than the body.
-/

namespace Cs162

open CLib Relation

theorem ok_bind {α β : Type} (a : α) (f : α → Except HttpFailure β) :
    (Except.ok a >>= f) = f a := rfl

theorem error_bind {α β : Type} (e : HttpFailure) (f : α → Except HttpFailure β) :
    ((Except.error e : Except HttpFailure α) >>= f) = .error e := rfl

/-! ## The status line -/

def readBuffer (sent : List UInt8) : List UInt8 := readMessage sent ++ [0]

def receivedText (sent : List UInt8) : List UInt8 := (cstr (readBuffer sent)).bytes

/-- The status in a well-formed status line, and how many bytes its phrase must have. -/
def statusLine (text : List UInt8) : Option (ℤ × ℕ) :=
  let value := strtol (text.drop 9)
  let status := value.1.bmod (2 ^ 16)
  if strchr text (byte ' ') = some 8 ∧ (strncmp text (CStr.ofString "HTTP/1.1").bytes 8 = true ∨
      strncmp text (CStr.ofString "HTTP/1.0").bytes 8 = true) ∧
      status ≠ 0 ∧ value.2 = 3 ∧ (text.drop 12).head? = some (byte ' ') then
    (lineEnd (text.drop 13)).map fun n => (status, n)
  else none

/-- What `http_response_parse` does from the end of the status line on. -/
def parseRest (status : ℤ) (fuel : ℕ) (s : List UInt8 × ℤ) : Except HttpFailure HttpResponse := do
  let headers ← httpHeaders fuel s.1 s.2
  httpBody (headers.1.drop 4) status headers.2

theorem httpResponseParse_eq (sent : List UInt8) : httpResponseParse sent =
    match statusLine (receivedText sent) with
    | none => .error .null
    | some (status, n) => match httpGetResponseMessage status with
      | none => .error .nullPhrase
      | some phrase =>
        if strncmp ((receivedText sent).drop 13) phrase.bytes n then
          parseRest status (readBuffer sent).length ((readBuffer sent).drop (13 + n), -1)
        else .error .null := by
  by_cases hempty : readMessage sent = []
  · have hnone : statusLine (receivedText sent) = none := by
      unfold receivedText readBuffer
      rw [hempty]
      rfl
    rw [hnone, httpResponseParse, if_pos hempty]
  have hbuffer : readMessage sent ++ [0] = readBuffer sent := rfl
  have htext : (cstr (readBuffer sent)).bytes = receivedText sent := rfl
  simp only [httpResponseParse, if_neg hempty, hbuffer, htext, statusLine]
  generalize receivedText sent = text
  split_ifs with h1 h2 h3 h4 h5 h6 h7
  · exact absurd h2.1 h1
  · rfl
  · simp [h3] at h4
  · rfl
  · obtain ⟨-, -, hstatus, hlen, hnext⟩ := h6
    rcases h5 with h | h | h
    · exact absurd h hstatus
    · exact absurd hlen h
    · exact absurd hnext h
  · rfl
  · rcases lineEnd (text.drop 13) with _ | n
    · rfl
    simp only [Option.map_some]
    rcases httpGetResponseMessage ((strtol (text.drop 9)).1.bmod (2 ^ 16)) with _ | phrase
    · rfl
    simp only
    cases strncmp (text.drop 13) phrase.bytes n <;> rfl
  · rw [not_or, not_or, not_not, not_not] at h5
    refine absurd ⟨not_not.1 h1, ?_, h5⟩ h7
    simpa only [not_and_or, Bool.not_eq_false] using h3

/-! ## The walk through the headers -/

/-- The cursor is at a blank line, where the loop ends. -/
def BlankLine (cursor : List UInt8) : Prop :=
  strncmp (cstr cursor).bytes [10, 10] 2 = true ∨ strncmp (cstr cursor).bytes (crlf ++ crlf) 4 = true

instance (cursor : List UInt8) : Decidable (BlankLine cursor) := inferInstanceAs (Decidable (_ ∨ _))

theorem httpHeaders_succ (fuel : ℕ) (cursor : List UInt8) (contentLength : ℤ) :
    httpHeaders (fuel + 1) cursor contentLength
      = if BlankLine cursor then .ok (cursor, contentLength)
        else if cursor.drop 2 = [] then .error .pastEnd
        else httpHeader (cstr (cursor.drop 2)).bytes contentLength >>= fun header =>
          httpHeaders fuel ((cursor.drop 2).drop header.1) header.2 := by
  rw [httpHeaders]
  rfl

/-- One round of the loop, on the cursor and `content_length`. -/
inductive HeaderStep : List UInt8 × ℤ → List UInt8 × ℤ → Prop
  | header {cursor : List UInt8} {contentLength contentLength' : ℤ} {n : ℕ}
      (hblank : ¬ BlankLine cursor)
      (hheader : httpHeader (cstr (cursor.drop 2)).bytes contentLength = .ok (n, contentLength')) :
      HeaderStep (cursor, contentLength) ((cursor.drop 2).drop n, contentLength')

/-- Nothing is read beyond the buffer at this cursor, and at a blank line the body fits. -/
def CursorOk (s : List UInt8 × ℤ) : Prop :=
  if BlankLine s.1 then
    s.1.drop 4 ≠ [] ∧ (cstr (s.1.drop 4)).strlen ≤ s.2 ∧ s.2 + 1 < 2 ^ 31
  else s.1.drop 2 ≠ []

/-- The parse reports an error or succeeds. -/
def SafeParse (r : Except HttpFailure HttpResponse) : Prop := r = .error .null ∨ ∃ res, r = .ok res

/-- `content_length` is an `int`. -/
def IsInt (n : ℤ) : Prop := -2 ^ 31 ≤ n ∧ n < 2 ^ 31

theorem isInt_bmod (n : ℤ) : IsInt (n.bmod (2 ^ 32)) := by
  unfold IsInt
  have h1 := Int.le_bmod (x := n) (m := 2 ^ 32) (by omega)
  have h2 := Int.bmod_lt (x := n) (m := 2 ^ 32) (by omega)
  omega

@[simp] theorem safeParse_ok (res : HttpResponse) : SafeParse (.ok res) := .inr ⟨res, rfl⟩

@[simp] theorem safeParse_error (e : HttpFailure) : SafeParse (.error e) ↔ e = .null := by
  simp [SafeParse]

/-- A header is malformed, or it ends at the end of its line. -/
theorem httpHeader_cases (line : List UInt8) (contentLength : ℤ) :
    httpHeader line contentLength = .error .null ∨ ∃ n contentLength',
      httpHeader line contentLength = .ok (n, contentLength') ∧ lineEnd line = some n ∧
        (IsInt contentLength → IsInt contentLength') := by
  unfold httpHeader
  rcases hend : lineEnd line with _ | n
  · exact .inl rfl
  rcases strstr line [byte ':', byte ' '] with _ | colon
  · exact .inl rfl
  simp only
  split_ifs
  · exact .inl rfl
  · exact .inl rfl
  · exact .inr ⟨n, _, rfl, rfl, fun _ => isInt_bmod _⟩
  · exact .inr ⟨n, _, rfl, rfl, id⟩

theorem httpBody_safe_iff {readStart : List UInt8} {contentLength : ℤ} (hint : IsInt contentLength)
    (status : ℤ) : SafeParse (httpBody readStart status contentLength) ↔ readStart ≠ [] ∧
      (cstr readStart).strlen ≤ contentLength ∧ contentLength + 1 < 2 ^ 31 := by
  unfold IsInt at hint
  simp only [httpBody]
  by_cases hmax : contentLength + 1 < 2 ^ 31
  · have hsize : (contentLength + 1).bmod (2 ^ 32) = contentLength + 1 :=
      Int.bmod_eq_of_le (by omega) (by omega)
    rw [hsize]
    split_ifs with h1 h2 h3
    · rw [safeParse_error]
      exact ⟨nofun, fun h => by omega⟩
    · rw [safeParse_error]
      exact ⟨nofun, fun h => absurd h2 h.1⟩
    · rw [safeParse_error]
      exact ⟨nofun, fun h => by omega⟩
    · exact ⟨fun _ => ⟨h2, by omega, hmax⟩, fun _ => safeParse_ok _⟩
  · have hneg : (contentLength + 1).bmod (2 ^ 32) < 0 := by
      obtain rfl : contentLength = 2 ^ 31 - 1 := by omega
      decide
    rw [if_pos hneg, safeParse_error]
    exact ⟨nofun, fun h => absurd h.2.2 hmax⟩

/-- The walk from a cursor is safe if the cursor is and every walk from the next one. -/
theorem forall_walk_iff {s : List UInt8 × ℤ} :
    (∀ t, ReflTransGen HeaderStep s t → CursorOk t)
      ↔ CursorOk s ∧ ∀ s', HeaderStep s s' → ∀ t, ReflTransGen HeaderStep s' t → CursorOk t := by
  refine ⟨fun h => ⟨h s .refl, fun s' hs' t ht => h t (.head hs' ht)⟩, fun ⟨hs, h⟩ t ht => ?_⟩
  rcases ReflTransGen.cases_head_iff.1 ht with rfl | ⟨s', hs', ht⟩
  · exact hs
  · exact h s' hs' t ht

theorem parseRest_safe_iff (status : ℤ) : ∀ (fuel : ℕ) (s : List UInt8 × ℤ), s.1.length < fuel →
    IsInt s.2 → (SafeParse (parseRest status fuel s) ↔
      ∀ t, ReflTransGen HeaderStep s t → CursorOk t) := by
  intro fuel
  induction fuel with
  | zero => exact fun s h => absurd h (Nat.not_lt_zero _)
  | succ fuel ih =>
    rintro ⟨cursor, contentLength⟩ hfuel hint
    rw [forall_walk_iff]
    by_cases hblank : BlankLine cursor
    · have hno : ∀ s', ¬ HeaderStep (cursor, contentLength) s' := by
        rintro _ ⟨h, -⟩
        exact h hblank
      rw [parseRest, httpHeaders_succ, if_pos hblank, ok_bind, httpBody_safe_iff hint, CursorOk,
        if_pos hblank]
      exact ⟨fun h => ⟨h, fun s' hs' => absurd hs' (hno s')⟩, fun h => h.1⟩
    rw [parseRest, httpHeaders_succ, if_neg hblank, CursorOk, if_neg hblank]
    by_cases hpast : cursor.drop 2 = []
    · rw [if_pos hpast, error_bind, safeParse_error]
      exact ⟨nofun, fun h => absurd hpast h.1⟩
    rw [if_neg hpast]
    rcases httpHeader_cases (cstr (cursor.drop 2)).bytes contentLength with hnull |
      ⟨n, contentLength', hheader, -, hint'⟩
    · have hno : ∀ s', ¬ HeaderStep (cursor, contentLength) s' := by
        rintro _ ⟨-, h⟩
        rw [hnull] at h
        cases h
      rw [hnull]
      exact ⟨fun _ => ⟨hpast, fun s' hs' => absurd hs' (hno s')⟩, fun _ => .inl rfl⟩
    · have hstep : ∀ s', HeaderStep (cursor, contentLength) s' ↔
          s' = ((cursor.drop 2).drop n, contentLength') := by
        refine fun s' => ⟨?_, fun h => h ▸ .header hblank hheader⟩
        rintro ⟨-, h⟩
        rw [hheader, Except.ok.injEq, Prod.mk.injEq] at h
        rw [h.1, h.2]
      have hlen : ((cursor.drop 2).drop n).length < fuel := by
        have hpos := List.length_pos_iff.2 hpast
        simp only [List.length_drop] at hpos hfuel ⊢
        omega
      have hrest := ih ((cursor.drop 2).drop n, contentLength') hlen (hint' hint)
      rw [hheader, ok_bind]
      simp only [hstep, forall_eq]
      rw [and_iff_right hpast]
      exact hrest

/-! ## Where the cursor stands -/

theorem blankLine_iff {cursor : List UInt8} :
    BlankLine cursor ↔ [10, 10] <+: cursor ∨ crlf ++ crlf <+: cursor := by
  unfold BlankLine
  rw [← prefix_cstr_iff (by decide : (0 : UInt8) ∉ [10, 10]),
    ← prefix_cstr_iff (by decide : (0 : UInt8) ∉ crlf ++ crlf)]
  exact or_congr strncmp_prefix_iff strncmp_prefix_iff

/-- A cursor at a line end of the buffer, which ends with a NUL. -/
def AtLineEnd (cursor : List UInt8) : Prop :=
  ∃ rest, rest.getLast? = some 0 ∧ (cursor = 10 :: rest ∨ cursor = 13 :: 10 :: rest)

theorem lineEnd_drop {text : List UInt8} {n : ℕ} (h : lineEnd text = some n) :
    [10] <+: text.drop n ∨ crlf <+: text.drop n := by
  unfold lineEnd at h
  rcases hcrlf : strstr text crlf with _ | k
  · rw [hcrlf] at h
    exact .inl (strstr_drop h)
  · rw [hcrlf] at h
    obtain rfl := Option.some.inj h
    exact .inr (strstr_drop hcrlf)

theorem atLineEnd_drop {buf : List UInt8} {m n : ℕ} (hlast : buf.getLast? = some 0)
    (h : lineEnd ((cstr buf).bytes.drop m) = some n) : AtLineEnd (buf.drop (m + n)) := by
  have hpre := lineEnd_drop h
  rw [List.drop_drop] at hpre
  obtain ⟨tail, htail⟩ := exists_cstr_append (List.mem_of_getLast? hlast)
  have hshort : m + n ≤ (cstr buf).bytes.length := by
    by_contra hlong
    rw [List.drop_eq_nil_of_le (by omega)] at hpre
    simp [crlf] at hpre
  have hdrop : buf.drop (m + n) = (cstr buf).bytes.drop (m + n) ++ 0 :: tail := by
    conv_lhs => rw [htail]
    rw [List.drop_append_of_le_length hshort]
  have htailLast : ∀ r : List UInt8, (r ++ 0 :: tail).getLast? = some 0 := fun r => by
    rw [htail, List.getLast?_append_of_ne_nil _ (List.cons_ne_nil _ _)] at hlast
    rw [List.getLast?_append_of_ne_nil _ (List.cons_ne_nil _ _), hlast]
  rw [hdrop]
  rcases hpre with ⟨r, hr⟩ | ⟨r, hr⟩
  · exact ⟨r ++ 0 :: tail, htailLast r, .inl (by rw [← hr]; rfl)⟩
  · exact ⟨r ++ 0 :: tail, htailLast r, .inr (by rw [← hr]; rfl)⟩

/-- The states the loop through the headers passes. -/
def HeaderCursor (sent : List UInt8) (s : List UInt8 × ℤ) : Prop :=
  ∃ status n phrase, statusLine (receivedText sent) = some (status, n) ∧
    httpGetResponseMessage status = some phrase ∧
    strncmp ((receivedText sent).drop 13) phrase.bytes n = true ∧
    ReflTransGen HeaderStep ((readBuffer sent).drop (13 + n), -1) s

theorem statusLine_lineEnd {text : List UInt8} {status : ℤ} {n : ℕ}
    (h : statusLine text = some (status, n)) : lineEnd (text.drop 13) = some n := by
  simp only [statusLine] at h
  split_ifs at h
  obtain ⟨k, hk, hkn⟩ := Option.map_eq_some_iff.1 h
  rw [hk, (Prod.mk.inj hkn).2]

theorem AtLineEnd.getLast {cursor : List UInt8} (h : AtLineEnd cursor) :
    cursor.getLast? = some 0 := by
  obtain ⟨rest, hlast, rfl | rfl⟩ := h
  · rw [List.getLast?_cons, hlast]
    rfl
  · rw [List.getLast?_cons, List.getLast?_cons, hlast]
    rfl

theorem HeaderCursor.atLineEnd {sent : List UInt8} {s : List UInt8 × ℤ} (h : HeaderCursor sent s) :
    AtLineEnd s.1 := by
  obtain ⟨status, n, phrase, hline, -, -, hwalk⟩ := h
  induction hwalk with
  | refl => exact atLineEnd_drop List.getLast?_concat (statusLine_lineEnd hline)
  | tail _ hstep ih =>
    cases hstep with
    | @header cursor contentLength _ n _ hheader =>
    rcases httpHeader_cases (cstr (cursor.drop 2)).bytes contentLength with hnull |
      ⟨n', c, hok, hend, -⟩
    · rw [hnull] at hheader
      cases hheader
    rw [hok, Except.ok.injEq, Prod.mk.injEq] at hheader
    obtain ⟨rfl, -⟩ := hheader
    have hlast : (cursor.drop 2).getLast? = some 0 := by
      rw [List.getLast?_drop, if_neg]
      · exact ih.getLast
      · intro hshort
        rw [List.drop_eq_nil_of_le hshort] at hend
        cases hend
    have hnext := atLineEnd_drop (m := 0) hlast hend
    rwa [Nat.zero_add] at hnext

/-- What can go wrong at a cursor, by the bytes there: a line end that is the last byte, two `\n`s with
at most one byte behind them, and a body that does not fit. -/
theorem cursorOk_iff {s : List UInt8 × ℤ} (h : AtLineEnd s.1) : CursorOk s ↔ s.1 ≠ [10, 0] ∧
    (∀ rest, s.1 = 10 :: 10 :: rest → 3 ≤ rest.length) ∧
    (BlankLine s.1 → (cstr (s.1.drop 4)).strlen ≤ s.2 ∧ s.2 + 1 < 2 ^ 31) := by
  obtain ⟨cursor, contentLength⟩ := s
  obtain ⟨rest, hlast, hcursor⟩ := h
  simp only at hcursor ⊢
  rw [CursorOk]
  by_cases hblank : BlankLine cursor
  · have hne : cursor ≠ [10, 0] := by
      rintro rfl
      exact absurd hblank (by decide)
    have hdrop : cursor.drop 4 ≠ [] ↔ ∀ rest, cursor = 10 :: 10 :: rest → 3 ≤ rest.length := by
      rcases blankLine_iff.1 hblank with ⟨r, rfl⟩ | ⟨r, rfl⟩
      · rw [ne_eq, List.drop_eq_nil_iff, not_le, List.length_append]
        refine ⟨fun h rest hrest => ?_, fun h => ?_⟩
        · obtain rfl : r = rest := List.append_cancel_left hrest
          simp only [List.length_cons, List.length_nil] at h
          omega
        · have := h r rfl
          simp only [List.length_cons, List.length_nil]
          omega
      · have hr : r ≠ [] := by
          rintro rfl
          rcases hcursor with hcursor | hcursor
          · exact absurd (List.cons.inj hcursor).1 (by decide)
          · obtain rfl : [13, 10] = rest := (List.cons.inj (List.cons.inj hcursor).2).2
            exact absurd hlast (by decide)
        refine ⟨fun _ rest hrest => ?_, fun _ => hr⟩
        exact absurd (List.cons.inj hrest).1 (by decide)
    rw [if_pos hblank, hdrop, and_iff_right hne]
    exact and_congr_right fun _ => ⟨fun h _ => h, fun h => h hblank⟩
  · have hno : ∀ rest, cursor ≠ 10 :: 10 :: rest := by
      rintro rest rfl
      exact hblank (blankLine_iff.2 (.inl ⟨rest, rfl⟩))
    have hdrop : cursor.drop 2 ≠ [] ↔ cursor ≠ [10, 0] := by
      obtain ⟨init, rfl⟩ := List.getLast?_eq_some_iff.1 hlast
      rcases hcursor with rfl | rfl
      · rcases init with _ | ⟨c, init⟩ <;> simp
      · simp
    rw [if_neg hblank, hdrop]
    exact ⟨fun h => ⟨h, fun rest hrest => absurd hrest (hno rest), fun h => absurd h hblank⟩,
      fun h => h.1⟩

/-- What the received bytes must be for a safe parse. -/
structure SafeResponse (sent : List UInt8) : Prop where
  known : ∀ status n, statusLine (receivedText sent) = some (status, n) →
    httpGetResponseMessage status ≠ none
  inside : ∀ contentLength, ¬ HeaderCursor sent ([10, 0], contentLength)
  blank : ∀ rest contentLength, HeaderCursor sent (10 :: 10 :: rest, contentLength) →
    3 ≤ rest.length
  fits : ∀ cursor contentLength, HeaderCursor sent (cursor, contentLength) → BlankLine cursor →
    (cstr (cursor.drop 4)).strlen ≤ contentLength ∧ contentLength + 1 < 2 ^ 31

/-- The conditions at the cursors, together. -/
theorem safeResponse_iff {sent : List UInt8} : SafeResponse sent ↔
    (∀ status n, statusLine (receivedText sent) = some (status, n) →
      httpGetResponseMessage status ≠ none) ∧ ∀ s, HeaderCursor sent s → CursorOk s := by
  constructor
  · rintro ⟨hknown, hinside, hblank, hfits⟩
    refine ⟨hknown, fun s hs => (cursorOk_iff hs.atLineEnd).2 ⟨fun h => ?_, fun rest h => ?_, ?_⟩⟩
    · exact hinside s.2 (h ▸ hs)
    · exact hblank rest s.2 (h ▸ hs)
    · exact hfits s.1 s.2 hs
  · rintro ⟨hknown, hok⟩
    have hiff := fun s hs => (cursorOk_iff (HeaderCursor.atLineEnd hs)).1 (hok s hs)
    exact ⟨hknown, fun c hs => (hiff _ hs).1 rfl, fun rest c hs => (hiff _ hs).2.1 rest rfl,
      fun cursor c hs => (hiff _ hs).2.2⟩

/-- A response is parsed safely, whatever its bytes, just if its status has a phrase and its lines
and its length are in order. -/
theorem httpResponseParse_safe_iff (sent : List UInt8) :
    SafeParse (httpResponseParse sent) ↔ SafeResponse sent := by
  rw [safeResponse_iff, httpResponseParse_eq]
  rcases hline : statusLine (receivedText sent) with _ | ⟨status, n⟩
  · refine ⟨fun _ => ⟨nofun, ?_⟩, fun _ => .inl rfl⟩
    rintro s ⟨status, n, phrase, h, -⟩
    rw [hline] at h
    cases h
  have hcursor : ∀ s, HeaderCursor sent s ↔ ∃ phrase, httpGetResponseMessage status = some phrase ∧
      strncmp ((receivedText sent).drop 13) phrase.bytes n = true ∧
      ReflTransGen HeaderStep ((readBuffer sent).drop (13 + n), -1) s := by
    intro s
    refine ⟨?_, fun ⟨phrase, h⟩ => ⟨status, n, phrase, hline, h⟩⟩
    rintro ⟨status', n', phrase, h, hrest⟩
    rw [hline, Option.some.injEq, Prod.mk.injEq] at h
    obtain ⟨rfl, rfl⟩ := h
    exact ⟨phrase, hrest⟩
  simp only [hcursor]
  rcases hphrase : httpGetResponseMessage status with _ | phrase
  · rw [safeParse_error]
    exact ⟨nofun, fun h => absurd hphrase (h.1 status n rfl)⟩
  have hknown : ∀ status' n', some (status, n) = some (status', n') →
      httpGetResponseMessage status' ≠ none := by
    rintro status' n' h
    cases h
    simp [hphrase]
  rw [and_iff_right hknown]
  simp only [Option.some.injEq, exists_eq_left']
  split_ifs with hcmp
  · rw [parseRest_safe_iff]
    · simp only [hcmp, true_and]
    · have hlen : (readBuffer sent).length = (readMessage sent).length + 1 := by simp [readBuffer]
      rw [List.length_drop]
      omega
    · show IsInt (-1)
      exact ⟨by decide, by decide⟩
  · exact ⟨fun _ s hs => absurd hs.1 hcmp, fun _ => .inl rfl⟩

/-- The status of this response has no phrase. -/
theorem unknownStatus_not_safe : ¬ ∀ sent : List UInt8, 1 ≤ sent.length → sent.length ≤ 8192 →
    SafeParse (httpResponseParse sent) := by
  intro hall
  have h := hall (CStr.ofString "HTTP/1.1 999 x\r\n").bytes (by decide) (by decide)
  have hrun : httpResponseParse (CStr.ofString "HTTP/1.1 999 x\r\n").bytes = .error .nullPhrase := by
    decide +kernel
  rw [hrun, safeParse_error] at h
  exact absurd h (by decide)

end Cs162
