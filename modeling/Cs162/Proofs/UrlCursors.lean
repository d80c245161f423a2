import Cs162.Proofs.UrlDecode
import Cs162.UrlCursors
import Mathlib.Data.List.TakeDrop

/-!
# Where the cursors of `url_decode` may go

The cursors never leave the URL, and each round moves on. They cross where a segment has no `=` and
a later one has. This does no harm as long as `param_ptr` refuses the name, which then holds a `&`
(`urlCursors_iff`). It always does so in a URL of fewer than `2 ^ 32` bytes. In a longer URL the
length may be cut down to one that ends in front of the `&`, and then `malloc` is asked for a
negative size.

So `url_decode` returns the supported parameters just if the path is not too long, the query is
uncrossed, and the last pair taken for each parameter is as good as the exact one (`urlDecode_iff`).
-/

namespace Cs162

open CLib

/-- The cursors are in order, and as many bytes were written as allocated. -/
def ParamCopy.Safe (url : CStr) (c : ParamCopy) : Prop :=
  c.keyEnd < c.readEnd ∧ c.readEnd ≤ url.strlen ∧ c.paramValue.length = c.readEnd - c.keyEnd

structure CursorsSafe (url : CStr) : Prop where
  copies : ∀ c ∈ (urlDecodeCursors url).1, c.Safe url
  reads : (urlDecodeCursors url).2 ≠ .pastEnd
  ends : (urlDecodeCursors url).2 ≠ .endless

variable {text : CStr} {seg rest query : List UInt8} {n m : ℕ}

/-! ## The condition -/

theorem segEnd_le (rest : List UInt8) : segEnd rest ≤ rest.length := by
  unfold segEnd
  rcases h : strchr rest (byte '&') with _ | m
  · exact le_rfl
  · exact (strchr_lt h).le

theorem segEnd_ne (hn : strchr rest (byte '=') = some n) : segEnd rest ≠ n := by
  unfold segEnd
  rcases h : strchr rest (byte '&') with _ | m
  · exact (strchr_lt hn).ne'
  · exact strchr_ne (by decide) h hn

/-- Where the cursors do not cross, or nothing is taken, the rest decides. -/
theorem uncrossed_iff_rest (hn : strchr rest (byte '=') = some n)
    (h : segEnd rest < n → paramPtr rest (intLength n) = none) :
    Uncrossed rest ↔ Uncrossed (rest.drop (segEnd rest + 1)) := by
  unfold segEnd at *
  rcases hm : strchr rest (byte '&') with _ | m
  · rw [Option.getD_none, List.drop_of_length_le (Nat.le_succ _)]
    exact iff_of_true (uncrossed_of_notMem (.inr (strchr_eq_none.1 hm)))
      (uncrossed_of_notMem (.inr List.not_mem_nil))
  · rw [hm, Option.getD_some] at h
    obtain ⟨seg, tail, rfl, hseg, rfl⟩ := strchr_eq_some hm
    have hdrop : (seg ++ byte '&' :: tail).drop (seg.length + 1) = tail := by
      rw [← List.drop_drop, List.drop_left]
      rfl
    rw [Option.getD_some, hdrop, uncrossed_append hseg]
    refine and_iff_right fun n' hn' hlt => ?_
    obtain rfl := Option.some.inj (hn.symm.trans hn')
    exact h hlt

/-- Where they cross and something is taken, the condition fails. -/
theorem not_uncrossed (hn : strchr rest (byte '=') = some n) (hlt : segEnd rest < n)
    (h : paramPtr rest (intLength n) ≠ none) : ¬ Uncrossed rest := by
  intro huncrossed
  unfold segEnd at hlt
  rcases hm : strchr rest (byte '&') with _ | m
  · have := strchr_lt hn
    rw [hm, Option.getD_none] at hlt
    omega
  · rw [hm, Option.getD_some] at hlt
    exact h (huncrossed [] rest rfl (.inl rfl) n m hn hm hlt)

/-! ## The loop -/

theorem cstr_strncpy {src : List UInt8} (hsrc : 0 ∉ src) (hn : n ≤ src.length) :
    cstr (strncpy src n ++ [0]) = cstr (src.take n) := by
  have htake : 0 ∉ src.take n := fun h => hsrc (List.take_subset _ _ h)
  rw [strncpy, bytes_cstr hsrc, List.takeD_eq_take _ hn]
  exact CStr.ext ((takeWhile_ne htake []).trans (bytes_cstr htake).symm)

/-- What is behind a distance from the cursor `url`, in the URL and in the rest from `url` on. -/
theorem drop_behind (text : CStr) (r n : ℕ) :
    text.bytes.drop (r + 1 + n + 1) = (text.bytes.drop (r + 1)).drop (n + 1) := by
  rw [List.drop_drop, Nat.add_assoc]

section Rounds

variable {r : ℕ} (hr : r < text.strlen) (fuel : ℕ) (params : UrlParams)

include hr

theorem readEnd_le : r + 1 + segEnd (text.bytes.drop (r + 1)) ≤ text.strlen := by
  have hle := segEnd_le (text.bytes.drop (r + 1))
  rw [List.length_drop, ← CStr.strlen] at hle
  omega

theorem decodeLoop_none (h : strchr (text.bytes.drop (r + 1)) (byte '=') = none) :
    decodeLoop text (fuel + 1) (r + 1) r params = ([], .returns params) := by
  rw [decodeLoop, if_neg (by omega), if_neg (by omega), if_neg (by omega)]
  simp only [h]

/-- Nothing is taken: on with the next segment. -/
theorem decodeLoop_skip (hn : strchr (text.bytes.drop (r + 1)) (byte '=') = some n)
    (hp : paramPtr (text.bytes.drop (r + 1)) (intLength n) = none) :
    decodeLoop text (fuel + 1) (r + 1) r params
      = decodeLoop text fuel (r + 1 + segEnd (text.bytes.drop (r + 1)) + 1)
          (r + 1 + segEnd (text.bytes.drop (r + 1))) params := by
  have hlt := strchr_lt hn
  rw [List.length_drop, ← CStr.strlen] at hlt
  rw [decodeLoop, if_neg (by omega), if_neg (by omega), if_neg (by omega)]
  simp only [hn, hp]
  rw [if_neg (by omega)]

/-- The cursors have crossed. -/
theorem decodeLoop_cross {param : UrlParam}
    (hn : strchr (text.bytes.drop (r + 1)) (byte '=') = some n)
    (hp : paramPtr (text.bytes.drop (r + 1)) (intLength n) = some param)
    (hle : segEnd (text.bytes.drop (r + 1)) ≤ n) :
    decodeLoop text (fuel + 1) (r + 1) r params
      = ([⟨r + 1 + n, r + 1 + segEnd (text.bytes.drop (r + 1)), []⟩], .fatalMalloc) := by
  rw [decodeLoop, if_neg (by omega), if_neg (by omega), if_neg (by omega)]
  simp only [hn, hp]
  rw [if_pos (Nat.add_le_add_left hle _)]

/-- A value is copied. -/
theorem decodeLoop_take {param : UrlParam}
    (hn : strchr (text.bytes.drop (r + 1)) (byte '=') = some n)
    (hp : paramPtr (text.bytes.drop (r + 1)) (intLength n) = some param)
    (hlt : n < segEnd (text.bytes.drop (r + 1))) :
    ∃ value, value.length = segEnd (text.bytes.drop (r + 1)) - n ∧
      cstr value = cstr (((text.bytes.drop (r + 1)).drop (n + 1)).take
        (segEnd (text.bytes.drop (r + 1)) - n - 1)) ∧
      decodeLoop text (fuel + 1) (r + 1) r params
        = (⟨r + 1 + n, r + 1 + segEnd (text.bytes.drop (r + 1)), value⟩ ::
            (decodeLoop text fuel (r + 1 + segEnd (text.bytes.drop (r + 1)) + 1)
              (r + 1 + segEnd (text.bytes.drop (r + 1))) (params.set param (cstr value))).1,
          (decodeLoop text fuel (r + 1 + segEnd (text.bytes.drop (r + 1)) + 1)
            (r + 1 + segEnd (text.bytes.drop (r + 1))) (params.set param (cstr value))).2) := by
  refine ⟨strncpy (text.bytes.drop (r + 1 + n + 1)) (segEnd (text.bytes.drop (r + 1)) - n - 1)
    ++ [0], ?_, ?_, ?_⟩
  · rw [strncpy, List.length_append, List.takeD_length, List.length_singleton]
    omega
  · have hle := segEnd_le (text.bytes.drop (r + 1))
    rw [drop_behind]
    refine cstr_strncpy (fun h => text.noNul (List.mem_of_mem_drop (List.mem_of_mem_drop h))) ?_
    rw [List.length_drop]
    omega
  · rw [decodeLoop, if_neg (by omega), if_neg (by omega), if_neg (by omega)]
    simp only [hn, hp]
    rw [if_neg (by omega), Nat.add_sub_add_left]

end Rounds

theorem decodeLoop_end (text : CStr) (fuel : ℕ) (params : UrlParams) :
    decodeLoop text (fuel + 1) (text.strlen + 1) text.strlen params = ([], .returns params) := by
  rw [decodeLoop, if_neg (lt_irrefl _), if_pos rfl]

/-- A round of the loop without cursors. -/
theorem urlDecodeLoop_succ (hn : strchr rest (byte '=') = some n) (fuel : ℕ) (params : UrlParams) :
    urlDecodeLoop (fuel + 1) rest params
      = urlDecodeLoop fuel (rest.drop (segEnd rest + 1)) (params.store (paramPtr rest (intLength n))
          (cstr ((rest.drop (n + 1)).take (segEnd rest - n - 1)))) := by
  rw [urlDecodeLoop, hn]
  simp only
  split_ifs with h
  · rfl
  · have hrest : rest.drop (segEnd rest + 1) = [] := List.drop_of_length_le (by omega)
    rw [hrest]
    exact (urlDecodeLoop_none List.not_mem_nil fuel _).symm

/-- How the loop ends. -/
theorem decodeLoop_ends (text : CStr) : ∀ (fuel r : ℕ) (params : UrlParams),
    r ≤ text.strlen → text.strlen - r < fuel →
    Uncrossed (text.bytes.drop (r + 1)) ∧ (decodeLoop text fuel (r + 1) r params).2
        = .returns (urlDecodeLoop fuel (text.bytes.drop (r + 1)) params) ∨
      ¬ Uncrossed (text.bytes.drop (r + 1)) ∧
        (decodeLoop text fuel (r + 1) r params).2 = .fatalMalloc := by
  intro fuel
  induction fuel with
  | zero => exact fun r params hr hfuel => absurd hfuel (Nat.not_lt_zero _)
  | succ fuel ih =>
    intro r params hr hfuel
    rcases hr.eq_or_lt with rfl | hr
    · have hrest : text.bytes.drop (text.strlen + 1) = [] := List.drop_of_length_le (Nat.le_succ _)
      rw [decodeLoop_end, hrest, urlDecodeLoop_none List.not_mem_nil]
      exact .inl ⟨uncrossed_of_notMem (.inl List.not_mem_nil), rfl⟩
    · have hend := readEnd_le hr
      have ih' := fun params => ih _ params hend (by omega)
      rw [drop_behind] at ih'
      rcases hn : strchr (text.bytes.drop (r + 1)) (byte '=') with _ | n
      · have hnone := strchr_eq_none.1 hn
        rw [decodeLoop_none hr fuel params hn, urlDecodeLoop_none hnone]
        exact .inl ⟨uncrossed_of_notMem (.inl hnone), rfl⟩
      · rw [urlDecodeLoop_succ hn]
        rcases hp : paramPtr (text.bytes.drop (r + 1)) (intLength n) with _ | param
        · rw [decodeLoop_skip hr fuel params hn hp, uncrossed_iff_rest hn fun _ => hp]
          exact ih' params
        · rcases Nat.lt_or_ge n (segEnd (text.bytes.drop (r + 1))) with hlt | hle
          · obtain ⟨value, -, hvalue, hloop⟩ := decodeLoop_take hr fuel params hn hp hlt
            rw [hloop, uncrossed_iff_rest hn fun h => absurd h (by omega)]
            simp only [← hvalue]
            exact ih' (params.set param (cstr value))
          · rw [decodeLoop_cross hr fuel params hn hp hle]
            have hlt := lt_of_le_of_ne hle (segEnd_ne hn)
            exact .inr ⟨not_uncrossed hn hlt (by simp [hp]), rfl⟩

theorem decodeLoop_safe_iff (text : CStr) : ∀ (fuel r : ℕ) (params : UrlParams),
    r ≤ text.strlen → text.strlen - r < fuel →
    ((∀ c ∈ (decodeLoop text fuel (r + 1) r params).1, c.Safe text) ↔
      Uncrossed (text.bytes.drop (r + 1))) := by
  intro fuel
  induction fuel with
  | zero => exact fun r params hr hfuel => absurd hfuel (Nat.not_lt_zero _)
  | succ fuel ih =>
    intro r params hr hfuel
    rcases hr.eq_or_lt with rfl | hr
    · have hrest : text.bytes.drop (text.strlen + 1) = [] := List.drop_of_length_le (Nat.le_succ _)
      rw [decodeLoop_end, hrest]
      exact iff_of_true (List.forall_mem_nil _) (uncrossed_of_notMem (.inl List.not_mem_nil))
    · have hend := readEnd_le hr
      have ih' := fun params => ih _ params hend (by omega)
      rw [drop_behind] at ih'
      rcases hn : strchr (text.bytes.drop (r + 1)) (byte '=') with _ | n
      · rw [decodeLoop_none hr fuel params hn]
        exact iff_of_true (List.forall_mem_nil _)
          (uncrossed_of_notMem (.inl (strchr_eq_none.1 hn)))
      · rcases hp : paramPtr (text.bytes.drop (r + 1)) (intLength n) with _ | param
        · rw [decodeLoop_skip hr fuel params hn hp, uncrossed_iff_rest hn fun _ => hp]
          exact ih' params
        · rcases Nat.lt_or_ge n (segEnd (text.bytes.drop (r + 1))) with hlt | hle
          · obtain ⟨value, hvalue, -, hloop⟩ := decodeLoop_take hr fuel params hn hp hlt
            rw [hloop, uncrossed_iff_rest hn fun h => absurd h (by omega), List.forall_mem_cons,
              ih' (params.set param (cstr value))]
            refine and_iff_right ⟨?_, ?_, ?_⟩
            · exact Nat.add_lt_add_left hlt _
            · exact hend
            · rw [hvalue, Nat.add_sub_add_left]
          · have hlt := lt_of_le_of_ne hle (segEnd_ne hn)
            rw [decodeLoop_cross hr fuel params hn hp hle]
            refine iff_of_false (fun h => ?_) (not_uncrossed hn hlt (by simp [hp]))
            have hcrossed := (h _ List.mem_cons_self).1
            simp only at hcrossed
            omega

/-! ## The whole function -/

/-- How a call ends. -/
theorem urlDecodeCursors_ends (url : CStr) :
    PathOverrun url ∧ (urlDecodeCursors url).2 = .pathOverrun ∨
    ¬ PathOverrun url ∧ Uncrossed (urlQuery url) ∧
      (urlDecodeCursors url).2 = .returns (urlDecode url) ∨
    ¬ PathOverrun url ∧ ¬ Uncrossed (urlQuery url) ∧
      (urlDecodeCursors url).2 = .fatalMalloc := by
  unfold urlDecodeCursors
  split_ifs with hover
  · exact .inl ⟨hover, rfl⟩
  · refine .inr ?_
    rcases h : strchr url.bytes (byte '?') with _ | r
    · rw [urlQuery_of_none h]
      refine .inl ⟨hover, uncrossed_of_notMem (.inl List.not_mem_nil), ?_⟩
      unfold urlDecode
      rw [h]
    · have hr := strchr_lt h
      have hquery : (url.bytes.drop (r + 1)).length < url.strlen := by
        rw [List.length_drop, CStr.strlen]
        omega
      rw [urlQuery_of_some h]
      rcases decodeLoop_ends url _ r ⟨copiedPath url, none, none⟩ hr.le
        (show url.strlen - r < url.strlen + 1 by omega) with ⟨huncrossed, hloop⟩ | hcrossed
      · refine .inl ⟨hover, huncrossed, ?_⟩
        simp only [hloop]
        unfold urlDecode
        rw [h]
        simp only [urlDecodeLoop_pairs _ _ _ hquery huncrossed,
          urlDecodeLoop_pairs _ _ _ (Nat.lt_succ_of_lt hquery) huncrossed]
      · exact .inr ⟨hover, hcrossed⟩

/-- Reading and the end of the loop are never in danger, and the copies are safe just if the query
is uncrossed. -/
theorem urlDecodeCursors_spec (url : CStr) : (urlDecodeCursors url).2 ≠ .pastEnd ∧
    (urlDecodeCursors url).2 ≠ .endless ∧
    ((∀ c ∈ (urlDecodeCursors url).1, c.Safe url) ↔ Uncrossed (urlQuery url)) := by
  have hends : (urlDecodeCursors url).2 ≠ .pastEnd ∧ (urlDecodeCursors url).2 ≠ .endless := by
    rcases urlDecodeCursors_ends url with ⟨-, h⟩ | ⟨-, -, h⟩ | ⟨-, -, h⟩
    · rw [h]
      exact ⟨nofun, nofun⟩
    · rw [h]
      exact ⟨nofun, nofun⟩
    · rw [h]
      exact ⟨nofun, nofun⟩
  refine ⟨hends.1, hends.2, ?_⟩
  unfold urlDecodeCursors
  split_ifs with hover
  · rw [urlQuery_of_none (strchr_eq_none.2 hover.1)]
    exact iff_of_true (List.forall_mem_nil _) (uncrossed_of_notMem (.inl List.not_mem_nil))
  · rcases h : strchr url.bytes (byte '?') with _ | r
    · rw [urlQuery_of_none h]
      exact iff_of_true (List.forall_mem_nil _) (uncrossed_of_notMem (.inl List.not_mem_nil))
    · rw [urlQuery_of_some h]
      exact decodeLoop_safe_iff url _ r _ (strchr_lt h).le (by omega)

/-- The cursors are safe just if `param_ptr` takes nothing where they cross. -/
theorem urlCursors_iff (url : CStr) : CursorsSafe url ↔ Uncrossed (urlQuery url) := by
  obtain ⟨hreads, hends, hcopies⟩ := urlDecodeCursors_spec url
  exact ⟨fun h => hcopies.1 h.copies, fun h => ⟨hcopies.2 h, hreads, hends⟩⟩

/-! ## Short URLs -/

theorem cursorsSafe_of_short {url : CStr} (hshort : url.strlen < 2 ^ 32) : CursorsSafe url := by
  obtain ⟨hreads, hends, hcopies⟩ := urlDecodeCursors_spec url
  have hle := length_urlQuery_le url
  exact ⟨hcopies.2 (uncrossed_of_short (by omega)), hreads, hends⟩

/-- A URL of fewer than `2 ^ 31` bytes is decoded to the end. -/
theorem urlDecodeCursors_of_short {url : CStr} (hshort : url.strlen < 2 ^ 31) :
    (urlDecodeCursors url).2 = .returns (urlDecode url) := by
  have hle := length_urlQuery_le url
  have huncrossed : Uncrossed (urlQuery url) := uncrossed_of_short (by omega)
  rcases urlDecodeCursors_ends url with ⟨hover, -⟩ | ⟨-, -, h⟩ | ⟨-, hcrossed, -⟩
  · have hlen := intLength_eq_iff.2 hshort
    exact absurd (hlen ▸ hover.2.2) (lt_irrefl _)
  · exact h
  · exact absurd huncrossed hcrossed

/-! ## What is decoded -/

/-- The path is copied as it is just if its length is an `int`. -/
theorem copiedPath_iff {url : CStr} (hslash : url.bytes.head? = some (byte '/')) :
    ¬ PathOverrun url ∧ copiedPath url = urlPath url ↔ pathLen url < 2 ^ 31 := by
  constructor
  · rintro ⟨hover, hcopied⟩
    by_contra hlong
    obtain ⟨path, hpath, hurl | ⟨query, hurl⟩⟩ := exists_path hslash
    · obtain ⟨hlen, hurlPath⟩ := urlPath_path hpath hurl
      have hne : path ≠ [] := by
        rintro rfl
        rw [hlen] at hlong
        exact hlong (by decide)
      have hstrlen : url.strlen = path.length + 1 := by rw [CStr.strlen, hurl]; rfl
      rw [hurlPath, if_neg hne, copiedPath_path hpath hurl] at hcopied
      by_cases hone : 1 < intLength (path.length + 1)
      · have hlt := intLength_lt (path.length + 1)
        refine hover ⟨hurl ▸ notMem_slash hpath, hstrlen ▸ hone, ?_⟩
        rw [hstrlen]
        omega
      · rw [if_neg hone] at hcopied
        cases hcopied
    · obtain ⟨hlen, hurlPath⟩ := urlPath_query hpath hurl
      have hne : path ≠ [] := by
        rintro rfl
        rw [hlen] at hlong
        exact hlong (by decide)
      have hnul : 0 ∉ path := fun h => url.noNul (by rw [hurl]; simp [h])
      rw [hurlPath, if_neg hne, copiedPath_query hpath hurl] at hcopied
      by_cases hone : 1 < intLength (path.length + 1)
      · have hlt := intLength_lt (path.length + 1)
        rw [if_pos hone, Option.some.injEq] at hcopied
        have hbytes := congrArg CStr.bytes hcopied
        rw [bytes_cstr hnul, bytes_cstr fun h => hnul (List.take_subset _ _ h),
          List.take_eq_self_iff] at hbytes
        omega
      · rw [if_neg hone] at hcopied
        cases hcopied
  · intro hshort
    refine ⟨fun hover => ?_, copiedPath_of_short hslash hshort⟩
    obtain ⟨path, hpath, hurl | ⟨query, hurl⟩⟩ := exists_path hslash
    · have hlen := intLength_eq_iff.2 ((urlPath_path hpath hurl).1 ▸ hshort)
      have hstrlen : url.strlen = path.length + 1 := by rw [CStr.strlen, hurl]; rfl
      rw [← hstrlen] at hlen
      exact absurd (hlen ▸ hover.2.2) (lt_irrefl _)
    · refine hover.1 ?_
      rw [hurl]
      simp

/-- `url_decode` returns the supported parameters just if the path is not too long, nothing is taken
where the cursors cross, and the last pair taken for each parameter has its exact name, or the value
of the last pair that does. -/
theorem urlDecode_iff (url : CStr) (hslash : url.bytes.head? = some (byte '/')) :
    (urlDecodeCursors url).2 = .returns (supportedParams url) ↔
      pathLen url < 2 ^ 31 ∧ Uncrossed (urlQuery url) ∧
        ∀ param, LastIsExact (urlPairs url) param := by
  rw [← copiedPath_iff hslash]
  rcases urlDecodeCursors_ends url with ⟨hover, h⟩ | ⟨hover, huncrossed, h⟩ | ⟨-, hcrossed, h⟩
  · rw [h]
    exact iff_of_false nofun fun h => h.1.1 hover
  · rw [h, urlDecode_eq huncrossed, supportedParams, DecodeEnd.returns.injEq, UrlParams.mk.injEq,
      lastValue_eq_iff, lastValue_eq_iff]
    constructor
    · rintro ⟨hpath, hkey, hval⟩
      refine ⟨⟨hover, hpath⟩, huncrossed, fun param => ?_⟩
      cases param
      · exact hkey
      · exact hval
    · rintro ⟨⟨-, hpath⟩, -, hlast⟩
      exact ⟨hpath, hlast .key, hlast .val⟩
  · rw [h]
    exact iff_of_false nofun fun h => hcrossed h.2.1

/-- A shortened name in front of the exact one, and a segment without `=`. -/
theorem urlDecode_iff_overridden : (urlDecodeCursors (.ofString "/p?k=x&&key=a&val=b")).2
    = .returns (supportedParams (.ofString "/p?k=x&&key=a&val=b")) :=
  (urlDecode_iff _ rfl).2 ⟨by decide +kernel, uncrossed_of_short (by decide +kernel),
    fun param => (lastValue_eq_iff param _).1 (by cases param <;> decide +kernel)⟩

/-- The one name is a proper prefix of `key`. -/
theorem shortName_not_supported : ¬ ∀ url : CStr, url.bytes.head? = some (byte '/') →
    (urlDecodeCursors url).2 = .returns (supportedParams url) := by
  intro hall
  exact absurd (hall (.ofString "/?k=v") rfl) (by decide +kernel)

/-! ## A long URL -/

/-- A segment of one byte fewer than are between the `?` and the `=`. -/
def crossingUrl (n : ℕ) : CStr where
  bytes := [byte '/', byte '?'] ++ byte '&' :: (List.replicate n (byte 'x') ++ [byte '='])
  noNul h := by
    simp only [List.mem_append, List.mem_cons, List.mem_replicate, List.not_mem_nil, or_false] at h
    rcases h with (h | h) | h | h | h
    · exact absurd h (by decide)
    · exact absurd h (by decide)
    · exact absurd h (by decide)
    · exact absurd h.2 (by decide)
    · exact absurd h (by decide)

theorem crossingUrl_not_safe {n : ℕ} (hn : intLength (n + 1) = 0) : ¬ CursorsSafe (crossingUrl n) := by
  intro h
  have huncrossed := (urlDecodeCursors_spec (crossingUrl n)).2.2.1 h.copies
  have hquery : urlQuery (crossingUrl n) = byte '&' :: List.replicate n (byte 'x') ++ [byte '='] :=
    rfl
  have hname : byte '=' ∉ byte '&' :: List.replicate n (byte 'x') := by
    rw [List.mem_cons, List.mem_replicate]
    rintro (h | ⟨-, h⟩)
    · exact absurd h (by decide)
    · exact absurd h (by decide)
  have hkey := strchr_append hname []
  rw [List.length_cons, List.length_replicate] at hkey
  rw [hquery] at huncrossed
  refine not_uncrossed hkey ?_ ?_ huncrossed
  · exact Nat.succ_pos n
  · rw [hn]
    exact nofun

/-- The length is cut down to 0 here, and a name of length 0 is taken for `key`. -/
theorem longUrl_not_safe : ¬ CursorsSafe (crossingUrl (2 ^ 32 - 1)) :=
  crossingUrl_not_safe (by decide +kernel)

end Cs162
