import Cs162.Proofs.LibUrl
import Cs162.Lib.Ints
import Mathlib.Data.List.Induction
import Mathlib.Data.List.TakeDrop

/-!
# What `url_decode` decodes

The query of a URL is a row of segments between `&`s, and a segment with a `=` is a pair of a name
and a value. The loop of `url_decode` takes the pairs one after another (`urlDecodeLoop_pairs`).
A segment without `=` is paired with a `=` behind it. Then its name holds a `&` and is not taken,
unless the name is so long that its length is cut down: a query is `Uncrossed` where this does not
happen. What `url_encode` prints is such a row again (`urlDecode_urlEncode`).

A pair whose name is any prefix of a parameter's name is taken for that parameter. So the pairs are
decoded as they should be just if the last pair taken for each parameter has its exact name, or
carries the value of the last one that does (`lastValue_eq_iff`).
-/

namespace Cs162

open CLib

/-! ## The supported parameters of a URL -/

/-- The name and the value of a segment with a `=`. -/
def splitSegment (seg : List UInt8) : Option (List UInt8 × CStr) :=
  if byte '=' ∈ seg then
    some (seg.takeWhile (· ≠ byte '='), cstr ((seg.dropWhile (· ≠ byte '=')).drop 1))
  else none

def queryPairs (query : List UInt8) : List (List UInt8 × CStr) :=
  (query.splitOn (byte '&')).filterMap splitSegment

/-- The text behind the first `?`. -/
def urlQuery (url : CStr) : List UInt8 := (url.bytes.dropWhile (· ≠ byte '?')).drop 1

def urlPairs (url : CStr) : List (List UInt8 × CStr) := queryPairs (urlQuery url)

/-- The bytes in front of the first `?`, or of the end. -/
def pathLen (url : CStr) : ℕ := (url.bytes.takeWhile (· ≠ byte '?')).length

/-- The text behind the `/` and before the first `?`. -/
def urlPath (url : CStr) : Option CStr :=
  let path := (url.bytes.drop 1).takeWhile (· ≠ byte '?')
  if path = [] then none else some (cstr path)

/-- The last pair with one of some names. -/
def lastNamed (names : List UInt8 → Bool) (pairs : List (List UInt8 × CStr)) :
    Option (List UInt8 × CStr) := (pairs.filter fun s => names s.1).getLast?

def lastValue (names : List UInt8 → Bool) (pairs : List (List UInt8 × CStr)) : Option CStr :=
  (lastNamed names pairs).map Prod.snd

def UrlParam.isName (param : UrlParam) (name : List UInt8) : Bool := name = param.name.bytes

/-- The parameters of a URL: the values of the last pairs with their exact names. -/
def supportedParams (url : CStr) : UrlParams where
  path := urlPath url
  key := lastValue UrlParam.key.isName (urlPairs url)
  val := lastValue UrlParam.val.isName (urlPairs url)

/-- The names `param_ptr` takes for a parameter, when their lengths are `int`s. -/
def UrlParam.takes (param : UrlParam) (name : List UInt8) : Bool :=
  paramPtr name (intLength name.length) = some param

/-- The last pair taken for the parameter has its exact name, or the value of the last pair that
does. -/
def LastIsExact (pairs : List (List UInt8 × CStr)) (param : UrlParam) : Prop :=
  ∀ s ∈ lastNamed param.takes pairs, s.1 = param.name.bytes ∨
    ∃ t ∈ lastNamed param.isName pairs, t.2 = s.2

/-- At the start of a segment without `=`, where a later one has one, `param_ptr` takes nothing. -/
def Uncrossed (query : List UInt8) : Prop := ∀ front rest, query = front ++ rest →
  (front = [] ∨ front.getLast? = some (byte '&')) → ∀ n m, strchr rest (byte '=') = some n →
    strchr rest (byte '&') = some m → m < n → paramPtr rest (intLength n) = none

variable {name value seg rest url query : List UInt8} {params : UrlParams} {n : ℕ}

/-! ## Lengths -/

theorem intLength_eq_iff : intLength n = n ↔ n < 2 ^ 31 := bmod_natCast_eq_iff (by decide)

theorem intLength_lt (n : ℕ) : intLength n < 2 ^ 31 := by
  have hlt := Int.bmod_lt (x := n) (show 0 < 2 ^ 32 by decide)
  unfold intLength
  omega

theorem intLength_le (n : ℕ) : intLength n ≤ n := by
  unfold intLength
  rw [Int.bmod_def]
  omega

/-- A length is not enlarged, unless it is large and stays so. -/
theorem intSize_intLength (n : ℕ) : intSize (intLength n) ≤ n ∨
    3 < n ∧ 3 < intSize (intLength n) := by
  unfold intSize intLength
  rw [Int.bmod_def]
  omega

theorem intSize_of_short (hn : n < 2 ^ 32) : intSize (intLength n) = n ∨
    3 < n ∧ 3 < intSize (intLength n) := by
  unfold intSize intLength
  rw [Int.bmod_def]
  omega

/-- No name has so many bytes. -/
theorem paramPtr_long {keylen : ℤ} (hrest : 3 < rest.length) (hkeylen : 3 < intSize keylen) :
    paramPtr rest keylen = none := by
  have hno : ∀ param : UrlParam, strncmp rest param.name.bytes (intSize keylen) = false := by
    intro param
    refine Bool.eq_false_iff.2 fun h => ?_
    have hname : param.name.bytes.length = 3 := by cases param <;> rfl
    have hlen := congrArg List.length (strncmp_iff.1 h)
    rw [List.length_take, List.length_take, hname] at hlen
    omega
  simp [paramPtr, hno]

theorem paramPtr_append (name rest : List UInt8) : paramPtr (name ++ rest) (intLength name.length)
    = paramPtr name (intLength name.length) := by
  rcases intSize_intLength name.length with hle | ⟨hname, hsize⟩
  · have hsame : ∀ t, strncmp (name ++ rest) t (intSize (intLength name.length))
        = strncmp name t (intSize (intLength name.length)) := fun t => by
      rw [Bool.eq_iff_iff, strncmp_iff, strncmp_iff, List.take_append_of_le_length hle]
    simp only [paramPtr, hsame]
  · rw [paramPtr_long (by rw [List.length_append]; omega) hsize, paramPtr_long hname hsize]

/-- A text with a `&` in it is no prefix of a parameter's name. -/
theorem paramPtr_amp (seg rest : List UInt8) {keylen : ℤ} (hn : seg.length < intSize keylen) :
    paramPtr (seg ++ byte '&' :: rest) keylen = none := by
  have hamp : byte '&' ∈ (seg ++ byte '&' :: rest).take (intSize keylen) := by
    obtain ⟨k, hk⟩ := Nat.exists_eq_add_of_lt hn
    rw [hk, Nat.add_assoc, List.take_length_add_append, List.take_succ_cons]
    exact List.mem_append_right _ List.mem_cons_self
  have hno : ∀ param : UrlParam,
      strncmp (seg ++ byte '&' :: rest) param.name.bytes (intSize keylen) = false := by
    intro param
    refine Bool.eq_false_iff.2 fun h => ?_
    have hmem := List.take_subset _ _ (strncmp_iff.1 h ▸ hamp)
    cases param <;> exact absurd hmem (by decide)
  simp [paramPtr, hno]

/-- A name that is not too long is taken if it is a prefix, where the empty one goes to `key`. -/
theorem takes_iff_of_short {param : UrlParam} (hshort : name.length < 2 ^ 31) :
    param.takes name = true ↔ name <+: param.name.bytes ∧ (param = .key ∨ name ≠ []) := by
  have hsize : intSize (intLength name.length) = name.length := by
    unfold intSize
    rw [intLength_eq_iff.2 hshort]
    omega
  have hname : ∀ t : List UInt8, strncmp name t name.length = true ↔ name <+: t := fun t => by
    rw [strncmp_iff, List.take_length, List.prefix_iff_eq_take]
  rw [UrlParam.takes, decide_eq_true_eq, paramPtr, hsize]
  simp only [hname]
  have hboth : name <+: UrlParam.key.name.bytes → name <+: UrlParam.val.name.bytes → name = [] := by
    rcases name with _ | ⟨c, name⟩
    · exact fun _ _ => rfl
    · intro hkey hval
      have hk := (List.cons_prefix_cons.1 hkey).1
      have hv := (List.cons_prefix_cons.1 hval).1
      exact absurd (hk.symm.trans hv) (by decide)
  cases param with
  | key => split_ifs <;> simp_all
  | val =>
    split_ifs with hkey hval
    · simpa using fun hval => hboth hkey hval
    · have hne : name ≠ [] := fun h => hkey (h ▸ List.nil_prefix)
      simp [hval, hne]
    · simp [hval]

/-! ## Where the cursors may cross -/

theorem uncrossed_of_notMem (h : byte '=' ∉ query ∨ byte '&' ∉ query) : Uncrossed query := by
  rintro front rest rfl - n m hn hm -
  rcases h with h | h
  · rw [strchr_eq_none.2 fun hmem => h (List.mem_append_right _ hmem)] at hn
    cases hn
  · rw [strchr_eq_none.2 fun hmem => h (List.mem_append_right _ hmem)] at hm
    cases hm

/-- The first segment, and the rest. -/
theorem uncrossed_append (hseg : byte '&' ∉ seg) : Uncrossed (seg ++ byte '&' :: rest) ↔
    (∀ n, strchr (seg ++ byte '&' :: rest) (byte '=') = some n → seg.length < n →
      paramPtr (seg ++ byte '&' :: rest) (intLength n) = none) ∧ Uncrossed rest := by
  constructor
  · intro h
    refine ⟨fun n hn hlt => h [] _ rfl (.inl rfl) n _ hn (strchr_append hseg rest) hlt, ?_⟩
    intro front rest' hrest hfront
    refine h (seg ++ byte '&' :: front) rest' (by simp [hrest]) (.inr ?_)
    rcases hfront with rfl | hfront
    · simp
    · simp [List.getLast?_append, List.getLast?_cons, hfront]
  · rintro ⟨hhead, htail⟩ front rest' heq hfront n m hn hm hlt
    rcases hfront with rfl | hfront
    · rw [List.nil_append] at heq
      subst heq
      rw [strchr_append hseg] at hm
      exact hhead n hn (Option.some.inj hm ▸ hlt)
    · have hmem : byte '&' ∈ front := List.mem_of_getLast? hfront
      rcases List.append_eq_append_iff.1 heq with ⟨mid, rfl, hrest⟩ | ⟨mid, rfl, -⟩
      · rcases mid with _ | ⟨c, mid⟩
        · exact absurd (by simpa using hmem) hseg
        · obtain ⟨rfl, hrest'⟩ := List.cons.inj hrest
          refine htail mid rest' hrest' ?_ n m hn hm hlt
          rcases mid with _ | ⟨c, mid⟩
          · exact .inl rfl
          · exact .inr (by simpa [List.getLast?_append, List.getLast?_cons] using hfront)
      · exact absurd (List.mem_append_left _ hmem) hseg

/-- Where the cursors cross in a query that is not too long, the name holds a `&`. -/
theorem uncrossed_of_short (hshort : query.length < 2 ^ 32) : Uncrossed query := by
  rintro front rest rfl - n m hn hm hlt
  have hlen := strchr_lt hn
  rw [List.length_append] at hshort
  rcases intSize_of_short (n := n) (by omega) with hsize | ⟨hlong, hsize⟩
  · obtain ⟨seg, tail, rfl, -, rfl⟩ := strchr_eq_some hm
    exact paramPtr_amp seg tail (hsize.symm ▸ hlt)
  · exact paramPtr_long (hlong.trans hlen) hsize

/-! ## The loop -/

def takePair (params : UrlParams) (s : List UInt8 × CStr) : UrlParams :=
  params.store (paramPtr s.1 (intLength s.1.length)) s.2

theorem splitSegment_append (hname : byte '=' ∉ name) (value : List UInt8) :
    splitSegment (name ++ byte '=' :: value) = some (name, cstr value) := by
  unfold splitSegment
  rw [if_pos (by simp), takeWhile_ne hname, dropWhile_ne hname, List.drop_succ_cons, List.drop_zero]

/-- The end of the first segment. -/
theorem segEnd_append (hamp : byte '&' ∉ seg) (tail : List UInt8)
    (htail : ∀ c ∈ tail.head?, c = byte '&') : segEnd (seg ++ tail) = seg.length := by
  unfold segEnd
  rcases tail with _ | ⟨c, tail⟩
  · rw [List.append_nil, strchr_eq_none.2 hamp, Option.getD_none]
  · obtain rfl := htail c rfl
    rw [strchr_append hamp, Option.getD_some]

/-- One round, at a segment with a `=`. -/
theorem urlDecodeLoop_pair (hname : byte '=' ∉ name) (hamp : byte '&' ∉ name ++ byte '=' :: value)
    (tail : List UInt8) (htail : ∀ c ∈ tail.head?, c = byte '&') (fuel : ℕ) (params : UrlParams) :
    urlDecodeLoop (fuel + 1) (name ++ byte '=' :: value ++ tail) params
      = if tail = [] then takePair params (name, cstr value)
        else urlDecodeLoop fuel (tail.drop 1) (takePair params (name, cstr value)) := by
  have hread := segEnd_append hamp tail htail
  have hsplit : name ++ byte '=' :: value ++ tail = name ++ byte '=' :: (value ++ tail) := by
    rw [List.append_assoc, List.cons_append]
  have hkey : strchr (name ++ byte '=' :: value ++ tail) (byte '=') = some name.length := by
    rw [hsplit, strchr_append hname]
  have hvalue : ((name ++ byte '=' :: value ++ tail).drop (name.length + 1)).take
      ((name ++ byte '=' :: value).length - name.length - 1) = value := by
    rw [hsplit, ← List.drop_drop, List.drop_left, List.drop_succ_cons, List.drop_zero,
      List.length_append, List.length_cons, Nat.add_sub_cancel_left, Nat.add_sub_cancel,
      List.take_left]
  have hrest : (name ++ byte '=' :: value ++ tail).drop ((name ++ byte '=' :: value).length + 1)
      = tail.drop 1 := by
    rw [← List.drop_drop, List.drop_left]
  have hparam : paramPtr (name ++ byte '=' :: value ++ tail) (intLength name.length)
      = paramPtr name (intLength name.length) := by
    rw [hsplit, paramPtr_append]
  rw [urlDecodeLoop, hkey]
  simp only [takePair, hread, hvalue, hrest, hparam]
  rcases tail with _ | ⟨c, tail⟩
  · rw [List.append_nil, if_neg (lt_irrefl _), if_pos rfl]
  · rw [if_pos (by simp), if_neg (List.cons_ne_nil _ _)]

/-- One round, at a segment without `=` for which nothing is taken. -/
theorem urlDecodeLoop_skip (hamp : byte '&' ∉ seg)
    (hkey : strchr (seg ++ byte '&' :: rest) (byte '=') = some n)
    (hnone : paramPtr (seg ++ byte '&' :: rest) (intLength n) = none) (fuel : ℕ)
    (params : UrlParams) : urlDecodeLoop (fuel + 1) (seg ++ byte '&' :: rest) params
      = urlDecodeLoop fuel rest params := by
  have hread := segEnd_append hamp (byte '&' :: rest) (by simp)
  rw [urlDecodeLoop, hkey]
  simp only [hread, hnone]
  rw [if_pos (by simp), ← List.drop_drop, List.drop_left]
  rfl

/-- The next `=` is behind the segment's end. -/
theorem strchr_behind (hseg : byte '=' ∉ seg) (hrest : byte '=' ∈ rest) :
    ∃ n, strchr (seg ++ byte '&' :: rest) (byte '=') = some n ∧ seg.length < n := by
  obtain ⟨l, r, rfl, hl⟩ := List.eq_append_cons_of_mem hrest
  refine ⟨(seg ++ byte '&' :: l).length, ?_, ?_⟩
  · have hsplit : seg ++ byte '&' :: (l ++ byte '=' :: r)
        = (seg ++ byte '&' :: l) ++ byte '=' :: r := by
      rw [List.append_assoc, List.cons_append]
    rw [hsplit, strchr_append]
    rw [List.mem_append, List.mem_cons]
    rintro (h | h | h)
    · exact hseg h
    · exact absurd h (by decide)
    · exact hl h
  · rw [List.length_append, List.length_cons]
    omega

theorem urlDecodeLoop_none (hurl : byte '=' ∉ url) (fuel : ℕ) (params : UrlParams) :
    urlDecodeLoop fuel url params = params := by
  cases fuel with
  | zero => rfl
  | succ fuel => rw [urlDecodeLoop, strchr_eq_none.2 hurl]

theorem queryPairs_append (hamp : byte '&' ∉ seg) (rest : List UInt8) :
    queryPairs (seg ++ byte '&' :: rest) = (splitSegment seg).toList ++ queryPairs rest := by
  unfold queryPairs
  rw [List.splitOn_append_cons_self_of_not_mem hamp, List.filterMap_cons]
  cases splitSegment seg <;> rfl

theorem queryPairs_single (hamp : byte '&' ∉ seg) :
    queryPairs seg = (splitSegment seg).toList := by
  unfold queryPairs
  rw [List.splitOn_eq_singleton hamp, List.filterMap_cons]
  cases splitSegment seg <;> rfl

/-- The loop takes the pairs of an uncrossed query one after another. -/
theorem urlDecodeLoop_pairs : ∀ (fuel : ℕ) (url : List UInt8) (params : UrlParams),
    url.length < fuel → Uncrossed url →
    urlDecodeLoop fuel url params = (queryPairs url).foldl takePair params
  | 0, _, _, h, _ => absurd h (Nat.not_lt_zero _)
  | fuel + 1, url, params, h, huncrossed => by
    by_cases hamp : byte '&' ∈ url
    · obtain ⟨seg, rest, rfl, hseg⟩ := List.eq_append_cons_of_mem hamp
      obtain ⟨hhead, htail⟩ := (uncrossed_append hseg).1 huncrossed
      have ih : ∀ params, urlDecodeLoop fuel rest params
          = (queryPairs rest).foldl takePair params := fun params =>
        urlDecodeLoop_pairs fuel rest params (by simp at h; omega) htail
      rw [queryPairs_append hseg, List.foldl_append]
      by_cases heq : byte '=' ∈ seg
      · obtain ⟨name, value, rfl, hname⟩ := List.eq_append_cons_of_mem heq
        rw [urlDecodeLoop_pair hname hseg _ (by simp), if_neg (List.cons_ne_nil _ _),
          splitSegment_append hname, List.drop_succ_cons, List.drop_zero, Option.toList_some,
          List.foldl_cons, List.foldl_nil]
        exact ih _
      · rw [splitSegment, if_neg heq]
        by_cases hrest : byte '=' ∈ rest
        · obtain ⟨n, hn, hlt⟩ := strchr_behind heq hrest
          rw [urlDecodeLoop_skip hseg hn (hhead n hn hlt)]
          exact ih _
        · have hnone := ih params
          rw [urlDecodeLoop_none hrest] at hnone
          rw [urlDecodeLoop_none]
          · exact hnone
          · rw [List.mem_append, List.mem_cons]
            rintro (h | h | h)
            · exact heq h
            · exact absurd h (by decide)
            · exact hrest h
    · rw [queryPairs_single hamp]
      by_cases heq : byte '=' ∈ url
      · obtain ⟨name, value, rfl, hname⟩ := List.eq_append_cons_of_mem heq
        have hpair := urlDecodeLoop_pair hname hamp [] (by simp) fuel params
        rw [List.append_nil, if_pos rfl] at hpair
        rw [hpair, splitSegment_append hname, Option.toList_some, List.foldl_cons, List.foldl_nil]
      · rw [splitSegment, if_neg heq, urlDecodeLoop_none heq]
        rfl

/-! ## The parameters taken -/

theorem takePair_eq (params : UrlParams) (s : List UInt8 × CStr) :
    takePair params s = ⟨params.path, if UrlParam.key.takes s.1 then some s.2 else params.key,
      if UrlParam.val.takes s.1 then some s.2 else params.val⟩ := by
  unfold takePair
  rcases hp : paramPtr s.1 (intLength s.1.length) with _ | param
  · simp [UrlParam.takes, hp, UrlParams.store]
  · cases param <;> simp [UrlParam.takes, hp, UrlParams.store, UrlParams.set]

theorem lastValue_append (names : List UInt8 → Bool) (pairs : List (List UInt8 × CStr))
    (s : List UInt8 × CStr) : lastValue names (pairs ++ [s])
      = if names s.1 then some s.2 else lastValue names pairs := by
  unfold lastValue lastNamed
  rw [List.filter_append, List.filter_cons, List.filter_nil]
  split_ifs
  · rw [List.getLast?_concat]
    rfl
  · rw [List.append_nil]

/-- What the pairs put into the parameters. -/
theorem foldl_takePair (path : Option CStr) (pairs : List (List UInt8 × CStr)) :
    pairs.foldl takePair ⟨path, none, none⟩
      = ⟨path, lastValue UrlParam.key.takes pairs, lastValue UrlParam.val.takes pairs⟩ := by
  induction pairs using List.reverseRecOn with
  | nil => rfl
  | append_singleton pairs s ih =>
    rw [List.foldl_append, ih, lastValue_append, lastValue_append, List.foldl_cons, List.foldl_nil,
      takePair_eq]

theorem pathLen_le (url : CStr) : pathLen url ≤ url.strlen := (List.takeWhile_prefix _).length_le

theorem length_urlQuery_le (url : CStr) : (urlQuery url).length ≤ url.strlen :=
  ((List.drop_suffix _ _).trans (List.dropWhile_suffix _)).length_le

theorem urlQuery_of_none {url : CStr} (h : strchr url.bytes (byte '?') = none) :
    urlQuery url = [] := by
  have hall : ∀ b ∈ url.bytes, decide (b ≠ byte '?') = true := fun b hb => by
    simpa using fun hbq : b = byte '?' => strchr_eq_none.1 h (hbq ▸ hb)
  rw [urlQuery, List.dropWhile_eq_nil_iff.2 hall]
  rfl

theorem urlQuery_of_some {url : CStr} (h : strchr url.bytes (byte '?') = some n) :
    urlQuery url = url.bytes.drop (n + 1) := by
  obtain ⟨path, query, hbytes, hpath, rfl⟩ := strchr_eq_some h
  rw [urlQuery, hbytes, dropWhile_ne hpath, ← List.drop_drop, List.drop_left]

/-- What an uncrossed query is decoded to. -/
theorem urlDecode_eq {url : CStr} (huncrossed : Uncrossed (urlQuery url)) :
    urlDecode url = ⟨copiedPath url, lastValue UrlParam.key.takes (urlPairs url),
      lastValue UrlParam.val.takes (urlPairs url)⟩ := by
  rw [← foldl_takePair, urlPairs]
  unfold urlDecode
  rcases h : strchr url.bytes (byte '?') with _ | r
  · rw [urlQuery_of_none h]
    rfl
  · rw [urlQuery_of_some h] at huncrossed ⊢
    refine urlDecodeLoop_pairs _ _ _ ?_ huncrossed
    have hr := strchr_lt h
    rw [List.length_drop, CStr.strlen]
    omega

/-! ## The path -/

/-- What a URL is made of. -/
theorem exists_path {url : CStr} (hslash : url.bytes.head? = some (byte '/')) :
    ∃ path, byte '?' ∉ path ∧ (url.bytes = byte '/' :: path ∨
      ∃ query, url.bytes = byte '/' :: path ++ byte '?' :: query) := by
  obtain ⟨text, htext⟩ := List.head?_eq_some_iff.1 hslash
  by_cases hmark : byte '?' ∈ text
  · obtain ⟨path, query, rfl, hpath⟩ := List.eq_append_cons_of_mem hmark
    exact ⟨path, hpath, .inr ⟨query, htext⟩⟩
  · exact ⟨text, hmark, .inl htext⟩

section Path

variable {url : CStr} {path query : List UInt8} (hpath : byte '?' ∉ path)

include hpath

theorem notMem_slash : byte '?' ∉ byte '/' :: path :=
  List.not_mem_cons_of_ne_of_not_mem (by decide) hpath

theorem urlPath_path (hurl : url.bytes = byte '/' :: path) : pathLen url = path.length + 1 ∧
    urlPath url = if path = [] then none else some (cstr path) := by
  have hall : ∀ l : List UInt8, byte '?' ∉ l → ∀ b ∈ l, decide (b ≠ byte '?') = true :=
    fun l hl b hb => by simpa using fun h : b = byte '?' => hl (h ▸ hb)
  rw [pathLen, urlPath, hurl, List.drop_succ_cons, List.drop_zero,
    List.takeWhile_eq_self_iff.2 (hall _ hpath),
    List.takeWhile_eq_self_iff.2 (hall _ (notMem_slash hpath))]
  exact ⟨rfl, rfl⟩

theorem urlPath_query (hurl : url.bytes = byte '/' :: path ++ byte '?' :: query) :
    pathLen url = path.length + 1 ∧
      urlPath url = if path = [] then none else some (cstr path) := by
  rw [pathLen, urlPath, hurl, takeWhile_ne (notMem_slash hpath), List.cons_append,
    List.drop_succ_cons, List.drop_zero, takeWhile_ne hpath]
  exact ⟨rfl, rfl⟩

theorem copiedPath_path (hurl : url.bytes = byte '/' :: path) :
    copiedPath url = if 1 < intLength (path.length + 1) then some (cstr path) else none := by
  have hmark : byte '?' ∉ url.bytes := hurl ▸ notMem_slash hpath
  rw [copiedPath, strchr_eq_none.2 hmark, CStr.strlen, hurl]
  rfl

theorem copiedPath_query (hurl : url.bytes = byte '/' :: path ++ byte '?' :: query) :
    copiedPath url = if 1 < intLength (path.length + 1) then
      some (cstr (path.take (intLength (path.length + 1) - 1).toNat)) else none := by
  have hlen : (intLength (path.length + 1) - 1).toNat ≤ path.length := by
    have hle := intLength_le (path.length + 1)
    omega
  rw [copiedPath, hurl, strchr_append (notMem_slash hpath), List.cons_append, List.drop_succ_cons,
    List.drop_zero]
  simp only [List.length_cons, List.take_append_of_le_length hlen]

end Path

/-- A path that is not too long is copied as it is. -/
theorem copiedPath_of_short {url : CStr} (hslash : url.bytes.head? = some (byte '/'))
    (hshort : pathLen url < 2 ^ 31) : copiedPath url = urlPath url := by
  obtain ⟨path, hpath, hurl | ⟨query, hurl⟩⟩ := exists_path hslash
  · obtain ⟨hlen, hurlPath⟩ := urlPath_path hpath hurl
    rw [copiedPath_path hpath hurl, hurlPath, intLength_eq_iff.2 (hlen ▸ hshort)]
    rcases path with _ | ⟨c, path⟩
    · rfl
    · rw [if_pos (by simp), if_neg (List.cons_ne_nil _ _)]
  · obtain ⟨hlen, hurlPath⟩ := urlPath_query hpath hurl
    have htake : (((path.length + 1 : ℕ) : ℤ) - 1).toNat = path.length := by omega
    rw [copiedPath_query hpath hurl, hurlPath, intLength_eq_iff.2 (hlen ▸ hshort), htake,
      List.take_length]
    rcases path with _ | ⟨c, path⟩
    · rfl
    · rw [if_pos (by simp), if_neg (List.cons_ne_nil _ _)]

/-! ## Encoded parameters -/

/-- The pair printed for a parameter. -/
theorem splitSegment_param (param : UrlParam) {s : CStr} (hs : Clean s) :
    byte '&' ∉ param.name.bytes ++ byte '=' :: s.bytes ∧
      splitSegment (param.name.bytes ++ byte '=' :: s.bytes) = some (param.name.bytes, s) := by
  have hname : byte '=' ∉ param.name.bytes ∧ byte '&' ∉ param.name.bytes := by
    cases param <;> decide
  rw [splitSegment_append hname.1, cstr_bytes, List.mem_append, not_or]
  exact ⟨⟨hname.2, List.not_mem_cons_of_ne_of_not_mem (by decide) hs.1⟩, rfl⟩

/-- The last separator is cut off. -/
theorem queryPairs_last {param : UrlParam} {s : CStr} (hs : Clean s) :
    queryPairs (printParam param (some s)).dropLast = [(param.name.bytes, s)] := by
  obtain ⟨hamp, hsplit⟩ := splitSegment_param param hs
  rw [printParam, List.dropLast_concat, queryPairs_single hamp, hsplit]
  rfl

theorem queryPairs_param {param : UrlParam} {s : CStr} (hs : Clean s) (rest : List UInt8) :
    queryPairs (printParam param (some s) ++ rest) = (param.name.bytes, s) :: queryPairs rest := by
  obtain ⟨hamp, hsplit⟩ := splitSegment_param param hs
  rw [printParam, List.append_assoc, List.singleton_append, queryPairs_append hamp, hsplit]
  rfl

/-- A name is taken for its parameter only. -/
theorem takes_name (param param' : UrlParam) :
    param.takes param'.name.bytes = decide (param = param') := by
  cases param <;> cases param' <;> decide

/-- What is printed for the two parameters, without the last separator, is decoded to them. -/
theorem lastValue_printParam {path key val : Option CStr}
    (hparams : UrlParams.All Clean ⟨path, key, val⟩) (param : UrlParam) :
    lastValue param.takes (queryPairs (printParam .key key ++ printParam .val val).dropLast)
      = UrlParam.casesOn param key val := by
  rcases key with _ | k <;> rcases val with _ | v
  · cases param <;> rfl
  · rw [printParam, List.nil_append, queryPairs_last (hparams.2 v rfl)]
    cases param <;> simp [lastValue, lastNamed, takes_name]
  · rw [printParam.eq_1 UrlParam.val, List.append_nil, queryPairs_last (hparams.1 k rfl)]
    cases param <;> simp [lastValue, lastNamed, takes_name]
  · rw [List.dropLast_append_of_ne_nil (by simp [printParam]), queryPairs_param (hparams.1 k rfl),
      queryPairs_last (hparams.2 v rfl)]
    cases param <;> simp [lastValue, lastNamed, takes_name]

/-- A URL that is not too long is decoded to what was encoded. -/
theorem urlDecode_urlEncode {params : UrlParams} (hpath : IsPath params.path)
    (hparams : params.All Clean) (hshort : (urlEncode params).strlen < 2 ^ 31) :
    urlDecode (urlEncode params) = params := by
  obtain ⟨path, key, val⟩ := params
  have hbytes := bytes_urlEncode ⟨path, key, val⟩
  have hmark : byte '?' ∉ path.elim [] CStr.bytes := by
    rcases path with _ | p
    · simp
    · exact (hpath p rfl).2
  have hback : (if path.elim [] CStr.bytes = [] then none
      else some (cstr (path.elim [] CStr.bytes))) = path := by
    rcases path with _ | p
    · rfl
    · simp [(hpath p rfl).1, cstr_bytes]
  rw [urlEncodeBuf, List.dropLast_append_of_ne_nil (List.cons_ne_nil _ _)] at hbytes
  have hdecoded : urlPath (urlEncode ⟨path, key, val⟩) = path ∧ urlQuery (urlEncode ⟨path, key, val⟩)
      = (printParam .key key ++ printParam .val val).dropLast := by
    by_cases hquery : printParam .key key ++ printParam .val val = []
    · -- nothing is printed behind the `?`, which is cut off itself
      rw [hquery, List.dropLast_singleton, List.append_nil] at hbytes
      have hnone := hbytes ▸ notMem_slash hmark
      rw [(urlPath_path hmark hbytes).2, hback, urlQuery_of_none (strchr_eq_none.2 hnone), hquery]
      exact ⟨rfl, rfl⟩
    · rw [List.dropLast_cons_of_ne_nil hquery] at hbytes
      have hsome := hbytes ▸ strchr_append (notMem_slash hmark) _
      rw [(urlPath_query hmark hbytes).2, hback, urlQuery_of_some hsome, hbytes, ← List.drop_drop,
        List.drop_left]
      exact ⟨rfl, rfl⟩
  have hslash : (urlEncode ⟨path, key, val⟩).bytes.head? = some (byte '/') := by
    rw [hbytes]
    rfl
  have hlen := pathLen_le (urlEncode ⟨path, key, val⟩)
  have hquery := length_urlQuery_le (urlEncode ⟨path, key, val⟩)
  rw [urlDecode_eq (uncrossed_of_short (by omega)), copiedPath_of_short hslash (by omega), urlPairs,
    hdecoded.1, hdecoded.2, lastValue_printParam hparams, lastValue_printParam hparams]

/-! ## Exact names -/

theorem takes_of_isName {param : UrlParam} (h : param.isName name = true) :
    param.takes name = true := by
  rw [of_decide_eq_true h, takes_name, decide_eq_true rfl]

theorem lastNamed_isName {param : UrlParam} {pairs : List (List UInt8 × CStr)}
    {s : List UInt8 × CStr} (h : lastNamed param.takes pairs = some s)
    (hs : s.1 = param.name.bytes) : lastNamed param.isName pairs = some s := by
  have hfilter : (pairs.filter fun s => param.takes s.1).filter (fun s => param.isName s.1)
      = pairs.filter fun s => param.isName s.1 := by
    rw [List.filter_filter]
    refine List.filter_congr fun t _ => ?_
    cases hname : param.isName t.1
    · rfl
    · rw [takes_of_isName hname]
      rfl
  obtain ⟨init, hinit⟩ := List.getLast?_eq_some_iff.1 h
  have hexact : param.isName s.1 = true := decide_eq_true hs
  unfold lastNamed
  rw [← hfilter, hinit, List.filter_append, List.filter_cons, if_pos hexact, List.filter_nil,
    List.getLast?_concat]

theorem lastValue_eq_iff (param : UrlParam) (pairs : List (List UInt8 × CStr)) :
    lastValue param.takes pairs = lastValue param.isName pairs ↔ LastIsExact pairs param := by
  unfold lastValue LastIsExact
  rcases htakes : lastNamed param.takes pairs with _ | s
  · have hnone : lastNamed param.isName pairs = none := by
      unfold lastNamed at htakes ⊢
      rw [List.getLast?_eq_none_iff, List.filter_eq_nil_iff] at htakes ⊢
      exact fun t ht hname => htakes t ht (takes_of_isName hname)
    simp [hnone]
  · rcases hname : lastNamed param.isName pairs with _ | t
    · have hs : s.1 ≠ param.name.bytes := fun hs => by
        rw [lastNamed_isName htakes hs] at hname
        cases hname
      simp [hs]
    · have hs : s.1 = param.name.bytes → t.2 = s.2 := fun hs => by
        rw [lastNamed_isName htakes hs, Option.some.injEq] at hname
        rw [hname]
      simp only [Option.map_some, Option.some.injEq, Option.mem_some_iff, exists_eq_left', forall_eq']
      exact ⟨fun h => .inr h.symm, fun h => (h.elim hs id).symm⟩

end Cs162
