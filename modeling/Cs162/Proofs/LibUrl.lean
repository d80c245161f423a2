import Cs162.LibUrl

/-!
# Parameters of a URL

The values `url_decode` takes out of a URL hold no `&`, and nothing that is not in the URL
(`urlDecode_clean`). What `url_encode` prints is a string (`bytes_urlEncode`).
-/

namespace Cs162

open CLib

/-- Nothing in the string ends a parameter or a request's path. -/
def Clean (s : CStr) : Prop := byte '&' ∉ s.bytes ∧ byte ' ' ∉ s.bytes ∧ byte '\n' ∉ s.bytes

/-- The parameters that are there all satisfy a predicate. -/
def UrlParams.All (P : CStr → Prop) (params : UrlParams) : Prop :=
  (∀ k ∈ params.key, P k) ∧ ∀ v ∈ params.val, P v

theorem UrlParams.All.set {P : CStr → Prop} {params : UrlParams} (h : params.All P) {s : CStr}
    (hs : P s) (param : UrlParam) : (params.set param s).All P := by
  cases param
  · exact ⟨fun k hk => by cases hk; exact hs, h.2⟩
  · exact ⟨h.1, fun v hv => by cases hv; exact hs⟩

/-! ## Decoding -/

theorem notMem_take_segEnd (url : List UInt8) : byte '&' ∉ url.take (segEnd url) := by
  unfold segEnd
  rcases h : strchr url (byte '&') with _ | n
  · rw [Option.getD_none, List.take_length]
    exact strchr_eq_none.1 h
  · exact notMem_take_strchr h

/-- What the loop takes out are parts of the URL without `&`. -/
theorem urlDecodeLoop_all {P : CStr → Prop} : ∀ (fuel : ℕ) (url : List UInt8) (params : UrlParams),
    (∀ s : CStr, s.bytes <:+: url → byte '&' ∉ s.bytes → P s) → params.All P →
    (urlDecodeLoop fuel url params).All P
  | 0, _, _, _, h => h
  | fuel + 1, url, params, hP, h => by
    unfold urlDecodeLoop
    split
    · exact h
    · rename_i keyEnd _
      simp only
      set readEnd := segEnd url
      have hvalue : P (cstr ((url.drop (keyEnd + 1)).take (readEnd - keyEnd - 1))) := by
        rw [Nat.sub_sub, ← List.drop_take]
        have hpart : (cstr ((url.take readEnd).drop (keyEnd + 1))).bytes <:+: url.take readEnd :=
          (List.takeWhile_prefix _).isInfix.trans (List.drop_suffix _ _).isInfix
        exact hP _ (hpart.trans (List.take_prefix _ _).isInfix)
          fun hb => notMem_take_segEnd url (hpart.subset hb)
      have hrest : ∀ params' : UrlParams, params'.All P →
          (if readEnd < url.length then urlDecodeLoop fuel (url.drop (readEnd + 1)) params'
            else params').All P := by
        intro params' h'
        split_ifs
        · exact urlDecodeLoop_all fuel _ _
            (fun s hs => hP s (hs.trans (List.drop_suffix _ _).isInfix)) h'
        · exact h'
      rcases paramPtr url (intLength keyEnd) with _ | param
      · exact hrest _ h
      · exact hrest _ (h.set hvalue _)

theorem urlDecode_all {P : CStr → Prop} {url : CStr}
    (hP : ∀ s : CStr, s.bytes <:+: url.bytes → byte '&' ∉ s.bytes → P s) :
    (urlDecode url).All P := by
  unfold urlDecode
  split
  · exact ⟨by simp, by simp⟩
  · exact urlDecodeLoop_all _ _ _ (fun s hs => hP s (hs.trans (List.drop_suffix _ _).isInfix))
      ⟨by simp, by simp⟩

/-- The parameters in the path of a request. -/
theorem urlDecode_clean {url : CStr} (hsp : byte ' ' ∉ url.bytes) (hnl : byte '\n' ∉ url.bytes) :
    (urlDecode url).All Clean :=
  urlDecode_all fun _ hs hamp => ⟨hamp, fun hb => hsp (hs.subset hb), fun hb => hnl (hs.subset hb)⟩

theorem urlDecode_strlen (url : CStr) : (urlDecode url).All fun s => s.strlen ≤ url.strlen :=
  urlDecode_all fun _ hs _ => hs.length_le

/-! ## Encoding -/

/-- A path `url_encode` can print and `url_decode` reads back. -/
def IsPath (path : Option CStr) : Prop := ∀ p ∈ path, p.bytes ≠ [] ∧ byte '?' ∉ p.bytes

theorem bytes_urlEncode (params : UrlParams) :
    (urlEncode params).bytes = (urlEncodeBuf params).dropLast := by
  refine bytes_cstr fun h => ?_
  have h0 := List.dropLast_subset _ h
  obtain ⟨path, key, val⟩ := params
  have hname : ∀ param : UrlParam, (0 : UInt8) ∉ param.name.bytes := fun param => param.name.noNul
  have hstr : ∀ s : CStr, (0 : UInt8) ∉ s.bytes := CStr.noNul
  have hc : (0 : UInt8) ≠ byte '/' ∧ (0 : UInt8) ≠ byte '?' ∧ (0 : UInt8) ≠ byte '=' ∧
      (0 : UInt8) ≠ byte '&' := by decide
  rcases path with _ | p <;> rcases key with _ | k <;> rcases val with _ | v <;>
    simp [urlEncodeBuf, printParam, hname, hstr, hc] at h0

end Cs162
