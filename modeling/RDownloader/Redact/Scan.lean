import RDownloader.Redact.Tokens

/-!
# What the scan of a line reads

The pieces of a line depend on the line alone; the library is asked when they are written.
-/

namespace RDownloader

namespace Redact

open Text

/-- What one round of the scan reads. -/
inductive Piece where
  | plain (c : Char)
  | vault (token : Text)
  | address (token : Text)
  | credential (scheme value : Text)
  deriving DecidableEq, Repr

namespace Piece

def source : Piece → Text
  | plain c => [c]
  | vault token => token
  | address token => token
  | credential scheme value => scheme ++ value

def written (library : UrlLibrary) : Piece → Text
  | plain c => [c]
  | vault _ => vaultMarker ++ placeholder
  | address token => addressText library token
  | credential scheme _ => scheme ++ placeholder

end Piece

/-- The pieces of a text behind a character. -/
inductive Scan (isAlphanumeric : Char → Bool) : Option Char → Text → List Piece → Prop
  | nil {previous} : Scan isAlphanumeric previous [] []
  | vault {previous text rest pieces} (hmarker : markerOf text = some vaultMarker)
      (htext : text = token text ++ rest)
      (hrest : Scan isAlphanumeric (token text).getLast? rest pieces) :
      Scan isAlphanumeric previous text (.vault (token text) :: pieces)
  | address {previous text rest pieces marker} (hmarker : markerOf text = some marker)
      (hvault : marker ≠ vaultMarker) (htext : text = token text ++ rest)
      (hrest : Scan isAlphanumeric (token text).getLast? rest pieces) :
      Scan isAlphanumeric previous text (.address (token text) :: pieces)
  | credential {previous text rest pieces scheme value} (hmarker : markerOf text = none)
      (hcredential : credentialOf isAlphanumeric previous text = some (scheme, value))
      (htext : text = scheme ++ value ++ rest)
      (hrest : Scan isAlphanumeric value.getLast? rest pieces) :
      Scan isAlphanumeric previous text (.credential scheme value :: pieces)
  | plain {previous c rest pieces} (hmarker : markerOf (c :: rest) = none)
      (hcredential : credentialOf isAlphanumeric previous (c :: rest) = none)
      (hrest : Scan isAlphanumeric (some c) rest pieces) :
      Scan isAlphanumeric previous (c :: rest) (.plain c :: pieces)

/-! ## The scan of the code -/

variable {isAlphanumeric : Char → Bool} {previous : Option Char} {text scheme value : Text}
  {pieces : List Piece}

theorem credentialOf_eq_some_iff :
    credentialOf isAlphanumeric previous text = some (scheme, value) ↔
      toAsciiLowercase scheme ∈ credentialSchemes ∧ isWordStart isAlphanumeric previous = true ∧
        value ≠ [] ∧ ∃ rest, text = scheme ++ rest ∧ token rest = value := by
  have hfind : ∀ {name : Text},
      credentialSchemes.find? (·.isPrefixOf (toAsciiLowercase text)) = some name ↔
        name ∈ credentialSchemes ∧ name <+: toAsciiLowercase text :=
    find_eq_some_iff fun _ => mem_patterns_of_scheme
  constructor
  · intro h
    rw [credentialOf] at h
    split at h
    next name hname =>
      obtain ⟨hmem, hprefix⟩ := hfind.mp hname
      dsimp only at h
      split at h
      next hcond =>
        simp only [Option.some.injEq, Prod.mk.injEq] at h
        obtain ⟨hscheme, hvalue⟩ := h
        have hlow : toAsciiLowercase scheme = name := by
          rw [← hscheme, toAsciiLowercase_eq_map, List.map_take, ← toAsciiLowercase_eq_map]
          exact (List.prefix_iff_eq_take.mp hprefix).symm
        refine ⟨hlow ▸ hmem, hcond.1, hvalue ▸ hcond.2, text.drop name.length, ?_, hvalue⟩
        rw [← hscheme, List.take_append_drop]
      · cases h
    · cases h
  · rintro ⟨hmem, hstart, hvalue, rest, htext, htoken⟩
    have hlength : (toAsciiLowercase scheme).length = scheme.length := List.length_map ..
    have hname := hfind.mpr ⟨hmem, by
      rw [htext, lowercase_append]
      exact List.prefix_append ..⟩
    rw [credentialOf, hname]
    dsimp only
    rw [hlength, htext, List.drop_left, List.take_left, htoken, if_pos ⟨hstart, hvalue⟩]

theorem exists_scan (isAlphanumeric : Char → Bool) :
    ∀ (n : Nat) (text : Text) (previous : Option Char), text.length ≤ n →
      ∃ pieces, Scan isAlphanumeric previous text pieces := by
  intro n
  induction n with
  | zero =>
    intro text previous hlength
    cases List.eq_nil_of_length_eq_zero (Nat.le_zero.mp hlength)
    exact ⟨[], .nil⟩
  | succ n ih =>
    intro text previous hlength
    cases text with
    | nil => exact ⟨[], .nil⟩
    | cons c rest =>
      have hnext : ∀ {front behind : Text} (previous : Option Char), c :: rest = front ++ behind →
          front ≠ [] → ∃ pieces, Scan isAlphanumeric previous behind pieces := by
        intro front behind previous h hfront
        refine ih behind previous ?_
        have hlong := congrArg List.length h
        rw [List.length_append] at hlong
        have hpositive := List.length_pos_iff.mpr hfront
        omega
      cases hmarker : markerOf (c :: rest) with
      | some marker =>
        obtain ⟨behind, htext⟩ := exists_rest (c :: rest)
        obtain ⟨pieces, hpieces⟩ := hnext (token (c :: rest)).getLast? htext (token_ne_nil hmarker)
        by_cases hvault : marker = vaultMarker
        · exact ⟨_, .vault (hvault ▸ hmarker) htext hpieces⟩
        · exact ⟨_, .address hmarker hvault htext hpieces⟩
      | none =>
        cases hcredential : credentialOf isAlphanumeric previous (c :: rest) with
        | some credential =>
          obtain ⟨scheme, value⟩ := credential
          obtain ⟨-, -, hvalue, front, hfront, htoken⟩ := credentialOf_eq_some_iff.mp hcredential
          obtain ⟨behind, hbehind⟩ := exists_rest front
          rw [htoken] at hbehind
          rw [hbehind, ← List.append_assoc] at hfront
          obtain ⟨pieces, hpieces⟩ := hnext value.getLast? hfront
            (List.append_ne_nil_of_right_ne_nil scheme hvalue)
          exact ⟨_, .credential hmarker hcredential hfront hpieces⟩
        | none =>
          obtain ⟨pieces, hpieces⟩ := ih rest (some c) (by simpa using hlength)
          exact ⟨_, .plain hmarker hcredential hpieces⟩

/-- The code writes the pieces of a text. -/
theorem redactInlineFrom_eq (library : UrlLibrary)
    (h : Scan isAlphanumeric previous text pieces) :
    ∀ n, text.length ≤ n →
      redactInlineFrom library isAlphanumeric n previous text =
        pieces.flatMap (Piece.written library) := by
  have hdrop : ∀ {text front rest : Text}, text = front ++ rest →
      text.drop front.length = rest :=
    fun h => (congrArg (List.drop _) h).trans List.drop_left
  have hshort : ∀ {text front rest : Text} {n : Nat}, text = front ++ rest → front ≠ [] →
      text.length ≤ n → ∃ m, n = m + 1 ∧ rest.length ≤ m := by
    intro text front rest n h hfront hlength
    have hlong := congrArg List.length h
    rw [List.length_append] at hlong
    have hpositive := List.length_pos_iff.mpr hfront
    exact ⟨n - 1, by omega, by omega⟩
  induction h with
  | nil =>
    intro n _
    cases n <;> rfl
  | vault hmarker htext hrest ih =>
    intro n hlength
    obtain ⟨n, rfl, hn⟩ := hshort htext (token_ne_nil hmarker) hlength
    obtain ⟨c, tail, rfl⟩ := List.exists_cons_of_ne_nil (ne_nil_of_marker hmarker)
    rw [redactInlineFrom, hmarker]
    dsimp only
    rw [if_pos rfl, hdrop htext, ih n hn, List.flatMap_cons]
    rfl
  | address hmarker hvault htext hrest ih =>
    intro n hlength
    obtain ⟨n, rfl, hn⟩ := hshort htext (token_ne_nil hmarker) hlength
    obtain ⟨c, tail, rfl⟩ := List.exists_cons_of_ne_nil (ne_nil_of_marker hmarker)
    rw [redactInlineFrom, hmarker]
    dsimp only
    rw [if_neg hvault, hdrop htext, ih n hn, List.flatMap_cons]
    rfl
  | @credential _ _ _ _ scheme value hmarker hcredential htext hrest ih =>
    intro n hlength
    obtain ⟨-, -, hvalue, -⟩ := credentialOf_eq_some_iff.mp hcredential
    have hfront : scheme ++ value ≠ [] := List.append_ne_nil_of_right_ne_nil scheme hvalue
    obtain ⟨n, rfl, hn⟩ := hshort htext hfront hlength
    obtain ⟨c, tail, hcons⟩ := List.exists_cons_of_ne_nil
      fun h => hfront (List.append_eq_nil_iff.mp (htext.symm.trans h)).1
    rw [hcons] at hmarker hcredential htext ⊢
    rw [redactInlineFrom, hmarker]
    dsimp only
    rw [hcredential]
    dsimp only
    rw [hdrop htext, ih n hn, List.flatMap_cons]
    rfl
  | plain hmarker hcredential hrest ih =>
    intro n hlength
    obtain ⟨n, rfl, hn⟩ := hshort (List.singleton_append ..).symm (List.cons_ne_nil _ []) hlength
    rw [redactInlineFrom, hmarker]
    dsimp only
    rw [hcredential]
    dsimp only
    rw [ih n hn, List.flatMap_cons]
    rfl

end Redact

end RDownloader
