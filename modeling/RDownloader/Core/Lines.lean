import RDownloader.Core.Text

/-!
# Lines and the space around them

White space and control characters are Unicode's, as `str::trim` and `char::is_control` have them.
-/

namespace RDownloader

/-- `char::is_whitespace`: the characters with the property `White_Space`. -/
def isWhiteSpace (c : Char) : Bool :=
  let n := c.toNat
  (9 ≤ n && n ≤ 13) || n = 32 || n = 0x85 || n = 0xa0 || n = 0x1680 ||
    (0x2000 ≤ n && n ≤ 0x200a) || n = 0x2028 || n = 0x2029 || n = 0x202f || n = 0x205f || n = 0x3000

/-- `char::is_control`: the category `Cc`. -/
def isControl (c : Char) : Bool :=
  let n := c.toNat
  n ≤ 31 || (127 ≤ n && n ≤ 159)

namespace Text

/-- `str::trim`. -/
def trimmed (text : Text) : Text :=
  ((text.dropWhile isWhiteSpace).reverse.dropWhile isWhiteSpace).reverse

def stripReturn (line : Text) : Text :=
  match line.reverse with
  | '\r' :: rest => rest.reverse
  | _ => line

/-- The pieces that a line break ends, and what follows the last one unless it is empty. -/
def splitLines : Text → List Text
  | [] => []
  | c :: rest =>
    if c = '\n' then [] :: splitLines rest
    else match splitLines rest with
      | [] => [[c]]
      | line :: lines => (c :: line) :: lines

/-- `str::lines`. -/
def lines (text : Text) : List Text := (splitLines text).map stripReturn

/-- `[str]::join`. -/
def join (separator : Text) : List Text → Text
  | [] => []
  | [text] => text
  | text :: next :: texts => text ++ separator ++ join separator (next :: texts)

/-- The bytes of a text in UTF-8. -/
def byteLength (text : Text) : Nat := (text.map Char.utf8Size).sum

/-- A text that does not begin or end with white space. -/
def Tight (text : Text) : Prop :=
  (∀ c ∈ text.head?, isWhiteSpace c = false) ∧ ∀ c ∈ text.getLast?, isWhiteSpace c = false

variable {text line rest : Text}

theorem dropWhile_eq_self (h : ∀ c ∈ text.head?, isWhiteSpace c = false) :
    text.dropWhile isWhiteSpace = text := by
  cases text with
  | nil => rfl
  | cons c text => rw [List.dropWhile_cons_of_neg (by simp [h c rfl])]

theorem trimmed_of_tight (h : text.Tight) : trimmed text = text := by
  rw [trimmed, dropWhile_eq_self h.1, dropWhile_eq_self (by rw [List.head?_reverse]; exact h.2),
    List.reverse_reverse]

theorem head_dropWhile (text : Text) :
    ∀ c ∈ (text.dropWhile isWhiteSpace).head?, isWhiteSpace c = false := by
  induction text with
  | nil => exact nofun
  | cons c text ih =>
    cases hc : isWhiteSpace c with
    | true => rwa [List.dropWhile_cons_of_pos hc]
    | false =>
      rw [List.dropWhile_cons_of_neg (by simp [hc])]
      rintro _ ⟨⟩
      exact hc

theorem tight_trimmed (text : Text) : (trimmed text).Tight := by
  constructor
  · rw [trimmed, List.head?_reverse]
    intro c hc
    obtain ⟨dropped, hsplit⟩ := List.dropWhile_suffix isWhiteSpace
      (l := (text.dropWhile isWhiteSpace).reverse)
    refine head_dropWhile text c ?_
    rw [← List.getLast?_reverse, ← hsplit, List.getLast?_append, hc]
    rfl
  · rw [trimmed, List.getLast?_reverse]
    exact head_dropWhile _

theorem tight_of_forall {text : Text} (h : ∀ c ∈ text, isWhiteSpace c = false) : text.Tight :=
  ⟨fun c hc => h c (List.mem_of_mem_head? hc), fun c hc => h c (List.mem_of_mem_getLast? hc)⟩

theorem mem_of_mem_trimmed {text : Text} (h : c ∈ trimmed text) : c ∈ text := by
  rw [trimmed, List.mem_reverse] at h
  exact (List.dropWhile_suffix _).subset (List.mem_reverse.mp ((List.dropWhile_suffix _).subset h))

theorem mem_dropWhile {p : Char → Bool} (h : p c = false) (text : Text) :
    c ∈ text.dropWhile p ↔ c ∈ text := by
  induction text with
  | nil => exact Iff.rfl
  | cons d text ih =>
    rw [List.dropWhile_cons]
    split
    next hd =>
      have hne : c ≠ d := fun heq => by simp [← heq, h] at hd
      rw [ih, List.mem_cons, or_iff_right hne]
    next => exact Iff.rfl

theorem mem_trimmed (h : isWhiteSpace c = false) {text : Text} (hc : c ∈ text) :
    c ∈ trimmed text := by
  rw [trimmed, List.mem_reverse, mem_dropWhile h, List.mem_reverse, mem_dropWhile h]
  exact hc

theorem splitOnce_append {key value : Text} (h : separator ∉ key) :
    splitOnce separator (key ++ separator :: value) = some (key, value) := by
  induction key with
  | nil => simp [splitOnce]
  | cons c key ih =>
    rw [List.mem_cons, not_or] at h
    rw [List.cons_append, splitOnce, if_neg (Ne.symm h.1), ih h.2]
    rfl

theorem splitOnce_eq {key value : Text} (h : splitOnce separator text = some (key, value)) :
    text = key ++ separator :: value ∧ separator ∉ key := by
  induction text generalizing key with
  | nil => cases h
  | cons c text ih =>
    rw [splitOnce] at h
    split at h
    next heq =>
      cases h
      exact ⟨by rw [heq, List.nil_append], List.not_mem_nil⟩
    next hne =>
      obtain ⟨⟨key, value⟩, hrest, heq⟩ := Option.map_eq_some_iff.mp h
      cases heq
      obtain ⟨rfl, hkey⟩ := ih hrest
      exact ⟨rfl, List.not_mem_cons_of_ne_of_not_mem (Ne.symm hne) hkey⟩

theorem splitOnce_eq_none : splitOnce separator text = none ↔ separator ∉ text := by
  induction text with
  | nil => simp [splitOnce]
  | cons c text ih =>
    rw [splitOnce, List.mem_cons, not_or]
    split
    next heq => simp [heq]
    next hne => rw [Option.map_eq_none_iff, ih, and_iff_right (Ne.symm hne)]

theorem rsplitOnce_eq {key value : Text} (h : rsplitOnce separator text = some (key, value)) :
    text = key ++ separator :: value ∧ separator ∉ value := by
  obtain ⟨⟨after, before⟩, hsplit, heq⟩ := Option.map_eq_some_iff.mp h
  cases heq
  obtain ⟨htext, hafter⟩ := splitOnce_eq hsplit
  rw [List.reverse_eq_iff] at htext
  simp [htext, hafter]

/-- What begins and ends like tight texts is tight. -/
theorem Tight.append {a b : Text} (ha : ∀ c ∈ a.head?, isWhiteSpace c = false) (hne : a ≠ [])
    (hb : b.Tight) (hne' : b ≠ []) : Tight (a ++ b) := by
  constructor
  · obtain ⟨c, a, rfl⟩ := List.exists_cons_of_ne_nil hne
    exact ha
  · rw [List.getLast?_append, List.getLast?_eq_some_getLast hne', Option.some_or,
      ← List.getLast?_eq_some_getLast hne']
    exact hb.2

theorem join_ne_nil {texts : List Text} (hne : texts ≠ []) (h : ∀ text ∈ texts, text ≠ []) :
    join separator texts ≠ [] := by
  match texts with
  | [] => exact (hne rfl).elim
  | [text] => exact h text (List.mem_singleton_self _)
  | text :: next :: texts => simp [join, h text]

theorem tight_join {texts : List Text} (h : ∀ text ∈ texts, text.Tight ∧ text ≠ []) :
    Tight (join separator texts) := by
  match texts with
  | [] => exact ⟨nofun, nofun⟩
  | [text] => exact (h text (List.mem_singleton_self _)).1
  | text :: next :: texts =>
    obtain ⟨htext, hrest⟩ := List.forall_mem_cons.mp h
    rw [join]
    refine Tight.append ?_ (by simp [htext.2]) (tight_join hrest)
      (join_ne_nil (List.cons_ne_nil _ _) fun text hmem => (hrest text hmem).2)
    obtain ⟨c, text, rfl⟩ := List.exists_cons_of_ne_nil htext.2
    exact htext.1.1

theorem mem_join {texts : List Text} (h : c ∈ join separator texts) :
    c ∈ separator ∨ ∃ text ∈ texts, c ∈ text := by
  match texts with
  | [] => cases h
  | [text] => exact .inr ⟨text, List.mem_singleton_self _, h⟩
  | text :: next :: texts =>
    rw [join, List.mem_append, List.mem_append] at h
    rcases h with (htext | hseparator) | hrest
    · exact .inr ⟨text, List.mem_cons_self .., htext⟩
    · exact .inl hseparator
    · rcases mem_join hrest with hseparator | ⟨other, hother, hc⟩
      · exact .inl hseparator
      · exact .inr ⟨other, List.mem_cons_of_mem _ hother, hc⟩

theorem stripReturn_of_not_mem (h : '\r' ∉ line) : stripReturn line = line := by
  unfold stripReturn
  split
  · next rest hrest =>
    exact (h (List.mem_reverse.mp (hrest ▸ List.mem_cons_self ..))).elim
  · rfl

theorem splitLines_append (h : '\n' ∉ line) :
    splitLines (line ++ '\n' :: rest) = line :: splitLines rest := by
  induction line with
  | nil => rfl
  | cons c line ih =>
    rw [List.mem_cons, not_or] at h
    rw [List.cons_append, splitLines, if_neg (Ne.symm h.1), ih h.2]

/-- A line without breaks is read as it was written. -/
theorem lines_append (h : '\n' ∉ line) (hreturn : '\r' ∉ line) :
    lines (line ++ '\n' :: rest) = line :: lines rest := by
  rw [lines, splitLines_append h, List.map_cons, stripReturn_of_not_mem hreturn, lines]

theorem not_mem_of_mem_splitLines (h : line ∈ splitLines text) : '\n' ∉ line := by
  induction text generalizing line with
  | nil => exact absurd h List.not_mem_nil
  | cons c text ih =>
    rw [splitLines] at h
    split at h
    next =>
      rcases List.mem_cons.mp h with rfl | hmem
      · exact List.not_mem_nil
      · exact ih hmem
    next hc =>
      split at h
      next =>
        rw [List.mem_singleton.mp h, List.mem_singleton]
        exact Ne.symm hc
      next first lines hlines =>
        rw [hlines] at ih
        rcases List.mem_cons.mp h with rfl | hmem
        · exact fun hmem => (List.mem_cons.mp hmem).elim (Ne.symm hc) (ih List.mem_cons_self)
        · exact ih (List.mem_cons_of_mem _ hmem)

theorem stripReturn_spec (line : Text) :
    stripReturn line = line ∨ line = stripReturn line ++ ['\r'] := by
  unfold stripReturn
  split
  next rest hrest =>
    right
    rw [← List.reverse_reverse line, hrest, List.reverse_cons]
  next => exact .inl rfl

theorem mem_of_mem_stripReturn (h : c ∈ stripReturn line) : c ∈ line := by
  rcases stripReturn_spec line with heq | heq
  · exact heq ▸ h
  · exact heq ▸ List.mem_append_left _ h

theorem not_mem_of_mem_lines (h : line ∈ lines text) : '\n' ∉ line := by
  obtain ⟨raw, hraw, rfl⟩ := List.mem_map.mp h
  exact fun hmem => not_mem_of_mem_splitLines hraw (mem_of_mem_stripReturn hmem)

theorem stripReturn_of_getLast (h : line.getLast? ≠ some '\r') : stripReturn line = line := by
  rcases stripReturn_spec line with heq | heq
  · exact heq
  · rw [heq, List.getLast?_append] at h
    exact absurd rfl h

/-- A break ends a line that may have begun before the text. -/
theorem exists_splitLines (before rest : Text) (h : '\n' ∉ line) :
    ∃ full ∈ splitLines (before ++ line ++ '\n' :: rest), line <:+ full := by
  induction before with
  | nil =>
    rw [List.nil_append, splitLines_append h]
    exact ⟨line, List.mem_cons_self, List.suffix_rfl⟩
  | cons c before ih =>
    obtain ⟨full, hmem, hsuffix⟩ := ih
    rw [List.cons_append, List.cons_append, splitLines]
    split
    next => exact ⟨full, List.mem_cons_of_mem _ hmem, hsuffix⟩
    next =>
      split
      next hnil => exact absurd (hnil ▸ hmem) List.not_mem_nil
      next first lines hlines =>
        rw [hlines] at hmem
        rcases List.mem_cons.mp hmem with rfl | hmem
        · exact ⟨c :: full, List.mem_cons_self, hsuffix.trans (List.suffix_cons ..)⟩
        · exact ⟨full, List.mem_cons_of_mem _ hmem, hsuffix⟩

theorem count_stripReturn (hc : c ≠ '\r') (line : Text) :
    (stripReturn line).count c = line.count c := by
  rcases stripReturn_spec line with heq | heq
  · rw [heq]
  · have hcount := congrArg (List.count c) heq
    rw [List.count_append, List.count_singleton, if_neg (by simp [Ne.symm hc])] at hcount
    exact hcount.symm

theorem mem_of_mem_splitOn {field : Text} (h : field ∈ text.splitOn separator) (hc : c ∈ field) :
    c ∈ text ∧ c ≠ separator := by
  induction text generalizing field with
  | nil =>
    rw [List.splitOn_nil, List.mem_singleton] at h
    exact absurd (h ▸ hc) List.not_mem_nil
  | cons d text ih =>
    rw [List.splitOn_cons_eq_if_modifyHead] at h
    split at h
    next =>
      rcases List.mem_cons.mp h with rfl | hmem
      · exact absurd hc List.not_mem_nil
      · exact ⟨List.mem_cons_of_mem _ (ih hmem hc).1, (ih hmem hc).2⟩
    next hd =>
      obtain ⟨first, fields, hfields⟩ :=
        List.exists_cons_of_ne_nil (List.splitOn_ne_nil separator text)
      rw [hfields] at h ih
      rcases List.mem_cons.mp h with rfl | hmem
      · rcases List.mem_cons.mp hc with rfl | hfirst
        · exact ⟨List.mem_cons_self, fun heq => hd (by simp [heq])⟩
        · have hrest := ih List.mem_cons_self hfirst
          exact ⟨List.mem_cons_of_mem _ hrest.1, hrest.2⟩
      · have hrest := ih (List.mem_cons_of_mem _ hmem) hc
        exact ⟨List.mem_cons_of_mem _ hrest.1, hrest.2⟩

theorem length_splitOn (separator : Char) (text : Text) :
    (text.splitOn separator).length = text.count separator + 1 := by
  induction text with
  | nil => rfl
  | cons c text ih =>
    rw [List.splitOn_cons_eq_if_modifyHead, List.count_cons]
    split
    next => rw [List.length_cons, ih]
    next => rw [List.length_modifyHead, ih]

@[simp] theorem byteLength_append (a b : Text) :
    byteLength (a ++ b) = byteLength a + byteLength b := by
  rw [byteLength, List.map_append, List.sum_append, byteLength, byteLength]

theorem byteLength_join (separator : Text) (texts : List Text) :
    byteLength (join separator texts) =
      (texts.map (byteLength · + byteLength separator)).sum - byteLength separator := by
  induction texts with
  | nil => simp [join, byteLength]
  | cons text texts ih =>
    cases texts with
    | nil => simp [join]
    | cons next texts =>
      rw [join, byteLength_append, byteLength_append, ih]
      simp only [List.map_cons, List.sum_cons]
      omega

end Text
end RDownloader
