import Mathlib.Data.List.TakeWhile

/-!
# XML as it is written and as it is read

Pieces of a document, the text each of them is written as, and the events a pull reader delivers
for it. The reader delivers each entity reference in text as an event of its own and trims the
texts between them, so an escaped character cuts the text around it: `cut` says where.
-/

namespace Xml

/-- The predefined entity of a character that text and attribute values escape. -/
def entityName : Char → Option (List Char)
  | '<' => some ['l', 't']
  | '>' => some ['g', 't']
  | '&' => some ['a', 'm', 'p']
  | '\'' => some ['a', 'p', 'o', 's']
  | '"' => some ['q', 'u', 'o', 't']
  | _ => none

def isSpecial (c : Char) : Bool := (entityName c).isSome

def escapeChar (c : Char) : List Char :=
  match entityName c with
  | some name => '&' :: name ++ [';']
  | none => [c]

/-- Text with its special characters written as entity references. -/
def escape (text : List Char) : List Char := text.flatMap escapeChar

/-- The white space of XML. -/
def isSpace (c : Char) : Bool := c = ' ' || c = '\t' || c = '\n' || c = '\r'

def trim (text : List Char) : List Char :=
  ((text.dropWhile isSpace).reverse.dropWhile isSpace).reverse

structure Attribute where
  key : List Char
  /-- The value with its references resolved, unless one of them is unknown. -/
  value : Except String (List Char)

inductive Event
  | start (name : List Char) (attributes : List (Except String Attribute))
  | close (name : List Char)
  | text (content : List Char)
  | cdata (content : List Char)
  | generalRef (name : List Char)
  | docType (content : List Char)
  | other

/-! ## Text cut at its special characters -/

theorem false_of_any {p : Char → Bool} {text : List Char} (h : text.any p = false) :
    ∀ c ∈ text, p c = false :=
  fun c hc => Bool.eq_false_iff.mpr (List.any_eq_false.mp h c hc)

theorem of_all {p : Char → Prop} [DecidablePred p] {text : List Char}
    (h : text.all (fun c => decide (p c)) = true) : ∀ c ∈ text, p c :=
  fun c hc => of_decide_eq_true (List.all_eq_true.mp h c hc)

/-- The text up to the first special character, and each special character with the text after. -/
def cut : List Char → List Char × List (Char × List Char)
  | [] => ([], [])
  | c :: rest =>
    if isSpecial c then ([], (c, (cut rest).1) :: (cut rest).2)
    else (c :: (cut rest).1, (cut rest).2)

/-- The texts between the special characters. -/
def runs (text : List Char) : List (List Char) := (cut text).1 :: (cut text).2.map (·.2)

def runEvents (run : List Char) : List Event := if trim run = [] then [] else [.text (trim run)]

def textEvents (text : List Char) : List Event :=
  runEvents (cut text).1 ++ (cut text).2.flatMap fun (c, run) =>
    .generalRef ((entityName c).getD []) :: runEvents run

/-! ## Pieces of a document -/

inductive Piece
  | declaration (content : List Char)
  | docType (content : List Char)
  | blank (content : List Char)
  | start (name : List Char) (attributes : List (List Char × List Char))
  | close (name : List Char)
  /-- An element that holds text only. -/
  | leaf (name : List Char) (attributes : List (List Char × List Char)) (content : List Char)

namespace Piece

/-- An attribute, by its name and its value. -/
def writeAttribute (pair : List Char × List Char) : List Char :=
  ' ' :: pair.1 ++ '=' :: '"' :: escape pair.2 ++ ['"']

def tag (name : List Char) (attributes : List (List Char × List Char)) : List Char :=
  '<' :: name ++ attributes.flatMap writeAttribute ++ ['>']

def endTag (name : List Char) : List Char := '<' :: '/' :: name ++ ['>']

def written : Piece → List Char
  | declaration content => '<' :: '?' :: content ++ ['?', '>']
  | docType content => '<' :: '!' :: 'D' :: 'O' :: 'C' :: 'T' :: 'Y' :: 'P' :: 'E' :: ' ' :: content ++ ['>']
  | blank content => content
  | start name attributes => tag name attributes
  | close name => endTag name
  | leaf name attributes content => tag name attributes ++ escape content ++ endTag name

def readAttribute (pair : List Char × List Char) : Except String Attribute := .ok ⟨pair.1, .ok pair.2⟩

def startEvent (name : List Char) (attributes : List (List Char × List Char)) : Event :=
  .start name (attributes.map readAttribute)

def events : Piece → List Event
  | declaration _ => [.other]
  | docType content => [.docType content]
  | blank _ => []
  | start name attributes => [startEvent name attributes]
  | close name => [.close name]
  | leaf name attributes content =>
    startEvent name attributes :: textEvents content ++ [.close name]

/-- A name of letters. -/
def IsName (name : List Char) : Prop := name ≠ [] ∧ ∀ c ∈ name, c.isAlpha

/-- Attributes with names of their own, and values that normalisation leaves alone. -/
def AreAttributes (attributes : List (List Char × List Char)) : Prop :=
  (attributes.map (·.1)).Nodup ∧ ∀ pair ∈ attributes, IsName pair.1 ∧
    ∀ c ∈ pair.2, 32 ≤ c.toNat

def Proper : Piece → Prop
  | declaration content => ∀ c ∈ content, c ≠ '>' ∧ c ≠ '?'
  | docType content => (∀ c ∈ content.head?, isSpace c = false) ∧
      ∀ c ∈ content, c ≠ '<' ∧ c ≠ '>' ∧ c ≠ '[' ∧ c ≠ ']'
  | blank content => ∀ c ∈ content, isSpace c
  | start name attributes => IsName name ∧ AreAttributes attributes
  | close name => IsName name
  | leaf name attributes _ => IsName name ∧ AreAttributes attributes

instance : DecidablePred IsName := fun name =>
  @instDecidableAnd _ _ inferInstance (List.decidableBAll (fun c => c.isAlpha) name)

instance : DecidablePred AreAttributes := fun attributes =>
  @instDecidableAnd _ _ inferInstance (@List.decidableBAll _ _ (fun pair =>
    @instDecidableAnd _ _ inferInstance (List.decidableBAll (fun c => 32 ≤ c.toNat) pair.2))
      attributes)

instance : DecidablePred Proper
  | declaration content => List.decidableBAll (fun c => c ≠ '>' ∧ c ≠ '?') content
  | docType content => @instDecidableAnd _ _
      (decidable_of_iff (content.head?.all fun c => !isSpace c) (by simp [Option.all_eq_true]))
      (List.decidableBAll (fun c => c ≠ '<' ∧ c ≠ '>' ∧ c ≠ '[' ∧ c ≠ ']') content)
  | blank content => List.decidableBAll (fun c => isSpace c) content
  | start name attributes => inferInstanceAs (Decidable (IsName name ∧ AreAttributes attributes))
  | close name => inferInstanceAs (Decidable (IsName name))
  | leaf name attributes _ => inferInstanceAs (Decidable (IsName name ∧ AreAttributes attributes))

/-- Every element that is opened is closed, the last one first. -/
def Balanced : List (List Char) → List Piece → Prop
  | names, [] => names = []
  | names, start name _ :: rest => Balanced (name :: names) rest
  | names, close name :: rest => ∃ outer, names = name :: outer ∧ Balanced outer rest
  | names, declaration _ :: rest => Balanced names rest
  | names, docType _ :: rest => Balanced names rest
  | names, blank _ :: rest => Balanced names rest
  | names, leaf .. :: rest => Balanced names rest

/-- Pieces that close what they open. -/
def Even (pieces : List Piece) : Prop :=
  ∀ names rest, Balanced names (pieces ++ rest) ↔ Balanced names rest

variable {pieces : List Piece}

theorem even_nil : Even [] := fun _ _ => .rfl

theorem Even.append (h : Even pieces) (h' : Even pieces') : Even (pieces ++ pieces') := by
  intro names rest
  rw [List.append_assoc, h, h']

theorem even_blank_cons (h : Even pieces) : Even (blank content :: pieces) := h

theorem even_declaration_cons (h : Even pieces) : Even (declaration content :: pieces) := h

theorem even_docType_cons (h : Even pieces) : Even (docType content :: pieces) := h

theorem even_leaf_cons (h : Even pieces) : Even (leaf name attributes content :: pieces) := h

theorem Even.nest (h : Even pieces) (name : List Char) (attributes : List (List Char × List Char)) :
    Even (start name attributes :: pieces ++ [close name]) := by
  intro names rest
  rw [List.cons_append, List.cons_append, Balanced, List.append_assoc, h, List.singleton_append,
    Balanced]
  constructor
  · rintro ⟨outer, hnames, hrest⟩
    obtain ⟨-, rfl⟩ := List.cons.inj hnames
    exact hrest
  · exact fun hrest => ⟨names, rfl, hrest⟩

theorem even_flatMap (f : α → List Piece) (h : ∀ a, Even (f a)) (l : List α) :
    Even (l.flatMap f) := by
  induction l with
  | nil => exact even_nil
  | cons a l ih => exact (h a).append ih

end Piece

/-- A pull reader, and how it resolves what it delivers. -/
structure Reader where
  read : List Char → List (Except String Event)
  unescape : List Char → Except String (List Char)
  resolveCharRef : List Char → Except String (Option Char)
  resolveEntity : List Char → Option (List Char)
  read_written : ∀ pieces : List Piece, (∀ piece ∈ pieces, piece.Proper) →
    Piece.Balanced [] pieces →
    read (pieces.flatMap Piece.written) = (pieces.flatMap Piece.events).map .ok
  unescape_plain : ∀ text, '&' ∉ text → unescape text = .ok text
  resolveCharRef_entity : ∀ c name, entityName c = some name → resolveCharRef name = .ok none
  resolveEntity_entity : ∀ c name, entityName c = some name → resolveEntity name = some [c]

/-! ## What the texts of an element say -/

theorem cut_spec (text : List Char) :
    (cut text).1 ++ (cut text).2.flatMap (fun pair => pair.1 :: pair.2) = text := by
  induction text with
  | nil => rfl
  | cons c rest ih =>
    rw [cut]
    split
    · rw [List.nil_append, List.flatMap_cons, List.cons_append, ih]
    · rw [List.cons_append, ih]

theorem isSpecial_of_mem_cut {text : List Char} (h : piece ∈ (cut text).2) : isSpecial piece.1 := by
  induction text with
  | nil => cases h
  | cons c rest ih =>
    rw [cut] at h
    split at h
    · rename_i hc
      rcases List.mem_cons.mp h with rfl | h
      · exact hc
      · exact ih h
    · exact ih h

theorem plain_of_mem_runs {text run : List Char} (h : run ∈ runs text) :
    ∀ c ∈ run, isSpecial c = false := by
  induction text generalizing run with
  | nil =>
    obtain rfl := List.mem_singleton.mp h
    exact nofun
  | cons c rest ih =>
    rw [runs, cut] at h
    split at h
    · rcases List.mem_cons.mp h with rfl | h
      · exact nofun
      · exact ih h
    · rename_i hc
      rcases List.mem_cons.mp h with rfl | h
      · intro d hd
        rcases List.mem_cons.mp hd with rfl | hd
        · simpa using hc
        · exact ih (List.mem_cons_self ..) d hd
      · exact ih (List.mem_cons_of_mem _ h)

theorem cut_of_plain {text : List Char} (h : ∀ c ∈ text, isSpecial c = false) :
    cut text = (text, []) := by
  induction text with
  | nil => rfl
  | cons c rest ih =>
    rw [List.forall_mem_cons] at h
    rw [cut, if_neg (by simp [h.1]), ih h.2]

theorem trim_sublist (text : List Char) : (trim text).Sublist text := by
  rw [trim, ← List.reverse_reverse text, List.reverse_sublist, List.reverse_reverse]
  exact (List.dropWhile_sublist _).trans
    (List.reverse_sublist.mpr (List.dropWhile_sublist _))

theorem escape_of_plain {text : List Char} (h : ∀ c ∈ text, isSpecial c = false) :
    escape text = text := by
  induction text with
  | nil => rfl
  | cons c rest ih =>
    rw [List.forall_mem_cons] at h
    have hc : escapeChar c = [c] := by
      unfold escapeChar
      rw [show entityName c = none by simpa [isSpecial] using h.1]
    rw [escape, List.flatMap_cons, hc, ← escape, ih h.2]
    rfl

/-- What begins and ends with no white space is not trimmed. -/
theorem trim_of_tight {text : List Char} (hhead : ∀ c ∈ text.head?, isSpace c = false)
    (hlast : ∀ c ∈ text.getLast?, isSpace c = false) : trim text = text := by
  have hdrop : ∀ {text : List Char}, (∀ c ∈ text.head?, isSpace c = false) →
      text.dropWhile isSpace = text := by
    intro text h
    cases text with
    | nil => rfl
    | cons c rest => rw [List.dropWhile_cons_of_neg (by simp [h c rfl])]
  rw [trim, hdrop hhead, hdrop (by rw [List.head?_reverse]; exact hlast), List.reverse_reverse]

/-- The texts that are delivered for a content. -/
def texts (content : List Char) : List (List Char) := ((runs content).map trim).filter (· ≠ [])

theorem plain_of_mem_texts {content text : List Char} (h : text ∈ texts content) :
    text ≠ [] ∧ ∀ c ∈ text, isSpecial c = false := by
  obtain ⟨hmem, hne⟩ := List.mem_filter.mp h
  obtain ⟨run, hrun, rfl⟩ := List.mem_map.mp hmem
  exact ⟨of_decide_eq_true hne, fun c hc =>
    plain_of_mem_runs hrun c ((trim_sublist run).subset hc)⟩

/-- A plain content is delivered as one text. -/
theorem texts_of_plain {content : List Char} (hplain : ∀ c ∈ content, isSpecial c = false)
    (hne : content ≠ []) (htrim : trim content = content) : texts content = [content] := by
  rw [texts, runs, cut_of_plain hplain]
  simp [htrim, hne]

/-- The texts of a content with the special characters between them. -/
def joined (content : List Char) : List Char :=
  trim (cut content).1 ++ (cut content).2.flatMap fun pair => pair.1 :: trim pair.2

theorem length_trim_le (text : List Char) : (trim text).length ≤ text.length :=
  (trim_sublist text).length_le

theorem length_flatMap_trim_le (pairs : List (Char × List Char)) :
    (pairs.flatMap fun pair => pair.1 :: trim pair.2).length ≤
      (pairs.flatMap fun pair => pair.1 :: pair.2).length := by
  induction pairs with
  | nil => exact Nat.le_refl _
  | cons pair pairs ih =>
    have hle := length_trim_le pair.2
    simp only [List.flatMap_cons, List.length_append, List.length_cons]
    omega

theorem trim_of_length_flatMap {pairs : List (Char × List Char)}
    (h : (pairs.flatMap fun pair => pair.1 :: pair.2).length ≤
      (pairs.flatMap fun pair => pair.1 :: trim pair.2).length) :
    ∀ pair ∈ pairs, trim pair.2 = pair.2 := by
  induction pairs with
  | nil => exact List.forall_mem_nil _
  | cons pair pairs ih =>
    have hle := length_trim_le pair.2
    have hrest := length_flatMap_trim_le pairs
    simp only [List.flatMap_cons, List.length_append, List.length_cons] at h
    refine List.forall_mem_cons.mpr ⟨?_, ih (by omega)⟩
    exact (trim_sublist pair.2).eq_of_length (by omega)

theorem length_joined_le (content : List Char) : (joined content).length ≤ content.length := by
  have hle := length_trim_le (cut content).1
  have hrest := length_flatMap_trim_le (cut content).2
  calc (joined content).length ≤ ((cut content).1 ++
        (cut content).2.flatMap fun pair => pair.1 :: pair.2).length := by
        simp only [joined, List.length_append]
        omega
    _ = content.length := by rw [cut_spec]

/-- Nothing is lost of a content exactly when none of its texts is trimmed. -/
theorem joined_eq_iff (content : List Char) :
    joined content = content ↔ ∀ run ∈ runs content, trim run = run := by
  rw [runs, List.forall_mem_cons, List.forall_mem_map]
  constructor
  · intro h
    have hlength : ((cut content).1 ++ (cut content).2.flatMap fun pair => pair.1 :: pair.2).length =
        (joined content).length := by
      rw [cut_spec, h]
    have hle := length_trim_le (cut content).1
    have hrest := length_flatMap_trim_le (cut content).2
    simp only [joined, List.length_append] at hlength
    exact ⟨(trim_sublist _).eq_of_length (by omega), trim_of_length_flatMap (by omega)⟩
  · rintro ⟨hfirst, hrest⟩
    have hflat : (cut content).2.flatMap (fun pair => pair.1 :: trim pair.2) =
        (cut content).2.flatMap fun pair => pair.1 :: pair.2 :=
      congrArg List.flatten (List.map_congr_left fun pair hpair => by rw [hrest pair hpair])
    rw [joined, hfirst, hflat, cut_spec]

end Xml
