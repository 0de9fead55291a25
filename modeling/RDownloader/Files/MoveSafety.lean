import RDownloader.Files.VerifiedMove

/-!
# What a verified move keeps

A name is removed or replaced only while the content is known to be read under another, which takes
that neither of the two leads through the one that goes. Under that condition no failure, no stop and
no retry loses the content, and a different file at the target stays what it is.
-/

namespace RDownloader

open Function NameTable

/-! ## Files and names -/

namespace Files

variable {ν : Type u} {files : Files ν} {name other : ν} {content : List UInt8} {inode : Nat}

theorem read_eq (h : files.target name = some (.file inode)) :
    files.read name = some (files.content inode) := by
  rw [read, h]

theorem target_of_read (h : files.read name = some content) :
    ∃ inode, files.target name = some (.file inode) ∧ files.content inode = content := by
  rw [read] at h
  split at h
  · next inode htarget => exact ⟨inode, htarget, Option.some.inj h⟩
  · cases h

theorem target_file (h : files.names name = some (.file inode)) :
    files.target name = some (.file inode) := follow_file h

/-- A name that leads to nothing stands on the way of no name that leads somewhere. -/
theorem not_leads_of_target {found : NameTarget} (h : files.target name = some found)
    (hother : files.target other = none) : ¬ files.names.Leads name other := by
  intro hleads
  cases hother.symm.trans (follow_of_leads h hleads)

/-- A name that leads to a file is there. -/
theorem names_of_read (h : files.read name = some content) :
    ∃ entry, files.names name = some entry ∧ entry ≠ .dir := by
  obtain ⟨inode, htarget, -⟩ := target_of_read h
  cases hentry : files.names name with
  | none =>
    rw [target, follow_none hentry] at htarget
    cases htarget
  | some entry =>
    refine ⟨entry, rfl, ?_⟩
    rintro rfl
    rw [target, maxLinks, follow, hentry] at htarget
    cases htarget

end Files

namespace FileMove

variable {ν : Type u} {δ : Type v} {names : MoveNames ν} {sha256 : List UInt8 → δ}
  {original : List UInt8} {files files' : Files ν}

/-- The content is read at the source, and neither the target leads through the source nor the
source through the temporary name. -/
structure Intact (names : MoveNames ν) (original : List UInt8) (files : Files ν) : Prop where
  read : files.read names.from_ = some original
  apart : ¬ files.names.Leads names.to_ names.from_
  clear : ¬ files.names.Leads names.from_ names.temporary

/-- As long as a copy is made, the source does not lead through the target either. -/
structure Copying (names : MoveNames ν) (original : List UInt8) (files : Files ν) : Prop
    extends Intact names original files where
  free : ¬ files.names.Leads names.from_ names.to_

/-- The name itself was moved. -/
structure Moved (names : MoveNames ν) (original : List UInt8) (files : Files ν) : Prop where
  gone : files.names names.from_ = none
  read : files.read names.to_ = some original

/-- The content is at both names, and the source can be removed. -/
structure Doubled (names : MoveNames ν) (original : List UInt8) (files : Files ν) : Prop
    extends Intact names original files where
  copy : files.read names.to_ = some original

/-- The copy under the temporary name. -/
def Temporary (names : MoveNames ν) (files : Files ν) (inode : Nat) : Prop :=
  files.names names.temporary = some (.file inode)

section
variable [DecidableEq δ]

end

/-! ## Changes of the table -/

variable [DecidableEq ν]

/-- The temporary name, and files the source does not lead to, may change. -/
theorem Copying.temporary (h : Copying names original files) (entry : Option (NameEntry ν))
    (hentry : ∀ target, entry ≠ some (.link target))
    (hnames : files'.names = update files.names names.temporary entry)
    (hcontent : ∀ inode, files.target names.from_ = some (.file inode) →
      files'.content inode = files.content inode) : Copying names original files' := by
  obtain ⟨inode, htarget, hread⟩ := Files.target_of_read h.read
  have hagree := agree_update entry h.clear
  rw [← hnames] at hagree
  have htarget' : files'.target names.from_ = some (.file inode) :=
    (follow_congr hagree).trans htarget
  refine ⟨⟨?_, fun hleads => h.apart ?_, fun hleads => h.clear ?_⟩, fun hleads => h.free ?_⟩
  · rw [Files.read_eq htarget', hcontent inode htarget, hread]
  · rw [hnames] at hleads
    exact leads_of_update hentry hleads
  · exact (leads_congr hagree).mp hleads
  · exact (leads_congr hagree).mp hleads

theorem Copying.discard (h : Copying names original files) (phase : MovePhase δ) :
    Copying names original (discard names ⟨files, .idle⟩ phase : FileMove ν δ).files := by
  rw [FileMove.discard]
  dsimp only
  cases hremove : files.remove names.temporary with
  | none => exact h
  | some removed =>
    rw [Files.remove] at hremove
    split at hremove
    · cases hremove
    · cases hremove
    · cases hremove
      exact h.temporary none nofun rfl fun _ _ => rfl

/-- The copy takes the place of the target. -/
theorem Copying.swap {target : Nat} (h : Copying names original files)
    (htemporary : Temporary names files target) (hcontent : files.content target = original)
    (hrename : files.rename names.temporary names.to_ = some files') :
    Doubled names original files' := by
  have hmoved : files' = files ∧ files.names names.to_ = some (.file target) ∨
      files' = files.moveName names.temporary names.to_ := by
    rw [Files.rename, htemporary] at hrename
    split at hrename
    · cases hrename
    · cases hrename
    · next inode other hinode hother =>
      cases hinode
      split at hrename
      · next hsame =>
        cases hrename
        exact .inl ⟨rfl, hsame ▸ hother⟩
      · exact .inr (Option.some.inj hrename).symm
    · exact .inr (Option.some.inj hrename).symm
  obtain ⟨rfl, hto⟩ | rfl := hmoved
  · exact ⟨h.toIntact, (Files.read_eq (Files.target_file hto)).trans (congrArg some hcontent)⟩
  · have hto : (files.moveName names.temporary names.to_).names names.to_ = some (.file target) := by
      rw [Files.moveName_names, update_of_ne names.temporary_ne.symm, update_self, htemporary]
    have hagree : ∀ other, files.names.Leads names.from_ other →
        (files.moveName names.temporary names.to_).names other = files.names other := by
      intro other hleads
      rw [Files.moveName_names, update_of_ne, update_of_ne]
      · rintro rfl
        exact h.free hleads
      · rintro rfl
        exact h.clear hleads
    obtain ⟨inode, htarget, hread⟩ := Files.target_of_read h.read
    refine ⟨⟨?_, fun hleads => ?_, fun hleads => ?_⟩, ?_⟩
    · exact (Files.read_eq ((follow_congr hagree).trans htarget)).trans (congrArg some hread)
    · -- the target is a file now, and leads nowhere but to itself
      obtain hsame | ⟨next, hlink, -⟩ := Relation.ReflTransGen.cases_head hleads
      · exact h.free (hsame ▸ .refl)
      · cases hto.symm.trans hlink
    · exact h.clear ((leads_congr hagree).mp hleads)
    · exact (Files.read_eq (Files.target_file hto)).trans (congrArg some hcontent)

/-- The name itself is moved to a target that leads nowhere. -/
theorem Intact.move (h : Intact names original files) (hto : files.target names.to_ = none)
    (hrename : files.rename names.from_ names.to_ = some files') : Moved names original files' := by
  obtain ⟨inode, htarget, hread⟩ := Files.target_of_read h.read
  have hfree := Files.not_leads_of_target htarget hto
  have hne : names.from_ ≠ names.to_ := fun hsame => hfree (hsame ▸ .refl)
  have hmoved : files' = files.moveName names.from_ names.to_ := by
    rw [Files.rename] at hrename
    split at hrename
    · cases hrename
    · cases hrename
    · next hentry =>
      rw [Files.target_file hentry] at hto
      cases hto
    · exact (Option.some.inj hrename).symm
  subst hmoved
  refine ⟨?_, ?_⟩
  · rw [Files.moveName_names, update_self]
  · have hmoved : (files.moveName names.from_ names.to_).target names.to_ = some (.file inode) :=
      follow_moved htarget hfree
    exact (Files.read_eq hmoved).trans (congrArg some hread)

/-- The source can go once the target holds the content. -/
theorem Doubled.release (h : Doubled names original files) :
    Moved names original (files.clear names.from_) := by
  obtain ⟨inode, htarget, hread⟩ := Files.target_of_read h.copy
  have hcleared : (files.clear names.from_).target names.to_ = some (.file inode) :=
    (follow_congr (agree_update none h.apart)).trans htarget
  exact ⟨update_self .., (Files.read_eq hcleared).trans (congrArg some hread)⟩

variable [DecidableEq δ]

/-- The phases before anything is written. -/
def Quiet : MovePhase δ → Prop
  | .idle | .failed _ | .sized _ | .matching _ | .hashed _ _ => True
  | _ => False

/-- The target does not lead through the source, nor the source through the temporary name. -/
structure Separated (names : MoveNames ν) (files : Files ν) : Prop where
  apart : ¬ files.names.Leads names.to_ names.from_
  clear : ¬ files.names.Leads names.from_ names.temporary

omit [DecidableEq δ] in
/-- Without its source, a target that leads through the source leads nowhere. -/
theorem cleared_of_leads (h : files.names.Leads names.to_ names.from_) :
    (files.clear names.from_).target names.to_ = none := by
  rw [Files.target, Files.clear_names]
  exact follow_cleared h

/-- The comparison of a file with itself, and its only name removed after it. -/
theorem lost_of_leads {start : Files ν} (hleads : start.names.Leads names.to_ names.from_)
    (hread : start.read names.to_ = some original) :
    ∃ move : FileMove ν δ,
      (machine sha256 names start).run ⟨start, .idle⟩ [.go, .go, .go, .go, .go] = some move ∧
        move.phase = .released ⟨original.length, some (sha256 original), true⟩ ∧
        move.files.read names.from_ = none ∧ move.files.read names.to_ = none := by
  obtain ⟨inode, hto, hcontent⟩ := Files.target_of_read hread
  have hfrom : start.target names.from_ = some (.file inode) := follow_of_leads hto hleads
  have hreadFrom : start.read names.from_ = some original := by
    rw [Files.read_eq hfrom, hcontent]
  obtain ⟨entry, hentry, hdir⟩ := Files.names_of_read hreadFrom
  have hmeasure : measure names ⟨start, .idle⟩ = (⟨start, .sized original.length⟩ : FileMove ν δ) := by
    rw [measure, hfrom, ← hcontent]
  have hlook : look names ⟨start, .sized original.length⟩ original.length =
      (⟨start, .matching original.length⟩ : FileMove ν δ) := by
    rw [look, hto, ← hcontent]
    exact congrArg (FileMove.mk start) (if_pos rfl)
  have hhash : hashSource sha256 names ⟨start, .matching original.length⟩
      (.hashed original.length) (.failed .hash) =
        ⟨start, .hashed original.length (sha256 original)⟩ := by
    rw [hashSource, hreadFrom]
  have hcompare (same different failed : MovePhase δ) :
      compare sha256 ⟨start, .hashed original.length (sha256 original)⟩ names.to_ (sha256 original)
        same different failed = ⟨start, same⟩ := by
    rw [compare, hread]
    exact congrArg (FileMove.mk start) (if_pos rfl)
  have hrelease (copy : PlacedCopy δ) (hremains : copy.sourceRemains = true) :
      release names ⟨start, .placed copy⟩ copy = ⟨start.clear names.from_, .released copy⟩ := by
    rw [release, hremains]
    cases entry with
    | dir => exact absurd rfl hdir
    | file inode => dsimp only; rw [hentry]; rfl
    | link target => dsimp only; rw [hentry]; rfl
  refine ⟨⟨start.clear names.from_, .released ⟨original.length, some (sha256 original), true⟩⟩, ?_,
    rfl, ?_, ?_⟩
  · simp only [Machine.run, machine, step, proceed, hmeasure, hlook, hhash, hcompare, hrelease,
      Option.bind_some]
  · have hnone : (start.clear names.from_).target names.from_ = none := follow_none (update_self ..)
    rw [Files.read, hnone]
  · rw [Files.read, cleared_of_leads hleads]

/-- A file of one byte on another device than its target. -/
def elsewhere : Files Nat where
  names
    | 0 => some (.file 0)
    | _ => none
  content _ := [97]
  next := 1
  below := by
    intro name inode h
    rcases name with _ | name
    · cases h
      exact Nat.zero_lt_one
    · cases h

end FileMove
end RDownloader
