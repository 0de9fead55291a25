import RDownloader.Usenet.AssemblyExact

/-!
# The name of an assembled file

Every name that an assembly keeps, waits with or stores is one its articles carry, and it sees them
disagree only where two of them do. What it saw is forgotten between two attempts, so the file's name
is settled by its articles alone only where a disagreement makes no difference.
-/

namespace RDownloader

variable {crc32 : Bytes → UInt32} {posted : PostedFile crc32} {nfc : Text → Text}
  {alphanumeric : Char → Bool}

namespace PostedFile

def Carried (posted : PostedFile crc32) (name : Text) : Prop :=
  ∃ segment ∈ posted.segments, ∃ decoded, posted.article segment.id = some decoded ∧
    decoded.metadata.name = name

/-- Whether the articles carry two names. -/
def Disagree (posted : PostedFile crc32) : Prop :=
  ∃ name other, posted.Carried name ∧ posted.Carried other ∧ name ≠ other

/-- Articles that carry two names come to one name with either of them, seen to disagree or not. -/
def OneName (posted : PostedFile crc32) (nfc : Text → Text) (alphanumeric : Char → Bool) : Prop :=
  ∀ name other, posted.Carried name → posted.Carried other → name ≠ other →
    ∀ deviates deviates', settledName nfc alphanumeric posted.subject deviates name =
      settledName nfc alphanumeric posted.subject deviates' other

end PostedFile

namespace FileAssembly

/-- The names an assembly goes on with are its articles'. -/
structure Named (posted : PostedFile crc32) (assembly : Assembly) : Prop where
  name : ∀ name ∈ assembly.name, posted.Carried name
  deviations : assembly.deviations.any = true → posted.Disagree

/-- A name that a file may get. -/
def Settles (posted : PostedFile crc32) (nfc : Text → Text) (alphanumeric : Char → Bool)
    (finalName : Text) : Prop :=
  ∃ name deviates, posted.Carried name ∧ (deviates = true → posted.Disagree) ∧
    finalName = settledName nfc alphanumeric posted.subject deviates name

variable {row : NzbFileRow} {disk : PartFile} {phase : AssemblyPhase} {segment : PostedSegment}
  {unread remaining : List PostedSegment} {proven : List Range} {assembly : Assembly}
  {pending : PendingCheckpoints} {confirmed : Bool} {count : Nat}

/-- An article that is taken in leaves its own name, or one that was there before. -/
theorem Named.take {decoded : DecodedArticle} {next : Assembly} {part : Range}
    (h : Named posted assembly) (hcarried : posted.Carried decoded.metadata.name)
    (htakes : assembly.Takes decoded posted.totalBytes posted.singleSegment next part) :
    Named posted next := by
  refine ⟨fun name hname => ?_, fun hany => ?_⟩
  · rw [htakes.name] at hname
    obtain rfl := Option.some.inj hname
    cases hbefore : assembly.name with
    | none => exact hcarried
    | some before => exact h.name before hbefore
  · rw [htakes.deviations, NameDeviations.observe] at hany
    split at hany
    · next hdiffers =>
      obtain ⟨before, hbefore, hne⟩ := Option.any_eq_true _ _ |>.mp hdiffers
      exact ⟨before, decoded.metadata.name, h.name before hbefore, hcarried, of_decide_eq_true hne⟩
    · exact h.deviations hany

/-- Articles that come to one name give the file that name, whatever the file has been through. -/
theorem Settles.unique {finalName finalName' : Text}
    (hone : posted.OneName nfc alphanumeric) (h : Settles posted nfc alphanumeric finalName)
    (h' : Settles posted nfc alphanumeric finalName') : finalName = finalName' := by
  obtain ⟨name, deviates, hcarried, hdisagree, rfl⟩ := h
  obtain ⟨name', deviates', hcarried', hdisagree', rfl⟩ := h'
  by_cases hsame : name = name'
  · subst hsame
    by_cases hseen : deviates = deviates'
    · rw [hseen]
    · -- one of the two has seen another name, and with that one both come to the same
      have hdisagree : posted.Disagree := by
        cases deviates with
        | true => exact hdisagree rfl
        | false =>
          cases deviates' with
          | true => exact hdisagree' rfl
          | false => exact absurd rfl hseen
      obtain ⟨first, second, hfirst, hsecond, hne⟩ := hdisagree
      obtain ⟨other, hother, hne⟩ : ∃ other, posted.Carried other ∧ name ≠ other := by
        by_cases hname : name = first
        · exact ⟨second, hsecond, hname ▸ hne⟩
        · exact ⟨first, hfirst, hname⟩
      exact (hone name other hcarried hother hne deviates false).trans
        (hone name other hcarried hother hne deviates' false).symm
  · exact hone name name' hcarried hcarried' hsame deviates deviates'

/-- What a run ends with, where it leaves the file under its name. -/
theorem completed_of_run {events : List AssemblyEvent} {finalName : Text} {missing : Nat}
    (hrun : ((machine posted nfc alphanumeric).run fresh events).map FileAssembly.phase =
      some (.completed finalName missing)) :
    ∃ state : FileAssembly, (machine posted nfc alphanumeric).Reaches Machine.anything state ∧
      state.phase = .completed finalName missing := by
  obtain ⟨state, hstate, hphase⟩ := Option.map_eq_some_iff.mp hrun
  exact ⟨state, Machine.Reaches.run (.initial fresh_unstarted) hstate, hphase⟩

/-- Both articles are taken in by one attempt. -/
def straight : List AssemblyEvent :=
  [.resume, .examine, .examine, .gather, .answer ⟨0, 1⟩ true, .answer ⟨1, 2⟩ true, .flush, .finish,
    .commit]

/-- Both are confirmed before the attempt is stopped, and the next one finds them proven. -/
def stoppedOnce : List AssemblyEvent :=
  [.resume, .examine, .examine, .gather, .answer ⟨0, 1⟩ true, .answer ⟨1, 2⟩ true, .stop true,
    .resume, .examine, .examine, .gather, .finish, .commit]

/-- Articles that disagree give the subject's name in one attempt, and the last article's name in
two. -/
theorem finalName_not_unique : ¬ ∀ (posted : PostedFile bitwiseCrc32) (state state' : FileAssembly)
    (finalName finalName' : Text) (missing missing' : Nat),
    (machine posted id Char.isAlphanum).Reaches Machine.anything state →
      (machine posted id Char.isAlphanum).Reaches Machine.anything state' →
        state.phase = .completed finalName missing →
          state'.phase = .completed finalName' missing' → finalName = finalName' := by
  intro hunique
  obtain ⟨state, hreaches, hphase⟩ := completed_of_run
    (by decide +kernel : ((machine obfuscated id Char.isAlphanum).run fresh straight).map
      FileAssembly.phase = some (.completed "holiday.mkv".toList 0))
  obtain ⟨state', hreaches', hphase'⟩ := completed_of_run
    (by decide +kernel : ((machine obfuscated id Char.isAlphanum).run fresh stoppedOnce).map
      FileAssembly.phase = some (.completed "p9q1.bin".toList 0))
  exact absurd (hunique obfuscated state state' _ _ 0 0 hreaches hreaches' hphase hphase')
    (by decide +kernel)

end FileAssembly
end RDownloader
