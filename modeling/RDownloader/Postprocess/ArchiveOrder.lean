import Mathlib.Data.Char
import Mathlib.Data.List.Lex
import Mathlib.Data.List.Sort
import Mathlib.Data.Prod.Lex
import RDownloader.Lib.KeyedFold
import RDownloader.Postprocess.ArchiveSets

/-!
# Whether the listing order shows in the archive sets (`rd-postprocess/src/multipart.rs`)

The preference compares file names. Files of one name in two directories are a tie, and the first
one listed keeps the slot; a numbered name that is no entry volume can keep the entry's slot.
-/

namespace RDownloader

namespace ArchiveSet

variable {Path : Type} (fileName : Path → Option Text)

/-- The volume that a file is by its name. -/
def volumeOf (path : Path) : Option ArchiveVolume := (fileName path).bind parseArchiveVolume

def keyOf (volume : ArchiveVolume) : GroupKey :=
  ⟨kindRank volume.kind, volume.base.toAsciiLowercase⟩

def key (set : ArchiveSet Path) : GroupKey :=
  ⟨kindRank set.kind, set.base.toAsciiLowercase⟩

/-- The group and the slot that a file claims. -/
def groupOf (path : Path) : Option GroupKey := (volumeOf fileName path).map keyOf

def indexOf (path : Path) : Option Nat := (volumeOf fileName path).map (·.index)

def candidateOf (path : Path) : Candidate Path where
  path
  isFirst := (volumeOf fileName path).any (·.isFirst)
  numbered := (volumeOf fileName path).any (·.numbered)

/-! ## Statements -/

/-- A group with an entry volume and every index below its highest. -/
structure Complete (files : List Path) (key : GroupKey) : Prop where
  entry : ∃ path ∈ files, groupOf fileName path = some key ∧ (candidateOf fileName path).isFirst
  noGap : ∀ i j, i ≤ j →
    (∃ path ∈ files, groupOf fileName path = some key ∧ indexOf fileName path = some j) →
    ∃ path ∈ files, groupOf fileName path = some key ∧ indexOf fileName path = some i

/-- No file is preferred to this one in its slot. -/
def Best (files : List Path) (path : Path) : Prop :=
  ∀ other ∈ files, groupOf fileName other = groupOf fileName path →
    indexOf fileName other = indexOf fileName path →
    prefers fileName (candidateOf fileName other) (candidateOf fileName path) = false

/-- In a complete group the entry's slot goes to an entry volume, and no slot to one of two files of
one name. -/
structure Unambiguous (files : List Path) : Prop where
  entryWins : ∀ key, Complete fileName files key → ∀ path ∈ files,
    groupOf fileName path = some key → indexOf fileName path = some 0 →
    Best fileName files path → (candidateOf fileName path).isFirst
  oneHolder : ∀ key, Complete fileName files key → ∀ path ∈ files,
    groupOf fileName path = some key → Best fileName files path →
    ∀ other ∈ files, fileName other = fileName path → other = path

/-- What is asked of the sets of a listing. -/
structure OrderFree (files : List Path) : Prop where
  /-- The order of the listing does not show. -/
  order : ∀ listed, listed.Perm files →
    groupArchiveSets fileName listed = groupArchiveSets fileName files
  /-- A set starts with an entry volume. -/
  entry : ∀ set ∈ groupArchiveSets fileName files, ∃ first, set.volumes[0]? = some first ∧
    (candidateOf fileName first).isFirst
  /-- The volume at each place is a file of that index, so every index is there once. -/
  indexed : ∀ set ∈ groupArchiveSets fileName files, ∀ i path, set.volumes[i]? = some path →
    path ∈ files ∧ groupOf fileName path = some set.key ∧ indexOf fileName path = some i
  /-- No path is in two sets. -/
  disjoint : (groupArchiveSets fileName files).Pairwise fun set other =>
    set.volumes.Disjoint other.volumes
  /-- Only incomplete groups are left out. -/
  complete : ∀ key, Complete fileName files key →
    ∃ set ∈ groupArchiveSets fileName files, set.key = key

variable {fileName} {files listed : List Path} {key : GroupKey} {path other : Path} {index : Nat}
  {slots : Slots Path} {set : ArchiveSet Path}

/-! ## Slots -/

/-- The rank by which the preference decides. -/
def rank (fileName : Path → Option Text) (path : Path) : Bool ×ₗ Text :=
  toLex (!(candidateOf fileName path).numbered, (fileName path).getD [])

theorem prefers_iff : prefers fileName (candidateOf fileName path) (candidateOf fileName other) ↔
    rank fileName path < rank fileName other := by
  rw [rank, rank, Prod.Lex.toLex_lt_toLex, prefers]
  cases (candidateOf fileName path).numbered with
  | false =>
    cases (candidateOf fileName other).numbered with
    | false =>
      simp only [Candidate.name, candidateOf, Bool.not_false, lt_self_iff_false, true_and, false_or]
      exact decide_eq_true_iff
    | true => simp
  | true =>
    cases (candidateOf fileName other).numbered with
    | false => simp
    | true =>
      simp only [Candidate.name, candidateOf, Bool.not_true, lt_self_iff_false, true_and, false_or]
      exact decide_eq_true_iff

/-- The files of a group, and of a slot. -/
def inGroup (fileName : Path → Option Text) (files : List Path) (key : GroupKey) : List Path :=
  files.filter fun path => groupOf fileName path = some key

def inSlot (fileName : Path → Option Text) (files : List Path) (key : GroupKey) (index : Nat) :
    List Path :=
  (inGroup fileName files key).filter fun path => indexOf fileName path = some index

theorem mem_inSlot : path ∈ inSlot fileName files key index ↔
    path ∈ files ∧ groupOf fileName path = some key ∧ indexOf fileName path = some index := by
  rw [inSlot, inGroup, List.mem_filter, List.mem_filter, decide_eq_true_eq, decide_eq_true_eq,
    and_assoc]

/-- A file in the slots of its group. -/
def takeFile (fileName : Path → Option Text) : Slots Path → Path → Slots Path :=
  KeyedFold.step (indexOf fileName) fun path => settle fileName (candidateOf fileName path)

/-- The slots of a group. -/
def slotsOf (fileName : Path → Option Text) (files : List Path) (key : GroupKey) : Slots Path :=
  KeyedFold.fill (indexOf fileName) (fun path => settle fileName (candidateOf fileName path)) ∅
    (inGroup fileName files key)

theorem getElem?_groups (files : List Path) (key : GroupKey) :
    (files.foldl (addFile fileName) ∅)[key]? =
      if inGroup fileName files key = [] then none else some (slotsOf fileName files key) := by
  have hstep : addFile fileName = KeyedFold.step (groupOf fileName)
      (fun path slots => some (takeFile fileName (slots.getD ∅) path)) := by
    funext groups path
    rw [addFile, KeyedFold.step, groupOf, volumeOf]
    split
    next hname => rw [hname]; rfl
    next name hname =>
      rw [hname, Option.bind_some]
      split
      next hvolume => rw [hvolume]; rfl
      next volume hvolume =>
        have hof : volumeOf fileName path = some volume := by
          rw [volumeOf, hname, Option.bind_some, hvolume]
        rw [hvolume, Option.map_some]
        simp only [takeFile, KeyedFold.step, indexOf, candidateOf, hof, Option.map_some, Option.any_some, keyOf]
  rw [hstep]
  refine (KeyedFold.getElem?_fill key).trans ?_
  rw [Std.ExtTreeMap.getElem?_empty, KeyedFold.foldl_some]
  rfl

theorem getElem?_slotsOf (files : List Path) (key : GroupKey) (index : Nat) :
    (slotsOf fileName files key)[index]? =
      ((inSlot fileName files key index).argmin (rank fileName)).map (candidateOf fileName) := by
  rw [slotsOf, KeyedFold.getElem?_fill, Std.ExtTreeMap.getElem?_empty]
  apply KeyedFold.foldl_settle
  · exact fun _ => rfl
  · intro path _ other _
    rw [settle]
    by_cases hless : rank fileName path < rank fileName other
    · rw [if_pos (prefers_iff.mpr hless), if_pos hless]
    · rw [if_neg fun h => hless (prefers_iff.mp h), if_neg hless]

/-! ## Sets -/

/-- Indices that go up without a gap from the first on. -/
theorem zipIdx_all_iff {l : List Nat} (n : Nat) :
    ((l.zipIdx n).all fun (index, position) => position = index) ↔
      l = List.range' n l.length := by
  induction l generalizing n with
  | nil => simp
  | cons a l ih =>
    rw [List.zipIdx_cons, List.all_cons, Bool.and_eq_true, ih, List.length_cons, List.range'_succ,
      List.cons.injEq, decide_eq_true_eq, eq_comm]

theorem eq_range'_iff {l : List Nat} (hsorted : l.Pairwise (· < ·)) (n : Nat) (hmin : ∀ i ∈ l, n ≤ i) :
    l = List.range' n l.length ↔ ∀ i j, n ≤ i → i ≤ j → j ∈ l → i ∈ l := by
  constructor
  · intro h i j hi hij hj
    rw [h, List.mem_range'_1] at hj ⊢
    omega
  · intro h
    induction l generalizing n with
    | nil => rfl
    | cons a l ih =>
      obtain ⟨hlater, hrest⟩ := List.pairwise_cons.mp hsorted
      have hna := hmin a List.mem_cons_self
      have hfirst : n = a := by
        rcases List.mem_cons.mp (h n a (Nat.le_refl n) hna List.mem_cons_self) with heq | hmem
        · exact heq
        · exact absurd (hlater n hmem) (Nat.not_lt.mpr hna)
      subst hfirst
      rw [List.length_cons, List.range'_succ]
      refine congrArg (n :: ·) (ih hrest (n + 1) hlater fun i j hi hij hj => ?_)
      have hmem := h i j (Nat.le_of_succ_le hi) hij (List.mem_cons_of_mem _ hj)
      exact (List.mem_cons.mp hmem).resolve_left (by omega)

theorem sorted_keys (slots : Slots Path) : slots.keys.Pairwise (· < ·) :=
  slots.ordered_keys.imp fun h => Nat.compare_eq_lt.mp h

theorem contiguous_iff :
    (slots.keys.zipIdx.all fun (index, position) => position = index) ↔
      ∀ i j, i ≤ j → j ∈ slots → i ∈ slots := by
  rw [zipIdx_all_iff, eq_range'_iff (sorted_keys slots) 0 fun _ _ => Nat.zero_le _]
  simp only [Std.ExtTreeMap.mem_keys, Nat.zero_le, true_implies]

/-- The volumes of a group without a gap are in the places of their indices. -/
theorem getElem?_volumes (h : ∀ i j, i ≤ j → j ∈ slots → i ∈ slots) (index : Nat) :
    (slots.toList.map (·.2.path))[index]? = slots[index]?.map (·.path) := by
  have hkeys : slots.toList.map (·.1) = List.range' 0 slots.keys.length := by
    rw [Std.ExtTreeMap.map_fst_toList_eq_keys]
    exact (zipIdx_all_iff 0).mp (contiguous_iff.mpr h)
  rw [List.getElem?_map]
  cases hentry : slots.toList[index]? with
  | none =>
    have hlength := congrArg List.length hkeys
    rw [List.length_map, List.length_range'] at hlength
    have hnone : index ∉ slots := by
      rw [← Std.ExtTreeMap.mem_keys, ← Std.ExtTreeMap.map_fst_toList_eq_keys, hkeys,
        List.mem_range'_1, ← hlength]
      have hbound := List.getElem?_eq_none_iff.mp hentry
      omega
    rw [Std.ExtTreeMap.getElem?_eq_none hnone]
    rfl
  | some entry =>
    obtain ⟨found, candidate⟩ := entry
    have hfound : (List.range' 0 slots.keys.length)[index]? = some found := by
      rw [← hkeys, List.getElem?_map, hentry]
      rfl
    obtain ⟨_, hsame⟩ := List.getElem?_eq_some_iff.mp hfound
    rw [List.getElem_range', Nat.zero_add, Nat.one_mul] at hsame
    subst hsame
    rw [Std.ExtTreeMap.mem_toList_iff_getElem?_eq_some.mp (List.mem_of_getElem? hentry)]
    rfl

theorem setOf_eq_some_iff : setOf fileName key slots = some set ↔
    ∃ first, slots[0]? = some first ∧ first.isFirst ∧ (∀ i j, i ≤ j → j ∈ slots → i ∈ slots) ∧
      set = ⟨kindFromRank key.rank, ((volumeOf fileName first.path).map (·.base)).getD [],
        slots.toList.map (·.2.path)⟩ := by
  rw [← contiguous_iff, setOf]
  split
  next hnone => simp [hnone]
  next first hfirst =>
    simp only [hfirst, Option.some.injEq, exists_eq_left']
    cases hentry : first.isFirst with
    | false => simp
    | true =>
      cases hgap : slots.keys.zipIdx.all fun (index, position) => position = index with
      | false => simp
      | true => simp [volumeOf, eq_comm]

/-! ## What a group becomes -/

/-- The winner of a slot. -/
def winner (fileName : Path → Option Text) (files : List Path) (key : GroupKey) (index : Nat) :
    Option Path :=
  (inSlot fileName files key index).argmin (rank fileName)

theorem getElem?_slotsOf' : (slotsOf fileName files key)[index]? =
    (winner fileName files key index).map (candidateOf fileName) := getElem?_slotsOf files key index

theorem mem_slotsOf : index ∈ slotsOf fileName files key ↔
    ∃ path ∈ files, groupOf fileName path = some key ∧ indexOf fileName path = some index := by
  rw [Std.ExtTreeMap.mem_iff_isSome_getElem?, getElem?_slotsOf, Option.isSome_map,
    ← Option.ne_none_iff_isSome, Ne, List.argmin_eq_none, List.eq_nil_iff_forall_not_mem]
  simp only [mem_inSlot, not_forall, not_not]

theorem winner_spec (h : winner fileName files key index = some path) :
    path ∈ files ∧ groupOf fileName path = some key ∧ indexOf fileName path = some index ∧
      Best fileName files path := by
  have hmem := mem_inSlot.mp (List.argmin_mem (Option.mem_def.mpr h))
  refine ⟨hmem.1, hmem.2.1, hmem.2.2, fun other hother hgroup hindex => ?_⟩
  have hslot : other ∈ inSlot fileName files key index :=
    mem_inSlot.mpr ⟨hother, hgroup.trans hmem.2.1, hindex.trans hmem.2.2⟩
  rw [← Bool.not_eq_true, prefers_iff]
  exact not_lt.mpr (KeyedFold.rank_argmin_le h hslot)

/-- A group that is returned: the winner of its first slot is an entry volume, and no index is
missing. -/
theorem setOf_slotsOf_iff : setOf fileName key (slotsOf fileName files key) = some set ↔
    ∃ first, winner fileName files key 0 = some first ∧ (candidateOf fileName first).isFirst ∧
      (∀ i j, i ≤ j → j ∈ slotsOf fileName files key → i ∈ slotsOf fileName files key) ∧
      set = ⟨kindFromRank key.rank, ((volumeOf fileName first).map (·.base)).getD [],
        (slotsOf fileName files key).toList.map (·.2.path)⟩ := by
  rw [setOf_eq_some_iff, getElem?_slotsOf']
  constructor
  · rintro ⟨candidate, hcandidate, hfirst, hgap, rfl⟩
    obtain ⟨first, hwinner, rfl⟩ := Option.map_eq_some_iff.mp hcandidate
    exact ⟨first, hwinner, hfirst, hgap, rfl⟩
  · rintro ⟨first, hwinner, hfirst, hgap, rfl⟩
    exact ⟨candidateOf fileName first, by rw [hwinner]; rfl, hfirst, hgap, rfl⟩

/-- The sets by their groups. -/
def setsMap (fileName : Path → Option Text) (files : List Path) :
    Std.ExtTreeMap GroupKey (ArchiveSet Path) :=
  (files.foldl (addFile fileName) ∅).filterMap (setOf fileName)

theorem getElem?_setsMap : (setsMap fileName files)[key]? =
    setOf fileName key (slotsOf fileName files key) := by
  rw [setsMap, Std.ExtTreeMap.getElem?_filterMap', getElem?_groups]
  split
  next hempty =>
    rw [slotsOf, hempty]
    rfl
  next => rfl

theorem groupArchiveSets_eq : groupArchiveSets fileName files =
    (setsMap fileName files).toList.map Prod.snd := by
  rw [setsMap, Std.ExtTreeMap.toList_filterMap, List.map_filterMap, groupArchiveSets]
  refine congrArg (List.filterMap · _) (funext fun entry => ?_)
  rw [Option.map_map]
  exact Option.map_id'.symm

theorem mem_groupArchiveSets : set ∈ groupArchiveSets fileName files ↔
    ∃ key, setOf fileName key (slotsOf fileName files key) = some set := by
  rw [groupArchiveSets_eq, List.mem_map]
  constructor
  · rintro ⟨⟨key, found⟩, hmem, rfl⟩
    rw [Std.ExtTreeMap.mem_toList_iff_getElem?_eq_some, getElem?_setsMap] at hmem
    exact ⟨key, hmem⟩
  · rintro ⟨key, hset⟩
    refine ⟨(key, set), ?_, rfl⟩
    rw [Std.ExtTreeMap.mem_toList_iff_getElem?_eq_some, getElem?_setsMap]
    exact hset

theorem groupArchiveSets_congr (h : ∀ key, setOf fileName key (slotsOf fileName listed key) =
    setOf fileName key (slotsOf fileName files key)) :
    groupArchiveSets fileName listed = groupArchiveSets fileName files := by
  rw [groupArchiveSets_eq, groupArchiveSets_eq]
  have hmaps : setsMap fileName listed = setsMap fileName files :=
    Std.ExtTreeMap.ext_getElem? fun key => by rw [getElem?_setsMap, getElem?_setsMap, h]
  rw [hmaps]

/-- A set has the key of its group. -/
theorem key_of_setOf (h : setOf fileName key (slotsOf fileName files key) = some set) :
    set.key = key := by
  obtain ⟨first, hwinner, -, -, rfl⟩ := setOf_slotsOf_iff.mp h
  obtain ⟨volume, hvolume, rfl⟩ := Option.map_eq_some_iff.mp (winner_spec hwinner).2.1
  have hrank : kindRank (kindFromRank (kindRank volume.kind)) = kindRank volume.kind := by
    cases volume.kind with
    | zip => rfl
    | sevenZip => rfl
    | rar => rfl
  rw [key, hvolume]
  exact congrArg (GroupKey.mk · _) hrank

theorem getElem?_volumes_of_setOf (h : setOf fileName key (slotsOf fileName files key) = some set)
    (index : Nat) : set.volumes[index]? = winner fileName files key index := by
  obtain ⟨first, -, -, hgap, rfl⟩ := setOf_slotsOf_iff.mp h
  rw [getElem?_volumes hgap, getElem?_slotsOf', Option.map_map]
  exact Option.map_id'

/-! ## Names -/

theorem index_of_number {number : Nat} (h : decide (number ≤ 1) = true) : number - 1 = 0 :=
  Nat.sub_eq_zero_of_le (of_decide_eq_true h)

/-- Only a volume of index 0 is an entry volume. -/
theorem index_of_isFirst {name : Text} {volume : ArchiveVolume}
    (h : parseArchiveVolume name = some volume) (hfirst : volume.isFirst) : volume.index = 0 := by
  obtain ⟨⟨stem, extension⟩, -, h⟩ := Option.bind_eq_some_iff.mp h
  dsimp only at h
  split at h
  next => cases h
  split at h
  next =>
    rcases Option.or_eq_some_iff.mp h with hpart | ⟨-, hwhole⟩
    · obtain ⟨⟨base, part⟩, -, hpart⟩ := Option.bind_eq_some_iff.mp hpart
      dsimp only at hpart
      split at hpart
      next => cases hpart
      next =>
        obtain ⟨number, -, rfl⟩ := Option.map_eq_some_iff.mp hpart
        exact index_of_number hfirst
    · obtain rfl := Option.some.inj hwhole
      rfl
  split at h
  next =>
    obtain rfl := Option.some.inj h
    rfl
  split at h
  next =>
    obtain rfl := Option.some.inj h
    rfl
  split at h
  next =>
    obtain ⟨number, -, rfl⟩ := Option.map_eq_some_iff.mp h
    cases hfirst
  split at h
  next =>
    obtain ⟨number, -, rfl⟩ := Option.map_eq_some_iff.mp h
    cases hfirst
  split at h
  next =>
    obtain ⟨number, -, h⟩ := Option.bind_eq_some_iff.mp h
    obtain ⟨⟨innerStem, innerExtension⟩, -, h⟩ := Option.bind_eq_some_iff.mp h
    obtain ⟨kind, -, rfl⟩ := Option.map_eq_some_iff.mp h
    exact index_of_number hfirst
  next => cases h

theorem indexOf_of_isFirst (h : (candidateOf fileName path).isFirst) :
    indexOf fileName path = some 0 := by
  rw [candidateOf, Option.any_eq_true] at h
  obtain ⟨volume, hvolume, hfirst⟩ := h
  obtain ⟨name, -, hparsed⟩ := Option.bind_eq_some_iff.mp hvolume
  rw [indexOf, hvolume, Option.map_some, index_of_isFirst hparsed hfirst]

/-- Everything that decides about a file is in its name. -/
theorem groupOf_congr (h : fileName other = fileName path) :
    groupOf fileName other = groupOf fileName path := by
  rw [groupOf, groupOf, volumeOf, volumeOf, h]

theorem indexOf_congr (h : fileName other = fileName path) :
    indexOf fileName other = indexOf fileName path := by
  rw [indexOf, indexOf, volumeOf, volumeOf, h]

theorem isFirst_congr (h : fileName other = fileName path) :
    (candidateOf fileName other).isFirst = (candidateOf fileName path).isFirst := by
  rw [candidateOf, candidateOf, volumeOf, volumeOf, h]

theorem rank_congr (h : fileName other = fileName path) :
    rank fileName other = rank fileName path := by
  rw [rank, rank, candidateOf, candidateOf, volumeOf, volumeOf, h]

/-- Volumes of one rank have one name. -/
theorem fileName_eq_of_rank (hpath : groupOf fileName path = some key)
    (hother : groupOf fileName other = some key) (h : rank fileName other = rank fileName path) :
    fileName other = fileName path := by
  have hnames : (fileName other).getD [] = (fileName path).getD [] :=
    congrArg (fun rank => (ofLex rank).2) h
  obtain ⟨volume, hvolume, -⟩ := Option.map_eq_some_iff.mp hpath
  obtain ⟨volume', hvolume', -⟩ := Option.map_eq_some_iff.mp hother
  obtain ⟨name, hname, -⟩ := Option.bind_eq_some_iff.mp hvolume
  obtain ⟨name', hname', -⟩ := Option.bind_eq_some_iff.mp hvolume'
  rw [hname, hname'] at hnames ⊢
  exact congrArg some hnames

/-! ## Order -/

theorem complete_iff : Complete fileName files key ↔
    (∃ path ∈ files, groupOf fileName path = some key ∧ (candidateOf fileName path).isFirst) ∧
      ∀ i j, i ≤ j → j ∈ slotsOf fileName files key → i ∈ slotsOf fileName files key := by
  simp only [mem_slotsOf]
  exact ⟨fun h => ⟨h.entry, h.noGap⟩, fun h => ⟨h.1, h.2⟩⟩

theorem Complete.perm (hperm : listed.Perm files) (h : Complete fileName listed key) :
    Complete fileName files key := by
  obtain ⟨⟨path, hpath, hentry⟩, hgap⟩ := h
  refine ⟨⟨path, hperm.mem_iff.mp hpath, hentry⟩, fun i j hij hj => ?_⟩
  simp only [← hperm.mem_iff] at hj ⊢
  exact hgap i j hij hj

/-- A set comes of a complete group. -/
theorem complete_of_setOf (h : setOf fileName key (slotsOf fileName files key) = some set) :
    Complete fileName files key := by
  obtain ⟨first, hwinner, hfirst, hgap, -⟩ := setOf_slotsOf_iff.mp h
  obtain ⟨hmem, hgroup, -, -⟩ := winner_spec hwinner
  exact complete_iff.mpr ⟨⟨first, hmem, hgroup, hfirst⟩, hgap⟩

theorem inSlot_perm (hperm : listed.Perm files) (key : GroupKey) (index : Nat) :
    (inSlot fileName listed key index).Perm (inSlot fileName files key index) :=
  (hperm.filter _).filter _

theorem best_iff (hgroup : groupOf fileName path = some key)
    (hindex : indexOf fileName path = some index) : Best fileName files path ↔
      ∀ other ∈ inSlot fileName files key index, rank fileName path ≤ rank fileName other := by
  constructor
  · intro hbest other hother
    obtain ⟨hmem, hgroup', hindex'⟩ := mem_inSlot.mp hother
    have hprefers := hbest other hmem (hgroup'.trans hgroup.symm) (hindex'.trans hindex.symm)
    rw [← Bool.not_eq_true, prefers_iff] at hprefers
    exact not_lt.mp hprefers
  · intro hleast other hother hgroup' hindex'
    rw [← Bool.not_eq_true, prefers_iff]
    exact not_lt.mpr
      (hleast other (mem_inSlot.mpr ⟨hother, hgroup'.trans hgroup, hindex'.trans hindex⟩))

/-- With one holder of every name that wins, the winners are the same in every order. -/
theorem winner_perm (hperm : listed.Perm files)
    (hone : ∀ path ∈ files, groupOf fileName path = some key → Best fileName files path →
      ∀ other ∈ files, fileName other = fileName path → other = path) (index : Nat) :
    winner fileName listed key index = winner fileName files key index := by
  refine KeyedFold.argmin_perm (inSlot_perm hperm key index) fun path hpath hleast other hother hrank => ?_
  obtain ⟨hmem, hgroup, hindex⟩ := mem_inSlot.mp hpath
  obtain ⟨hmem', hgroup', -⟩ := mem_inSlot.mp hother
  exact hone path hmem hgroup ((best_iff hgroup hindex).mpr hleast) other hmem'
    (fileName_eq_of_rank hgroup hgroup' hrank)

theorem Unambiguous.order (h : Unambiguous fileName files) (hperm : listed.Perm files) :
    groupArchiveSets fileName listed = groupArchiveSets fileName files := by
  refine groupArchiveSets_congr fun key => ?_
  by_cases hcomplete : Complete fileName files key
  · have hslots : slotsOf fileName listed key = slotsOf fileName files key := by
      refine Std.ExtTreeMap.ext_getElem? fun index => ?_
      rw [getElem?_slotsOf', getElem?_slotsOf', winner_perm hperm (h.oneHolder key hcomplete)]
    rw [hslots]
  · have hnone : setOf fileName key (slotsOf fileName files key) = none :=
      Option.eq_none_iff_forall_ne_some.mpr fun set hset => hcomplete (complete_of_setOf hset)
    rw [hnone]
    exact Option.eq_none_iff_forall_ne_some.mpr fun set hset =>
      hcomplete ((complete_of_setOf hset).perm hperm)

/-- A complete group has a set when its entry's slot goes to an entry volume. -/
theorem exists_set (hcomplete : Complete fileName files key)
    (hwins : ∀ path ∈ files, groupOf fileName path = some key → indexOf fileName path = some 0 →
      Best fileName files path → (candidateOf fileName path).isFirst) :
    ∃ set, setOf fileName key (slotsOf fileName files key) = some set := by
  obtain ⟨⟨path, hpath, hgroup, hfirst⟩, hgap⟩ := complete_iff.mp hcomplete
  have hslot : 0 ∈ slotsOf fileName files key :=
    mem_slotsOf.mpr ⟨path, hpath, hgroup, indexOf_of_isFirst hfirst⟩
  rw [Std.ExtTreeMap.mem_iff_isSome_getElem?, getElem?_slotsOf', Option.isSome_map] at hslot
  obtain ⟨first, hwinner⟩ := Option.isSome_iff_exists.mp hslot
  obtain ⟨hmem, hgroup', hindex, hbest⟩ := winner_spec hwinner
  exact ⟨_, setOf_slotsOf_iff.mpr ⟨first, hwinner, hwins first hmem hgroup' hindex hbest, hgap, rfl⟩⟩

theorem disjoint_sets (files : List Path) : (groupArchiveSets fileName files).Pairwise
    fun set other => set.volumes.Disjoint other.volumes := by
  rw [groupArchiveSets_eq, List.pairwise_map]
  refine List.Pairwise.imp_of_mem ?_ (setsMap fileName files).ordered_keys_toList
  rintro ⟨key, set⟩ ⟨key', set'⟩ hmem hmem' hless path hpath hpath'
  rw [Std.ExtTreeMap.mem_toList_iff_getElem?_eq_some, getElem?_setsMap] at hmem hmem'
  obtain ⟨i, hi⟩ := List.mem_iff_getElem?.mp hpath
  obtain ⟨j, hj⟩ := List.mem_iff_getElem?.mp hpath'
  dsimp only at hi hj hless
  rw [getElem?_volumes_of_setOf hmem] at hi
  rw [getElem?_volumes_of_setOf hmem'] at hj
  have hsame := (winner_spec hi).2.1.symm.trans (winner_spec hj).2.1
  obtain rfl := Option.some.inj hsame
  rw [Std.ReflOrd.compare_self] at hless
  cases hless

theorem OrderFree.of_unambiguous (h : Unambiguous fileName files) : OrderFree fileName files where
  order _ hperm := h.order hperm
  entry set hset := by
    obtain ⟨key, hkey⟩ := mem_groupArchiveSets.mp hset
    obtain ⟨first, hwinner, hfirst, -, -⟩ := setOf_slotsOf_iff.mp hkey
    exact ⟨first, by rw [getElem?_volumes_of_setOf hkey, hwinner], hfirst⟩
  indexed set hset i path hpath := by
    obtain ⟨key, hkey⟩ := mem_groupArchiveSets.mp hset
    rw [getElem?_volumes_of_setOf hkey] at hpath
    obtain ⟨hmem, hgroup, hindex, -⟩ := winner_spec hpath
    exact ⟨hmem, by rw [key_of_setOf hkey, hgroup], hindex⟩
  disjoint := disjoint_sets files
  complete key hcomplete := by
    obtain ⟨set, hset⟩ := exists_set hcomplete (h.entryWins key hcomplete)
    exact ⟨set, mem_groupArchiveSets.mpr ⟨key, hset⟩, key_of_setOf hset⟩

/-! ## What goes wrong otherwise -/

theorem exists_setOf (hset : set ∈ groupArchiveSets fileName files) :
    setOf fileName set.key (slotsOf fileName files set.key) = some set := by
  obtain ⟨key, hkey⟩ := mem_groupArchiveSets.mp hset
  rw [key_of_setOf hkey]
  exact hkey

theorem OrderFree.entryWins (h : OrderFree fileName files) (hcomplete : Complete fileName files key)
    (hpath : path ∈ files) (hgroup : groupOf fileName path = some key)
    (hindex : indexOf fileName path = some 0) (hbest : Best fileName files path) :
    (candidateOf fileName path).isFirst := by
  obtain ⟨set, hset, rfl⟩ := h.complete key hcomplete
  obtain ⟨first, hwinner, hfirst, -, -⟩ := setOf_slotsOf_iff.mp (exists_setOf hset)
  obtain ⟨hmem, hgroup', hindex', hbest'⟩ := winner_spec hwinner
  have hpath' := mem_inSlot.mpr ⟨hpath, hgroup, hindex⟩
  have hfirst' := mem_inSlot.mpr ⟨hmem, hgroup', hindex'⟩
  have hrank := le_antisymm ((best_iff hgroup hindex).mp hbest first hfirst')
    ((best_iff hgroup' hindex').mp hbest' path hpath')
  rw [isFirst_congr (fileName_eq_of_rank hgroup' hgroup hrank)]
  exact hfirst

/-- The first listed of the best of a slot wins it. -/
theorem winner_cons (hgroup : groupOf fileName path = some key)
    (hindex : indexOf fileName path = some index) (hbest : Best fileName files path)
    (hperm : (path :: listed).Perm files) :
    winner fileName (path :: listed) key index = some path := by
  have hslot : inSlot fileName (path :: listed) key index =
      path :: inSlot fileName listed key index := by
    rw [inSlot, inGroup, List.filter_cons, if_pos (decide_eq_true hgroup), List.filter_cons,
      if_pos (decide_eq_true hindex)]
    rfl
  rw [winner, hslot]
  refine KeyedFold.argmin_cons_of_le fun other hother => (best_iff hgroup hindex).mp hbest other ?_
  rw [← (inSlot_perm hperm key index).mem_iff, hslot]
  exact List.mem_cons_of_mem _ hother

/-- A volume of the set of its group, when it is the best and listed first. -/
theorem OrderFree.getElem?_volumes (h : OrderFree fileName files)
    (hset : set ∈ groupArchiveSets fileName files) (hpath : path ∈ files)
    (hgroup : groupOf fileName path = some set.key) (hindex : indexOf fileName path = some index)
    (hbest : Best fileName files path) : set.volumes[index]? = some path := by
  obtain ⟨front, back, rfl⟩ := List.append_of_mem hpath
  have hperm : (path :: (front ++ back)).Perm (front ++ path :: back) := List.perm_middle.symm
  rw [← h.order _ hperm] at hset
  rw [getElem?_volumes_of_setOf (exists_setOf hset), winner_cons hgroup hindex hbest hperm]

theorem OrderFree.oneHolder (h : OrderFree fileName files) (hcomplete : Complete fileName files key)
    (hpath : path ∈ files) (hgroup : groupOf fileName path = some key)
    (hbest : Best fileName files path) (hother : other ∈ files)
    (hname : fileName other = fileName path) : other = path := by
  obtain ⟨set, hset, rfl⟩ := h.complete key hcomplete
  obtain ⟨volume, hvolume, -⟩ := Option.map_eq_some_iff.mp hgroup
  have hindex : indexOf fileName path = some volume.index := by rw [indexOf, hvolume, Option.map_some]
  have hgroup' := (groupOf_congr hname).trans hgroup
  have hindex' := (indexOf_congr hname).trans hindex
  have hbest' : Best fileName files other := by
    rw [best_iff hgroup' hindex', rank_congr hname]
    exact (best_iff hgroup hindex).mp hbest
  have hfirst := h.getElem?_volumes hset hpath hgroup hindex hbest
  rw [h.getElem?_volumes hset hother hgroup' hindex' hbest'] at hfirst
  exact Option.some.inj hfirst

/-- The order of a listing does not show, and only incomplete groups are left out, exactly when in
every complete group an entry volume wins the entry's slot and no winning name has two holders. -/
theorem orderFree_iff (fileName : Path → Option Text) (files : List Path) :
    OrderFree fileName files ↔ Unambiguous fileName files := by
  constructor
  · intro h
    exact ⟨fun key hcomplete path hpath hgroup hindex hbest =>
        h.entryWins hcomplete hpath hgroup hindex hbest,
      fun key hcomplete path hpath hgroup hbest other hother hname =>
        h.oneHolder hcomplete hpath hgroup hbest hother hname⟩
  · exact OrderFree.of_unambiguous

/-- The last component of a path. -/
def lastComponent (path : Text) : Option Text := (Text.rsplitOnce '/' path).map Prod.snd

/-- Two directories with an archive of one name, and a numbered volume before the first. -/
theorem listing_order_shows :
    groupArchiveSets lastComponent ["/a/x.rar".toList, "/b/x.rar".toList] =
        [⟨.rar, "x".toList, ["/a/x.rar".toList]⟩] ∧
      groupArchiveSets lastComponent ["/b/x.rar".toList, "/a/x.rar".toList] =
        [⟨.rar, "x".toList, ["/b/x.rar".toList]⟩] ∧
      groupArchiveSets lastComponent ["/d/y.zip".toList, "/d/y.z00".toList] = [] := by
  decide

end ArchiveSet

end RDownloader
