import Mathlib.Data.List.Pairwise
import RDownloader.Collector.Mirrors

/-!
# What a mirror group is

`MirrorGroup.WellFormed` is what a group promises. Every source proposes members no earlier one has
grouped, and settling a proposal keeps the answers those of well-formed groups.
-/

namespace RDownloader

open Text

/-- A group, as one call of `assign` writes it down. -/
structure MirrorGroup where
  key : Text
  source : MirrorSource
  members : List MirrorLink
  chosen : MirrorLink

/-- The answer for a member. -/
def MirrorGroup.mirror (group : MirrorGroup) (link : MirrorLink) : CandidateMirror :=
  { describe group.key group.source link.1 with selected := link.2 = group.chosen.2 }

section
variable (hostStr : Text → Option Text) (preference : MirrorPreference)
  (separations : MirrorSeparations)

/-- A link at a hoster a person hides. -/
def IsHidden (link : MirrorLink) : Prop := preference.hides (hosterOf hostStr link.1.url)

structure MirrorGroup.WellFormed (group : MirrorGroup) : Prop where
  several : 2 ≤ group.members.length
  addresses : (group.members.map (·.1.url)).Nodup
  chosen : group.chosen ∈ group.members
  /-- A pinned member is chosen if there is one. -/
  pinned : (∃ link ∈ group.members, link.1.pinned) → group.chosen.1.pinned
  /-- Otherwise a hidden one is chosen only where all are hidden. -/
  shown : (∀ link ∈ group.members, link.1.pinned = false) →
    IsHidden hostStr preference group.chosen → ∀ link ∈ group.members,
      IsHidden hostStr preference link
  together : ∀ left ∈ group.members, ∀ right ∈ group.members, left ≠ right →
    separations.separated left.1.id right.1.id = false
  measured : group.source = .nameAndSize → ∀ link ∈ group.members, link.1.size.isSome

/-- The answers are those of `groups`, which share no link and no key. -/
structure MirrorAnswers.Grouped (inputs : List MirrorInput) (answers : MirrorAnswers)
    (groups : List MirrorGroup) : Prop where
  used : answers.used = groups.map (·.key)
  keys : (groups.map (·.key)).Nodup
  apart : (groups.flatMap (·.members)).Nodup
  wellFormed : ∀ group ∈ groups, group.WellFormed hostStr preference separations
  links : ∀ group ∈ groups, ∀ link ∈ group.members, link ∈ inputs.zipIdx
  length : answers.out.length = inputs.length
  answered : ∀ group ∈ groups, ∀ link ∈ group.members,
    answers.out[link.2]? = some (some (group.mirror link))
  unanswered : ∀ link ∈ inputs.zipIdx, (∀ group ∈ groups, link ∉ group.members) →
    answers.out[link.2]? = some none

end

/-! ## The parts of a source -/

namespace MirrorSeparations

/-- A separation reads the same in both directions. -/
theorem key_comm (left right : Text) : key left right = key right left := by
  unfold key
  rcases notAfter_total left right with h | h
  · rw [if_pos h]
    split
    · next h' => rw [notAfter_antisymm h h']
    · rfl
  · rw [if_pos h]
    split
    · next h' => rw [notAfter_antisymm h h']
    · rfl

theorem separated_comm (separations : MirrorSeparations) (left right : Text) :
    separations.separated left right = separations.separated right left := by
  unfold separated
  rw [key_comm]

/-- What a person took apart is separated, whichever link was named first. -/
theorem separated_new {pairs : List (Text × Text)} (h : (left, right) ∈ pairs) :
    (new pairs).separated left right := by
  apply decide_eq_true
  exact List.mem_map.mpr ⟨(left, right), h, rfl⟩

end MirrorSeparations

variable {links members : List MirrorLink} {first link : MirrorLink}

theorem distinctAddresses_sublist (seen : List Text) (links : List MirrorLink) :
    (distinctAddresses seen links).Sublist links := by
  induction links generalizing seen with
  | nil => exact .slnil
  | cons link links ih =>
    rw [distinctAddresses]
    split
    · exact (ih seen).cons link
    · exact (ih _).cons_cons link

theorem url_not_mem_seen (h : link ∈ distinctAddresses seen links) : link.1.url ∉ seen := by
  induction links generalizing seen with
  | nil => cases h
  | cons first links ih =>
    rw [distinctAddresses] at h
    split at h
    · exact ih h
    · next hnew =>
      rcases List.mem_cons.mp h with rfl | h
      · exact hnew
      · exact fun hmem => ih h (List.mem_append_left _ hmem)

theorem nodup_distinctAddresses (seen : List Text) (links : List MirrorLink) :
    ((distinctAddresses seen links).map (·.1.url)).Nodup := by
  induction links generalizing seen with
  | nil => exact List.nodup_nil
  | cons first links ih =>
    rw [distinctAddresses]
    split
    · exact ih seen
    · rw [List.map_cons, List.nodup_cons]
      refine ⟨fun hmem => ?_, ih _⟩
      obtain ⟨link, hlink, heq⟩ := List.mem_map.mp hmem
      exact url_not_mem_seen hlink (List.mem_append_right _ (heq ▸ List.mem_singleton_self _))

/-- What was not refused holds no two links a person took apart. -/
theorem pairwise_of_not_refused {separations : MirrorSeparations}
    (h : refused separations links = false) :
    links.Pairwise fun left right => separations.separated left.1.id right.1.id = false := by
  induction links with
  | nil => exact .nil
  | cons left links ih =>
    rw [refused, Bool.and_eq_false_iff, Bool.or_eq_false_iff] at h
    rcases h with hnone | ⟨hleft, hlinks⟩
    · have hempty : separations.pairs = [] := by
        simpa [MirrorSeparations.isEmpty] using hnone
      have hfree : ∀ a b, separations.separated a b = false := by
        intro a b
        simp [MirrorSeparations.separated, hempty]
      exact List.pairwise_of_forall fun _ _ => hfree _ _
    · refine .cons (fun right hright => ?_) (ih hlinks)
      simpa using List.any_eq_false.mp hleft right hright

theorem uniqueKey_not_mem (used : List Text) (wanted : Text) (suffix : Nat) :
    uniqueKey used wanted suffix ∉ used := by
  fun_induction uniqueKey used wanted suffix with
  | case1 _ _ _ ih => exact ih
  | case2 _ _ hfree => exact hfree

/-! ## The chosen member -/

theorem MirrorRank.outranks_of_outranks {score best other : MirrorRank}
    (hscore : score.outranks best) (h : other.outranks best = false) :
    other.outranks score = false := by
  obtain ⟨shown, facets⟩ := score
  obtain ⟨shown', facets'⟩ := best
  obtain ⟨shown'', facets''⟩ := other
  cases shown <;> cases shown' <;> cases shown'' <;> simp [outranks] at * <;> omega

/-- The best so far and its rank, with everything seen that it was compared with. -/
structure Leads (score : MirrorInput → MirrorRank) (seen : List MirrorLink)
    (best : MirrorLink × MirrorRank) : Prop where
  mem : best.1 ∈ seen
  ranked : best.2 = score best.1.1
  ahead : ∀ link ∈ seen, (score link.1).outranks best.2 = false

theorem MirrorRank.not_outranks_self (score : MirrorRank) : score.outranks score = false := by
  simp [outranks]

variable {score : MirrorInput → MirrorRank} {seen : List MirrorLink}
  {leader : MirrorLink × MirrorRank}

theorem Leads.better (h : Leads score seen leader)
    (link : MirrorLink) : Leads score (seen ++ [link]) (better score leader link) := by
  unfold RDownloader.better
  dsimp only
  split
  · next houtranks =>
    refine ⟨List.mem_append_right _ (List.mem_singleton_self _), rfl, fun other hother => ?_⟩
    rcases List.mem_append.mp hother with hother | hother
    · exact MirrorRank.outranks_of_outranks houtranks (h.ahead other hother)
    · rw [List.mem_singleton.mp hother]
      exact MirrorRank.not_outranks_self _
  · next hbehind =>
    refine ⟨List.mem_append_left _ h.mem, h.ranked, fun other hother => ?_⟩
    rcases List.mem_append.mp hother with hother | hother
    · exact h.ahead other hother
    · rw [List.mem_singleton.mp hother]
      exact Bool.eq_false_iff.mpr hbehind

theorem Leads.foldl (h : Leads score seen leader)
    (links : List MirrorLink) : Leads score (seen ++ links) (links.foldl (RDownloader.better score) leader) := by
  induction links generalizing seen leader with
  | nil => rwa [List.append_nil]
  | cons link links ih =>
    have hlinks := ih (h.better link)
    rwa [List.append_assoc] at hlinks

theorem leads_best (score : MirrorInput → MirrorRank) (first : MirrorLink)
    (links : List MirrorLink) : Leads score (first :: links) (best score first links) := by
  have hfirst : Leads score [first] (first, score first.1) := by
    refine ⟨List.mem_singleton_self _, rfl, fun link hlink => ?_⟩
    rw [List.mem_singleton.mp hlink]
    exact MirrorRank.not_outranks_self _
  exact hfirst.foldl links

section
variable {hostStr : Text → Option Text} {preference : MirrorPreference} {key : Text}
  {source : MirrorSource}

theorem chosen_mem : chosen hostStr preference key source first links ∈ first :: links := by
  unfold chosen
  split
  · next link hpinned => exact List.mem_of_find?_eq_some hpinned
  · split
    · exact (leads_best _ first links).mem
    · exact List.mem_cons_self ..

theorem chosen_pinned (h : ∃ link ∈ first :: links, link.1.pinned) :
    (chosen hostStr preference key source first links).1.pinned := by
  unfold chosen
  split
  · next link hpinned => exact List.find?_some (p := fun link : MirrorLink => link.1.pinned) hpinned
  · next hnone =>
    obtain ⟨link, hlink, hpinned⟩ := h
    exact absurd hpinned (List.find?_eq_none.mp hnone link hlink)

/-- A hidden member is only chosen where none is shown. -/
theorem chosen_shown (hpinned : ∀ link ∈ first :: links, link.1.pinned = false)
    (h : IsHidden hostStr preference (chosen hostStr preference key source first links)) :
    ∀ link ∈ first :: links, IsHidden hostStr preference link := by
  have hnone : (first :: links).find? (·.1.pinned) = none := by
    rw [List.find?_eq_none]
    intro link hlink
    simp [hpinned link hlink]
  unfold chosen at h
  rw [hnone] at h
  dsimp only at h
  split at h
  · intro link hlink
    have hleads := leads_best (rank hostStr preference key source) first links
    have hbehind := hleads.ahead link hlink
    have hbest : (best (rank hostStr preference key source) first links).2.1 = false := by
      rw [hleads.ranked]
      exact congrArg (!·) h
    have hscore : (rank hostStr preference key source link.1).1 = false := by
      rw [MirrorRank.outranks, Bool.or_eq_false_iff, hbest] at hbehind
      simpa using hbehind.1
    simpa [rank, IsHidden] using hscore
  · next hempty =>
    rw [not_or, not_not, not_not] at hempty
    rw [IsHidden, MirrorPreference.hides, hempty.2] at h
    simp at h

end

/-! ## Settling a proposal -/

/-- What the sources see to. -/
structure MirrorProposal.Proper (inputs : List MirrorInput) (proposal : MirrorProposal) :
    Prop where
  nodup : proposal.members.Nodup
  links : ∀ link ∈ proposal.members, link ∈ inputs.zipIdx
  addresses : (proposal.members.map (·.1.url)).Nodup
  measured : proposal.source = .nameAndSize → ∀ link ∈ proposal.members, link.1.size.isSome

/-- A place belongs to one link. -/
theorem eq_of_mem_zipIdx {inputs : List MirrorInput} {left right : MirrorLink}
    (hleft : left ∈ inputs.zipIdx) (hright : right ∈ inputs.zipIdx) (h : left.2 = right.2) :
    left = right := by
  rw [List.mem_zipIdx_iff_getElem?] at hleft hright
  rw [h, hright] at hleft
  exact Prod.ext (Option.some.inj hleft).symm h

section
variable {hostStr : Text → Option Text} {preference : MirrorPreference}
  {separations : MirrorSeparations} {inputs : List MirrorInput} {answers : MirrorAnswers}
  {groups : List MirrorGroup} {proposal : MirrorProposal} {proposals : List MirrorProposal}

/-- No member has an answer yet. -/
def MirrorProposal.Free (proposal : MirrorProposal) (answers : MirrorAnswers) : Prop :=
  ∀ link ∈ proposal.members, answers.out[link.2]? = some none

/-- A link that is answered for has no free place. -/
theorem MirrorAnswers.Grouped.not_mem_of_free
    (h : answers.Grouped hostStr preference separations inputs groups)
    (hfree : answers.out[link.2]? = some none) : ∀ group ∈ groups, link ∉ group.members := by
  intro group hgroup hlink
  have hanswer := h.answered group hgroup link hlink
  rw [hfree] at hanswer
  cases hanswer

/-- The group a proposal becomes under a key. -/
def MirrorProposal.group (hostStr : Text → Option Text) (preference : MirrorPreference)
    (proposal : MirrorProposal) (key : Text) (first : MirrorLink) (links : List MirrorLink) :
    MirrorGroup where
  key
  source := proposal.source
  members := first :: links
  chosen := chosen hostStr preference key proposal.source first links

theorem MirrorProposal.Proper.wellFormed (h : proposal.Proper inputs)
    (hmembers : proposal.members = first :: links) (hseveral : links ≠ [])
    (hrefused : refused separations (first :: links) = false) (key : Text) :
    (proposal.group hostStr preference key first links).WellFormed hostStr preference
      separations where
  several := Nat.succ_le_succ (List.length_pos_of_ne_nil hseveral)
  addresses := by
    have haddresses := h.addresses
    rwa [hmembers] at haddresses
  chosen := chosen_mem
  pinned := chosen_pinned
  shown := chosen_shown
  together left hleft right hright hne := by
    have : Std.Symm fun left right : MirrorLink =>
        separations.separated left.1.id right.1.id = false :=
      ⟨fun _ _ hfalse => separations.separated_comm _ _ ▸ hfalse⟩
    exact (pairwise_of_not_refused hrefused).forall hleft hright hne
  measured hsource := by
    have hmeasured := h.measured hsource
    rwa [hmembers] at hmeasured

/-- What `assign` writes. -/
def MirrorGroup.writes (group : MirrorGroup) : List (Nat × Option CandidateMirror) :=
  group.members.map fun link => (link.2, some (group.mirror link))

theorem assign_eq (out : List (Option CandidateMirror)) (key : Text) (first : MirrorLink)
    (links : List MirrorLink) :
    assign hostStr preference out key proposal.source first links =
      Buckets.scatter out (proposal.group hostStr preference key first links).writes := rfl

variable {group : MirrorGroup} {out : List (Option CandidateMirror)}

theorem MirrorGroup.scatter_mem (hnodup : group.members.Nodup)
    (hlinks : ∀ link ∈ group.members, link ∈ inputs.zipIdx) (hlength : out.length = inputs.length)
    (hlink : link ∈ group.members) :
    (Buckets.scatter out group.writes)[link.2]? = some (some (group.mirror link)) := by
  have hplaces : (group.writes.map Prod.fst).Nodup := by
    rw [writes, List.map_map]
    apply List.Nodup.map_on ?_ hnodup
    intro left hleft right hright heq
    exact eq_of_mem_zipIdx (hlinks left hleft) (hlinks right hright) heq
  have hplace : link.2 < out.length := by
    rw [hlength]
    exact (List.getElem?_eq_some_iff.mp
      (List.mem_zipIdx_iff_getElem?.mp (hlinks link hlink))).choose
  have hwrite : (link.2, some (group.mirror link)) ∈ group.writes := List.mem_map_of_mem hlink
  exact Buckets.getElem?_scatter hplaces hwrite hplace

theorem MirrorGroup.scatter_not_mem (hlinks : ∀ link ∈ group.members, link ∈ inputs.zipIdx)
    (hlink : link ∈ inputs.zipIdx) (hother : link ∉ group.members) :
    (Buckets.scatter out group.writes)[link.2]? = out[link.2]? := by
  apply Buckets.getElem?_scatter_other
  intro write hwrite heq
  obtain ⟨member, hmember, rfl⟩ := List.mem_map.mp hwrite
  exact hother (eq_of_mem_zipIdx (hlinks member hmember) hlink heq ▸ hmember)

/-- A well-formed group over free links, under a key no group uses. -/
theorem MirrorAnswers.Grouped.add
    (h : answers.Grouped hostStr preference separations inputs groups)
    (hgroup : group.WellFormed hostStr preference separations) (hnodup : group.members.Nodup)
    (hlinks : ∀ link ∈ group.members, link ∈ inputs.zipIdx)
    (hfree : ∀ link ∈ group.members, answers.out[link.2]? = some none)
    (hkey : group.key ∉ answers.used) :
    ({ out := Buckets.scatter answers.out group.writes
       used := answers.used ++ [group.key] } : MirrorAnswers).Grouped
      hostStr preference separations inputs (groups ++ [group]) where
  used := by rw [h.used, List.map_append]; rfl
  keys := by
    rw [List.map_append, List.nodup_append]
    refine ⟨h.keys, List.nodup_singleton _, fun key hkeys other hother heq => hkey ?_⟩
    have hsame : key = group.key := heq.trans (List.mem_singleton.mp hother)
    rw [h.used, ← hsame]
    exact hkeys
  apart := by
    rw [List.flatMap_append, List.nodup_append, List.flatMap_singleton]
    refine ⟨h.apart, hnodup, fun left hleft right hright heq => ?_⟩
    obtain ⟨other, hother, hmem⟩ := List.mem_flatMap.mp hleft
    exact h.not_mem_of_free (hfree right hright) other hother (heq ▸ hmem)
  wellFormed other hother := by
    rcases List.mem_append.mp hother with hother | hother
    · exact h.wellFormed other hother
    · rwa [List.mem_singleton.mp hother]
  links other hother := by
    rcases List.mem_append.mp hother with hother | hother
    · exact h.links other hother
    · rwa [List.mem_singleton.mp hother]
  length := by rw [Buckets.length_scatter, h.length]
  answered other hother link hlink := by
    rcases List.mem_append.mp hother with hother | hother
    · have hnew : link ∉ group.members := fun hmem =>
        h.not_mem_of_free (hfree link hmem) other hother hlink
      rw [MirrorGroup.scatter_not_mem hlinks (h.links other hother link hlink) hnew]
      exact h.answered other hother link hlink
    · obtain rfl := List.mem_singleton.mp hother
      exact MirrorGroup.scatter_mem hnodup hlinks h.length hlink
  unanswered link hlink hnone := by
    have hnew : link ∉ group.members :=
      hnone group (List.mem_append_right _ (List.mem_singleton_self _))
    rw [MirrorGroup.scatter_not_mem hlinks hlink hnew]
    exact h.unanswered link hlink fun other hother => hnone other (List.mem_append_left _ hother)

/-- A proposal is settled: a group comes of it or nothing, and no other link is touched. -/
theorem MirrorAnswers.Grouped.settle
    (h : answers.Grouped hostStr preference separations inputs groups)
    (hproper : proposal.Proper inputs) (hfree : proposal.Free answers) :
    (∃ groups, (settle hostStr preference separations answers proposal).Grouped
      hostStr preference separations inputs groups) ∧
    ∀ link ∈ inputs.zipIdx, link ∉ proposal.members →
      (settle hostStr preference separations answers proposal).out[link.2]? =
        answers.out[link.2]? := by
  unfold RDownloader.settle
  split
  · exact ⟨⟨groups, h⟩, fun _ _ _ => rfl⟩
  · exact ⟨⟨groups, h⟩, fun _ _ _ => rfl⟩
  · next first links hsingle hmembers =>
    have hseveral : links ≠ [] := hsingle
    split
    · exact ⟨⟨groups, h⟩, fun _ _ _ => rfl⟩
    · next hrefused =>
      have hrefused := Bool.eq_false_iff.mpr hrefused
      let group := proposal.group hostStr preference (uniqueKey answers.used proposal.key 1) first
        links
      have hsame : group.members = proposal.members := hmembers.symm
      have hlinks : ∀ link ∈ group.members, link ∈ inputs.zipIdx := hsame ▸ hproper.links
      refine ⟨⟨groups ++ [group], ?_⟩, fun link hlink hother => ?_⟩
      · exact h.add (hproper.wellFormed hmembers hseveral hrefused _) (hsame ▸ hproper.nodup)
          hlinks (hsame ▸ hfree) (uniqueKey_not_mem _ _ _)
      · exact MirrorGroup.scatter_not_mem hlinks hlink (hsame ▸ hother)

/-- Proposals that share no link, one after another. -/
theorem MirrorAnswers.Grouped.settleAll
    (h : answers.Grouped hostStr preference separations inputs groups)
    (hproper : ∀ proposal ∈ proposals, proposal.Proper inputs)
    (hfree : ∀ proposal ∈ proposals, proposal.Free answers)
    (hapart : (proposals.flatMap (·.members)).Nodup) :
    ∃ groups, (proposals.foldl (RDownloader.settle hostStr preference separations) answers).Grouped
      hostStr preference separations inputs groups := by
  induction proposals generalizing answers groups with
  | nil => exact ⟨groups, h⟩
  | cons proposal proposals ih =>
    rw [List.flatMap_cons, List.nodup_append] at hapart
    obtain ⟨⟨groups, hgroups⟩, hothers⟩ := h.settle (hproper proposal (List.mem_cons_self ..))
      (hfree proposal (List.mem_cons_self ..))
    have hrest : ∀ later ∈ proposals, later.Proper inputs :=
      fun later hlater => hproper later (List.mem_cons_of_mem _ hlater)
    refine ih hgroups hrest (fun later hlater link hlink => ?_) hapart.2.1
    have hother : link ∉ proposal.members := fun hmem =>
      hapart.2.2 link hmem link (List.mem_flatMap.mpr ⟨later, hlater, hlink⟩) rfl
    rw [hothers link ((hrest later hlater).links link hlink) hother]
    exact hfree later (List.mem_cons_of_mem _ hlater) link hlink

/-! ## What the sources propose -/

theorem nodup_zipIdx (inputs : List MirrorInput) : inputs.zipIdx.Nodup := by
  apply List.Nodup.of_map Prod.snd
  rw [List.zipIdx_map_snd]
  exact List.nodup_range'

/-- The links of a source are links of the package, each once. -/
theorem entries_collect_links (key? : MirrorLink → Option Text) (inputs : List MirrorInput) :
    (Buckets.entries (Buckets.collect notAfter key? inputs.zipIdx)).Nodup ∧
      ∀ link ∈ Buckets.entries (Buckets.collect notAfter key? inputs.zipIdx),
        link ∈ inputs.zipIdx ∧ (key? link).isSome := by
  have hperm := Buckets.entries_collect notAfter key? inputs.zipIdx
  refine ⟨hperm.nodup_iff.mpr ((nodup_zipIdx inputs).filter _), fun link hlink => ?_⟩
  exact List.mem_filter.mp (hperm.mem_iff.mp hlink)

/-- A bucket of a source. -/
theorem bucket_links {key? : MirrorLink → Option Text} {bucket : Text × List MirrorLink}
    (h : bucket ∈ Buckets.collect notAfter key? inputs.zipIdx) :
    bucket.2.Nodup ∧ ∀ link ∈ bucket.2, link ∈ inputs.zipIdx ∧ (key? link).isSome := by
  obtain ⟨hnodup, hlinks⟩ := entries_collect_links key? inputs
  exact ⟨(List.nodup_flatMap.mp hnodup).1 bucket h,
    fun link hlink => hlinks link (Buckets.mem_entries h hlink)⟩

theorem proper_declared (h : proposal ∈ declared inputs) : proposal.Proper inputs := by
  obtain ⟨bucket, hbucket, rfl⟩ := List.mem_map.mp h
  obtain ⟨hnodup, hlinks⟩ := bucket_links hbucket
  have hsublist := distinctAddresses_sublist [] bucket.2
  exact {
    nodup := hnodup.sublist hsublist
    links := fun link hlink => (hlinks link (hsublist.subset hlink)).1
    addresses := nodup_distinctAddresses [] bucket.2
    measured := fun hsource => by cases hsource }

theorem apart_declared (inputs : List MirrorInput) :
    ((declared inputs).flatMap (·.members)).Nodup := by
  rw [declared, List.flatMap_map]
  refine Buckets.nodup_flatMap_of_subset (entries_collect_links declaredKey inputs).1
    (fun bucket hbucket => ?_) (fun bucket _ => (distinctAddresses_sublist [] bucket.2).subset)
  exact (bucket_links hbucket).1.sublist (distinctAddresses_sublist [] bucket.2)

theorem entries_clusters (members : List MirrorLink) :
    (Buckets.entries (clusters members)).Perm members := by
  have hgeneral : ∀ buckets : List (Option Nat × List MirrorLink),
      (Buckets.entries (members.foldl (fun clusters link =>
        Buckets.join (sameFileSize · link.1.size) (·.or link.1.size) link.1.size link clusters)
          buckets)).Perm (Buckets.entries buckets ++ members) := by
    induction members with
    | nil => simp
    | cons link members ih =>
      intro buckets
      rw [List.foldl_cons]
      apply (ih _).trans
      apply ((Buckets.entries_join _ _ _ link buckets).append_right _).trans
      rw [List.append_assoc, List.singleton_append]
  exact hgeneral []

/-- The proposals for one name are clusters of its links, but for repeated addresses. -/
theorem mem_named (h : proposal ∈ named name members) :
    ∃ cluster ∈ clusters (distinctAddresses [] members), proposal.members = cluster.2 ∧
      (proposal.source = .nameAndSize → ∀ link ∈ cluster.2, link.1.size.isSome) := by
  unfold named at h
  dsimp only at h
  split at h
  · cases h
  · obtain ⟨⟨cluster, position⟩, hcluster, rfl⟩ := List.mem_map.mp h
    refine ⟨cluster, List.fst_mem_of_mem_zipIdx hcluster, rfl, fun hsource => ?_⟩
    dsimp only at hsource
    split at hsource
    · next hall => exact List.all_eq_true.mp hall
    · cases hsource

/-- Together they have no more links than those. -/
theorem sublist_named (name : Text) (members : List MirrorLink) :
    ((named name members).flatMap (·.members)).Sublist
      (Buckets.entries (clusters (distinctAddresses [] members))) := by
  unfold named
  dsimp only
  split
  · exact List.nil_sublist _
  · have hsame : ((clusters (distinctAddresses [] members)).zipIdx.flatMap fun entry => entry.1.2) =
        Buckets.entries (clusters (distinctAddresses [] members)) := by
      have hclusters := List.zipIdx_map_fst 0 (clusters (distinctAddresses [] members))
      rw [← congrArg Buckets.entries hclusters, Buckets.entries, List.flatMap_map]
    rw [List.flatMap_map, hsame]

theorem named_links (hnodup : members.Nodup) (name : Text) :
    ((named name members).flatMap (·.members)).Nodup ∧
      (named name members).flatMap (·.members) ⊆ members := by
  have hsublist := sublist_named name members
  have hperm := entries_clusters (distinctAddresses [] members)
  have hdistinct := distinctAddresses_sublist [] members
  refine ⟨(hperm.nodup_iff.mpr (hnodup.sublist hdistinct)).sublist hsublist, fun link hlink => ?_⟩
  exact hdistinct.subset (hperm.mem_iff.mp (hsublist.subset hlink))

theorem proper_named (hnodup : members.Nodup) (hlinks : ∀ link ∈ members, link ∈ inputs.zipIdx)
    (h : proposal ∈ named name members) : proposal.Proper inputs := by
  obtain ⟨hapart, hsubset⟩ := named_links hnodup name
  obtain ⟨cluster, hcluster, hmembers, hmeasured⟩ := mem_named h
  have haddresses : ((clusters (distinctAddresses [] members)).flatMap
      fun cluster => cluster.2.map (·.1.url)).Nodup := by
    have hperm := (entries_clusters (distinctAddresses [] members)).map (·.1.url)
    rw [Buckets.entries, List.map_flatMap] at hperm
    exact hperm.nodup_iff.mpr (nodup_distinctAddresses [] members)
  exact {
    nodup := (List.nodup_flatMap.mp hapart).1 proposal h
    links := fun link hlink => hlinks link (hsubset (List.mem_flatMap.mpr ⟨proposal, h, hlink⟩))
    addresses := by
      rw [hmembers]
      exact (List.nodup_flatMap.mp haddresses).1 cluster hcluster
    measured := by
      rw [hmembers]
      exact hmeasured }

/-- A link with a name to go by has no answer yet. -/
theorem free_of_nameKey {nfc : Text → Text} {out : List (Option CandidateMirror)}
    (hlength : out.length = inputs.length) (hlink : link ∈ inputs.zipIdx)
    (h : (nameKey nfc out link).isSome) : out[link.2]? = some none := by
  have hplace : link.2 < out.length := by
    rw [hlength]
    exact (List.getElem?_eq_some_iff.mp (List.mem_zipIdx_iff_getElem?.mp hlink)).choose
  unfold nameKey at h
  split at h
  · cases h
  · next hopen =>
    rw [List.getD_eq_getElem?_getD, List.getElem?_eq_getElem hplace, Option.getD_some] at hopen
    rw [List.getElem?_eq_getElem hplace, Option.not_isSome_iff_eq_none.mp hopen]

/-! ## The answer for a package -/

theorem grouped_mirrorAnswers (nfc : Text → Text) (hostStr : Text → Option Text)
    (preference : MirrorPreference) (separations : MirrorSeparations)
    (inputs : List MirrorInput) :
    ∃ groups, (mirrorAnswers nfc hostStr preference separations inputs).Grouped
      hostStr preference separations inputs groups := by
  have hplace : ∀ link ∈ inputs.zipIdx, (List.replicate inputs.length none)[link.2]? =
      some (none : Option CandidateMirror) := by
    intro link hlink
    have hget := List.mem_zipIdx_iff_getElem?.mp hlink
    exact List.getElem?_replicate_of_lt (List.getElem?_eq_some_iff.mp hget).choose
  have hnothing : ({ out := List.replicate inputs.length none } : MirrorAnswers).Grouped
      hostStr preference separations inputs [] := {
    used := rfl
    keys := List.nodup_nil
    apart := List.nodup_nil
    wellFormed := List.forall_mem_nil _
    links := List.forall_mem_nil _
    length := List.length_replicate
    answered := List.forall_mem_nil _
    unanswered := fun link hlink _ => hplace link hlink }
  obtain ⟨groups, hdeclared⟩ := hnothing.settleAll (fun _ => proper_declared)
    (fun proposal hproposal link hlink =>
      hplace link ((proper_declared hproposal).links link hlink)) (apart_declared inputs)
  unfold mirrorAnswers
  dsimp only
  generalize (declared inputs).foldl (settle hostStr preference separations)
    { out := List.replicate inputs.length none } = answers at hdeclared ⊢
  have hbuckets : ∀ bucket ∈ Buckets.collect notAfter (nameKey nfc answers.out) inputs.zipIdx,
      bucket.2.Nodup ∧ ∀ link ∈ bucket.2, link ∈ inputs.zipIdx ∧
        (nameKey nfc answers.out link).isSome := fun _ => bucket_links
  apply hdeclared.settleAll
  · intro proposal hproposal
    obtain ⟨bucket, hbucket, hnamed⟩ := List.mem_flatMap.mp hproposal
    obtain ⟨hnodup, hlinks⟩ := hbuckets bucket hbucket
    exact proper_named hnodup (fun link hlink => (hlinks link hlink).1) hnamed
  · intro proposal hproposal link hlink
    obtain ⟨bucket, hbucket, hnamed⟩ := List.mem_flatMap.mp hproposal
    obtain ⟨hnodup, hlinks⟩ := hbuckets bucket hbucket
    have hmem := (named_links hnodup bucket.1).2 (List.mem_flatMap.mpr ⟨proposal, hnamed, hlink⟩)
    exact free_of_nameKey hdeclared.length (hlinks link hmem).1 (hlinks link hmem).2
  · rw [List.flatMap_assoc]
    refine Buckets.nodup_flatMap_of_subset (entries_collect_links (nameKey nfc answers.out) inputs).1
      (fun bucket hbucket => ?_) (fun bucket hbucket => ?_)
    · exact (named_links (hbuckets bucket hbucket).1 bucket.1).1
    · exact (named_links (hbuckets bucket hbucket).1 bucket.1).2

/-- Whatever the links, the preference and the separations: the answer is that of well-formed groups
with a key and links of their own, each with one selected member. -/
theorem groupMirrors_wellFormed (nfc : Text → Text) (hostStr : Text → Option Text)
    (preference : MirrorPreference) (separations : MirrorSeparations)
    (inputs : List MirrorInput) :
    let out := groupMirrors nfc hostStr preference separations inputs
    ∃ groups : List MirrorGroup,
      (∀ group ∈ groups, group.WellFormed hostStr preference separations) ∧
      (groups.map (·.key)).Nodup ∧ (groups.flatMap (·.members)).Nodup ∧
      (∀ group ∈ groups, ∀ link ∈ group.members, inputs[link.2]? = some link.1 ∧
        ∃ mirror, out[link.2]? = some (some mirror) ∧ mirror.group = group.key ∧
          mirror.source = group.source ∧ mirror.pinned = link.1.pinned ∧
          (mirror.selected ↔ link = group.chosen)) ∧
      ∀ index mirror, out[index]? = some (some mirror) →
        ∃ group ∈ groups, ∃ link ∈ group.members, link.2 = index := by
  obtain ⟨groups, h⟩ := grouped_mirrorAnswers nfc hostStr preference separations inputs
  refine ⟨groups, h.wellFormed, h.keys, h.apart, fun group hgroup link hlink => ?_,
    fun index mirror hmirror => ?_⟩
  · have hplace := h.links group hgroup link hlink
    refine ⟨List.mem_zipIdx_iff_getElem?.mp hplace, group.mirror link,
      h.answered group hgroup link hlink, rfl, rfl, rfl, ?_⟩
    have hchosen := h.links group hgroup _ (h.wellFormed group hgroup).chosen
    rw [MirrorGroup.mirror, decide_eq_true_eq]
    exact ⟨eq_of_mem_zipIdx hplace hchosen, fun heq => congrArg Prod.snd heq⟩
  · have hindex : index < inputs.length := by
      rw [← h.length]
      exact (List.getElem?_eq_some_iff.mp hmirror).choose
    have hlink : (inputs[index], index) ∈ inputs.zipIdx :=
      List.mem_zipIdx_iff_getElem?.mpr (List.getElem?_eq_getElem hindex)
    by_contra hnone
    have hopen := h.unanswered _ hlink fun group hgroup hmem =>
      hnone ⟨group, hgroup, _, hmem, rfl⟩
    rw [groupMirrors, hopen] at hmirror
    cases hmirror

end
end RDownloader
