import RDownloader.Scheduler.Promotion

/-!
# What a promotion replaces

The policy check looks at the folder and the rename comes some writes later, with no lock in between.
A promotion is rightful exactly when the place did not change hands meanwhile.
-/

namespace RDownloader

variable {host : FileHost} {tables tables' : FileTables} {files : FileTree} {file : FileRow}
  {part : List UInt8} {computed : Option ChecksumAlgorithm} {path free : FilePath} {uuid : Text}
  {overwrite : Option Overwrite}

/-- A decision without an overwrite was made for a free place, and one with an overwrite while no
other download held it. -/
def Naming.Proper (naming : Naming) : Prop :=
  match naming.overwrite with
  | none => naming.seen = none
  | some _ => naming.holders = []

/-- The part goes to a place where nothing lies, or it overwrites a file nobody uses. -/
theorem afterTransfer_promote
    (h : afterTransfer host tables files file part computed path uuid =
      some (tables', .promote free overwrite))
    (hfallback : files { path with name := Names.fallbackName host.nfc path.name uuid } = none) :
    match overwrite with
    | none => files free = none
    | some _ => tables.fileInUse free file.id = false := by
  have hrenamed : files (renamed host files path uuid) = none := by
    have hfree := @Names.collisionFreeName_free host.nfc
      (fun name => (files { path with name }).isSome) path.name uuid (by simp [hfallback])
    simpa [renamed] using hfree
  unfold afterTransfer at h
  dsimp only at h
  split at h
  next hnone => cases h; exact hnone
  next existing _ =>
    split at h
    · cases h; exact hrenamed
    · split at h
      · obtain ⟨_, -, heq⟩ := Option.map_eq_some_iff.mp h
        cases heq
      next hunused => cases h; exact Bool.eq_false_iff.mpr hunused
    · obtain ⟨_, -, heq⟩ := Option.map_eq_some_iff.mp h
      cases heq
    · split at h
      · obtain ⟨_, -, heq⟩ := Option.map_eq_some_iff.mp h
        cases heq
      · cases h; exact hrenamed
    · obtain ⟨_, -, heq⟩ := Option.map_eq_some_iff.mp h
      cases heq

/-- What a finisher stands on: its decision is proper, and a decision to overwrite is on record by
the time of the rename. -/
def Finisher.Fine (audit : List OverwriteRecord) (finisher : Finisher) : Prop :=
  match finisher.stage with
  | .decided naming => naming.Proper
  | .renaming naming => naming.Proper ∧ ∀ overwrite, naming.overwrite = some overwrite →
      overwriteRecord finisher.file naming.path overwrite ∈ audit
  | _ => True

theorem Finisher.Fine.mono {finisher : Finisher} {audit audit' : List OverwriteRecord}
    (h : finisher.Fine audit) (hsub : ∀ record ∈ audit, record ∈ audit') :
    finisher.Fine audit' := by
  unfold Finisher.Fine at h ⊢
  split at h
  · exact h
  · exact ⟨h.1, fun overwrite heq => hsub _ (h.2 overwrite heq)⟩
  · trivial

namespace FinishState

variable {state next : FinishState} {finisher : Finisher} {naming : Naming} {id : DownloadId}
  {event : FinishEvent}

structure Sound (state : FinishState) : Prop where
  fine : ∀ id finisher, state.finishers id = some finisher → finisher.Fine state.audit
  lies : ∀ promotion ∈ state.promotions, promotion.Lies state

/-- A finisher that is set may be any that is fine. -/
theorem Sound.fine_set {finisher : Option Finisher} (h : Sound state)
    (hset : ∀ set, finisher = some set → set.Fine next.audit)
    (hfinishers : next.finishers = (state.setFinisher id finisher).finishers)
    (haudit : ∀ record ∈ state.audit, record ∈ next.audit) :
    ∀ other found, next.finishers other = some found → found.Fine next.audit := by
  intro other found hfound
  rw [hfinishers] at hfound
  unfold setFinisher at hfound
  dsimp only at hfound
  split at hfound
  · exact hset found hfound
  · exact (h.fine other found hfound).mono haudit

/-- A state with the same files and promotions, in which the finishers are fine. -/
theorem Sound.quiet (h : Sound state)
    (hfine : ∀ id finisher, next.finishers id = some finisher → finisher.Fine next.audit)
    (hfiles : next.files = state.files) (hpromotions : next.promotions = state.promotions)
    (hremoved : next.removed = state.removed) : Sound next where
  fine := hfine
  lies promotion hmem := by
    unfold Promotion.Lies
    rw [hfiles, hpromotions, hremoved]
    exact h.lies promotion (hpromotions ▸ hmem)

/-- A check ends the attempt or leaves a fine finisher, and changes nothing else but the tables. -/
theorem check_inv (hstep : check host state finisher path uuid = some next) :
    ∃ tables set, next = { state with tables }.setFinisher finisher.file.id set ∧
      ∀ found, set = some found → found.Fine state.audit := by
  unfold FinishState.check at hstep
  split at hstep
  next hfallback =>
    split at hstep
    · cases hstep
    next tables _ => exact ⟨tables, none, (Option.some.inj hstep).symm, by rintro _ ⟨⟩⟩
    next tables free overwrite hchecked =>
      refine ⟨tables, _, (Option.some.inj hstep).symm, ?_⟩
      rintro _ ⟨⟩
      have hproper := afterTransfer_promote hchecked hfallback
      cases overwrite with
      | none => exact ⟨hproper, nofun⟩
      | some overwrite =>
        have hunheld : state.tables.holders id free finisher.file.id = [] := by
          simpa [FileTables.fileInUse] using hproper
        exact hunheld
  · cases hstep

theorem rename_inv (hstep : rename host state finisher naming = some next) :
    (∀ inode, state.files naming.path ≠ some (.directory inode)) ∧
      next = { state with
        files := FileTree.set state.files naming.path (some finisher.entry)
        promotions := promotionOf host state finisher naming :: state.promotions }.setFinisher
          finisher.file.id (some { finisher with stage := .promoted naming.path }) := by
  unfold FinishState.rename at hstep
  split at hstep
  · cases hstep
  next hfile => exact ⟨hfile, (Option.some.inj hstep).symm⟩

theorem Sound.rename (h : Sound state) (hstep : rename host state finisher naming = some next) :
    Sound next := by
  obtain ⟨-, rfl⟩ := rename_inv hstep
  refine ⟨h.fine_set (by rintro _ ⟨⟩; trivial) rfl fun _ hrecord => hrecord, ?_⟩
  intro promotion hmem
  obtain rfl | hmem := List.mem_cons.mp hmem
  · exact .inl (if_pos rfl)
  · obtain hlies | hgone | ⟨later, hlater, hreplaced⟩ := h.lies promotion hmem
    · by_cases hpath : promotion.path = naming.path
      · exact .inr (.inr ⟨_, List.mem_cons_self, (congrArg state.files hpath).symm.trans hlies⟩)
      · exact .inl ((if_neg hpath).trans hlies)
    · exact .inr (.inl hgone)
    · exact .inr (.inr ⟨later, List.mem_cons_of_mem _ hlater, hreplaced⟩)

theorem Sound.step (h : Sound state) (hstep : step host state event = some next) : Sound next := by
  unfold FinishState.step at hstep
  cases event with
  | elsewhere tables =>
    cases hstep
    exact h.quiet h.fine rfl rfl rfl
  | appear path data =>
    dsimp only at hstep
    split at hstep
    next hfree =>
      cases hstep
      refine ⟨h.fine, fun promotion hmem => ?_⟩
      refine (h.lies promotion hmem).imp_left fun hlies => (if_neg ?_).trans hlies
      rintro rfl
      cases hfree.symm.trans hlies
    · cases hstep
  | disappear path =>
    dsimp only at hstep
    split at hstep
    · cases hstep
    next entry hentry =>
      cases hstep
      refine ⟨h.fine, fun promotion hmem => ?_⟩
      obtain hlies | hgone | hreplaced := h.lies promotion hmem
      · by_cases hpath : promotion.path = path
        · obtain rfl : entry = promotion.entry :=
            Option.some.inj (hentry.symm.trans (hpath ▸ hlies))
          exact .inr (.inl List.mem_cons_self)
        · exact .inl ((if_neg hpath).trans hlies)
      · exact .inr (.inl (List.mem_cons_of_mem _ hgone))
      · exact .inr (.inr hreplaced)
  | begin file root name data computed =>
    dsimp only at hstep
    split at hstep
    · cases hstep
      exact h.quiet (h.fine_set (by rintro _ ⟨⟩; trivial) rfl fun _ hrecord => hrecord) rfl rfl rfl
    · cases hstep
  | check id uuid =>
    dsimp only at hstep
    split at hstep
    · split at hstep
      · obtain ⟨tables, set, rfl, hset⟩ := check_inv hstep
        exact h.quiet (h.fine_set hset rfl fun _ hrecord => hrecord) rfl rfl rfl
      · cases hstep
    · cases hstep
  | audit id =>
    dsimp only at hstep
    split at hstep
    next finisher hfinisher =>
      split at hstep
      next naming hstage =>
        cases hstep
        have hproper : naming.Proper := by
          simpa [Finisher.Fine, hstage] using h.fine id finisher hfinisher
        refine h.quiet (h.fine_set ?_ rfl fun _ => List.mem_append_right _) rfl rfl rfl
        rintro _ ⟨⟩
        refine ⟨hproper, fun overwrite heq => List.mem_append_left _ ?_⟩
        rw [heq]
        exact List.mem_singleton_self _
      · cases hstep
    · cases hstep
  | rename id =>
    dsimp only at hstep
    split at hstep
    · split at hstep
      · exact h.rename hstep
      · cases hstep
    · cases hstep
  | complete id =>
    dsimp only at hstep
    split at hstep
    · split at hstep
      · obtain ⟨tables, -, rfl⟩ := Option.map_eq_some_iff.mp hstep
        exact h.quiet (h.fine_set (by rintro _ ⟨⟩) rfl fun _ hrecord => hrecord) rfl rfl rfl
      · cases hstep
    · cases hstep
  | fail id =>
    cases hstep
    exact h.quiet (h.fine_set (by rintro _ ⟨⟩) rfl fun _ hrecord => hrecord) rfl rfl rfl
  | restart =>
    cases hstep
    exact h.quiet (by rintro _ _ ⟨⟩) rfl rfl rfl

/-- Only a rename adds to the promotions. -/
theorem promotions_step (hstep : step host state event = some next) :
    (next.promotions = state.promotions ∧ ∀ id, event ≠ .rename id) ∨ ∃ id finisher naming,
      event = .rename id ∧ state.finishers id = some finisher ∧
        finisher.stage = .renaming naming ∧ rename host state finisher naming = some next := by
  unfold FinishState.step at hstep
  cases event with
  | rename id =>
    dsimp only at hstep
    split at hstep
    next finisher hfinisher =>
      split at hstep
      next naming hstage => exact .inr ⟨id, finisher, naming, rfl, hfinisher, hstage, hstep⟩
      · cases hstep
    · cases hstep
  | elsewhere _ | fail _ | restart => cases hstep; exact .inl ⟨rfl, nofun⟩
  | appear path data | disappear path | begin file root name data computed =>
    dsimp only at hstep
    split at hstep
    all_goals cases hstep
    exact .inl ⟨rfl, nofun⟩
  | check id uuid =>
    dsimp only at hstep
    split at hstep
    · split at hstep
      · obtain ⟨tables, set, rfl, -⟩ := check_inv hstep
        exact .inl ⟨rfl, nofun⟩
      · cases hstep
    · cases hstep
  | audit id =>
    dsimp only at hstep
    split at hstep
    · split at hstep
      · cases hstep
        exact .inl ⟨rfl, nofun⟩
      · cases hstep
    · cases hstep
  | complete id =>
    dsimp only at hstep
    split at hstep
    · split at hstep
      · obtain ⟨tables, -, rfl⟩ := Option.map_eq_some_iff.mp hstep
        exact .inl ⟨rfl, nofun⟩
      · cases hstep
    · cases hstep

/-- A rename that meets the condition is rightful, and no other is. -/
theorem rightful_iff (h : Sound state) (hfinisher : state.finishers id = some finisher)
    (hstage : finisher.stage = .renaming naming) :
    (promotionOf host state finisher naming).Rightful ↔ Unchanged host state (.rename id) := by
  obtain ⟨hproper, hrecorded⟩ : naming.Proper ∧ ∀ overwrite, naming.overwrite = some overwrite →
      overwriteRecord finisher.file naming.path overwrite ∈ state.audit := by
    simpa [Finisher.Fine, hstage] using h.fine id finisher hfinisher
  constructor
  · intro hrightful found other hfound hother entry hentry
    obtain rfl := Option.some.inj (hfinisher.symm.trans hfound)
    obtain rfl := FinishStage.renaming.inj (hstage.symm.trans hother)
    obtain ⟨hdecided, -, hheld⟩ := hrightful entry hentry
    obtain ⟨_, -, hseen⟩ := Option.bind_eq_some_iff.mp hdecided
    refine ⟨hseen, fun holder hholder => ?_⟩
    rw [show state.tables.holders host.canonical naming.path finisher.file.id = [] from hheld]
      at hholder
    cases hholder
  · intro hunchanged entry hentry
    obtain ⟨hseen, hholders⟩ := hunchanged finisher naming hfinisher hstage entry hentry
    unfold Naming.Proper at hproper
    split at hproper
    · cases hseen.symm.trans hproper
    next overwrite hoverwrite =>
      refine ⟨?_, ?_, ?_⟩
      · simp [promotionOf, hoverwrite, hseen]
      · simpa [promotionOf, hoverwrite] using hrecorded overwrite hoverwrite
      · refine List.eq_nil_iff_forall_not_mem.mpr fun holder hholder => ?_
        have hsaw := hholders holder hholder
        rw [hproper] at hsaw
        cases hsaw

theorem kept_step_iff (h : Sound state) (hkept : NothingDestroyed state)
    (hstep : step host state event = some next) :
    NothingDestroyed next ↔ Unchanged host state event := by
  have hlies := (h.step hstep).lies
  obtain ⟨hpromotions, hother⟩ | ⟨id, finisher, naming, rfl, hfinisher, hstage, hrename⟩ :=
    promotions_step hstep
  · refine iff_of_true (fun promotion hmem => ?_) ?_
    · exact ⟨(hkept promotion (hpromotions ▸ hmem)).1, hlies promotion hmem⟩
    · cases event with
      | rename id => exact absurd rfl (hother id)
      | _ => trivial
  · obtain ⟨-, rfl⟩ := rename_inv hrename
    rw [← rightful_iff h hfinisher hstage]
    constructor
    · exact fun hnext => (hnext _ List.mem_cons_self).1
    · intro hrightful promotion hmem
      refine ⟨?_, hlies promotion hmem⟩
      obtain rfl | hmem := List.mem_cons.mp hmem
      · exact hrightful
      · exact (hkept promotion hmem).1

theorem Initial.sound (h : Initial state) : Sound state where
  fine id _ hfinisher := nomatch (h.1 id).symm.trans hfinisher
  lies _ hmem := nomatch h.2.1 ▸ hmem

/-- No finished file is destroyed along a run exactly when no place changes hands between a check and
the rename that follows it. -/
theorem always_nothingDestroyed_iff (host : FileHost) {state : FinishState}
    (h : (machine host).initial state) (events : List FinishEvent) :
    (machine host).Always NothingDestroyed state events ↔
      (machine host).Within (Unchanged host) state events := by
  have hsound : ∀ state event next, Sound state → (machine host).step state event = some next →
      Sound next := fun _ _ _ hsound => hsound.step
  have hexact : ∀ state event next, Sound state → NothingDestroyed state →
      (machine host).step state event = some next →
        (NothingDestroyed next ↔ Unchanged host state event) := fun _ _ _ => kept_step_iff
  exact Machine.always_iff hsound hexact (Initial.sound h)
    (fun _ hmem => nomatch h.2.1 ▸ hmem) events

/-! ## Two downloads of one name -/

/-- Nothing is special about the names, the folders and the digests. -/
def plainHost : FileHost where
  nfc text := text
  canonical folder := folder
  digest _ _ := []

/-- Two downloads of one name in one folder, both transferred. -/
def twins : FinishState where
  tables :=
    { downloads :=
        [⟨1, 1, "film".toList, .downloading⟩, ⟨2, 1, "film".toList, .downloading⟩]
      packages := [⟨1, ["folder".toList], none, none⟩]
      prompts := fun _ => none
      global := .rename
      running := [1, 2] }
  files := fun _ => none
  audit := []
  finishers := fun _ => none
  nextInode := 0
  promotions := []
  removed := []

/-- Both find the place free, and then both take it. -/
def sideBySide : List FinishEvent :=
  let begins (id : DownloadId) (data : UInt8) : FinishEvent :=
    .begin ⟨id, 1, "film".toList, .downloading⟩ ["folder".toList] "film".toList [data] none
  [begins 1 10, begins 2 20, .check 1 [], .check 2 [], .rename 1, .complete 1, .rename 2,
    .complete 2]

theorem twins_initial : (machine plainHost).initial twins := ⟨fun _ => rfl, rfl, rfl⟩

/-- The rename of the second destroys the file of the first. -/
theorem sideBySide_promotions :
    ((machine plainHost).run twins sideBySide).map (·.promotions) = some
      [{ download := 2, path := ⟨["folder".toList], "film".toList⟩, entry := .file 1 [20]
         replaced := some (.file 0 [10]), decided := none, recorded := false, heldBy := [1] },
       { download := 1, path := ⟨["folder".toList], "film".toList⟩, entry := .file 0 [10]
         replaced := none, decided := none, recorded := false, heldBy := [2] }] := by
  decide +kernel

theorem sideBySide_destroys :
    ¬ (machine plainHost).Always NothingDestroyed twins sideBySide := by
  intro halways
  obtain ⟨last, hrun, hpromotions⟩ := Option.map_eq_some_iff.mp sideBySide_promotions
  have hlast := halways.of_run hrun
  have hrightful := (hlast _ (hpromotions ▸ List.mem_cons_self)).1
  cases (hrightful _ rfl).1

/-- One after the other, the second lies beside the first. -/
def inTurn : List FinishEvent :=
  let begins (id : DownloadId) (data : UInt8) : FinishEvent :=
    .begin ⟨id, 1, "film".toList, .downloading⟩ ["folder".toList] "film".toList [data] none
  [begins 1 10, begins 2 20, .check 1 [], .rename 1, .check 2 [], .rename 2]

example : ((machine plainHost).run twins inTurn).map (·.promotions.map (·.path.name)) =
    some ["film (1)".toList, "film".toList] := by
  decide +kernel

theorem always_nothingDestroyed_inTurn :
    (machine plainHost).Always NothingDestroyed twins inTurn ↔
      (machine plainHost).Within (Unchanged plainHost) twins inTurn :=
  always_nothingDestroyed_iff plainHost twins_initial inTurn

end FinishState

end RDownloader
