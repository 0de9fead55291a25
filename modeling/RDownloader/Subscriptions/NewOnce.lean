import RDownloader.Subscriptions.Poll

/-!
# An entry is new only once

Only a poll that archives makes anything known, and every other statement keeps what is known: the
compaction moves a key from one table to the other in one transaction.
-/

namespace RDownloader

namespace Subscriptions

variable {identity : Identity} {library : SubscriptionId → Subscription}
  {state next : PollState} {event : PollEvent}

namespace PollState

/-- A step that archives nothing. -/
structure ArchivesNothing (state next : PollState) : Prop where
  sound : next.tables.Sound
  knows : ∀ key, next.tables.Knows key ↔ state.tables.Knows key
  created : next.created = state.created
  accepted : next.accepted = state.accepted

theorem ArchivesNothing.of_tables (h : state.tables.Sound) (htables : next.tables = state.tables)
    (hcreated : next.created = state.created) (haccepted : next.accepted = state.accepted) :
    state.ArchivesNothing next :=
  ⟨htables ▸ h, fun _ => htables ▸ .rfl, hcreated, haccepted⟩

/-- A step archives the listing of one poll or nothing. -/
theorem step_archives (h : state.tables.Sound)
    (hstep : step identity library state event = some next) :
    state.ArchivesNothing next ∨
      ∃ id poll items now, state.polls id = some poll ∧ event = .listed id items now false ∧
        next = archive identity library state id poll items now := by
  cases step_cases identity library hstep with
  | archives items now hpoll => exact .inr ⟨_, _, items, now, hpoll, rfl, rfl⟩
  | marks =>
    obtain ⟨hsound, hknows⟩ := h.setPendingItemsState _ .queued
    exact .inl ⟨hsound, hknows, rfl, rfl⟩
  | setsItem hset =>
    obtain ⟨hsound, hknows⟩ := h.setItemState hset
    exact .inl ⟨hsound, hknows, rfl, rfl⟩
  | setsPending ids itemState =>
    obtain ⟨hsound, hknows⟩ := h.setPendingItemsState ids itemState
    exact .inl ⟨hsound, hknows, rfl, rfl⟩
  | compacts before scan =>
    obtain ⟨hsound, hknows⟩ := h.compactItems before scan
    exact .inl ⟨hsound, hknows, rfl, rfl⟩
  | _ => exact .inl (.of_tables h rfl rfl rfl)

/-- Each key was newly created once at most, and what was created is still known. -/
structure NewOnce (state : PollState) : Prop where
  once : state.created.Nodup
  known : ∀ key ∈ state.created, state.tables.Knows key

theorem step_newOnce (hsound : state.tables.Sound) (h : state.NewOnce)
    (hstep : step identity library state event = some next) :
    next.tables.Sound ∧ next.NewOnce := by
  rcases step_archives hsound hstep with hnothing | ⟨id, poll, items, now, -, -, rfl⟩
  · refine ⟨hnothing.sound, hnothing.created ▸ h.once, fun key hmem => ?_⟩
    exact (hnothing.knows key).mpr (h.known key (hnothing.created ▸ hmem))
  · have hrecords := hsound.recordItems poll.subscriptionId now
      (itemRecords identity (library poll.subscriptionId) items (treatedAsPrimed library poll) now)
    refine ⟨hrecords.sound, ?_, fun key hmem => ?_⟩
    · refine List.nodup_append.mpr ⟨h.once, hrecords.once, fun key hold key' hnew heq => ?_⟩
      obtain ⟨row, hrow, rfl⟩ := List.mem_map.mp hnew
      exact (hrecords.new row hrow).1 (heq ▸ h.known key hold)
    · rcases List.mem_append.mp hmem with hold | hnew
      · exact hrecords.kept key (h.known key hold)
      · obtain ⟨row, hrow, rfl⟩ := List.mem_map.mp hnew
        exact (hrecords.new row hrow).2

theorem sound_initial : ItemTables.Sound {} := ⟨List.nodup_nil, fun _ hmem => nomatch hmem⟩

/-- However polls, reviews and compactions come upon one another, no key is returned as newly
created twice, and one that was is at every moment in one of the two tables. -/
theorem always_newOnce (identity : Identity) (library : SubscriptionId → Subscription)
    (events : List PollEvent) :
    (machine identity library).Always NewOnce {} events := by
  suffices h : ∀ state : PollState, state.tables.Sound → state.NewOnce →
      (machine identity library).Always NewOnce state events from
    h {} sound_initial ⟨List.nodup_nil, fun _ hmem => nomatch hmem⟩
  induction events with
  | nil => exact fun _ _ h => h
  | cons event events ih =>
    intro state hsound h
    refine ⟨h, fun next hstep => ?_⟩
    obtain ⟨hnextSound, hnext⟩ := step_newOnce hsound h hstep
    exact ih next hnextSound hnext

end PollState

end Subscriptions

end RDownloader
