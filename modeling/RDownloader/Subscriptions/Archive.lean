import RDownloader.Core.Dates
import Mathlib.Data.List.Nodup

/-!
# The archive of the subscriptions (`rd-db/src/subscription_store_items.rs`,
`subscription_store_compact.rs`)

An entry is known by its key, which stands in the table of the items or, once the item has been
compacted, in the table of the keys.
-/

namespace RDownloader

namespace Subscriptions

abbrev SubscriptionId := Nat
abbrev SubscriptionItemId := Nat

inductive SubscriptionItemState
  | pending
  | queued
  | skipped
  | dismissed
  deriving DecidableEq, Repr

inductive FilterReason
  | titleNotIncluded
  | titleExcluded
  | tooShort
  | tooLong
  | tooOld
  | languageNotWanted
  | resolutionTooLow
  | backlog
  | assetNotWanted
  deriving DecidableEq, Repr

/-- An item about to be archived. -/
structure NewSubscriptionItem where
  itemKey : String
  title : String
  url : String
  publishedAt : Option Instant
  durationSeconds : Option Nat
  state : SubscriptionItemState
  reason : Option FilterReason
  sourceCategory : Option String
  mediaType : Option String
  /-- A map, so an empty one is as good as none. -/
  attributes : List (String × String)
  password : Option String
  deriving DecidableEq, Repr

/-- A row; its password is in the vault. -/
structure SubscriptionItem extends NewSubscriptionItem where
  id : SubscriptionItemId
  subscriptionId : SubscriptionId
  discoveredAt : Instant
  deriving DecidableEq, Repr

/-- What the unique index and the table of the keys are about. -/
def SubscriptionItem.key (row : SubscriptionItem) : SubscriptionId × String :=
  (row.subscriptionId, row.itemKey)

/-- `DO UPDATE SET` of a row that is listed again. -/
def SubscriptionItem.refreshed (row excluded : SubscriptionItem) : SubscriptionItem :=
  { row with
    url := excluded.url
    mediaType := excluded.mediaType.or row.mediaType
    attributes := if excluded.attributes.isEmpty then row.attributes else excluded.attributes }

/-- The two tables. -/
structure ItemTables where
  items : List SubscriptionItem := []
  /-- The table `subscription_item_keys`. -/
  keys : List (SubscriptionId × String) := []
  /-- No id from here on has been given. -/
  nextId : SubscriptionItemId := 0
  deriving DecidableEq, Repr

/-- What `record_items` answers: the rows it made, and the passwords for the vault. -/
structure Recorded where
  created : List SubscriptionItem := []
  passwords : List (SubscriptionItemId × String) := []
  deriving DecidableEq, Repr

/-- Items one compaction batch moves at most. -/
def compactionBatch : Nat := 2000

namespace ItemTables

/-- The values of an `INSERT`. -/
def row (tables : ItemTables) (subscription : SubscriptionId) (item : NewSubscriptionItem)
    (now : Instant) : SubscriptionItem :=
  { item with id := tables.nextId, subscriptionId := subscription, discoveredAt := now }

/-- `INSERT … ON CONFLICT DO UPDATE … WHERE state = 'pending' RETURNING id`. -/
def upsert (tables : ItemTables) (row : SubscriptionItem) :
    ItemTables × Option SubscriptionItemId :=
  match tables.items.find? (·.key = row.key) with
  | none => ({ tables with items := tables.items ++ [{ row with password := none }] }, some row.id)
  | some stored =>
    if stored.state = .pending then
      ({ tables with
          items := tables.items.map fun other =>
            if other.key = row.key then other.refreshed row else other },
        some stored.id)
    else (tables, none)

/-- One pass of the loop of `record_items`. -/
def recordItem (tables : ItemTables) (subscription : SubscriptionId) (item : NewSubscriptionItem)
    (now : Instant) : ItemTables × Recorded :=
  if (subscription, item.itemKey) ∈ tables.keys then (tables, {})
  else
    let row := tables.row subscription item now
    let (tables, returned) := { tables with nextId := tables.nextId + 1 }.upsert row
    (tables,
      { created := if returned = some row.id then [row] else []
        passwords := (returned.bind fun id => item.password.map (id, ·)).toList })

/-- Archives the items of one poll. -/
def recordItems (tables : ItemTables) (subscription : SubscriptionId) (now : Instant) :
    List NewSubscriptionItem → ItemTables × Recorded
  | [] => (tables, {})
  | item :: items =>
    let (tables, first) := tables.recordItem subscription item now
    let (tables, rest) := tables.recordItems subscription now items
    (tables,
      { created := first.created ++ rest.created
        passwords := first.passwords ++ rest.passwords })

def updateRows (tables : ItemTables) (f : SubscriptionItem → SubscriptionItem) : ItemTables :=
  { tables with items := tables.items.map f }

/-- Sets one item, whatever it was; an item that is not there is an error. -/
def setItemState (tables : ItemTables) (id : SubscriptionItemId) (state : SubscriptionItemState) :
    Option ItemTables :=
  if tables.items.any (·.id = id) then
    some (tables.updateRows fun row => if row.id = id then { row with state } else row)
  else none

/-- Sets those of the items that are still pending. -/
def setPendingItemsState (tables : ItemTables) (ids : List SubscriptionItemId)
    (state : SubscriptionItemState) : ItemTables :=
  ids.foldl (fun tables id =>
    tables.updateRows fun row =>
      if row.id = id ∧ row.state = .pending then { row with state } else row) tables

/-- Whether a compaction may move an item. -/
def isCompactable (before : Instant) (row : SubscriptionItem) : Bool :=
  (row.state = .skipped ∨ row.state = .dismissed) ∧ row.discoveredAt < before

/-- Moves one batch of settled items to their keys. The rows of the batch come without an order, so
`scan` is the one in which they were found. -/
def compactItems (tables : ItemTables) (before : Instant) (scan : List SubscriptionItemId) :
    ItemTables :=
  let batch := (scan.filter fun id => tables.items.any fun row =>
    row.id = id ∧ isCompactable before row).take compactionBatch
  { tables with
    -- `INSERT OR IGNORE`
    keys := tables.keys ++ ((tables.items.filter (·.id ∈ batch)).map (·.key)).filter
      (· ∉ tables.keys)
    items := tables.items.filter (·.id ∉ batch) }

/-- A key that is archived, in either table. -/
def Knows (tables : ItemTables) (key : SubscriptionId × String) : Prop :=
  key ∈ tables.items.map (·.key) ∨ key ∈ tables.keys

instance (tables : ItemTables) (key : SubscriptionId × String) : Decidable (tables.Knows key) :=
  inferInstanceAs (Decidable (_ ∨ _))

/-- What the schema and the ids that are given guarantee. -/
structure Sound (tables : ItemTables) : Prop where
  uniqueKey : (tables.items.map (·.key)).Nodup
  given : ∀ row ∈ tables.items, row.id < tables.nextId

end ItemTables

@[simp] theorem SubscriptionItem.key_refreshed (row excluded : SubscriptionItem) :
    (row.refreshed excluded).key = row.key := rfl

@[simp] theorem SubscriptionItem.id_refreshed (row excluded : SubscriptionItem) :
    (row.refreshed excluded).id = row.id := rfl

namespace ItemTables

variable {tables : ItemTables}

theorem keys_updateRows {f : SubscriptionItem → SubscriptionItem}
    (hkey : ∀ row, (f row).key = row.key) :
    (tables.updateRows f).items.map (·.key) = tables.items.map (·.key) :=
  (List.map_map ..).trans (List.map_congr_left fun row _ => hkey row)

/-- A statement that changes rows in place keeps what is known. -/
theorem knows_updateRows {f : SubscriptionItem → SubscriptionItem}
    (hkey : ∀ row, (f row).key = row.key) {key : SubscriptionId × String} :
    (tables.updateRows f).Knows key ↔ tables.Knows key := by
  unfold Knows
  rw [keys_updateRows hkey]
  rfl

theorem Sound.updateRows (h : tables.Sound) {f : SubscriptionItem → SubscriptionItem}
    (hkey : ∀ row, (f row).key = row.key) (hid : ∀ row, (f row).id = row.id) :
    (tables.updateRows f).Sound := by
  refine ⟨(keys_updateRows hkey).symm ▸ h.uniqueKey, fun row hmem => ?_⟩
  obtain ⟨before, hbefore, rfl⟩ := List.mem_map.mp hmem
  exact hid before ▸ h.given before hbefore

theorem Sound.setItemState (h : tables.Sound) {id : SubscriptionItemId}
    {state : SubscriptionItemState} (hset : tables.setItemState id state = some next) :
    next.Sound ∧ ∀ key, next.Knows key ↔ tables.Knows key := by
  unfold ItemTables.setItemState at hset
  split at hset
  case isFalse => cases hset
  obtain rfl := Option.some.inj hset
  have hkey (row : SubscriptionItem) :
      (if row.id = id then { row with state } else row).key = row.key := by split <;> rfl
  refine ⟨h.updateRows hkey fun row => ?_, fun key => knows_updateRows hkey⟩
  split <;> rfl

theorem Sound.setPendingItemsState (h : tables.Sound) (ids : List SubscriptionItemId)
    (state : SubscriptionItemState) :
    (tables.setPendingItemsState ids state).Sound ∧
      ∀ key, (tables.setPendingItemsState ids state).Knows key ↔ tables.Knows key := by
  induction ids generalizing tables with
  | nil => exact ⟨h, fun _ => .rfl⟩
  | cons id ids ih =>
    have hkey (row : SubscriptionItem) :
        (if row.id = id ∧ row.state = .pending then { row with state } else row).key = row.key := by
      split <;> rfl
    have hid (row : SubscriptionItem) :
        (if row.id = id ∧ row.state = .pending then { row with state } else row).id = row.id := by
      split <;> rfl
    obtain ⟨hsound, hknows⟩ := ih (h.updateRows hkey hid)
    exact ⟨hsound, fun key => (hknows key).trans (knows_updateRows hkey)⟩

/-- A compacted item is known by its key. -/
theorem Sound.compactItems (h : tables.Sound) (before : Instant) (scan : List SubscriptionItemId) :
    (tables.compactItems before scan).Sound ∧
      ∀ key, (tables.compactItems before scan).Knows key ↔ tables.Knows key := by
  refine ⟨⟨(List.filter_sublist.map _).nodup h.uniqueKey,
    fun row hmem => h.given row (List.mem_of_mem_filter hmem)⟩, fun key => ?_⟩
  simp only [ItemTables.compactItems, Knows, List.mem_append, List.mem_map, List.mem_filter,
    decide_eq_true_eq]
  constructor
  · rintro (⟨row, ⟨hmem, -⟩, rfl⟩ | hkept | ⟨⟨row, ⟨hmem, -⟩, rfl⟩, -⟩)
    · exact .inl ⟨row, hmem, rfl⟩
    · exact .inr hkept
    · exact .inl ⟨row, hmem, rfl⟩
  · rintro (⟨row, hmem, rfl⟩ | hkept)
    · by_cases hbatch : row.id ∈ (scan.filter fun id => tables.items.any fun row =>
          row.id = id ∧ isCompactable before row).take compactionBatch
      · by_cases hthere : row.key ∈ tables.keys
        · exact .inr (.inl hthere)
        · exact .inr (.inr ⟨⟨row, ⟨hmem, hbatch⟩, rfl⟩, hthere⟩)
      · exact .inl ⟨row, ⟨hmem, hbatch⟩, rfl⟩
    · exact .inr (.inl hkept)

/-- What one pass of `record_items` does: an entry that is known makes no row, and one that is not
is archived. -/
inductive RecordsItem (tables : ItemTables) (subscription : SubscriptionId)
    (item : NewSubscriptionItem) (next : ItemTables) : List SubscriptionItem → Prop
  | passed (hknown : tables.Knows (subscription, item.itemKey))
      (hknows : ∀ key, next.Knows key ↔ tables.Knows key) :
      RecordsItem tables subscription item next []
  | made (now : Instant) (hnew : ¬tables.Knows (subscription, item.itemKey))
      (hknows : ∀ key, next.Knows key ↔ tables.Knows key ∨ key = (subscription, item.itemKey)) :
      RecordsItem tables subscription item next [tables.row subscription item now]

theorem Sound.recordItem (h : tables.Sound) (subscription : SubscriptionId)
    (item : NewSubscriptionItem) (now : Instant) :
    (tables.recordItem subscription item now).1.Sound ∧
      RecordsItem tables subscription item (tables.recordItem subscription item now).1
        (tables.recordItem subscription item now).2.created := by
  have hsound (f : SubscriptionItem → SubscriptionItem) (hkey : ∀ row, (f row).key = row.key)
      (hid : ∀ row, (f row).id = row.id) :
      Sound { tables with nextId := tables.nextId + 1, items := tables.items.map f } := by
    have hrows := h.updateRows hkey hid
    exact ⟨hrows.uniqueKey, fun row hmem => Nat.lt_succ_of_lt (hrows.given row hmem)⟩
  unfold ItemTables.recordItem
  split
  case isTrue hkey => exact ⟨h, .passed (.inr hkey) fun _ => .rfl⟩
  case isFalse hkey =>
    dsimp only [upsert]
    split
    next hnone =>
      have hnew : (subscription, item.itemKey) ∉ tables.items.map (·.key) := by
        intro hmem
        obtain ⟨row, hrow, heq⟩ := List.mem_map.mp hmem
        have hne := List.find?_eq_none.mp hnone row hrow
        exact hne (decide_eq_true heq)
      refine ⟨⟨?_, fun row hmem => ?_⟩, ?_⟩
      · rw [List.map_append, List.nodup_append]
        refine ⟨h.uniqueKey, List.nodup_singleton _, fun key hold key' hmade heq => ?_⟩
        have hkey : key = (subscription, item.itemKey) := heq.trans (List.mem_singleton.mp hmade)
        exact hnew (hkey ▸ hold)
      · rcases List.mem_append.mp hmem with hmem | hmem
        · exact Nat.lt_succ_of_lt (h.given row hmem)
        · rw [List.mem_singleton.mp hmem]
          exact Nat.lt_succ_self _
      · rw [if_pos rfl]
        refine .made now (fun hknown => hknown.elim hnew hkey) fun key => ?_
        simp only [Knows, List.map_append, List.mem_append, List.map_cons, List.map_nil,
          List.mem_singleton]
        exact ⟨fun h => h.elim (·.elim (.inl ∘ .inl) .inr) (.inl ∘ .inr),
          fun h => h.elim (·.elim (.inl ∘ .inl) .inr) (.inl ∘ .inr)⟩
    next stored hstored =>
      have hmem := List.mem_of_find?_eq_some hstored
      have hsame := List.find?_some hstored
      have heq : stored.key = (subscription, item.itemKey) := of_decide_eq_true hsame
      have hknown : tables.Knows (subscription, item.itemKey) :=
        .inl (List.mem_map.mpr ⟨stored, hmem, heq⟩)
      -- The id that comes back is the stored row's own.
      have hother : ¬some stored.id = some (tables.row subscription item now).id :=
        fun hid => Nat.ne_of_lt (h.given stored hmem) (Option.some.inj hid)
      split
      case isTrue =>
        have hkeys (row : SubscriptionItem) :
            (if row.key = (tables.row subscription item now).key then
              row.refreshed (tables.row subscription item now) else row).key = row.key := by
          split <;> rfl
        refine ⟨hsound _ hkeys fun row => by split <;> rfl, ?_⟩
        exact .passed hknown fun key => knows_updateRows hkeys
      case isFalse =>
        refine ⟨⟨h.uniqueKey, fun row hmem => Nat.lt_succ_of_lt (h.given row hmem)⟩, ?_⟩
        rw [if_neg (Option.some_ne_none _).symm]
        exact .passed hknown fun _ => .rfl

/-- What `record_items` does with the items of a poll. -/
structure Records (tables : ItemTables) (subscription : SubscriptionId)
    (items : List NewSubscriptionItem) (next : ItemTables) (created : List SubscriptionItem) :
    Prop where
  sound : next.Sound
  kept : ∀ key, tables.Knows key → next.Knows key
  origin : ∀ key, next.Knows key → tables.Knows key ∨ key ∈ created.map (·.key)
  archived : ∀ item ∈ items, next.Knows (subscription, item.itemKey)
  new : ∀ row ∈ created, ¬tables.Knows row.key ∧ next.Knows row.key
  listed : ∀ row ∈ created, ∃ item ∈ items, row.key = (subscription, item.itemKey) ∧
    row.state = item.state
  once : (created.map (·.key)).Nodup

theorem Sound.recordItems (h : tables.Sound) (subscription : SubscriptionId) (now : Instant)
    (items : List NewSubscriptionItem) :
    Records tables subscription items (tables.recordItems subscription now items).1
      (tables.recordItems subscription now items).2.created := by
  induction items generalizing tables with
  | nil =>
    exact
      { sound := h
        kept := fun _ => id
        origin := fun _ => .inl
        archived := fun _ hmem => nomatch hmem
        new := fun _ hmem => nomatch hmem
        listed := fun _ hmem => nomatch hmem
        once := List.nodup_nil }
  | cons item items ih =>
    dsimp only [ItemTables.recordItems]
    obtain ⟨hfirst, hrecords⟩ := h.recordItem subscription item now
    have hrest := ih hfirst
    revert hfirst hrecords hrest
    generalize tables.recordItem subscription item now = first
    obtain ⟨middle, first⟩ := first
    intro hfirst hrecords hrest
    have hlisted (row : SubscriptionItem) :
        row ∈ (middle.recordItems subscription now items).2.created →
        ∃ other ∈ item :: items, row.key = (subscription, other.itemKey) ∧
          row.state = other.state := by
      intro hmem
      obtain ⟨other, hother, heq⟩ := hrest.listed row hmem
      exact ⟨other, List.mem_cons_of_mem _ hother, heq⟩
    dsimp only at hrecords
    generalize first.created = created at hrecords
    cases hrecords with
    | passed hknown hknows =>
      exact
        { sound := hrest.sound
          kept := fun key hold => hrest.kept key ((hknows key).mpr hold)
          origin := fun key hkey => (hrest.origin key hkey).imp_left (hknows key).mp
          archived := List.forall_mem_cons.mpr
            ⟨hrest.kept _ ((hknows _).mpr hknown), hrest.archived⟩
          new := fun row hmem =>
            ⟨fun hold => (hrest.new row hmem).1 ((hknows _).mpr hold), (hrest.new row hmem).2⟩
          listed := hlisted
          once := hrest.once }
    | made hnow hnew hknows =>
      have hmade := hrest.kept _ ((hknows _).mpr (.inr rfl))
      exact
        { sound := hrest.sound
          kept := fun key hold => hrest.kept key ((hknows key).mpr (.inl hold))
          origin := fun key hkey => by
            rcases hrest.origin key hkey with hmiddle | hrow
            · rcases (hknows key).mp hmiddle with hold | rfl
              · exact .inl hold
              · exact .inr (List.mem_cons_self ..)
            · exact .inr (List.mem_cons_of_mem _ hrow)
          archived := List.forall_mem_cons.mpr ⟨hmade, hrest.archived⟩
          new := List.forall_mem_cons.mpr ⟨⟨hnew, hmade⟩, fun row hmem =>
            ⟨fun hold => (hrest.new row hmem).1 ((hknows _).mpr (.inl hold)),
              (hrest.new row hmem).2⟩⟩
          listed := List.forall_mem_cons.mpr
            ⟨⟨item, List.mem_cons_self .., rfl, rfl⟩, hlisted⟩
          once := by
            refine List.nodup_cons.mpr ⟨fun hmem => ?_, hrest.once⟩
            obtain ⟨row, hrow, heq⟩ := List.mem_map.mp hmem
            exact (hrest.new row hrow).1 (heq ▸ (hknows _).mpr (.inr rfl)) }

end ItemTables

end Subscriptions

end RDownloader
