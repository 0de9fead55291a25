import RDownloader.Db.DownloadRows

/-!
# Package by package (`rd-scheduler/src/dispatch_order.rs`)

A pass looks at every row in list order. A waiting file holds the packages behind its own until it
starts; whether it did is known once the pass moves on.
-/

namespace RDownloader

/-- The rows of a pass in list order: each file once, the files of a package together. -/
structure PassRows where
  files : List DownloadRow
  keyed : (files.map (·.id)).Nodup
  grouped : ∀ before first between last after,
    files = before ++ first :: between ++ last :: after → first.packageId = last.packageId →
      ∀ file ∈ between, file.packageId = first.packageId

/-- The rows as the query sorts them, by a place that each package has to itself. -/
def PassRows.sorted (files : List DownloadRow) (keyed : (files.map (·.id)).Nodup)
    (place : PackageId → Nat) (alone : place.Injective)
    (order : files.Pairwise fun a b => place a.packageId ≤ place b.packageId) : PassRows where
  files := files
  keyed := keyed
  grouped before first between last after hsplit hsame file hfile := by
    subst hsplit
    obtain ⟨hfront, -, hbehind⟩ := List.pairwise_append.mp order
    have hfirst := (List.pairwise_cons.mp (List.pairwise_append.mp hfront).2.1).1 file hfile
    have hlast := hbehind file (by simp [hfile]) last List.mem_cons_self
    rw [← hsame] at hlast
    exact alone (Nat.le_antisymm hlast hfirst)

structure PackageOrder where
  /-- The waiting files that hold the packages behind theirs until they start. -/
  holders : List DownloadId
  /-- The holder the pass looked at last. -/
  last : Option (DownloadId × PackageId)
  /-- The first package with a holder that did not start. -/
  waiting : Option PackageId

/-- A waiting file that is not excused. -/
def DownloadRow.holdsBack (holdsNothing : DownloadRow → Bool) (file : DownloadRow) : Bool :=
  (file.state = .queued || file.state = .retryWait) && !holdsNothing file

namespace PackageOrder

variable {holdsNothing starts : DownloadRow → Bool} {order : PackageOrder} {rows : PassRows}
  {file : DownloadRow} {before after files : List DownloadRow}

def new (files : List DownloadRow) (holdsNothing : DownloadRow → Bool) : PackageOrder where
  holders := (files.filter (·.holdsBack holdsNothing)).map (·.id)
  last := none
  waiting := none

/-- The pass reached `file`. A holder looked at before that is still there did not start. -/
def lookAt (order : PackageOrder) (file : DownloadRow) : PackageOrder where
  holders := order.holders
  last := if order.holders.contains file.id then some (file.id, file.packageId) else none
  waiting := order.waiting.or (order.last.map (·.2))

/-- Whether the row looked at last may take a counted place. -/
def admits (order : PackageOrder) (file : DownloadRow) : Bool :=
  order.waiting.all (· = file.packageId)

def started (order : PackageOrder) (id : DownloadId) : PackageOrder :=
  if order.last.any (·.1 = id) then { order with last := none } else order

/-- One row of the pass, which starts or is turned away. -/
def turn (starts : DownloadRow → Bool) (order : PackageOrder) (file : DownloadRow) : PackageOrder :=
  let order := order.lookAt file
  if starts file then order.started file.id else order

/-- The pass up to a row, which it has just looked at. -/
def reached (rows : PassRows) (holdsNothing starts : DownloadRow → Bool)
    (before : List DownloadRow) (file : DownloadRow) : PackageOrder :=
  (before.foldl (turn starts) (new rows.files holdsNothing)).lookAt file

/-- `file` wants to start and has not. -/
def waits (holdsNothing starts : DownloadRow → Bool) (file : DownloadRow) : Bool :=
  file.holdsBack holdsNothing && !starts file

/-! ## What the order remembers -/

theorem contains_holders (hfile : file ∈ rows.files) :
    (new rows.files holdsNothing).holders.contains file.id = file.holdsBack holdsNothing := by
  rw [Bool.eq_iff_iff, List.contains_iff_mem, new, List.mem_map]
  constructor
  · rintro ⟨other, hother, hid⟩
    obtain ⟨hmem, hholds⟩ := List.mem_filter.mp hother
    obtain rfl := List.inj_on_of_nodup_map rows.keyed hmem hfile hid
    exact hholds
  · intro hholds
    exact ⟨file, List.mem_filter.mpr ⟨hfile, hholds⟩, rfl⟩

/-- What a row adds to the package that the order stands at. -/
theorem turn_waiting (hholds : order.holders.contains file.id = file.holdsBack holdsNothing) :
    (order.turn starts file).waiting.or ((order.turn starts file).last.map (·.2)) =
      (order.waiting.or (order.last.map (·.2))).or
        (if waits holdsNothing starts file then some file.packageId else none) := by
  rw [turn, lookAt, hholds]
  unfold waits
  cases file.holdsBack holdsNothing <;> cases starts file <;> simp [started]

@[simp] theorem turn_holders : (order.turn starts file).holders = order.holders := by
  rw [turn, started]
  split
  · split <;> rfl
  · rfl

/-- After a part of the pass, the first file that still waits is the one that counts. -/
structure Remembers (order : PackageOrder) (rows : PassRows)
    (holdsNothing starts : DownloadRow → Bool) (before : List DownloadRow) : Prop where
  holders : order.holders = (new rows.files holdsNothing).holders
  waiting : order.waiting.or (order.last.map (·.2)) =
    (before.find? (waits holdsNothing starts)).map (·.packageId)

theorem Remembers.turn (h : Remembers order rows holdsNothing starts before)
    (hfile : file ∈ rows.files) :
    Remembers (order.turn starts file) rows holdsNothing starts (before ++ [file]) := by
  have hholds : order.holders.contains file.id = file.holdsBack holdsNothing := by
    rw [h.holders, contains_holders hfile]
  refine ⟨turn_holders.trans h.holders, ?_⟩
  rw [turn_waiting hholds, h.waiting, List.find?_append, Option.map_or]
  cases hwaits : waits holdsNothing starts file <;> simp [hwaits]

theorem Remembers.turns (h : Remembers order rows holdsNothing starts before)
    (hfiles : ∀ file ∈ files, file ∈ rows.files) :
    Remembers (files.foldl (PackageOrder.turn starts) order) rows holdsNothing starts
      (before ++ files) := by
  induction files generalizing order before with
  | nil => rwa [List.append_nil]
  | cons file files ih =>
    rw [List.append_cons]
    exact ih (h.turn (hfiles file List.mem_cons_self))
      fun other hother => hfiles other (List.mem_cons_of_mem _ hother)

theorem reached_waiting (hbefore : ∀ file ∈ before, file ∈ rows.files) :
    (reached rows holdsNothing starts before file).waiting =
      (before.find? (waits holdsNothing starts)).map (·.packageId) := by
  have hnew : Remembers (new rows.files holdsNothing) rows holdsNothing starts [] := ⟨rfl, rfl⟩
  exact (hnew.turns hbefore).waiting

/-! ## Packages -/

/-- The first file that still waits speaks for all packages in front. -/
theorem reached_admits (hsplit : rows.files = before ++ file :: after) :
    (reached rows holdsNothing starts before file).admits file ↔
      ∀ earlier ∈ before, earlier.packageId ≠ file.packageId →
        ¬ waits holdsNothing starts earlier := by
  have hbefore : ∀ file ∈ before, file ∈ rows.files := by
    intro earlier hearlier
    rw [hsplit]
    exact List.mem_append_left _ hearlier
  rw [admits, reached_waiting hbefore]
  cases hfind : before.find? (waits holdsNothing starts) with
  | none =>
    have hnone := List.find?_eq_none.mp hfind
    exact ⟨fun _ earlier hearlier _ => hnone earlier hearlier, fun _ => rfl⟩
  | some first =>
    obtain ⟨hwaits, front, between, rfl, hfront⟩ := List.find?_eq_some_iff_append.mp hfind
    simp only [Bool.not_eq_true', ← Bool.not_eq_true] at hfront
    simp only [Option.map_some, Option.all_some, decide_eq_true_eq] at hwaits ⊢
    constructor
    · -- the first one that waits is of the file's own package, and so is all that follows it
      intro hpackage earlier hearlier hother
      obtain hearlier | hearlier := List.mem_append.mp hearlier
      · exact hfront earlier hearlier
      · obtain rfl | hearlier := List.mem_cons.mp hearlier
        · exact absurd hpackage hother
        · have hsame := rows.grouped front first between file after hsplit hpackage earlier hearlier
          exact absurd (hsame.trans hpackage) hother
    · intro hnone
      by_contra hother
      exact hnone first (by simp) hother hwaits

/-- A file may start exactly when every file of an earlier package that wants to has started. -/
theorem admits_iff (hsplit : rows.files = before ++ file :: after) :
    (reached rows holdsNothing starts before file).admits file ↔
      ∀ earlier ∈ before, earlier.packageId ≠ file.packageId →
        (earlier.state = .queued ∨ earlier.state = .retryWait) → ¬ holdsNothing earlier →
          starts earlier := by
  rw [reached_admits hsplit]
  refine forall₃_congr fun earlier _ _ => ?_
  simp only [waits, DownloadRow.holdsBack]
  grind

/-- Two packages: the second one waits for the file of the first that does not start. -/
def twoPackages : PassRows :=
  .sorted [{ id := 1, packageId := 1, state := .retryWait },
    { id := 2, packageId := 1, state := .queued }, { id := 3, packageId := 2, state := .queued }]
    (by decide) id Function.injective_id (by decide)

theorem admits_third : ¬ (reached twoPackages (fun _ => false) (·.id = 2)
    [{ id := 1, packageId := 1, state := .retryWait }, { id := 2, packageId := 1, state := .queued }]
    { id := 3, packageId := 2, state := .queued }).admits
      { id := 3, packageId := 2, state := .queued } := by
  refine fun hadmits => absurd ((@admits_iff _ _ twoPackages _ _ [] rfl).mp hadmits) ?_
  decide

end PackageOrder

/-! ## A pass of the dispatcher -/

namespace SchedulerHandle

variable {held counted disabled untouchable starts : DownloadRow → Bool} {rows : PassRows}
  {before after : List DownloadRow} {file earlier : DownloadRow}

/-- What excuses a waiting file. -/
def holdsNothing (held counted disabled untouchable : DownloadRow → Bool) (file : DownloadRow) :
    Bool :=
  held file || !counted file || disabled file || untouchable file

/-- The order of a pass, or none while `sequential_packages` is off. -/
def packageOrder (sequential : Bool) (held counted disabled untouchable : DownloadRow → Bool)
    (files : List DownloadRow) : Option PackageOrder :=
  if sequential then some (.new files (holdsNothing held counted disabled untouchable)) else none

/-- Whether the pass goes on with a file that is offered a place. -/
def goesOn (order : Option PackageOrder) (counted : DownloadRow → Bool) (file : DownloadRow) : Bool :=
  !(order.any fun order => !order.admits file) || !counted file

/-- The order that `dispatch_pass` asks at a row. -/
def orderAt (sequential : Bool) (held counted disabled untouchable starts : DownloadRow → Bool)
    (files before : List DownloadRow) (file : DownloadRow) : Option PackageOrder :=
  (packageOrder sequential held counted disabled untouchable files).map fun order =>
    (before.foldl (PackageOrder.turn starts) order).lookAt file

/-- A counted file goes on only when every counted file of an earlier package that might has
started. -/
theorem goesOn_iff (hsplit : rows.files = before ++ file :: after) (hcounted : counted file) :
    goesOn (orderAt true held counted disabled untouchable starts rows.files before file) counted
        file ↔
      ∀ earlier ∈ before, earlier.packageId ≠ file.packageId →
        (earlier.state = .queued ∨ earlier.state = .retryWait) → counted earlier →
          starts earlier ∨ held earlier ∨ disabled earlier ∨ untouchable earlier := by
  have hadmits : (PackageOrder.reached rows (holdsNothing held counted disabled untouchable) starts
    before file).admits file ↔ _ := PackageOrder.reached_admits hsplit
  simp only [PackageOrder.reached] at hadmits
  simp only [goesOn, orderAt, packageOrder, if_true, Option.map_some, Option.any_some, Bool.not_not,
    hcounted, Bool.not_true, Bool.or_false, hadmits]
  refine forall₃_congr fun earlier _ _ => ?_
  simp only [PackageOrder.waits, DownloadRow.holdsBack, holdsNothing]
  grind

end SchedulerHandle
end RDownloader
