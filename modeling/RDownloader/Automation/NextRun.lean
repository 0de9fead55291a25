import RDownloader.Automation.Schedule

/-!
# Whether the next run shown is the next run (`rd-automation/src/schedule.rs`)

The slots are the multiples of the interval from the midnight of their own day. The search for the
next one goes on by whole intervals from the slot of now, past midnight too, and gives up after four.
-/

namespace RDownloader

namespace Automation

variable (parser : CronParser) (zone : TimeZone) (every : Nat) (after : Int)

/-- An instant whose own slot is due at it. -/
def Due (instant : Int) : Prop :=
  ∃ slot, (Schedule.interval every).dueSlot parser zone instant = some slot ∧
    slot.instant = instant

/-- The instants of the runs to come. -/
def Coming : Set Int := {instant | after < instant ∧ Due parser zone every instant}

/-- The next run shown is the next run, and none is shown only if none is coming. -/
def ShowsNext : Prop :=
  match (Schedule.interval every).nextAfter parser zone after with
  | some instant => IsLeast (Coming parser zone every after) instant
  | none => Coming parser zone every after = ∅

/-- The wall-clock time so many whole intervals behind the slot of an instant. -/
def stepped (n : Nat) : Int :=
  floorMinutes (zone.naiveLocal after) every + n * minutes (max every 1 : Nat)

/-- A wall-clock time begins after an instant. -/
def BeginsAfter (time : Int) : Prop :=
  ∃ instant, (zone.fromLocalDatetime time).earliest = some instant ∧ after < instant

variable {parser zone every after} {time instant : Int}

/-! ## Time zones -/

theorem earliest_iff : (zone.fromLocalDatetime time).earliest = some instant ↔
    IsLeast {shown | zone.naiveLocal shown = time} instant := by
  cases hlocal : zone.fromLocalDatetime time with
  | single found =>
    have hiff := zone.of_single _ _ hlocal
    constructor
    · intro h
      obtain rfl := Option.some.inj h
      exact ⟨(hiff _).mpr rfl, fun shown hshown => Int.le_of_eq ((hiff shown).mp hshown).symm⟩
    · intro h
      rw [(hiff instant).mp h.1]
      rfl
  | ambiguous first last =>
    obtain ⟨hlt, hiff⟩ := zone.of_ambiguous _ _ _ hlocal
    constructor
    · intro h
      obtain rfl := Option.some.inj h
      refine ⟨(hiff _).mpr (.inl rfl), fun shown hshown => ?_⟩
      rcases (hiff shown).mp hshown with rfl | rfl
      · exact Int.le_refl _
      · exact Int.le_of_lt hlt
    · intro h
      rcases (hiff instant).mp h.1 with rfl | rfl
      · rfl
      · exact absurd (h.2 ((hiff first).mpr (.inl rfl))) (Int.not_le.mpr hlt)
  | none =>
    constructor
    · intro h
      cases h
    · intro h
      exact absurd h.1 (zone.of_none _ hlocal instant)

theorem naiveLocal_of_earliest (h : (zone.fromLocalDatetime time).earliest = some instant) :
    zone.naiveLocal instant = time := (earliest_iff.mp h).1

/-! ## Runs -/

/-- The runs are at the first instants of the slots. -/
theorem due_iff : Due parser zone every instant ↔
    (zone.fromLocalDatetime (zone.naiveLocal instant)).earliest = some instant ∧
      floorMinutes (zone.naiveLocal instant) every = zone.naiveLocal instant := by
  have hgrace : 0 < seconds graceSeconds := by decide
  have hslot : Due parser zone every instant ↔
      (zone.fromLocalDatetime (floorMinutes (zone.naiveLocal instant) every)).earliest =
        some instant := by
    rw [Due, Schedule.dueSlot, intervalSlotAtOrBefore]
    cases hfound : (zone.fromLocalDatetime
      (floorMinutes (zone.naiveLocal instant) every)).earliest with
    | none => exact ⟨fun ⟨_, hslot, _⟩ => (nomatch hslot), fun h => (nomatch h)⟩
    | some found =>
      rw [Option.map_some, Option.some.injEq]
      constructor
      · rintro ⟨slot, hslot, hinstant⟩
        have hsame := Option.some.inj (Option.filter_eq_some_iff.mp hslot).1
        exact (congrArg Slot.instant hsame).trans hinstant
      · rintro rfl
        refine ⟨_, Option.filter_eq_some_iff.mpr ⟨rfl, ?_⟩, rfl⟩
        exact decide_eq_true ⟨Int.sub_lt_self _ hgrace, Int.le_refl _⟩
  rw [hslot]
  constructor
  · intro h
    have htime := naiveLocal_of_earliest h
    exact ⟨htime ▸ h, htime.symm⟩
  · rintro ⟨h, htime⟩
    rw [htime]
    exact h

/-! ## The search -/

theorem add_steps (start step : Int) (n : Nat) :
    start + step + (n + 1 : Nat) * step = start + (n + 1 + 1 : Nat) * step := by
  rw [Int.natCast_succ (n + 1), Int.add_mul, Int.one_mul]
  omega

/-- What a search by steps may answer: the first time that begins later, or that none of them does. -/
def Searched (zone : TimeZone) (after step : Int) (tries : Nat) (start : Int) : Option Int → Prop
  | some instant => ∃ n < tries, after < instant ∧
      (zone.fromLocalDatetime (start + (n + 1 : Nat) * step)).earliest = some instant ∧
      ∀ m < n, ¬ BeginsAfter zone after (start + (m + 1 : Nat) * step)
  | none => ∀ m < tries, ¬ BeginsAfter zone after (start + (m + 1 : Nat) * step)

variable {step start : Int} {tries : Nat}

theorem first_step : start + ((0 : Nat) + 1 : Nat) * step = start + step := by
  rw [Nat.zero_add, Int.natCast_one, Int.one_mul]

/-- A search goes on behind a time that does not begin later. -/
theorem Searched.later {answer : Option Int} (hpassed : ¬ BeginsAfter zone after (start + step))
    (h : Searched zone after step tries (start + step) answer) :
    Searched zone after step (tries + 1) start answer := by
  have hcons : ∀ n, (∀ m < n, ¬ BeginsAfter zone after (start + step + (m + 1 : Nat) * step)) →
      ∀ m < n + 1, ¬ BeginsAfter zone after (start + (m + 1 : Nat) * step) := by
    intro n hnone m hm
    cases m with
    | zero => rwa [first_step]
    | succ m =>
      rw [← add_steps]
      exact hnone m (Nat.lt_of_succ_lt_succ hm)
  cases answer with
  | none => exact hcons tries h
  | some instant =>
    obtain ⟨n, hn, hafter, hbegins, hbefore⟩ := h
    rw [add_steps] at hbegins
    exact ⟨n + 1, Nat.succ_lt_succ hn, hafter, hbegins, hcons n hbefore⟩

/-- A search has one answer. -/
theorem Searched.unique {answer other : Option Int} (h : Searched zone after step tries start answer)
    (hother : Searched zone after step tries start other) : answer = other := by
  cases answer with
  | none =>
    cases other with
    | none => rfl
    | some found =>
      obtain ⟨n, hn, hafter, hbegins, -⟩ := hother
      exact absurd ⟨found, hbegins, hafter⟩ (h n hn)
  | some instant =>
    obtain ⟨n, hn, hafter, hbegins, hbefore⟩ := h
    cases other with
    | none => exact absurd ⟨instant, hbegins, hafter⟩ (hother n hn)
    | some found =>
      obtain ⟨m, hm, hafter', hbegins', hbefore'⟩ := hother
      rcases Nat.lt_trichotomy n m with hlt | rfl | hlt
      · exact absurd ⟨instant, hbegins, hafter⟩ (hbefore' n hlt)
      · exact hbegins.symm.trans hbegins'
      · exact absurd ⟨found, hbegins', hafter'⟩ (hbefore m hlt)

/-- A zone that is always so far from UTC. -/
def fixedZone (offset : Int) : TimeZone where
  naiveLocal instant := instant + offset
  fromLocalDatetime time := .single (time - offset)
  of_single time instant h shown := by
    obtain rfl := MappedLocalTime.single.inj h
    omega
  of_ambiguous _ _ _ h := nomatch h
  of_none _ h := nomatch h

/-- The minutes from midnight at which the slot of a time begins. -/
def slotMinute (time : Int) (every : Nat) : Int :=
  let sinceMidnight := time % day / minutes 1
  sinceMidnight - sinceMidnight % every

theorem floorMinutes_eq (hevery : 1 ≤ every ∧ every ≤ maxIntervalMinutes) (time : Int) :
    floorMinutes time every = time - time % day + minutes (slotMinute time every) := by
  have hclamp : max 1 (min every maxIntervalMinutes) = every := by omega
  rw [floorMinutes, hclamp, slotMinute, Int.sub_sub_self]

theorem slotMinute_spec (hevery : 1 ≤ every) (time : Int) :
    (every : Int) ∣ slotMinute time every ∧ 0 ≤ slotMinute time every ∧
      minutes (slotMinute time every) ≤ time % day ∧
      time % day < minutes (slotMinute time every + every) := by
  have hpositive : (0 : Int) < every := Int.natCast_pos.mpr hevery
  have hrest := Int.emod_nonneg (time % day / minutes 1) (Int.ne_of_gt hpositive)
  have hsmall := Int.emod_lt_of_pos (time % day / minutes 1) hpositive
  have hquotient : 0 ≤ time % day / minutes 1 :=
    Int.ediv_nonneg (Int.emod_nonneg _ (by decide)) (by decide)
  have hle : time % day / minutes 1 % every ≤ time % day / minutes 1 := by
    have hwhole := Int.mul_nonneg (Int.le_of_lt hpositive)
      (Int.ediv_nonneg hquotient (Int.le_of_lt hpositive))
    have hsplit := Int.mul_ediv_add_emod (time % day / minutes 1) every
    omega
  refine ⟨Int.dvd_self_sub_emod, ?_, ?_, ?_⟩
  · rw [slotMinute]
    omega
  · rw [slotMinute, minutes, seconds]
    simp only [minutes, seconds, day] at *
    omega
  · rw [slotMinute, minutes, seconds]
    simp only [minutes, seconds, day] at *
    omega

/-- A slot begins where the clock stands on it. -/
theorem floorMinutes_eq_self_iff (hevery : 1 ≤ every ∧ every ≤ maxIntervalMinutes) (time : Int) :
    floorMinutes time every = time ↔
      ∃ n : Int, (every : Int) ∣ n ∧ time % day = minutes n := by
  rw [floorMinutes_eq hevery]
  constructor
  · intro h
    exact ⟨slotMinute time every, (slotMinute_spec hevery.1 time).1, by omega⟩
  · rintro ⟨n, hn, htime⟩
    have hminutes : minutes n / minutes 1 = n := by
      simp only [minutes, seconds]
      omega
    rw [slotMinute, htime, hminutes, Int.emod_eq_zero_of_dvd hn, Int.sub_zero]
    omega

theorem coming_fixed_iff {offset : Int} : instant ∈ Coming parser (fixedZone offset) every after ↔
    after < instant ∧ floorMinutes (instant + offset) every = instant + offset := by
  refine and_congr_right fun _ => ?_
  rw [due_iff]
  exact and_iff_right (congrArg some (Int.add_sub_cancel ..))

/-- In a zone of one offset the next run is shown exactly when a whole interval still fits between
the slot of now and midnight. -/
theorem showsNext_fixed_iff {offset : Int} (hevery : 1 ≤ every ∧ every ≤ maxIntervalMinutes) :
    ShowsNext parser (fixedZone offset) every after ↔
      slotMinute (after + offset) every + every ≤ 1440 := by
  obtain ⟨hmultiple, hnonneg, hbelow, habove⟩ := slotMinute_spec hevery.1 (after + offset)
  have hmax : max every 1 = every := by omega
  have hadd : minutes (slotMinute (after + offset) every + every) =
      minutes (slotMinute (after + offset) every) + minutes every := by
    simp only [minutes, seconds]
    omega
  have hlater : after < floorMinutes (after + offset) every + minutes every - offset := by
    rw [floorMinutes_eq hevery]
    omega
  have hnext : (Schedule.interval every).nextAfter parser (fixedZone offset) after =
      some (floorMinutes (after + offset) every + minutes every - offset) := by
    rw [Schedule.nextAfter, hmax, Schedule.steps]
    exact if_pos hlater
  have hmidnight : after + offset - (after + offset) % day + day - offset ∈
      Coming parser (fixedZone offset) every after := by
    rw [coming_fixed_iff, floorMinutes_eq_self_iff hevery]
    refine ⟨?_, 0, Int.dvd_zero _, ?_⟩
    · simp only [day, minutes, seconds]
      omega
    · simp only [day, minutes, seconds]
      omega
  rw [ShowsNext, hnext]
  constructor
  · intro h
    have hle := h.2 hmidnight
    rw [floorMinutes_eq hevery] at hle
    simp only [minutes, seconds, day] at *
    omega
  · intro hfits
    constructor
    · rw [coming_fixed_iff]
      refine ⟨hlater, ?_⟩
      rw [Int.sub_add_cancel, floorMinutes_eq_self_iff hevery, floorMinutes_eq hevery]
      by_cases hlast : slotMinute (after + offset) every + every = 1440
      · refine ⟨0, Int.dvd_zero _, ?_⟩
        rw [Int.add_assoc, ← hadd, hlast]
        simp only [day, minutes, seconds]
        omega
      · refine ⟨_, Int.dvd_add hmultiple (Int.dvd_refl _), ?_⟩
        rw [Int.add_assoc, ← hadd]
        simp only [day, minutes, seconds]
        omega
    · intro instant hinstant
      obtain ⟨hafter, hslot⟩ := coming_fixed_iff.mp hinstant
      obtain ⟨n, hn, htime⟩ := (floorMinutes_eq_self_iff hevery _).mp hslot
      -- on the day of the clock a later slot is a multiple further on
      have hgap : slotMinute (after + offset) every < n →
          slotMinute (after + offset) every + every ≤ n := by
        intro hlt
        have hle := Int.le_of_dvd (Int.sub_pos.mpr hlt) (Int.dvd_sub hn hmultiple)
        omega
      rw [floorMinutes_eq hevery]
      simp only [minutes, seconds, day] at *
      omega

end Automation

end RDownloader
