import Mathlib.Data.List.Perm.Basic
import RDownloader.Lib.Counting
import RDownloader.Usenet.PoolLimit

/-!
# When an article is absent

A refusal names no id, so whose it is follows from who else is on the line: a request that is the
only one left on an unbroken line has everybody's answers accounted for.
-/

namespace RDownloader

/-! ## A line whose answers are accounted for -/

def Turn.read? (turn : Turn δ) : Option (Answered δ) :=
  match turn.progress with
  | .finished read => some read
  | .pending | .dropped => none

/-- What the finished requests asked for, and what they read. -/
def reads (turns : List (Turn δ)) : List (Text × Answered δ) :=
  turns.filterMap fun turn => turn.read?.map (turn.command, ·)

/-- Every answer on the line is owed to one of its commands, and a body has gone to the request that
asked for it. -/
structure Line.InStep (line : Line δ) : Prop where
  kept : ∀ turn ∈ line.turns, turn.progress ≠ .dropped
  /-- The turns are taken in order. -/
  order : ∀ i j : Nat, i < j → (line.turns[j]?.bind Turn.read?).isSome →
    (line.turns[i]?.bind Turn.read?).isSome
  balance : (line.turns.map (·.command)).Perm ((reads line.turns).map (·.2.command) ++
    (line.wire.map (·.command) ++ line.unanswered))
  own : ∀ entry ∈ reads line.turns, entry.2.answer.refuses ∨ entry.2.command = entry.1

theorem reads_modify {turns : List (Turn δ)} (h : turns[k]? = some ⟨command, .pending⟩)
    (read : Answered δ) :
    (reads (turns.modify k fun turn => { turn with progress := .finished read })).Perm
      ((command, read) :: reads turns) := by
  induction turns generalizing k with
  | nil => cases h
  | cons turn turns ih =>
    cases k with
    | zero =>
      obtain rfl := Option.some.inj h
      simp [reads, Turn.read?]
    | succ k =>
      have ih := ih (by simpa using h)
      rw [List.modify_succ_cons]
      simp only [reads, List.filterMap_cons] at ih ⊢
      split
      · exact ih
      · exact (ih.cons _).trans (.swap ..)

theorem Turn.read?_eq_some {turn : Turn δ} {read : Answered δ} :
    turn.read? = some read ↔ turn.progress = .finished read := by
  unfold Turn.read?
  cases turn.progress <;> simp

theorem mem_reads {turns : List (Turn δ)} {entry : Text × Answered δ} :
    entry ∈ reads turns ↔
      ∃ turn ∈ turns, turn.command = entry.1 ∧ turn.progress = .finished entry.2 := by
  simp only [reads, List.mem_filterMap, Option.map_eq_some_iff, Turn.read?_eq_some]
  constructor
  · rintro ⟨turn, hturn, read, hread, rfl⟩
    exact ⟨turn, hturn, rfl, hread⟩
  · rintro ⟨turn, hturn, hcommand, hread⟩
    exact ⟨turn, hturn, entry.2, hread, by rw [hcommand]⟩

theorem mem_reads_modify {turns : List (Turn δ)} {progress : Progress δ} {entry : Text × Answered δ}
    (h : entry ∈ reads (turns.modify k fun turn => { turn with progress })) :
    progress = .finished entry.2 ∨ entry ∈ reads turns := by
  obtain ⟨turn, hturn, hcommand, hread⟩ := mem_reads.mp h
  obtain ⟨place, hplace⟩ := List.getElem?_of_mem hturn
  rw [List.getElem?_modify] at hplace
  obtain ⟨before, hbefore, rfl⟩ := Option.map_eq_some_iff.mp hplace
  split at hread
  · exact .inl hread
  · next hne =>
    rw [if_neg hne] at hcommand
    exact .inr (mem_reads.mpr ⟨before, List.mem_of_getElem? hbefore, hcommand, hread⟩)

theorem map_command_modify (turns : List (Turn δ)) (k : Nat) (progress : Progress δ) :
    (turns.modify k fun turn => { turn with progress }).map (·.command) =
      turns.map (·.command) := by
  induction turns generalizing k with
  | nil => cases k <;> rfl
  | cons turn turns ih =>
    cases k with
    | zero => rfl
    | succ k => simp [List.modify_succ_cons, ih k]

/-- All turns but the last are finished. -/
theorem reads_of_finished {turns : List (Turn δ)} (h : ∀ turn ∈ turns, turn.read?.isSome) :
    (reads turns).map (·.1) = turns.map (·.command) := by
  induction turns with
  | nil => rfl
  | cons turn turns ih =>
    obtain ⟨read, hread⟩ := Option.isSome_iff_exists.mp (h turn (List.mem_cons_self ..))
    have ih := ih fun turn hturn => h turn (List.mem_cons_of_mem _ hturn)
    simp only [reads, List.filterMap_cons, hread, Option.map_some, List.map_cons] at ih ⊢
    rw [ih]

/-- A request has read the next answer, a refusal or its own body. -/
theorem Line.InStep.finish {line : Line δ} {read : Answered δ} (h : line.InStep)
    (hturn : line.turns[k]? = some ⟨expected, .pending⟩)
    (hearlier : ∀ earlier < k, (line.turns[earlier]?.bind Turn.read?).isSome)
    (hwire : line.wire = read :: rest) (hown : read.answer.refuses ∨ read.command = expected) :
    InStep ({ line with wire := rest }.finishTurn k read) := by
  have hperm := reads_modify hturn read
  constructor
  · intro turn hmem
    obtain ⟨place, hplace⟩ := List.getElem?_of_mem hmem
    simp only [finishTurn, settleTurn, List.getElem?_modify] at hplace
    obtain ⟨before, hbefore, rfl⟩ := Option.map_eq_some_iff.mp hplace
    split
    · nofun
    · exact h.kept before (List.mem_of_getElem? hbefore)
  · intro i j hlt hj
    simp only [finishTurn, settleTurn] at hj ⊢
    have hi : (line.turns[i]?.bind Turn.read?).isSome ∨ k = i := by
      rcases eq_or_ne k j with rfl | hne
      · exact .inl (hearlier i hlt)
      · rw [List.getElem?_modify_ne _ _ hne] at hj
        exact .inl (h.order i j hlt hj)
    obtain hi | rfl := hi
    · rcases eq_or_ne k i with rfl | hne
      · rw [hturn] at hi
        cases hi
      · rwa [List.getElem?_modify_ne _ _ hne]
    · rw [List.getElem?_modify_eq, hturn]
      rfl
  · simp only [finishTurn, settleTurn, map_command_modify]
    refine h.balance.trans ?_
    rw [hwire]
    refine List.Perm.trans ?_ ((hperm.map (·.2.command)).symm.append_right _)
    simp
  · intro entry hentry
    obtain rfl | hentry := List.mem_cons.mp (hperm.mem_iff.mp hentry)
    · exact hown
    · exact h.own entry hentry

theorem Line.InStep.send {line : Line δ} (h : line.InStep) (expected : Text) :
    (line.send expected).InStep := by
  have hreads : reads (line.turns ++ [{ command := expected }]) = reads line.turns := by
    simp [reads, Turn.read?]
  constructor
  · intro turn hturn
    rcases List.mem_append.mp hturn with hturn | hturn
    · exact h.kept turn hturn
    · rw [List.mem_singleton.mp hturn]
      nofun
  · intro i j hlt hj
    simp only [Line.send] at hj ⊢
    rcases Nat.lt_or_ge j line.turns.length with hjlt | hjge
    · rw [List.getElem?_append_left hjlt] at hj
      rw [List.getElem?_append_left (by omega)]
      exact h.order i j hlt hj
    · rw [List.getElem?_append_right hjge] at hj
      cases hplace : j - line.turns.length with
      | zero =>
        rw [hplace] at hj
        cases hj
      | succ place =>
        rw [hplace] at hj
        cases hj
  · simp only [Line.send, hreads, List.map_append, List.map_cons, List.map_nil]
    have := h.balance.append_right [expected]
    simpa [List.append_assoc] using this
  · simp only [Line.send, hreads]
    exact h.own

theorem Line.InStep.serve {line : Line δ} (h : line.InStep) {answer : NntpAnswer δ}
    (hcommand : line.unanswered[k]? = some command) :
    InStep { line with
      unanswered := line.unanswered.eraseIdx k
      wire := line.wire ++ [⟨command, answer⟩] } := by
  refine ⟨h.kept, h.order, ?_, h.own⟩
  obtain ⟨hlt, rfl⟩ := List.getElem?_eq_some_iff.mp hcommand
  have herase : line.unanswered.Perm (line.unanswered[k] :: line.unanswered.eraseIdx k) :=
    (List.getElem_cons_eraseIdx_perm hlt).symm
  refine h.balance.trans (List.Perm.append_left _ ?_)
  simpa using (herase.append_left (line.wire.map (·.command)))

/-- A refusal that the only request on the line reads is its own, or another request has read its
refusal. -/
theorem Line.InStep.refused {line : Line δ} {read : Answered δ} (h : line.InStep) {turns : List (Turn δ)}
    (hturns : line.turns = turns ++ [⟨expected, .pending⟩])
    (hfinished : ∀ turn ∈ turns, turn.read?.isSome) (hwire : line.wire = read :: rest)
    (hrefuses : read.answer.refuses) :
    ∃ refusal, (refusal = read ∨ refusal ∈ (reads line.turns).map (·.2)) ∧
      refusal.command = expected ∧ refusal.answer.refuses := by
  have hreads : reads line.turns = reads turns := by
    simp [hturns, reads, Turn.read?]
  have hbalance := h.balance
  rw [hwire, hreads, hturns, List.map_append, ← reads_of_finished hfinished] at hbalance
  have hlength := hbalance.length_eq
  simp only [List.length_append, List.length_map, List.map_cons, List.length_cons] at hlength
  have hrest : rest = [] := List.eq_nil_of_length_eq_zero (by simp at hlength; omega)
  have hunanswered : line.unanswered = [] :=
    List.eq_nil_of_length_eq_zero (by simp at hlength; omega)
  rw [hrest, hunanswered] at hbalance
  have hperm : ((reads turns ++ [(expected, read)]).map (·.1)).Perm
      ((reads turns ++ [(expected, read)]).map (·.2.command)) := by
    simpa using hbalance
  have hown : ∀ entry ∈ reads turns ++ [(expected, read)],
      entry.2.answer.refuses ∨ entry.2.command = entry.1 := by
    intro entry hentry
    rcases List.mem_append.mp hentry with hentry | hentry
    · exact h.own entry (hreads ▸ hentry)
    · obtain rfl := List.mem_singleton.mp hentry
      exact .inl hrefuses
  obtain ⟨⟨asked, refusal⟩, hmem, hrefusal, hcommand⟩ := Counting.exists_refused
    (fun entry : Text × Answered δ => entry.2.answer.refuses) hperm hown
    (List.mem_append_right _ (List.mem_singleton_self _)) hrefuses
  refine ⟨refusal, ?_, hcommand, hrefusal⟩
  rcases List.mem_append.mp hmem with hmem | hmem
  · exact .inr (List.mem_map.mpr ⟨_, hreads ▸ hmem, rfl⟩)
  · cases List.mem_singleton.mp hmem
    exact .inl rfl

/-! ## What the pool's answers are worth -/

/-- The turn to read that a request waits for or has. -/
def RequestPhase.turn? : RequestPhase δ α → Option (Nat × Nat)
  | .queued slot turn | .reading slot turn => some (slot.line, turn)
  | .between | .looking | .choosing | .connecting | .opened _ | .pushed _ | .placed _ | .sending _
  | .answered .. | .leaving .. | .done _ => none

/-- The request has a place on the line. -/
def RequestPhase.isOn (phase : RequestPhase δ α) (line : Nat) : Bool :=
  phase.slot?.any (·.line = line)

namespace ServerPool

variable {pool next : ServerPool δ α} {request request' : Request δ α} {slot : Slot}

/-- The server has said that it does not have the article. -/
def Refused (pool : ServerPool δ α) (expected : Text) : Prop :=
  ∃ answered ∈ pool.answers, answered.command = expected ∧ answered.answer.refuses

/-- The server has sent this body for the article. -/
def Delivered (pool : ServerPool δ α) (expected : Text) (data : δ) : Prop :=
  ∃ answered ∈ pool.answers, answered.command = expected ∧
    ∃ body, readBody answered.answer = .ok body ∧ body.data = data

section
variable (decodeYenc : δ → Except Text α)

/-- A request's result is what the server has said. -/
def ResultProven (pool : ServerPool δ α) (expected : Text) :
    Except FetchError α → Prop
  | .ok article => ∃ data, pool.Delivered expected data ∧ decodeYenc data = .ok article
  | .error (.unavailable _) => pool.Refused expected
  | .error (.serverFault _) => True

/-- Absence is only believed when it is proven, and a body is only taken for the article that it
is. -/
def Proven (pool : ServerPool δ α) : Prop :=
  ∀ request ∈ pool.requests, ∀ result, request.phase = .done (some result) →
    pool.ResultProven decodeYenc request.expected result

/-- What a request knows in its present phase. -/
def PhaseProven (pool : ServerPool δ α) (expected : Text) : RequestPhase δ α → Prop
  | .answered _ (.body data _) => pool.Delivered expected data
  | .answered _ (.unavailable _ alone) => alone → pool.Refused expected
  | .leaving _ (.finish (some result)) | .done (some result) =>
    pool.ResultProven decodeYenc expected result
  | _ => True

end

/-- A server that names the article on every body. -/
def faithful (pool : ServerPool δ α) : PoolEvent δ → Bool
  | .serve line index answer => (pool.lines line).unanswered[index]?.all answer.names
  | .ask _ | .act .. => true

/-- The answer a request is about to read does not mislead it: nobody has broken the line when it
reads a refusal as the only one left on it, and a body names no id that was asked for so long ago
that the line has forgotten it. -/
def clear (line : Line δ) (expected : Text) : Bool :=
  match line.wire with
  | [] => true
  | read :: _ =>
    match readBody read.answer with
    | .ok body => body.messageId.all fun id => id = expected || id ∈ line.sent
    | .error (.unavailable _) => line.inFlight ≠ 1 || !line.broken
    | .error _ => true

/-- The steps that keep absence proven.
- What a request reads is clear.
- A refusal that was not read alone is not believed because pipelining has been given up since.
- No request runs out of passes with such a refusal.
- No request is cancelled while the command it sends goes out all the same. -/
def believable (pool : ServerPool δ α) : PoolEvent δ → Bool
  | .act index act => pool.requests[index]?.all fun request =>
    match act, request.phase with
    | .read, .reading slot _ => clear (pool.lines slot.line) request.expected
    | .settle, .answered _ (.unavailable _ alone) => alone || pool.depth ≠ 1
    | .pass, .between => request.passes ≠ maxPasses || 0 < request.loop.faults ||
      request.loop.unconfirmed.isNone
    | .cancel delivered, .sending _ => !delivered
    | _, _ => true
  | .ask _ | .serve .. => true

/-! ## The invariant -/

structure Sound (decodeYenc : δ → Except Text α) (pool : ServerPool δ α) : Prop where
  inStep : ∀ line, (pool.lines line).broken = false → (pool.lines line).InStep
  named : ∀ answered ∈ pool.answers, answered.answer.names answered.command
  wire : ∀ line, ∀ answered ∈ (pool.lines line).wire, answered ∈ pool.answers
  read : ∀ line, ∀ entry ∈ reads (pool.lines line).turns, entry.2 ∈ pool.answers
  inFlight : ∀ line, (pool.lines line).inFlight = pool.requests.countP (·.phase.isOn line)
  /-- A request that waits for a turn has it. -/
  turn : ∀ (index : Nat) (request : Request δ α), pool.requests[index]? = some request →
    ∀ line turn, request.phase.turn? = some (line, turn) →
      (pool.lines line).turns[turn]? = some ⟨request.expected, .pending⟩
  /-- It has it alone. -/
  unique : ∀ (i j : Nat) (first second : Request δ α), pool.requests[i]? = some first →
    pool.requests[j]? = some second → first.phase.turn?.isSome →
    first.phase.turn? = second.phase.turn? → i = j
  /-- On an unbroken line somebody waits for every turn that is not over. -/
  owner : ∀ line turn command, (pool.lines line).broken = false →
    (pool.lines line).turns[turn]? = some ⟨command, .pending⟩ →
    ∃ (index : Nat) (request : Request δ α), pool.requests[index]? = some request ∧
      request.phase.turn? = some (line, turn)
  /-- A request reads once everybody before it has read. -/
  reading : ∀ (index : Nat) (request : Request δ α), pool.requests[index]? = some request →
    ∀ slot turn, request.phase = .reading slot turn →
      ∀ earlier < turn, ((pool.lines slot.line).turns[earlier]?.bind Turn.read?).isSome
  proven : ∀ (index : Nat) (request : Request δ α), pool.requests[index]? = some request →
    pool.PhaseProven decodeYenc request.expected request.phase

variable {decodeYenc : δ → Except Text α} {index line turn : Nat} {request request' : Request δ α}

theorem turn_on {phase : RequestPhase δ α} (h : phase.turn? = some (line, turn)) :
    phase.isOn line := by
  cases phase <;> simp_all [RequestPhase.turn?, RequestPhase.isOn, RequestPhase.slot?]

theorem turn_ne_reading {phase : RequestPhase δ α} (h : phase.turn? = none) (slot : Slot) :
    phase ≠ .reading slot turn := by
  rintro rfl
  cases h

/-! ## A request alone on its line -/

/-- Everybody on a line but one reader has left: everybody before it has finished, and nobody is
behind. -/
theorem Sound.turns_of_alone (h : pool.Sound decodeYenc)
    (hindex : pool.requests[index]? = some request) (hphase : request.phase = .reading slot turn)
    (hbroken : (pool.lines slot.line).broken = false)
    (halone : (pool.lines slot.line).inFlight = 1) :
    ∃ turns, (pool.lines slot.line).turns = turns ++ [⟨request.expected, .pending⟩] ∧
      ∀ turn ∈ turns, turn.read?.isSome := by
  have hown : request.phase.turn? = some (slot.line, turn) := by rw [hphase]; rfl
  have hturn := h.turn index request hindex slot.line turn hown
  have hstep := h.inStep slot.line hbroken
  have hlast : (pool.lines slot.line).turns[turn + 1]? = none := by
    cases hnext : (pool.lines slot.line).turns[turn + 1]? with
    | none => rfl
    | some next =>
      obtain ⟨command, progress⟩ := next
      cases progress with
      | pending =>
        -- its request would be on the line too
        obtain ⟨index', request', hindex', hturn'⟩ := h.owner slot.line _ _ hbroken hnext
        rw [h.inFlight] at halone
        obtain rfl := Counting.eq_of_countP_le_one (Nat.le_of_eq halone) hindex hindex'
          (turn_on hown) (turn_on hturn')
        cases hindex.symm.trans hindex'
        have := (Prod.mk.inj (Option.some.inj (hown.symm.trans hturn'))).2
        omega
      | finished read =>
        have := hstep.order turn (turn + 1) (Nat.lt_succ_self _) (by rw [hnext]; rfl)
        rw [hturn] at this
        cases this
      | dropped => exact absurd rfl (hstep.kept _ (List.mem_of_getElem? hnext))
  obtain ⟨hlt, hget⟩ := List.getElem?_eq_some_iff.mp hturn
  have hlength : (pool.lines slot.line).turns.length = turn + 1 := by
    have hle := List.getElem?_eq_none_iff.mp hlast
    omega
  refine ⟨(pool.lines slot.line).turns.take turn, ?_, fun earlier hearlier => ?_⟩
  · rw [← hget, List.take_append_getElem hlt, List.take_of_length_le (Nat.le_of_eq hlength)]
  · obtain ⟨place, hplace⟩ := List.getElem?_of_mem hearlier
    rw [List.getElem?_take] at hplace
    split at hplace
    · next hlt =>
      have := h.reading index request hindex slot turn hphase place hlt
      rwa [hplace] at this
    · cases hplace

theorem Sound.refused_of_alone (h : pool.Sound decodeYenc)
    (hindex : pool.requests[index]? = some request) (hphase : request.phase = .reading slot turn)
    (hbroken : (pool.lines slot.line).broken = false)
    (halone : (pool.lines slot.line).inFlight = 1) {read : Answered δ}
    (hwire : (pool.lines slot.line).wire = read :: rest) (hrefuses : read.answer.refuses) :
    pool.Refused request.expected := by
  obtain ⟨turns, hturns, hfinished⟩ := h.turns_of_alone hindex hphase hbroken halone
  obtain ⟨refusal, hfrom, hcommand, hrefusal⟩ :=
    (h.inStep slot.line hbroken).refused hturns hfinished hwire hrefuses
  refine ⟨refusal, ?_, hcommand, hrefusal⟩
  obtain rfl | hread := hfrom
  · exact h.wire slot.line refusal (hwire ▸ List.mem_cons_self ..)
  · obtain ⟨entry, hentry, rfl⟩ := List.mem_map.mp hread
    exact h.read slot.line entry hentry

/-! ## Steps that leave the talk on the lines alone -/

theorem ResultProven.mono (hanswers : pool.answers ⊆ next.answers) {expected : Text}
    {result : Except FetchError α} (h : pool.ResultProven decodeYenc expected result) :
    next.ResultProven decodeYenc expected result := by
  cases result with
  | ok article =>
    obtain ⟨data, ⟨answered, hmem, hanswered⟩, hdecode⟩ := h
    exact ⟨data, ⟨answered, hanswers hmem, hanswered⟩, hdecode⟩
  | error error =>
    cases error with
    | unavailable status =>
      obtain ⟨answered, hmem, hanswered⟩ := h
      exact ⟨answered, hanswers hmem, hanswered⟩
    | serverFault detail => trivial

theorem PhaseProven.mono (hanswers : pool.answers ⊆ next.answers) {expected : Text}
    {phase : RequestPhase δ α} (h : pool.PhaseProven decodeYenc expected phase) :
    next.PhaseProven decodeYenc expected phase := by
  unfold PhaseProven at h ⊢
  split
  · obtain ⟨answered, hmem, hanswered⟩ := h
    exact ⟨answered, hanswers hmem, hanswered⟩
  · intro halone
    obtain ⟨answered, hmem, hanswered⟩ := h halone
    exact ⟨answered, hanswers hmem, hanswered⟩
  · exact ResultProven.mono hanswers h
  · exact ResultProven.mono hanswers h
  · trivial

/-- The commands, the answers and the turns of a line, unless it breaks. -/
structure SameTalk (line line' : Line δ) : Prop where
  turns : line'.turns = line.turns
  wire : line'.wire = line.wire
  unanswered : line'.broken = false → line'.unanswered = line.unanswered
  broken : line'.broken = false → line.broken = false

theorem SameTalk.refl (line : Line δ) : SameTalk line line := ⟨rfl, rfl, fun _ => rfl, id⟩

theorem SameTalk.inStep {line line' : Line δ} (h : SameTalk line line') (hbroken : line'.broken = false)
    (hstep : line.InStep) : line'.InStep := by
  constructor
  · rw [h.turns]; exact hstep.kept
  · rw [h.turns]; exact hstep.order
  · rw [h.turns, h.wire, h.unanswered hbroken]; exact hstep.balance
  · rw [h.turns]; exact hstep.own

theorem Sound.move (h : pool.Sound decodeYenc) (hindex : pool.requests[index]? = some request)
    (hrequests : next.requests = pool.requests.set index request')
    (hexpected : request'.expected = request.expected) (hanswers : next.answers = pool.answers)
    (hlines : ∀ line, SameTalk (pool.lines line) (next.lines line))
    (hflight : ∀ line, (next.lines line).inFlight + (if request.phase.isOn line then 1 else 0) =
      (pool.lines line).inFlight + if request'.phase.isOn line then 1 else 0)
    (hturn : request'.phase.turn? = request.phase.turn?)
    (hreading : ∀ slot turn, request'.phase = .reading slot turn →
      ∀ earlier < turn, ((pool.lines slot.line).turns[earlier]?.bind Turn.read?).isSome)
    (hproven : pool.PhaseProven decodeYenc request.expected request'.phase) :
    next.Sound decodeYenc := by
  have hsub : pool.answers ⊆ next.answers := fun _ ha => hanswers ▸ ha
  -- a request of the next pool, and the one in its place with the same turn before
  have hbefore : ∀ (i : Nat) (other : Request δ α), next.requests[i]? = some other →
      ∃ other' : Request δ α, pool.requests[i]? = some other' ∧
        other.expected = other'.expected ∧ other.phase.turn? = other'.phase.turn? := by
    intro i other hother
    rw [hrequests] at hother
    obtain ⟨rfl, rfl⟩ | ⟨-, hother⟩ := Counting.getElem?_set_cases hother
    · exact ⟨request, hindex, hexpected, hturn⟩
    · exact ⟨other, hother, rfl, rfl⟩
  refine ⟨fun line hbroken => ?_, ?_, fun line => ?_, fun line => ?_, fun line => ?_, ?_, ?_, ?_, ?_, ?_⟩
  · exact (hlines line).inStep hbroken (h.inStep line ((hlines line).broken hbroken))
  · rw [hanswers]
    exact h.named
  · rw [(hlines line).wire, hanswers]
    exact h.wire line
  · rw [(hlines line).turns, hanswers]
    exact h.read line
  · have hcount := Counting.countP_set_add hindex (fun request => request.phase.isOn line) request'
    have := hflight line
    rw [h.inFlight line] at this
    rw [hrequests]
    omega
  · intro i other hother line turn hother'
    obtain ⟨other', hindex', hexp, hsame⟩ := hbefore i other hother
    rw [(hlines line).turns, hexp]
    exact h.turn i other' hindex' line turn (hsame ▸ hother')
  · intro i j first second hfirst hsecond hsome heq
    obtain ⟨first', hfirst', -, hsame⟩ := hbefore i first hfirst
    obtain ⟨second', hsecond', -, hsame'⟩ := hbefore j second hsecond
    exact h.unique i j first' second' hfirst' hsecond' (hsame ▸ hsome)
      (hsame.symm.trans (heq.trans hsame'))
  · intro line turn command hbroken hpending
    rw [(hlines line).turns] at hpending
    obtain ⟨i, other, hother, hown⟩ := h.owner line turn command ((hlines line).broken hbroken) hpending
    rcases eq_or_ne i index with rfl | hne
    · cases hindex.symm.trans hother
      exact ⟨i, request', by rw [hrequests, List.getElem?_set_self (List.getElem?_eq_some_iff.mp hindex).1],
        hturn.trans hown⟩
    · exact ⟨i, other, by rw [hrequests, List.getElem?_set_ne hne.symm, hother], hown⟩
  · intro i other hother slot turn hphase earlier hearlier
    rw [(hlines slot.line).turns]
    rw [hrequests] at hother
    obtain ⟨rfl, rfl⟩ | ⟨-, hother⟩ := Counting.getElem?_set_cases hother
    · exact hreading slot turn hphase earlier hearlier
    · exact h.reading i other hother slot turn hphase earlier hearlier
  · intro i other hother
    rw [hrequests] at hother
    obtain ⟨rfl, rfl⟩ | ⟨-, hother⟩ := Counting.getElem?_set_cases hother
    · exact hexpected ▸ PhaseProven.mono hsub hproven
    · exact PhaseProven.mono hsub (h.proven i other hother)

/-! ## Turns that end and begin -/

/-- A request's turn is over: it has read its answer, or the line is broken. -/
theorem Sound.over (h : pool.Sound decodeYenc) (hindex : pool.requests[index]? = some request)
    (hown : request.phase.turn? = some (line, turn)) (progress : Progress δ)
    (hrequests : next.requests = pool.requests.set index request')
    (hanswers : next.answers = pool.answers)
    (hother : ∀ other, other ≠ line → next.lines other = pool.lines other)
    (hturns : (next.lines line).turns =
      (pool.lines line).turns.modify turn fun turn => { turn with progress })
    (hprogress : progress ≠ .pending)
    (hread : ∀ read, progress = .finished read → read ∈ pool.answers)
    (hwire : (next.lines line).wire ⊆ (pool.lines line).wire)
    (hflight : (next.lines line).inFlight = (pool.lines line).inFlight)
    (hon : ∀ line, request'.phase.isOn line = request.phase.isOn line)
    (hafter : request'.phase.turn? = none)
    (hinStep : (next.lines line).broken = false →
      (pool.lines line).broken = false ∧ (next.lines line).InStep)
    (hproven : pool.PhaseProven decodeYenc request'.expected request'.phase) :
    next.Sound decodeYenc := by
  have hsub : pool.answers ⊆ next.answers := fun _ ha => hanswers ▸ ha
  have hturn := h.turn index request hindex line turn hown
  have hbroken : ∀ other, (next.lines other).broken = false → (pool.lines other).broken = false := by
    intro other hbroken
    rcases eq_or_ne other line with rfl | hne
    · exact (hinStep hbroken).1
    · rwa [hother other hne] at hbroken
  -- every other turn stays as it is
  have hplace : ∀ other place, (other, place) ≠ (line, turn) →
      (next.lines other).turns[place]? = (pool.lines other).turns[place]? := by
    intro other place hne
    rcases eq_or_ne other line with rfl | hline
    · have hdifferent : turn ≠ place := fun heq => hne (by rw [heq])
      rw [hturns, List.getElem?_modify_ne _ _ hdifferent]
    · rw [hother other hline]
  have hothers : ∀ (i : Nat) (other : Request δ α), next.requests[i]? = some other →
      other = request' ∨ i ≠ index ∧ pool.requests[i]? = some other := by
    intro i other hget
    rw [hrequests] at hget
    exact (Counting.getElem?_set_cases hget).imp_left (·.2)
  refine ⟨fun other hunbroken => ?_, ?_, fun other => ?_, fun other => ?_, fun other => ?_,
    fun i other hget line' place hplace' => ?_, fun i j first second hfirst hsecond hsome heq => ?_,
    fun other place command hunbroken hpending => ?_, fun i other hget slot place hphase earlier hlt => ?_,
    fun i other hget => ?_⟩
  · rcases eq_or_ne other line with rfl | hne
    · exact (hinStep hunbroken).2
    · rw [hother other hne] at hunbroken ⊢
      exact h.inStep other hunbroken
  · rw [hanswers]
    exact h.named
  · rw [hanswers]
    intro answered hanswered
    rcases eq_or_ne other line with rfl | hne
    · exact h.wire other answered (hwire hanswered)
    · rw [hother other hne] at hanswered
      exact h.wire other answered hanswered
  · rw [hanswers]
    intro entry hentry
    rcases eq_or_ne other line with rfl | hne
    · rw [hturns] at hentry
      exact (mem_reads_modify hentry).elim (hread entry.2) (h.read other entry)
    · rw [hother other hne] at hentry
      exact h.read other entry hentry
  · have hcount := Counting.countP_set_add hindex (fun request => request.phase.isOn other) request'
    have hsame : (next.lines other).inFlight = (pool.lines other).inFlight := by
      rcases eq_or_ne other line with rfl | hne
      · exact hflight
      · rw [hother other hne]
    rw [hon other] at hcount
    rw [hsame, h.inFlight other, hrequests]
    omega
  · obtain rfl | ⟨hne, hget⟩ := hothers i other hget
    · cases hafter.symm.trans hplace'
    · have hdifferent : (line', place) ≠ (line, turn) := by
        rintro heq
        have := h.unique i index other request hget hindex (by rw [hplace']; rfl)
          (hplace'.trans ((congrArg some heq).trans hown.symm))
        exact hne this
      rw [hplace _ _ hdifferent]
      exact h.turn i other hget line' place hplace'
  · obtain rfl | ⟨-, hfirst⟩ := hothers i first hfirst
    · cases hafter ▸ hsome
    · obtain rfl | ⟨-, hsecond⟩ := hothers j second hsecond
      · rw [heq, hafter] at hsome
        cases hsome
      · exact h.unique i j first second hfirst hsecond hsome heq
  · have hdifferent : (other, place) ≠ (line, turn) := by
      rintro ⟨⟩
      rw [hturns, List.getElem?_modify_eq, hturn] at hpending
      exact hprogress (congrArg Turn.progress (Option.some.inj hpending))
    rw [hplace _ _ hdifferent] at hpending
    obtain ⟨i, owner, hget, hturn'⟩ := h.owner other place command (hbroken other hunbroken) hpending
    have hne : index ≠ i := by
      rintro rfl
      cases hindex.symm.trans hget
      exact hdifferent (Option.some.inj (hturn'.symm.trans hown))
    exact ⟨i, owner, by rw [hrequests, List.getElem?_set_ne hne, hget], hturn'⟩
  · obtain rfl | ⟨-, hget⟩ := hothers i other hget
    · exact absurd hphase (turn_ne_reading hafter slot)
    · have hbefore := h.reading i other hget slot place hphase earlier hlt
      have hdifferent : (slot.line, earlier) ≠ (line, turn) := by
        rintro ⟨⟩
        rw [hturn] at hbefore
        cases hbefore
      rwa [hplace _ _ hdifferent]
  · obtain rfl | ⟨-, hget⟩ := hothers i other hget
    · exact PhaseProven.mono hsub hproven
    · exact PhaseProven.mono hsub (h.proven i other hget)

/-- A request has sent its command, and takes its place behind all others. -/
theorem Sound.send (h : pool.Sound decodeYenc) (hindex : pool.requests[index]? = some request)
    (hphase : request.phase = .sending slot) :
    Sound decodeYenc ((pool.updateLine slot.line (·.send request.expected)).put index request
      (.queued slot (pool.lines slot.line).turns.length)) := by
  have hlines : ∀ line, ((pool.updateLine slot.line (·.send request.expected)).lines line) =
      if line = slot.line then (pool.lines line).send request.expected else pool.lines line :=
    fun _ => rfl
  have hlt := (List.getElem?_eq_some_iff.mp hindex).1
  -- the turns there were are where they were
  have hplace : ∀ (line place : Nat) (turn : Turn δ), (pool.lines line).turns[place]? = some turn →
      (if line = slot.line then (pool.lines line).send request.expected else pool.lines line).turns[place]? =
        some turn := by
    intro line place turn hturn
    split
    · rw [Line.send, List.getElem?_append_left (List.getElem?_eq_some_iff.mp hturn).1]
      exact hturn
    · exact hturn
  have hfresh : ∀ (i : Nat) (other : Request δ α), pool.requests[i]? = some other →
      other.phase.turn? ≠ some (slot.line, (pool.lines slot.line).turns.length) := by
    intro i other hget hturn
    have := (List.getElem?_eq_some_iff.mp (h.turn i other hget _ _ hturn)).1
    exact Nat.lt_irrefl _ this
  have hothers : ∀ (i : Nat) (other : Request δ α),
      (pool.requests.set index { request with phase := .queued slot (pool.lines slot.line).turns.length })[i]? =
        some other →
      (i = index ∧ other = { request with phase := .queued slot (pool.lines slot.line).turns.length }) ∨
        i ≠ index ∧ pool.requests[i]? = some other := fun _ _ => Counting.getElem?_set_cases
  refine ⟨fun line hbroken => ?_, h.named, fun line => ?_, fun line => ?_, fun line => ?_,
    fun i other hget line place hturn => ?_, fun i j first second hfirst hsecond hsome heq => ?_,
    fun line place command hbroken hpending => ?_, fun i other hget slot' place hother earlier hearlier => ?_,
    fun i other hget => ?_⟩
  · simp only [put, hlines] at hbroken ⊢
    rcases eq_or_ne line slot.line with rfl | hne
    · rw [if_pos rfl] at hbroken ⊢
      exact (h.inStep _ hbroken).send _
    · rw [if_neg hne] at hbroken ⊢
      exact h.inStep line hbroken
  · simp only [put, hlines]
    split
    · exact h.wire line
    · exact h.wire line
  · simp only [put, hlines]
    split
    · intro entry hentry
      simp only [Line.send, reads, List.filterMap_append] at hentry
      exact h.read line entry (by simpa [reads, Turn.read?] using hentry)
    · exact h.read line
  · have hcount := Counting.countP_set_add hindex (fun request => request.phase.isOn line)
      { request with phase := .queued slot (pool.lines slot.line).turns.length }
    have hflight := h.inFlight line
    have hsame : ((if line = slot.line then (pool.lines line).send request.expected else pool.lines line)).inFlight =
        (pool.lines line).inFlight := by
      split <;> rfl
    have hon : RequestPhase.isOn (.queued slot (pool.lines slot.line).turns.length : RequestPhase δ α) line =
        request.phase.isOn line := by
      rw [hphase]
      rfl
    simp only [hon] at hcount
    simp only [put, hlines, hsame, hflight]
    exact (Nat.add_right_cancel hcount).symm
  · simp only [put, hlines]
    obtain ⟨rfl, rfl⟩ | ⟨-, hget⟩ := hothers i other hget
    · cases hturn
      rw [if_pos rfl]
      simp [Line.send, Request.expected]
    · exact hplace line place _ (h.turn i other hget line place hturn)
  · obtain ⟨rfl, rfl⟩ | ⟨-, hfirst'⟩ := hothers i first hfirst
    · obtain ⟨rfl, rfl⟩ | ⟨-, hsecond'⟩ := hothers j second hsecond
      · rfl
      · exact absurd heq.symm (hfresh j second hsecond')
    · obtain ⟨rfl, rfl⟩ | ⟨-, hsecond'⟩ := hothers j second hsecond
      · exact absurd heq (hfresh i first hfirst')
      · exact h.unique i j first second hfirst' hsecond' hsome heq
  · have hbefore : (line, place) = (slot.line, (pool.lines slot.line).turns.length) ∨
        (pool.lines line).broken = false ∧ (pool.lines line).turns[place]? = some ⟨command, .pending⟩ := by
      simp only [put, hlines] at hbroken hpending
      split at hpending
      · next heq =>
        subst heq
        rw [if_pos rfl] at hbroken
        rcases Nat.lt_or_ge place (pool.lines slot.line).turns.length with hlt | hge
        · rw [Line.send, List.getElem?_append_left hlt] at hpending
          exact .inr ⟨hbroken, hpending⟩
        · have := (List.getElem?_eq_some_iff.mp hpending).1
          simp only [Line.send, List.length_append, List.length_singleton] at this
          exact .inl (by rw [show place = (pool.lines slot.line).turns.length by omega])
      · next hne =>
        rw [if_neg hne] at hbroken
        exact .inr ⟨hbroken, hpending⟩
    obtain heq | ⟨hbroken, hpending⟩ := hbefore
    · exact ⟨index, _, List.getElem?_set_self hlt, by rw [heq]; rfl⟩
    · obtain ⟨i, owner, hget, hturn⟩ := h.owner line place command hbroken hpending
      have hne : index ≠ i := by
        rintro rfl
        cases hindex.symm.trans hget
        rw [hphase] at hturn
        cases hturn
      exact ⟨i, owner, by rw [put, List.getElem?_set_ne hne]; exact hget, hturn⟩
  · obtain ⟨rfl, rfl⟩ | ⟨-, hget⟩ := hothers i other hget
    · cases hother
    · have hbefore := h.reading i other hget slot' place hother earlier hearlier
      obtain ⟨turn, hturn, hread⟩ := Option.bind_eq_some_iff.mp (Option.isSome_iff_exists.mp hbefore).choose_spec
      simp only [put, hlines, hplace _ _ _ hturn]
      exact Option.isSome_iff_exists.mpr ⟨_, hread⟩
  · obtain ⟨rfl, rfl⟩ | ⟨-, hget⟩ := hothers i other hget
    · trivial
    · exact h.proven i other hget

theorem Sound.ask (h : pool.Sound decodeYenc) (messageId : Text) :
    Sound decodeYenc { pool with requests := pool.requests ++ [{ messageId }] } := by
  have hcases : ∀ (i : Nat) (other : Request δ α),
      (pool.requests ++ [({ messageId } : Request δ α)])[i]? = some other →
      pool.requests[i]? = some other ∨ other = { messageId } := by
    intro i other hget
    rcases Nat.lt_or_ge i pool.requests.length with hlt | hge
    · rw [List.getElem?_append_left hlt] at hget
      exact .inl hget
    · rw [List.getElem?_append_right hge] at hget
      exact .inr (List.mem_singleton.mp (List.mem_of_getElem? hget))
  refine ⟨h.inStep, h.named, h.wire, h.read, fun line => ?_, fun i other hget line place hturn => ?_,
    fun i j first second hfirst hsecond hsome heq => ?_, fun line place command hbroken hpending => ?_,
    fun i other hget slot place hphase => ?_, fun i other hget => ?_⟩
  · simpa [RequestPhase.isOn, RequestPhase.slot?] using h.inFlight line
  · obtain hget | rfl := hcases i other hget
    · exact h.turn i other hget line place hturn
    · cases hturn
  · obtain hfirst | rfl := hcases i first hfirst
    · obtain hsecond | rfl := hcases j second hsecond
      · exact h.unique i j first second hfirst hsecond hsome heq
      · rw [heq] at hsome
        cases hsome
    · cases hsome
  · obtain ⟨i, owner, hget, hturn⟩ := h.owner line place command hbroken hpending
    refine ⟨i, owner, ?_, hturn⟩
    rw [List.getElem?_append_left (List.getElem?_eq_some_iff.mp hget).1]
    exact hget
  · obtain hget | rfl := hcases i other hget
    · exact h.reading i other hget slot place hphase
    · cases hphase
  · obtain hget | rfl := hcases i other hget
    · exact h.proven i other hget
    · trivial

theorem Sound.serve (h : pool.Sound decodeYenc) {answer : NntpAnswer δ}
    (hfaithful : pool.faithful (.serve line index answer))
    (hserve : pool.serve line index answer = some next) : next.Sound decodeYenc := by
  obtain ⟨command, hcommand, rfl⟩ := Option.map_eq_some_iff.mp hserve
  rw [faithful, hcommand] at hfaithful
  have hsub : pool.answers ⊆ ⟨command, answer⟩ :: pool.answers := List.subset_cons_self ..
  have hturns : ∀ other, ((pool.updateLine line fun line =>
      { line with
        unanswered := line.unanswered.eraseIdx index
        wire := line.wire ++ [⟨command, answer⟩] }).lines other).turns = (pool.lines other).turns := by
    intro other
    simp only [updateLine]
    split <;> rfl
  have hbroken : ∀ other, ((pool.updateLine line fun line =>
      { line with
        unanswered := line.unanswered.eraseIdx index
        wire := line.wire ++ [⟨command, answer⟩] }).lines other).broken = (pool.lines other).broken := by
    intro other
    simp only [updateLine]
    split <;> rfl
  refine ⟨fun other hunbroken => ?_, ?_, fun other answered hmem => ?_, fun other => ?_, fun other => ?_,
    fun i request hget other place => ?_, h.unique, fun other place command hunbroken hpending => ?_,
    fun i request hget slot place hphase => ?_, fun i request hget => ?_⟩
  · rw [hbroken] at hunbroken
    simp only [updateLine]
    split
    · next heq =>
      subst heq
      exact (h.inStep _ hunbroken).serve hcommand
    · exact h.inStep other hunbroken
  · intro answered hmem
    obtain rfl | hmem := List.mem_cons.mp hmem
    · exact hfaithful
    · exact h.named answered hmem
  · simp only [updateLine] at hmem
    split at hmem
    · obtain hmem | hmem := List.mem_append.mp hmem
      · exact hsub (h.wire other answered hmem)
      · rw [List.mem_singleton.mp hmem]
        exact List.mem_cons_self ..
    · exact hsub (h.wire other answered hmem)
  · rw [hturns]
    exact fun entry hentry => hsub (h.read other entry hentry)
  · refine Eq.trans ?_ (h.inFlight other)
    simp only [updateLine]
    split <;> rfl
  · rw [hturns]
    exact h.turn i request hget other place
  · rw [hturns] at hpending
    rw [hbroken] at hunbroken
    exact h.owner other place command hunbroken hpending
  · rw [hturns]
    exact h.reading i request hget slot place hphase
  · exact PhaseProven.mono hsub (h.proven i request hget)

/-! ## The steps of a request -/

/-- A step that changes no line. -/
theorem Sound.stay (h : pool.Sound decodeYenc) (hindex : pool.requests[index]? = some request)
    (hrequests : next.requests = pool.requests.set index request')
    (hexpected : request'.expected = request.expected) (hanswers : next.answers = pool.answers)
    (hlines : next.lines = pool.lines)
    (hon : ∀ line, request'.phase.isOn line = request.phase.isOn line)
    (hturn : request'.phase.turn? = request.phase.turn?)
    (hreading : ∀ slot turn, request'.phase = .reading slot turn →
      ∀ earlier < turn, ((pool.lines slot.line).turns[earlier]?.bind Turn.read?).isSome)
    (hproven : pool.PhaseProven decodeYenc request.expected request'.phase) :
    next.Sound decodeYenc :=
  h.move hindex hrequests hexpected hanswers (fun line => by rw [hlines]; exact .refl _)
    (fun line => by rw [hlines, hon]) hturn hreading hproven

/-- A request that is in a phase goes on to another one on the same place. -/
theorem Sound.goOn (h : pool.Sound decodeYenc) (hindex : pool.requests[index]? = some request)
    {before : RequestPhase δ α} (hphase : request.phase = before)
    (hrequests : next.requests = pool.requests.set index request')
    (hexpected : request'.expected = request.expected) (hanswers : next.answers = pool.answers)
    (hlines : next.lines = pool.lines)
    (hon : ∀ line, request'.phase.isOn line = before.isOn line)
    (hturn : request'.phase.turn? = before.turn?)
    (hreading : ∀ slot turn, request'.phase ≠ .reading slot turn)
    (hproven : pool.PhaseProven decodeYenc request.expected request'.phase) :
    next.Sound decodeYenc := by
  subst hphase
  exact h.stay hindex hrequests hexpected hanswers hlines hon hturn
    (fun slot turn hphase => absurd hphase (hreading slot turn)) hproven

/-- A step that changes one line, on which the request keeps its place, and none of its talk. -/
theorem Sound.onLine (h : pool.Sound decodeYenc) (hindex : pool.requests[index]? = some request)
    {f : Line δ → Line δ} {phase : RequestPhase δ α}
    (htalk : SameTalk (pool.lines line) (f (pool.lines line)))
    (hflight : (f (pool.lines line)).inFlight = (pool.lines line).inFlight)
    (hon : ∀ line, phase.isOn line = request.phase.isOn line)
    (hturn : phase.turn? = request.phase.turn?)
    (hreading : ∀ slot turn, phase ≠ .reading slot turn)
    (hproven : pool.PhaseProven decodeYenc request.expected phase) :
    Sound decodeYenc ((pool.updateLine line f).put index request phase) := by
  refine h.move hindex rfl rfl rfl (fun other => ?_) (fun other => ?_) hturn
    (fun slot turn hphase => absurd hphase (hreading slot turn)) hproven
  · simp only [put, updateLine]
    split
    · next heq => exact heq ▸ htalk
    · exact .refl _
  · simp only [put, updateLine, hon]
    split
    · next heq => rw [heq, hflight]
    · rfl

/-- A request comes onto a line. -/
theorem Sound.take (h : pool.Sound decodeYenc) (hindex : pool.requests[index]? = some request)
    (source : ServerPool δ α) (hlines : source.lines = pool.lines)
    (hrequests : source.requests = pool.requests) (hanswers : source.answers = pool.answers)
    (phase : RequestPhase δ α) (hslot : request.phase.slot? = none)
    (hslot' : phase.slot? = some slot) (hturn : phase.turn? = request.phase.turn?)
    (hreading : ∀ slot turn, phase ≠ .reading slot turn)
    (hproven : pool.PhaseProven decodeYenc request.expected phase) :
    Sound decodeYenc ((source.take slot).put index request phase) := by
  have hset : ((source.take slot).put index request phase).requests =
      pool.requests.set index { request with phase } := by
    rw [← hrequests]
    rfl
  refine h.move hindex hset rfl hanswers (fun line => ?_) (fun line => ?_) hturn
    (fun slot turn hphase => absurd hphase (hreading slot turn)) hproven
  · simp only [put, ServerPool.take, updateLine, hlines]
    split
    · exact ⟨rfl, rfl, fun _ => rfl, id⟩
    · exact .refl _
  · have hbefore : request.phase.isOn line = false := by
      rw [RequestPhase.isOn, hslot]
      rfl
    have hafter : phase.isOn line = decide (slot.line = line) := by
      rw [RequestPhase.isOn, hslot']
      rfl
    simp only [put, ServerPool.take, updateLine, hlines, hbefore, hafter]
    split
    · next heq => simp [heq]
    · next hne => simp [Ne.symm hne]

/-- A request leaves its line. -/
theorem Sound.release (h : pool.Sound decodeYenc) (hindex : pool.requests[index]? = some request)
    (hslot : request.phase.slot? = some slot)
    (hrequests : next.requests = pool.requests.set index request')
    (hexpected : request'.expected = request.expected) (hanswers : next.answers = pool.answers)
    (hlines : next.lines = (pool.release slot).lines)
    (hslot' : request'.phase.slot? = none) (hturn : request.phase.turn? = none)
    (hturn' : request'.phase.turn? = none)
    (hproven : pool.PhaseProven decodeYenc request.expected request'.phase) :
    next.Sound decodeYenc := by
  refine h.move hindex hrequests hexpected hanswers (fun line => ?_) (fun line => ?_)
    (hturn'.trans hturn.symm) (fun slot turn hphase => absurd hphase (turn_ne_reading hturn' slot))
    hproven
  · simp only [hlines, ServerPool.release, updateLine]
    split
    · exact ⟨rfl, rfl, fun _ => rfl, id⟩
    · exact .refl _
  · have hbefore : request.phase.isOn line = decide (slot.line = line) := by
      rw [RequestPhase.isOn, hslot]
      rfl
    have hafter : request'.phase.isOn line = false := by
      rw [RequestPhase.isOn, hslot']
      rfl
    simp only [hlines, ServerPool.release, updateLine, hbefore, hafter]
    split
    · next heq =>
      subst heq
      have hpositive : 0 < (pool.lines slot.line).inFlight := by
        rw [h.inFlight]
        exact List.countP_pos_iff.mpr
          ⟨request, List.mem_of_getElem? hindex, by rw [hbefore]; exact decide_eq_true rfl⟩
      simp
      omega
    · next hne => simp [Ne.symm hne]

/-- A request gives its turn up, and with it the line. -/
theorem Sound.drop (h : pool.Sound decodeYenc) (hindex : pool.requests[index]? = some request)
    (hown : request.phase.turn? = some (line, turn)) {phase : RequestPhase δ α}
    (hon : ∀ line, phase.isOn line = request.phase.isOn line) (hafter : phase.turn? = none)
    (hproven : pool.PhaseProven decodeYenc request.expected phase) :
    Sound decodeYenc ((pool.updateLine line (·.dropTurn turn)).put index request phase) := by
  have hline : ((pool.updateLine line (·.dropTurn turn)).put index request phase).lines line =
      (pool.lines line).dropTurn turn := if_pos rfl
  refine h.over hindex hown .dropped rfl rfl (fun other hne => if_neg hne) ?_ nofun nofun
    ?_ ?_ hon hafter ?_ hproven
  · rw [hline]
    rfl
  · rw [hline]
    exact List.Subset.refl _
  · rw [hline]
    rfl
  · rw [hline]
    nofun

theorem Sound.cancel (h : pool.Sound decodeYenc) (hindex : pool.requests[index]? = some request)
    (hsending : ∀ slot, request.phase = .sending slot → delivered = false)
    (hcancel : pool.cancel index request delivered = some next) : next.Sound decodeYenc := by
  unfold ServerPool.cancel at hcancel
  split at hcancel
  case h_1 hphase | h_2 hphase =>
    cases hcancel
    exact h.goOn hindex hphase rfl rfl rfl rfl (fun _ => rfl) rfl nofun trivial
  case h_3 hphase =>
    cases hcancel
    exact h.goOn hindex hphase rfl rfl rfl rfl (fun _ => rfl) rfl nofun trivial
  case h_4 slot hphase =>
    cases hcancel
    exact h.release hindex (by rw [hphase]; rfl) rfl rfl rfl rfl rfl (by rw [hphase]; rfl) rfl trivial
  case h_5 slot hphase =>
    cases hcancel
    exact h.goOn hindex hphase rfl rfl rfl rfl (fun _ => rfl) rfl nofun trivial
  case h_6 slot hphase =>
    cases hcancel
    obtain rfl := hsending slot hphase
    exact h.onLine hindex ⟨rfl, rfl, fun _ => rfl, id⟩ rfl (fun _ => by rw [hphase]; rfl)
      (by rw [hphase]; rfl) nofun trivial
  case h_7 slot turn hphase | h_8 slot turn hphase =>
    cases hcancel
    exact h.drop hindex (by rw [hphase]; rfl) (fun _ => by rw [hphase]; rfl) rfl trivial
  case h_9 slot outcome hphase =>
    split at hcancel
    · cases hcancel
      exact h.onLine hindex ⟨rfl, rfl, nofun, nofun⟩ rfl (fun _ => by rw [hphase]; rfl)
        (by rw [hphase]; rfl) nofun trivial
    · cases hcancel
  all_goals cases hcancel

/-- What the outcome of an exchange says is what the request returns. -/
theorem settle_proven {expected : Text} {loop : ArticleLoop} {outcome : Outcome δ} {depth : Nat}
    (h : pool.PhaseProven decodeYenc expected (.answered slot outcome))
    (hdepth : ∀ status alone, outcome = .unavailable status alone → alone = false → depth ≠ 1) :
    pool.PhaseProven decodeYenc expected
      (.leaving slot (loop.settle decodeYenc depth outcome)) := by
  unfold ArticleLoop.settle
  split
  case h_1 data named =>
    split
    · next article hdecode => exact ⟨data, h, hdecode⟩
    · trivial
  case h_2 status alone =>
    split
    · next hbelieved =>
      cases alone with
      | true => exact h rfl
      | false =>
        rw [Bool.false_or] at hbelieved
        exact absurd (of_decide_eq_true hbelieved) (hdepth status false rfl rfl)
    · trivial
  all_goals trivial

theorem exhausted_proven {expected : Text} {loop : ArticleLoop}
    (h : loop.faults = 0 → loop.unconfirmed = none) :
    pool.ResultProven decodeYenc expected loop.exhausted := by
  unfold ArticleLoop.exhausted
  split
  · trivial
  · next hfaults =>
    rw [h (Nat.eq_zero_of_not_pos hfaults)]
    trivial

/-- A request has read the next answer to its end. -/
theorem Sound.finish (h : pool.Sound decodeYenc) (hindex : pool.requests[index]? = some request)
    (hphase : request.phase = .reading slot turn) {read : Answered δ} {rest : List (Answered δ)}
    (hwire : (pool.lines slot.line).wire = read :: rest)
    (hown : read.answer.refuses ∨ read.command = request.expected) {outcome : Outcome δ}
    (hproven : pool.PhaseProven decodeYenc request.expected (.answered slot outcome)) :
    Sound decodeYenc ((pool.updateLine slot.line fun _ =>
      { pool.lines slot.line with wire := rest }.finishTurn turn read).put index request
        (.answered slot outcome)) := by
  have hturn : request.phase.turn? = some (slot.line, turn) := by rw [hphase]; rfl
  have hline : ((pool.updateLine slot.line fun _ =>
      { pool.lines slot.line with wire := rest }.finishTurn turn read).put index request
        (.answered slot outcome)).lines slot.line =
      { pool.lines slot.line with wire := rest }.finishTurn turn read := if_pos rfl
  refine h.over hindex hturn (.finished read) rfl rfl (fun other hne => if_neg hne) ?_ nofun ?_ ?_ ?_
    (fun _ => by rw [hphase]; rfl) rfl ?_ hproven
  · rw [hline]
    rfl
  · rintro _ ⟨⟩
    exact h.wire slot.line read (hwire ▸ List.mem_cons_self ..)
  · rw [hline, hwire]
    exact List.subset_cons_self ..
  · rw [hline]
    rfl
  · rw [hline]
    intro hbroken
    exact ⟨hbroken, (h.inStep slot.line hbroken).finish (h.turn index request hindex _ _ hturn)
      (h.reading index request hindex slot turn hphase) hwire hown⟩

/-- A request has read the next answer, and does not trust the line any more. -/
theorem Sound.distrust (h : pool.Sound decodeYenc) (hindex : pool.requests[index]? = some request)
    (hphase : request.phase = .reading slot turn) {read : Answered δ} {rest : List (Answered δ)}
    (hwire : (pool.lines slot.line).wire = read :: rest) {outcome : Outcome δ}
    (hproven : pool.PhaseProven decodeYenc request.expected (.answered slot outcome)) :
    Sound decodeYenc ((pool.updateLine slot.line fun _ =>
      { pool.lines slot.line with wire := rest }.dropTurn turn).put index request
        (.answered slot outcome)) := by
  have hturn : request.phase.turn? = some (slot.line, turn) := by rw [hphase]; rfl
  have hline : ((pool.updateLine slot.line fun _ =>
      { pool.lines slot.line with wire := rest }.dropTurn turn).put index request
        (.answered slot outcome)).lines slot.line =
      { pool.lines slot.line with wire := rest }.dropTurn turn := if_pos rfl
  refine h.over hindex hturn .dropped rfl rfl (fun other hne => if_neg hne) ?_ nofun nofun ?_ ?_
    (fun _ => by rw [hphase]; rfl) rfl ?_ hproven
  · rw [hline]
    rfl
  · rw [hline, hwire]
    exact List.subset_cons_self ..
  · rw [hline]
    rfl
  · rw [hline]
    nofun

theorem Sound.readAnswer (h : pool.Sound decodeYenc) (hindex : pool.requests[index]? = some request)
    (hphase : request.phase = .reading slot turn)
    (hclear : clear (pool.lines slot.line) request.expected) {outcome : Outcome δ} {line : Line δ}
    (hread : (pool.lines slot.line).readAnswer turn request.expected = some (outcome, line)) :
    Sound decodeYenc ((pool.updateLine slot.line fun _ => line).put index request
      (.answered slot outcome)) := by
  unfold Line.readAnswer at hread
  split at hread
  · cases hread
  · next read rest hwire =>
    have hmem : read ∈ pool.answers := h.wire slot.line read (hwire ▸ List.mem_cons_self ..)
    rw [clear, hwire] at hclear
    have hread := Option.some.inj hread
    dsimp only at hread hclear
    split at hread
    · next body hbody =>
      have hnamed := NntpAnswer.names_ok (h.named read hmem) hbody
      rw [hbody] at hclear
      dsimp only at hclear
      rw [hnamed] at hclear hread
      dsimp only at hread
      split at hread
      · next hrequested =>
        cases hread
        exact h.finish hindex hphase hwire (.inr hrequested)
          ⟨read, hmem, hrequested, body, hbody, rfl⟩
      · next hother =>
        have hsent : read.command ∈ (pool.lines slot.line).sent := by
          simpa [hother] using hclear
        rw [if_pos hsent] at hread
        cases hread
        exact h.distrust hindex hphase hwire trivial
    · next status hrefusal =>
      cases hread
      have hrefuses := (readBody_unavailable hrefusal).1
      refine h.finish hindex hphase hwire (.inl hrefuses) fun halone => ?_
      have halone : (pool.lines slot.line).inFlight = 1 := of_decide_eq_true halone
      have hbroken : (pool.lines slot.line).broken = false := by
        rw [hrefusal] at hclear
        simpa [halone] using hclear
      exact h.refused_of_alone hindex hphase hbroken halone hwire hrefuses
    · cases hread
      exact h.distrust hindex hphase hwire trivial
    · cases hread
      exact h.distrust hindex hphase hwire trivial

/-- The request whose turn comes reads once all before it have read. -/
theorem Sound.earlier (h : pool.Sound decodeYenc) (hindex : pool.requests[index]? = some request)
    (hown : request.phase.turn? = some (line, turn)) (hbroken : (pool.lines line).broken = false)
    (hbefore : (pool.lines line).beforeTurn turn = none ∨
      ∃ read, (pool.lines line).beforeTurn turn = some (.finished read)) :
    ∀ earlier < turn, ((pool.lines line).turns[earlier]?.bind Turn.read?).isSome := by
  intro earlier hlt
  obtain ⟨before, rfl⟩ : ∃ before, turn = before + 1 := ⟨turn - 1, by omega⟩
  have hplace := (List.getElem?_eq_some_iff.mp (h.turn index request hindex line _ hown)).1
  have hget : (pool.lines line).turns[before]? = some (pool.lines line).turns[before] :=
    List.getElem?_eq_getElem (by omega)
  have hread : ((pool.lines line).turns[before]?.bind Turn.read?).isSome := by
    simp only [Line.beforeTurn, hget, Option.map_some] at hbefore
    obtain hnone | ⟨read, hread⟩ := hbefore
    · cases hnone
    · have := Turn.read?_eq_some.mpr (Option.some.inj hread)
      rw [hget, Option.bind_some, this]
      rfl
  rcases Nat.lt_or_ge earlier before with hearlier | hge
  · exact (h.inStep line hbroken).order earlier before hearlier hread
  · rwa [show earlier = before by omega]

/-- One case for each thing a request can do. -/
theorem Sound.act (h : pool.Sound decodeYenc) (hindex : pool.requests[index]? = some request)
    {step : Act} (hbelievable : pool.believable (.act index step))
    (hact : pool.act decodeYenc index request step = some next) : next.Sound decodeYenc := by
  rw [believable, hindex, Option.all_some] at hbelievable
  have hproven := h.proven index request hindex
  unfold ServerPool.act at hact
  split at hact
  case h_1 hphase =>
    split at hact
    · next hexhausted =>
      cases hact
      refine h.goOn hindex hphase rfl rfl rfl rfl (fun _ => rfl) rfl (by rintro _ _ ⟨⟩)
        (exhausted_proven fun hfaults => ?_)
      have hpasses : request.passes = maxPasses := hexhausted.resolve_right fun hattempts => by
        rw [hfaults] at hattempts
        cases hattempts
      rw [hphase] at hbelievable
      simpa [hpasses, hfaults] using hbelievable
    · cases hact
      exact h.goOn hindex hphase rfl rfl rfl rfl (fun _ => rfl) rfl (by rintro _ _ ⟨⟩) trivial
  case h_2 hphase =>
    split at hact <;> cases hact
    exact h.goOn hindex hphase rfl rfl rfl rfl (fun _ => rfl) rfl (by rintro _ _ ⟨⟩) trivial
  case h_3 hphase =>
    split at hact <;> cases hact
    case h_1 slot hchoice =>
      exact h.take hindex { pool with locked := false } rfl rfl rfl (.placed slot)
        (by rw [hphase]; rfl) rfl (by rw [hphase]; rfl) (by rintro _ _ ⟨⟩) trivial
    case h_2 =>
      exact h.goOn hindex hphase rfl rfl rfl rfl (fun _ => rfl) rfl (by rintro _ _ ⟨⟩) trivial
    case h_3 =>
      exact h.goOn hindex hphase rfl rfl rfl rfl (fun _ => rfl) rfl (by rintro _ _ ⟨⟩) trivial
  case h_4 hphase =>
    cases hact
    exact h.take hindex { pool with opened := pool.opened + 1 } rfl rfl rfl (.opened _)
      (by rw [hphase]; rfl) rfl (by rw [hphase]; rfl) (by rintro _ _ ⟨⟩) trivial
  case h_5 hphase =>
    cases hact
    exact h.goOn hindex hphase rfl rfl rfl rfl (fun _ => rfl) rfl (by rintro _ _ ⟨⟩) trivial
  case h_6 slot hphase =>
    split at hact <;> cases hact
    exact h.goOn hindex hphase rfl rfl rfl rfl (fun _ => rfl) rfl (by rintro _ _ ⟨⟩) trivial
  case h_7 slot hphase =>
    cases hact
    exact h.goOn hindex hphase rfl rfl rfl rfl (fun _ => rfl) rfl (by rintro _ _ ⟨⟩) trivial
  case h_8 slot hphase =>
    dsimp only at hact
    split at hact
    · cases hact
    · split at hact <;> cases hact
      · exact h.goOn hindex hphase rfl rfl rfl rfl (fun _ => rfl) rfl (by rintro _ _ ⟨⟩) trivial
      · exact h.onLine hindex ⟨rfl, rfl, fun _ => rfl, id⟩ rfl (fun _ => by rw [hphase]; rfl)
          (by rw [hphase]; rfl) (by rintro _ _ ⟨⟩) trivial
  case h_9 slot hphase =>
    split at hact <;> cases hact
    exact h.send hindex hphase
  case h_10 slot _ _ hphase =>
    cases hact
    exact h.onLine hindex ⟨rfl, rfl, by rintro ⟨⟩, by rintro ⟨⟩⟩ rfl (fun _ => by rw [hphase]; rfl)
      (by rw [hphase]; rfl) (by rintro _ _ ⟨⟩) trivial
  case h_11 slot turn hphase =>
    have hown : request.phase.turn? = some (slot.line, turn) := by rw [hphase]; rfl
    have hcollateral : Sound decodeYenc ((pool.updateLine slot.line (·.dropTurn turn)).put index
        request (.answered slot .collateral)) :=
      h.drop hindex hown (fun _ => by rw [hphase]; rfl) rfl trivial
    have hreading (hbroken : ¬ (pool.lines slot.line).broken)
        (hbefore : (pool.lines slot.line).beforeTurn turn = none ∨
          ∃ read, (pool.lines slot.line).beforeTurn turn = some (.finished read)) :
        Sound decodeYenc (pool.put index request (.reading slot turn)) := by
      refine h.stay hindex rfl rfl rfl rfl (fun _ => by rw [hphase]; rfl) (by rw [hphase]; rfl)
        (fun slot' turn' hreading => ?_) trivial
      cases hreading
      exact h.earlier hindex hown (Bool.not_eq_true _ ▸ hbroken) hbefore
    dsimp only at hact
    split at hact
    · cases hact
    · cases hact
      exact hcollateral
    · next hbefore =>
      split at hact <;> cases hact
      · exact hcollateral
      · next hbroken => exact hreading hbroken (.inl hbefore)
    · next read hbefore =>
      split at hact <;> cases hact
      · exact hcollateral
      · next hbroken => exact hreading hbroken (.inr ⟨read, hbefore⟩)
  case h_12 slot turn hphase =>
    obtain ⟨⟨outcome, line⟩, hread, rfl⟩ := Option.map_eq_some_iff.mp hact
    rw [hphase] at hbelievable
    exact h.readAnswer hindex hphase hbelievable hread
  case h_13 slot turn _ hphase =>
    cases hact
    exact h.drop hindex (by rw [hphase]; rfl) (fun _ => by rw [hphase]; rfl) rfl trivial
  case h_14 slot outcome hphase =>
    rw [hphase] at hbelievable hproven
    have hproven' : pool.PhaseProven decodeYenc request.expected
        (.leaving slot (request.loop.settle decodeYenc pool.depth outcome)) := by
      refine settle_proven hproven fun status alone houtcome halone => ?_
      rw [houtcome] at hbelievable
      simpa [halone] using hbelievable
    dsimp only at hact
    cases hretires : outcome.retires with
    | true =>
      rw [hretires, if_pos rfl] at hact
      split at hact
      · cases hact
      · obtain rfl := Option.some.inj hact
        refine h.move hindex rfl rfl rfl (fun line => ?_) (fun line => ?_) (by rw [hphase]; rfl)
          (by rintro _ _ ⟨⟩) hproven'
        · simp only [put, retire, retain, updateLine]
          split
          · exact ⟨rfl, rfl, by rintro ⟨⟩, by rintro ⟨⟩⟩
          · exact .refl _
        · rw [hphase]
          simp only [put, retire, retain, updateLine]
          split <;> rfl
    | false =>
      rw [hretires, if_neg Bool.false_ne_true] at hact
      obtain rfl := Option.some.inj hact
      exact h.goOn hindex hphase rfl rfl rfl rfl (fun _ => rfl) rfl (by rintro _ _ ⟨⟩) hproven'
  case h_15 slot after hphase =>
    rw [hphase] at hproven
    split at hact <;> cases hact
    · exact h.release hindex (by rw [hphase]; rfl) rfl rfl rfl rfl rfl (by rw [hphase]; rfl) rfl
        trivial
    · next result =>
      refine h.release hindex (by rw [hphase]; rfl) rfl rfl rfl rfl rfl (by rw [hphase]; rfl) rfl ?_
      cases result with
      | none => trivial
      | some result => exact hproven
  case h_16 =>
    refine h.cancel hindex (fun slot hphase => ?_) hact
    rw [hphase] at hbelievable
    simpa using hbelievable
  case h_17 => cases hact

theorem Sound.step {event : PoolEvent δ} (h : pool.Sound decodeYenc)
    (hfaithful : pool.faithful event) (hbelievable : pool.believable event)
    (hstep : pool.step decodeYenc event = some next) : next.Sound decodeYenc := by
  cases event with
  | ask messageId =>
    simp only [ServerPool.step] at hstep
    split at hstep <;> cases hstep
    exact h.ask messageId
  | act index step =>
    obtain ⟨request, hindex, hact⟩ := Option.bind_eq_some_iff.mp hstep
    exact h.act hindex hbelievable hact
  | serve line index answer => exact h.serve hfaithful hstep

theorem newLine_inStep : ({} : Line δ).InStep where
  kept _ h := nomatch h
  order _ _ _ h := by cases h
  balance := .refl _
  own _ h := nomatch h

theorem new_sound (connections : Nat) (outOfStep : Bool) :
    Sound decodeYenc (new connections outOfStep) where
  inStep _ _ := newLine_inStep
  named _ h := nomatch h
  wire _ _ h := nomatch h
  read _ _ h := nomatch h
  inFlight _ := rfl
  turn _ _ h := by cases h
  unique _ _ _ _ h := by cases h
  owner _ _ _ _ h := by cases h
  reading _ _ h := by cases h
  proven _ _ h := by cases h

/-- With a server that names what it sends, in whatever order, a request that returns tells the
truth in every run of believable steps. -/
theorem proven_of_believable
    (h : (machine decodeYenc).Reaches
      (fun pool event => pool.faithful event ∧ pool.believable event) pool) :
    pool.Proven decodeYenc := by
  have hsound : pool.Sound decodeYenc := by
    refine h.invariant (Sound decodeYenc) ?_ ?_
    · rintro _ ⟨connections, outOfStep, -, rfl⟩
      exact new_sound connections outOfStep
    · intro pool event next hsound ⟨hfaithful, hbelievable⟩ hstep
      exact hsound.step hfaithful hbelievable hstep
  intro request hrequest result hphase
  obtain ⟨index, hindex⟩ := List.getElem?_of_mem hrequest
  have hproven := hsound.proven index request hindex
  rwa [hphase] at hproven

/-! ## Refusals and bodies that reach the wrong request -/

def absent : NntpAnswer Nat := ⟨"430 no such article".toList, 0⟩

def present (id : Char) (data : Nat) : NntpAnswer Nat :=
  ⟨"222 0 <".toList ++ [id] ++ ">".toList, data⟩

theorem new_reaches_faithful :
    (machine plainDecode).Reaches (fun pool event => pool.faithful event) (new 1 false) :=
  new_reaches

/-- The second request's refusal comes first, and the second is cancelled. -/
def refusalOfCancelled : List (PoolEvent Nat) :=
  shareLine ++ [.serve 0 1 absent, .act 1 (.cancel false), .act 1 .leave, .act 0 .read,
    .act 0 .settle, .act 0 .leave]

/-- The first request is alone on the line by then, and takes the refusal for its own. -/
theorem absence_unproven : ∃ pool,
    (machine plainDecode).Reaches (fun pool event => pool.faithful event) pool ∧
      pool.requests.map (·.phase matches .done (some (.error (.unavailable _)))) = [true, false] ∧
      ¬ pool.Proven plainDecode := by
  have hrun : ∃ pool, (machine plainDecode).run (new 1 false) refusalOfCancelled = some pool ∧
      pool.requests.map (·.phase matches .done (some (.error (.unavailable _)))) = [true, false] ∧
      pool.answers.map (·.command) = [['b']] ∧
      ∃ request ∈ pool.requests, request.expected = ['a'] ∧
        request.phase = .done (some (.error (.unavailable absent.status))) := by
    refine ⟨_, rfl, by decide +kernel, rfl, _, List.mem_cons_self .., rfl, rfl⟩
  obtain ⟨pool, hrun, hphases, hanswers, request, hrequest, hexpected, hphase⟩ := hrun
  have hwithin : (machine plainDecode).Within (fun pool event => pool.faithful event) (new 1 false)
      refusalOfCancelled := by decide +kernel
  refine ⟨pool, new_reaches_faithful.within hwithin hrun, hphases, fun hproven => ?_⟩
  obtain ⟨answered, hmem, hcommand, -⟩ := hproven request hrequest _ hphase
  have : answered.command ∈ [['b']] := hanswers ▸ List.mem_map_of_mem hmem
  rw [hcommand, hexpected] at this
  cases this with
  | tail _ h => cases h

/-- A request is cancelled while it sends, and its command goes out. -/
def bodyOfCancelled : List (PoolEvent Nat) :=
  [.ask ['a'], .act 0 .pass, .act 0 .lock, .act 0 .choose, .act 0 .connected, .act 0 .push,
    .act 0 .unreserve, .act 0 .lockWriter, .act 0 (.cancel true), .act 0 .leave,
    .ask ['b'], .act 1 .pass, .act 1 .lock, .act 1 .choose, .act 1 .lockWriter, .act 1 .send,
    .act 1 .turn, .serve 0 0 (present 'a' 7), .act 1 .read, .act 1 .settle, .act 1 .leave]

/-- The next request on the line is given the body. -/
theorem body_of_another :
    ∃ pool, (machine plainDecode).run (new 1 false) bodyOfCancelled = some pool ∧
      (pool.requests[1]?.any fun request =>
        request.expected = ['b'] && request.phase matches .done (some (.ok 7))) ∧
      pool.answers.map (·.command) = [['a']] :=
  ⟨_, rfl, by decide +kernel, rfl⟩

/-- The first request's refusal comes beside the second request, so it asks once more, alone. -/
def askedAlone : List (PoolEvent Nat) :=
  shareLine ++ [.serve 0 0 absent, .act 0 .read, .act 0 .settle, .act 0 .leave,
    .serve 0 0 (present 'b' 7), .act 1 .turn, .act 1 .read, .act 1 .settle, .act 1 .leave,
    .act 0 .pass, .act 0 .lock, .act 0 .choose, .act 0 .lockWriter, .act 0 .send, .act 0 .turn,
    .serve 0 0 absent, .act 0 .read, .act 0 .settle, .act 0 .leave]

theorem proven_of_believable_askedAlone : ∃ pool,
    (machine plainDecode).run (new 1 false) askedAlone = some pool ∧
      (pool.requests.map fun request => match request.phase with
        | .done (some (.ok article)) => some (some article)
        | .done (some (.error (.unavailable _))) => some none
        | _ => none) = [some none, some (some 7)] ∧
      pool.Proven plainDecode := by
  have hwithin : (machine plainDecode).Within
      (fun pool event => pool.faithful event ∧ pool.believable event) (new 1 false) askedAlone := by
    decide +kernel
  exact ⟨_, rfl, rfl, proven_of_believable (new_reaches.within hwithin rfl)⟩

end ServerPool
end RDownloader
