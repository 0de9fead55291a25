import RDownloader.Auth.SecondFactor
import Mathlib.Data.List.Nodup

/-!
# A second factor is single-use

What was spent is refused by the row it was spent on, for as long as that row is there, and no
later row takes its place: ids and serials are not given twice.
-/

namespace RDownloader

namespace SecondFactor

namespace MfaTables

variable {tables next : MfaTables}

/-- What the ids that are given guarantee. -/
structure Sound (tables : MfaTables) : Prop where
  given : ∀ row ∈ tables.credentials, row.id < tables.nextCredential
  serials : (tables.codes.map (·.serial)).Nodup
  issued : ∀ row ∈ tables.codes, row.serial < tables.nextSerial

/-- A factor that the tables will not take, now or later. -/
def Refuses (tables : MfaTables) : Factor → Prop
  | .totp credential step => credential < tables.nextCredential ∧
      ∀ row ∈ tables.credentials, row.id = credential →
        ∃ last, row.lastTotpStep = some last ∧ min step i64Max ≤ last
  | .recovery serial => serial < tables.nextSerial ∧
      ∀ row ∈ tables.codes, row.serial = serial → row.used = true

/-- Statements under which nothing that was spent comes back. -/
structure Follows (tables next : MfaTables) : Prop where
  sound : next.Sound
  refuses : ∀ factor, tables.Refuses factor → next.Refuses factor

/-- A statement that keeps the steps of the credentials it keeps. -/
theorem Refuses.of_credentials {factor : Factor} (h : tables.Refuses factor)
    (hnext : tables.nextCredential ≤ next.nextCredential)
    (hserial : tables.nextSerial = next.nextSerial)
    (hcredentials : ∀ row ∈ next.credentials, row.id < tables.nextCredential →
      ∃ old ∈ tables.credentials, old.id = row.id ∧ old.lastTotpStep = row.lastTotpStep)
    (hcodes : ∀ row ∈ next.codes, row ∈ tables.codes) : next.Refuses factor := by
  cases factor with
  | totp credential step =>
    obtain ⟨hgiven, hrows⟩ := h
    refine ⟨Nat.lt_of_lt_of_le hgiven hnext, fun row hmem hid => ?_⟩
    obtain ⟨old, hold, hsame, hlast⟩ := hcredentials row hmem (hid ▸ hgiven)
    exact hlast ▸ hrows old hold (hsame.trans hid)
  | recovery serial =>
    obtain ⟨hissued, hrows⟩ := h
    exact ⟨hserial ▸ hissued, fun row hmem => hrows row (hcodes row hmem)⟩

theorem Sound.createCredential (h : tables.Sound) (kind : MfaKind) :
    tables.Follows (tables.createCredential kind) := by
  refine ⟨⟨fun row hmem => ?_, h.serials, h.issued⟩, fun factor hrefuses => ?_⟩
  · rcases List.mem_append.mp hmem with hmem | hmem
    · exact Nat.lt_succ_of_lt (h.given row hmem)
    · rw [List.mem_singleton.mp hmem]
      exact Nat.lt_succ_self _
  refine hrefuses.of_credentials (Nat.le_succ _) rfl (fun row hmem hold => ?_) fun _ hmem => hmem
  rcases List.mem_append.mp hmem with hmem | hmem
  · exact ⟨row, hmem, rfl, rfl⟩
  · rw [List.mem_singleton.mp hmem] at hold
    exact absurd hold (Nat.lt_irrefl _)

theorem Sound.confirmCredential (h : tables.Sound) (id : MfaCredentialId) :
    tables.Follows (tables.confirmCredential id) := by
  refine ⟨⟨fun row hmem => ?_, h.serials, h.issued⟩, fun factor hrefuses => ?_⟩
  · obtain ⟨old, hold, rfl⟩ := List.mem_map.mp hmem
    split <;> exact h.given old hold
  refine hrefuses.of_credentials (Nat.le_refl _) rfl (fun row hmem _ => ?_) fun _ hmem => hmem
  obtain ⟨old, hold, rfl⟩ := List.mem_map.mp hmem
  refine ⟨old, hold, ?_, ?_⟩ <;> split <;> rfl

theorem Sound.deleteCredential (h : tables.Sound) (id : MfaCredentialId) :
    tables.Follows (tables.deleteCredential id) := by
  refine ⟨⟨fun row hmem => h.given row (List.mem_of_mem_filter hmem), h.serials, h.issued⟩,
    fun factor hrefuses => ?_⟩
  exact hrefuses.of_credentials (Nat.le_refl _) rfl
    (fun row hmem _ => ⟨row, List.mem_of_mem_filter hmem, rfl, rfl⟩) fun _ hmem => hmem

theorem Sound.clear (h : tables.Sound) (kind : MfaKind) : tables.Follows (tables.clear kind) := by
  refine ⟨⟨fun row hmem => h.given row (List.mem_of_mem_filter hmem), List.nodup_nil,
    fun _ hmem => nomatch hmem⟩, fun factor hrefuses => ?_⟩
  exact hrefuses.of_credentials (Nat.le_refl _) rfl
    (fun row hmem _ => ⟨row, List.mem_of_mem_filter hmem, rfl, rfl⟩) fun _ hmem => nomatch hmem

theorem mem_codes_replaced {digests : List String} {row : RecoveryCode} {serial : Nat}
    (hmem : row ∈ digests.mapIdx fun index digest =>
      ({ digest, serial := serial + index } : RecoveryCode)) :
    serial ≤ row.serial ∧ row.serial < serial + digests.length := by
  obtain ⟨index, hindex, rfl⟩ := List.mem_mapIdx.mp hmem
  exact ⟨Nat.le_add_right .., Nat.add_lt_add_left hindex _⟩

theorem Sound.replaceRecoveryCodes (h : tables.Sound) {digests : List String}
    (hnext : tables.replaceRecoveryCodes digests = some next) : tables.Follows next := by
  unfold MfaTables.replaceRecoveryCodes at hnext
  split at hnext
  case isFalse => cases hnext
  obtain rfl := Option.some.inj hnext
  refine ⟨⟨h.given, ?_, fun row hmem => (mem_codes_replaced hmem).2⟩, fun factor hrefuses => ?_⟩
  · have hserials : (digests.mapIdx fun index digest =>
        ({ digest, serial := tables.nextSerial + index } : RecoveryCode)).map (·.serial) =
        List.range' tables.nextSerial digests.length := by
      refine List.ext_getElem (by simp) fun index hleft hright => ?_
      simp
    exact hserials ▸ List.nodup_range'
  · cases factor with
    | totp => exact hrefuses
    | recovery serial =>
      refine ⟨Nat.lt_of_lt_of_le hrefuses.1 (Nat.le_add_right ..), fun row hmem hsame => ?_⟩
      exact absurd hrefuses.1 (Nat.not_lt.mpr (hsame ▸ (mem_codes_replaced hmem).1))

/-- A step that is accepted is past those that were, and is refused from then on. -/
theorem Sound.acceptTotpStep (h : tables.Sound) {id : MfaCredentialId} {step : Nat}
    (hnext : tables.acceptTotpStep id (min step i64Max) = some next) :
    tables.Follows next ∧ next.Refuses (.totp id step) ∧
      ∀ earlier, tables.Refuses (.totp id earlier) → earlier < step := by
  unfold MfaTables.acceptTotpStep at hnext
  split at hnext
  case isFalse => cases hnext
  case isTrue hany =>
    obtain rfl := Option.some.inj hnext
    obtain ⟨row, hmem, hrow⟩ := List.any_eq_true.mp hany
    obtain ⟨hid, hlast⟩ := of_decide_eq_true hrow
    have hids (row : MfaCredential) :
        (if row.id = id ∧ row.lastTotpStep.all (· < min step i64Max) then
          { row with lastTotpStep := some (min step i64Max) } else row).id = row.id := by
      split <;> rfl
    refine ⟨⟨⟨fun row hmem => ?_, h.serials, h.issued⟩, fun factor hrefuses => ?_⟩, ⟨?_, ?_⟩, ?_⟩
    · obtain ⟨old, hold, rfl⟩ := List.mem_map.mp hmem
      split <;> exact h.given old hold
    · cases factor with
      | recovery => exact hrefuses
      | totp credential earlier =>
        refine ⟨hrefuses.1, fun row hmem hsame => ?_⟩
        obtain ⟨old, hold, rfl⟩ := List.mem_map.mp hmem
        obtain ⟨last, hlast, hle⟩ := hrefuses.2 old hold ((hids old).symm.trans hsame)
        split
        next hupdated =>
          have hlt := of_decide_eq_true ((Option.all_eq_true ..).mp hupdated.2 last hlast)
          exact ⟨_, rfl, Nat.le_of_lt (Nat.lt_of_le_of_lt hle hlt)⟩
        · exact ⟨last, hlast, hle⟩
    · exact hid ▸ h.given row hmem
    · intro row hmem hsame
      obtain ⟨old, hold, rfl⟩ := List.mem_map.mp hmem
      have hsameOld := (hids old).symm.trans hsame
      split
      · exact ⟨_, rfl, Nat.le_refl _⟩
      next hkept =>
        cases hlast : old.lastTotpStep with
        | none => exact absurd ⟨hsameOld, by rw [hlast]; rfl⟩ hkept
        | some last =>
          refine ⟨last, rfl, Nat.not_lt.mp fun hlt => hkept ⟨hsameOld, ?_⟩⟩
          rw [hlast]
          exact decide_eq_true hlt
    · intro earlier hrefuses
      obtain ⟨last, hsome, hle⟩ := hrefuses.2 row hmem hid
      have hlt := of_decide_eq_true ((Option.all_eq_true ..).mp hlast last hsome)
      omega

/-- A code that is spent was not spent, and is from then on. -/
theorem Sound.spendRecoveryCode (h : tables.Sound) {digest : String} {serial : Nat}
    (hnext : tables.spendRecoveryCode digest = some (next, serial)) :
    tables.Follows next ∧ next.Refuses (.recovery serial) ∧
      ¬tables.Refuses (.recovery serial) := by
  obtain ⟨spent, hfind, heq⟩ := Option.map_eq_some_iff.mp hnext
  obtain ⟨rfl, rfl⟩ := Prod.mk.inj heq
  have hmem := List.mem_of_find?_eq_some hfind
  have hfound := List.find?_some hfind
  obtain ⟨hdigest, hunused⟩ := of_decide_eq_true hfound
  have hserial (row : RecoveryCode) :
      (if row.digest = digest ∧ row.used = false then { row with used := true } else row).serial =
        row.serial := by
    split <;> rfl
  refine ⟨⟨⟨h.given, ?_, fun row hrow => ?_⟩, fun factor hrefuses => ?_⟩,
    ⟨h.issued spent hmem, fun row hrow hsame => ?_⟩, fun hrefuses => ?_⟩
  · rw [List.map_map]
    exact (List.map_congr_left fun row _ => hserial row) ▸ h.serials
  · obtain ⟨old, hold, rfl⟩ := List.mem_map.mp hrow
    exact (hserial old).symm ▸ h.issued old hold
  · cases factor with
    | totp => exact hrefuses
    | recovery other =>
      refine ⟨hrefuses.1, fun row hrow hsame => ?_⟩
      obtain ⟨old, hold, rfl⟩ := List.mem_map.mp hrow
      have hused := hrefuses.2 old hold ((hserial old).symm.trans hsame)
      split
      · rfl
      · exact hused
  · obtain ⟨old, hold, rfl⟩ := List.mem_map.mp hrow
    obtain rfl := List.inj_on_of_nodup_map h.serials hold hmem ((hserial old).symm.trans hsame)
    rw [if_pos ⟨hdigest, hunused⟩]
  · exact Bool.false_ne_true (hunused.symm.trans (hrefuses.2 spent hmem rfl))

/-- What is spent was not refused, and is from then on. -/
theorem Sound.consume (h : tables.Sound) {found : SecondFactorMatch} {factor : Factor}
    (hnext : tables.consume found = some (next, factor)) :
    tables.Follows next ∧ next.Refuses factor ∧ ¬tables.Refuses factor ∧
      ∀ credential step earlier, factor = .totp credential step →
        tables.Refuses (.totp credential earlier) → earlier < step := by
  cases found with
  | none => cases hnext
  | totp id step =>
    obtain ⟨tables', haccept, heq⟩ := Option.map_eq_some_iff.mp hnext
    obtain ⟨rfl, rfl⟩ := Prod.mk.inj heq
    obtain ⟨hfollows, hrefuses, hpast⟩ := h.acceptTotpStep haccept
    refine ⟨hfollows, hrefuses, fun hbefore => Nat.lt_irrefl _ (hpast step hbefore), ?_⟩
    rintro credential step' earlier heq
    obtain ⟨rfl, rfl⟩ := Factor.totp.inj heq
    exact hpast earlier
  | recovery digest =>
    obtain ⟨⟨tables', serial⟩, hspend, heq⟩ := Option.map_eq_some_iff.mp hnext
    obtain ⟨rfl, rfl⟩ := Prod.mk.inj heq
    obtain ⟨hfollows, hrefuses, hunspent⟩ := h.spendRecoveryCode hspend
    exact ⟨hfollows, hrefuses, hunspent, fun _ _ _ heq => nomatch heq⟩

end MfaTables

namespace MfaState

variable {crypto : Digests} {state next : MfaState} {event : MfaEvent}

/-- What a step does to the factors and to the sign-ins. -/
inductive StepsTo (state : MfaState) : MfaState → Prop
  | begins (code : Option Text) (passwordOk : Bool) : StepsTo state
      { state with
        signIns := fun other =>
          if other = state.nextSignIn then some { code, passwordOk } else state.signIns other
        nextSignIn := state.nextSignIn + 1 }
  | moves {id : SignInId} {signIn : SignIn} (stage : SignInStage)
      (hsignIn : state.signIns id = some signIn) (hopen : signIn.stage ≠ .ended)
      (hstage : ∀ factor, stage ≠ .passed (some factor)) :
      StepsTo state (state.setStage id signIn stage)
  | spends {id : SignInId} {signIn : SignIn} {found : SecondFactorMatch} {tables : MfaTables}
      {factor : Factor} (hsignIn : state.signIns id = some signIn) (hopen : signIn.stage ≠ .ended)
      (hpassword : signIn.passwordOk = true)
      (hconsume : state.tables.consume found = some (tables, factor)) :
      StepsTo state
        { state.setStage id signIn (.passed (some factor)) with
          tables
          spent := state.spent ++ [⟨id, factor⟩] }
  | admits {id : SignInId} {signIn : SignIn} {factor : Option Factor}
      (hsignIn : state.signIns id = some signIn) (hstage : signIn.stage = .passed factor) :
      StepsTo state
        { state.setStage id signIn .ended with admitted := state.admitted ++ [⟨id, factor⟩] }
  | manages {tables : MfaTables}
      (hfollows : state.tables.Sound → state.tables.Follows tables) :
      StepsTo state { state with tables }

theorem afterPassword_ne (tables : MfaTables) (signIn : SignIn) (factor : Factor) :
    afterPassword tables signIn ≠ .passed (some factor) := by
  unfold afterPassword
  split
  · split <;> exact SignInStage.noConfusion
  · split
    · exact fun h => nomatch SignInStage.passed.inj h
    · exact SignInStage.noConfusion

theorem step_cases (hstep : step crypto state event = some next) : StepsTo state next := by
  cases event with
  | signIn code passwordOk =>
    obtain rfl := Option.some.inj hstep
    exact .begins code passwordOk
  | listCredentials id =>
    obtain ⟨signIn, hsignIn, hnext⟩ := Option.bind_eq_some_iff.mp hstep
    split at hnext
    case h_2 => cases hnext
    next hstage =>
      obtain rfl := Option.some.inj hnext
      exact .moves _ hsignIn (hstage ▸ SignInStage.noConfusion) (afterPassword_ne _ _)
  | readMaterial id =>
    obtain ⟨signIn, hsignIn, hnext⟩ := Option.bind_eq_some_iff.mp hstep
    split at hnext
    case h_2 => cases hnext
    next code hstage =>
      obtain rfl := Option.some.inj hnext
      exact .moves _ hsignIn (hstage ▸ SignInStage.noConfusion) fun _ => SignInStage.noConfusion
  | checkCredential id secret now =>
    obtain ⟨signIn, hsignIn, hnext⟩ := Option.bind_eq_some_iff.mp hstep
    split at hnext
    case h_2 => cases hnext
    next code credential rest hstage =>
      obtain rfl := Option.some.inj hnext
      refine .moves _ hsignIn (hstage ▸ SignInStage.noConfusion) fun factor => ?_
      unfold afterCredential
      split <;> exact SignInStage.noConfusion
  | readDigests id =>
    obtain ⟨signIn, hsignIn, hnext⟩ := Option.bind_eq_some_iff.mp hstep
    split at hnext
    case h_2 => cases hnext
    next code hstage =>
      obtain rfl := Option.some.inj hnext
      refine .moves _ hsignIn (hstage ▸ SignInStage.noConfusion) fun factor => ?_
      unfold afterDigests
      split <;> exact SignInStage.noConfusion
  | consume id =>
    obtain ⟨signIn, hsignIn, hnext⟩ := Option.bind_eq_some_iff.mp hstep
    split at hnext
    case h_2 => cases hnext
    next found hstage =>
      have hopen : signIn.stage ≠ .ended := hstage ▸ SignInStage.noConfusion
      obtain rfl := Option.some.inj hnext
      unfold MfaState.consume
      split
      next hpassword =>
        split
        next hconsume => exact .spends hsignIn hopen hpassword hconsume
        next => exact .moves _ hsignIn hopen fun _ => SignInStage.noConfusion
      next => exact .moves _ hsignIn hopen fun _ => SignInStage.noConfusion
  | openSession id =>
    obtain ⟨signIn, hsignIn, hnext⟩ := Option.bind_eq_some_iff.mp hstep
    split at hnext
    case h_2 => cases hnext
    next factor hstage =>
      obtain rfl := Option.some.inj hnext
      exact .admits hsignIn hstage
  | fail id =>
    obtain ⟨signIn, hsignIn, hnext⟩ := Option.bind_eq_some_iff.mp hstep
    split at hnext
    · cases hnext
    next hopen =>
      obtain rfl := Option.some.inj hnext
      exact .moves _ hsignIn hopen fun _ => SignInStage.noConfusion
  | createCredential kind =>
    obtain rfl := Option.some.inj hstep
    exact .manages (·.createCredential kind)
  | replaceCodes digests =>
    obtain ⟨tables, hreplace, hnext⟩ := Option.bind_eq_some_iff.mp hstep
    obtain rfl := Option.some.inj hnext
    exact .manages (·.replaceRecoveryCodes hreplace)
  | confirm credential =>
    obtain rfl := Option.some.inj hstep
    exact .manages (·.confirmCredential credential)
  | delete credential =>
    obtain rfl := Option.some.inj hstep
    exact .manages (·.deleteCredential credential)
  | clear kind =>
    obtain rfl := Option.some.inj hstep
    exact .manages (·.clear kind)

/-- Each factor is spent once and lets one sign-in through at most, the steps of a credential
increase, and nothing is spent by a sign-in with a wrong password. -/
structure SingleUse (state : MfaState) : Prop where
  increasing : state.spent.Pairwise fun earlier later => ∀ credential step step',
    earlier.factor = .totp credential step → later.factor = .totp credential step' → step < step'
  spentOnce : (state.spent.map (·.factor)).Nodup
  admittedOnce : (state.admitted.filterMap (·.factor)).Nodup
  owned : ∀ spend ∈ state.spent, ∃ signIn, state.signIns spend.signIn = some signIn ∧
    signIn.passwordOk = true

/-- What is true of the sign-ins besides. -/
structure Sound (state : MfaState) : Prop extends SingleUse state where
  tables : state.tables.Sound
  refuses : ∀ spend ∈ state.spent, state.tables.Refuses spend.factor
  given : ∀ id signIn, state.signIns id = some signIn → id < state.nextSignIn
  passed : ∀ id signIn factor, state.signIns id = some signIn →
    signIn.stage = .passed (some factor) → ⟨id, factor⟩ ∈ state.spent
  through : ∀ admission ∈ state.admitted, ∀ factor, admission.factor = some factor →
    ⟨admission.signIn, factor⟩ ∈ state.spent
  closed : ∀ admission ∈ state.admitted, ∃ signIn,
    state.signIns admission.signIn = some signIn ∧ signIn.stage = .ended

theorem sound_empty : Sound {} where
  increasing := .nil
  spentOnce := List.nodup_nil
  admittedOnce := List.nodup_nil
  owned _ hmem := nomatch hmem
  tables := ⟨fun _ hmem => (nomatch hmem), List.nodup_nil, fun _ hmem => nomatch hmem⟩
  refuses _ hmem := nomatch hmem
  given _ _ h := nomatch h
  passed _ _ _ h := nomatch h
  through _ hmem := nomatch hmem
  closed _ hmem := nomatch hmem

/-- A sign-in that goes on keeps its password. -/
theorem Sound.setStage_owned (h : state.Sound) {id : SignInId} {signIn : SignIn}
    (hsignIn : state.signIns id = some signIn) (stage : SignInStage) :
    ∀ spend ∈ state.spent, ∃ other, (state.setStage id signIn stage).signIns spend.signIn =
      some other ∧ other.passwordOk = true := by
  intro spend hmem
  obtain ⟨other, hother, hpassword⟩ := h.owned spend hmem
  by_cases hsame : spend.signIn = id
  · refine ⟨_, if_pos hsame, ?_⟩
    rw [hsame, hsignIn] at hother
    exact Option.some.inj hother ▸ hpassword
  · exact ⟨other, (if_neg hsame).trans hother, hpassword⟩

theorem Sound.setStage_given (h : state.Sound) {id : SignInId} {signIn : SignIn}
    (hsignIn : state.signIns id = some signIn) (stage : SignInStage) :
    ∀ other again, (state.setStage id signIn stage).signIns other = some again →
      other < state.nextSignIn := by
  intro other again hother
  dsimp only [setStage] at hother
  split at hother
  next hsame => exact hsame ▸ h.given id signIn hsignIn
  next => exact h.given other again hother

/-- A session that was opened belongs to another sign-in than one that is not over. -/
theorem Sound.setStage_over (h : state.Sound) {id : SignInId} {signIn : SignIn}
    (hsignIn : state.signIns id = some signIn) (hopen : signIn.stage ≠ .ended)
    (stage : SignInStage) :
    ∀ admission ∈ state.admitted, ∃ other,
      (state.setStage id signIn stage).signIns admission.signIn = some other ∧
        other.stage = .ended := by
  intro admission hmem
  obtain ⟨other, hother, hended⟩ := h.closed admission hmem
  refine ⟨other, (if_neg fun hsame => ?_).trans hother, hended⟩
  rw [hsame, hsignIn] at hother
  exact hopen (Option.some.inj hother ▸ hended)

theorem Sound.step (h : state.Sound) (hstep : StepsTo state next) : next.Sound := by
  cases hstep with
  | begins code passwordOk =>
    -- The new sign-in has an id that none has.
    have hold {id : SignInId} {signIn : SignIn} (hsignIn : state.signIns id = some signIn) :
        (if id = state.nextSignIn then some { code, passwordOk } else state.signIns id) =
          some signIn :=
      (if_neg (Nat.ne_of_lt (h.given id signIn hsignIn))).trans hsignIn
    refine { h with owned := ?_, given := ?_, passed := ?_, closed := ?_ }
    · intro spend hmem
      obtain ⟨signIn, hsignIn, hpassword⟩ := h.owned spend hmem
      exact ⟨signIn, hold hsignIn, hpassword⟩
    · intro id signIn hsignIn
      dsimp only at hsignIn
      split at hsignIn
      next hsame => exact hsame ▸ Nat.lt_succ_self _
      next => exact Nat.lt_succ_of_lt (h.given id signIn hsignIn)
    · intro id signIn factor hsignIn hstage
      dsimp only at hsignIn
      split at hsignIn
      next => exact absurd (Option.some.inj hsignIn ▸ hstage) SignInStage.noConfusion
      next => exact h.passed id signIn factor hsignIn hstage
    · intro admission hmem
      obtain ⟨signIn, hsignIn, hended⟩ := h.closed admission hmem
      exact ⟨signIn, hold hsignIn, hended⟩
  | @moves id signIn stage hsignIn hopen hstage =>
    refine { h with
      owned := h.setStage_owned hsignIn stage, given := h.setStage_given hsignIn stage,
      closed := h.setStage_over hsignIn hopen stage, passed := ?_ }
    intro other again factor hother hpassed
    dsimp only [setStage] at hother
    split at hother
    next =>
      obtain rfl := Option.some.inj hother
      exact absurd hpassed (hstage factor)
    next => exact h.passed other again factor hother hpassed
  | @spends id signIn found tables factor hsignIn hopen hpassword hconsume =>
    obtain ⟨hfollows, hrefuses, hunspent, hpast⟩ := h.tables.consume hconsume
    refine
      { increasing := ?_, spentOnce := ?_, admittedOnce := h.admittedOnce, owned := ?_
        tables := hfollows.sound, refuses := ?_, given := h.setStage_given hsignIn _
        passed := ?_, through := ?_, closed := h.setStage_over hsignIn hopen _ }
    · refine List.pairwise_append.mpr ⟨h.increasing, List.pairwise_singleton .., ?_⟩
      intro earlier hmem later hlater credential step step' hearlier hsame
      obtain rfl := List.mem_singleton.mp hlater
      exact hpast credential step' step hsame (hearlier ▸ h.refuses earlier hmem)
    · rw [List.map_append, List.nodup_append]
      refine ⟨h.spentOnce, List.nodup_singleton _, fun other hother factor' hmem heq => ?_⟩
      obtain ⟨spend, hspend, rfl⟩ := List.mem_map.mp hother
      have hsame : spend.factor = factor := heq.trans (List.mem_singleton.mp hmem)
      exact hunspent (hsame ▸ h.refuses spend hspend)
    · refine List.forall_mem_append.mpr ⟨h.setStage_owned hsignIn _, ?_⟩
      exact List.forall_mem_singleton.mpr ⟨_, if_pos rfl, hpassword⟩
    · refine List.forall_mem_append.mpr ⟨fun spend hmem => ?_, ?_⟩
      · exact hfollows.refuses _ (h.refuses spend hmem)
      · exact List.forall_mem_singleton.mpr hrefuses
    · intro other again factor' hother hpassed
      dsimp only [setStage] at hother
      split at hother
      next hsame =>
        obtain rfl := hsame
        obtain rfl := Option.some.inj hother
        obtain rfl := Option.some.inj (SignInStage.passed.inj hpassed)
        exact List.mem_append_right _ (List.mem_singleton_self _)
      next => exact List.mem_append_left _ (h.passed other again factor' hother hpassed)
    · intro admission hmem factor' hfactor
      exact List.mem_append_left _ (h.through admission hmem factor' hfactor)
  | @admits id signIn factor hsignIn hstage =>
    have hopen : signIn.stage ≠ .ended := hstage ▸ SignInStage.noConfusion
    have hpassed (factor') (hfactor : factor = some factor') : ⟨id, factor'⟩ ∈ state.spent :=
      h.passed id signIn factor' hsignIn (hfactor ▸ hstage)
    refine { h with
      owned := h.setStage_owned hsignIn _, given := h.setStage_given hsignIn _
      admittedOnce := ?_, passed := ?_, through := ?_, closed := ?_ }
    · rw [List.filterMap_append]
      cases factor with
      | none => exact (List.append_nil _).symm ▸ h.admittedOnce
      | some factor =>
        refine List.nodup_append.mpr ⟨h.admittedOnce, List.nodup_singleton _, ?_⟩
        intro other hother factor' hmem heq
        obtain ⟨admission, hadmission, hfactor⟩ := List.mem_filterMap.mp hother
        obtain rfl : factor' = factor := List.mem_singleton.mp hmem
        -- The two sign-ins spent the same, so they are one, and it is over.
        have hsame := List.inj_on_of_nodup_map h.spentOnce
          (h.through admission hadmission other hfactor) (hpassed factor' rfl) heq
        obtain ⟨ended, hended, hover⟩ := h.closed admission hadmission
        rw [(Spend.mk.inj hsame).1, hsignIn] at hended
        exact hopen (Option.some.inj hended ▸ hover)
    · intro other again factor' hother hagain
      dsimp only [setStage] at hother
      split at hother
      next => exact absurd (Option.some.inj hother ▸ hagain) SignInStage.noConfusion
      next => exact h.passed other again factor' hother hagain
    · exact List.forall_mem_append.mpr ⟨h.through, List.forall_mem_singleton.mpr hpassed⟩
    · refine List.forall_mem_append.mpr ⟨h.setStage_over hsignIn hopen _, ?_⟩
      exact List.forall_mem_singleton.mpr ⟨_, if_pos rfl, rfl⟩
  | manages hfollows =>
    have hfollows := hfollows h.tables
    exact { h with
      tables := hfollows.sound
      refuses := fun spend hmem => hfollows.refuses _ (h.refuses spend hmem) }

/-- However sign-ins and changes to the factors come upon one another, and whatever the clock says,
a second factor is single-use and never spent without the password. -/
theorem always_singleUse (crypto : Digests) (events : List MfaEvent) :
    (machine crypto).Always SingleUse {} events := by
  suffices h : ∀ state : MfaState, state.Sound → (machine crypto).Always SingleUse state events from
    h {} sound_empty
  induction events with
  | nil => exact fun _ h => h.toSingleUse
  | cons event events ih =>
    exact fun state h => ⟨h.toSingleUse, fun next hstep => ih next (h.step (step_cases hstep))⟩

end MfaState

end SecondFactor

end RDownloader
