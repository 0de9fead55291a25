import RDownloader.Core.Lines
import RDownloader.Lib.Machine

/-!
# Signing in with a second factor (`rd-api-access/src/mfa_handlers.rs`, `login_handlers.rs`,
`rd-db/src/mfa_store.rs`, `rd-authn/src/totp.rs`)

A sign-in finds out what its code answers in several reads, and spends it in one statement of its
own; other sign-ins and changes to the factors come in between.
The gate against guessing and the switch that turns password sign-in off only refuse more, and are
left out.
-/

namespace RDownloader

namespace SecondFactor

abbrev MfaCredentialId := Nat
abbrev SignInId := Nat

def stepSeconds : Nat := 30
def digits : Nat := 6
def driftSteps : Nat := 1

/-- The functions that are not the program's own: HMAC-SHA1 with its truncation, and the SHA-256 of
a code as it is compared. -/
structure Digests where
  codeAtStep : List UInt8 → Nat → Text
  digestOf : Text → String

variable (crypto : Digests)

/-- Which time step a code answers; the latest match wins. -/
def acceptedStep (secret : List UInt8) (candidate : Text) (unixSeconds : Nat) : Option Nat :=
  let candidate := candidate.trimmed.filter fun c => c ≠ '-' ∧ c ≠ ' '
  if candidate.length ≠ digits ∨ !candidate.all Char.isDigit then none
  else
    let current := unixSeconds / stepSeconds
    let first := current - driftSteps
    (List.range' first (current + driftSteps + 1 - first)).foldl (fun matched step =>
      (if crypto.codeAtStep secret step = candidate then some step else none).or matched) none

inductive MfaKind
  | totp
  | webauthn
  deriving DecidableEq, Repr

/-- A row of `mfa_credentials`. -/
structure MfaCredential where
  id : MfaCredentialId
  kind : MfaKind
  confirmed : Bool := false
  lastTotpStep : Option Nat := none
  deriving DecidableEq, Repr

/-- A row of `mfa_recovery_codes`. -/
structure RecoveryCode where
  digest : String
  used : Bool := false
  /-- Which of all codes ever issued this is. -/
  serial : Nat
  deriving DecidableEq, Repr

/-- What was spent. -/
inductive Factor
  | totp (credential : MfaCredentialId) (step : Nat)
  | recovery (serial : Nat)
  deriving DecidableEq, Repr

/-- What a submitted code turned out to be, before anything was spent. -/
inductive SecondFactorMatch
  | none
  | totp (id : MfaCredentialId) (step : Nat)
  | recovery (digest : String)
  deriving DecidableEq, Repr

structure MfaTables where
  credentials : List MfaCredential := []
  codes : List RecoveryCode := []
  /-- No id from here on has been given. -/
  nextCredential : MfaCredentialId := 0
  /-- No code from here on has been issued. -/
  nextSerial : Nat := 0
  deriving DecidableEq, Repr

namespace MfaTables

variable (tables : MfaTables)

def createCredential (kind : MfaKind) : MfaTables :=
  { tables with
    credentials := tables.credentials ++ [{ id := tables.nextCredential, kind }]
    nextCredential := tables.nextCredential + 1 }

def confirmCredential (id : MfaCredentialId) : MfaTables :=
  { tables with
    credentials := tables.credentials.map fun row =>
      if row.id = id then { row with confirmed := true } else row }

def deleteCredential (id : MfaCredentialId) : MfaTables :=
  { tables with credentials := tables.credentials.filter (·.id ≠ id) }

/-- `clear_all`: every credential of a kind, and every recovery code. -/
def clear (kind : MfaKind) : MfaTables :=
  { tables with credentials := tables.credentials.filter (·.kind ≠ kind), codes := [] }

/-- Replaces the recovery codes; a digest is the key of its row. -/
def replaceRecoveryCodes (digests : List String) : Option MfaTables :=
  if digests.Nodup then
    some { tables with
      codes := digests.mapIdx fun index digest => { digest, serial := tables.nextSerial + index }
      nextSerial := tables.nextSerial + digests.length }
  else none

/-- The confirmed authenticator apps. -/
def confirmedTotp : List MfaCredentialId :=
  (tables.credentials.filter fun row => row.kind = .totp ∧ row.confirmed).map (·.id)

def unusedRecoveryDigests : List String := (tables.codes.filter (!·.used)).map (·.digest)

/-- Records the step of an accepted code, unless it is not past the last one. -/
def acceptTotpStep (id : MfaCredentialId) (step : Nat) : Option MfaTables :=
  if tables.credentials.any fun row => row.id = id ∧ row.lastTotpStep.all (· < step) then
    some { tables with
      credentials := tables.credentials.map fun row =>
        if row.id = id ∧ row.lastTotpStep.all (· < step) then
          { row with lastTotpStep := some step }
        else row }
  else none

/-- Spends one code, unless it is spent. -/
def spendRecoveryCode (digest : String) : Option (MfaTables × Nat) :=
  (tables.codes.find? fun row => row.digest = digest ∧ row.used = false).map fun spent =>
    ({ tables with
        codes := tables.codes.map fun row =>
          if row.digest = digest ∧ row.used = false then { row with used := true } else row },
      spent.serial)

/-- `consume_second_factor`; the column of the step holds an `i64`. -/
def consume : SecondFactorMatch → Option (MfaTables × Factor)
  | .none => none
  | .totp id step => (tables.acceptTotpStep id (min step i64Max)).map (·, .totp id step)
  | .recovery digest =>
    (tables.spendRecoveryCode digest).map fun (tables, serial) => (tables, .recovery serial)

end MfaTables

/-- Where a sign-in is. -/
inductive SignInStage
  /-- The password has been compared. -/
  | password
  /-- A code is required and given. -/
  | required (code : Text)
  /-- These credentials are still to be compared with the code. -/
  | checking (code : Text) (rest : List MfaCredentialId)
  | matched (found : SecondFactorMatch)
  /-- The session is about to be opened. -/
  | passed (factor : Option Factor)
  | ended
  deriving DecidableEq, Repr

structure SignIn where
  code : Option Text
  passwordOk : Bool
  stage : SignInStage := .password
  deriving DecidableEq, Repr

/-- Something that a sign-in spent. -/
structure Spend where
  signIn : SignInId
  factor : Factor
  deriving DecidableEq, Repr

/-- A session that was opened. -/
structure Admission where
  signIn : SignInId
  factor : Option Factor
  deriving DecidableEq, Repr

structure MfaState where
  tables : MfaTables := {}
  signIns : SignInId → Option SignIn := fun _ => none
  /-- No sign-in from here on has begun. -/
  nextSignIn : SignInId := 0
  /-- In the order in which it was spent. -/
  spent : List Spend := []
  admitted : List Admission := []

inductive MfaEvent
  | signIn (code : Option Text) (passwordOk : Bool)
  /-- Whether a code is required is read. -/
  | listCredentials (id : SignInId)
  | readMaterial (id : SignInId)
  /-- The vault answers with the secret of the next credential, when it can be read, and the clock is
  read. -/
  | checkCredential (id : SignInId) (secret : Option (List UInt8)) (now : Int)
  | readDigests (id : SignInId)
  | consume (id : SignInId)
  | openSession (id : SignInId)
  /-- A read or a statement of the sign-in fails, or the connection is dropped. -/
  | fail (id : SignInId)
  | createCredential (kind : MfaKind)
  | replaceCodes (digests : List String)
  | confirm (credential : MfaCredentialId)
  | delete (credential : MfaCredentialId)
  | clear (kind : MfaKind)

namespace MfaState

def setStage (state : MfaState) (id : SignInId) (signIn : SignIn) (stage : SignInStage) : MfaState :=
  { state with
    signIns := fun other => if other = id then some { signIn with stage } else state.signIns other }

/-- What follows the question whether a code is required. -/
def afterPassword (tables : MfaTables) (signIn : SignIn) : SignInStage :=
  if tables.credentials.any fun row => row.kind = .totp ∧ row.confirmed then
    match (signIn.code.map Text.trimmed).filter (· ≠ []) with
    | none => .ended
    | some code => .required code
  else if signIn.passwordOk then .passed none
  else .ended

/-- One credential is compared with the code. -/
def afterCredential (code : Text) (credential : MfaCredentialId) (rest : List MfaCredentialId)
    (secret : Option (List UInt8)) (now : Int) : SignInStage :=
  match secret.bind fun secret => acceptedStep crypto secret code now.toNat with
  | some step => .matched (.totp credential step)
  | none => .checking code rest

/-- The recovery codes are compared with the code. -/
def afterDigests (tables : MfaTables) (code : Text) : SignInStage :=
  if crypto.digestOf code ∈ tables.unusedRecoveryDigests then
    .matched (.recovery (crypto.digestOf code))
  else .matched .none

/-- `password_ok && consume_second_factor(…)`. -/
def consume (state : MfaState) (id : SignInId) (signIn : SignIn) (found : SecondFactorMatch) :
    MfaState :=
  if signIn.passwordOk then
    match state.tables.consume found with
    | some (tables, factor) =>
      { state.setStage id signIn (.passed (some factor)) with
        tables
        spent := state.spent ++ [⟨id, factor⟩] }
    | none => state.setStage id signIn .ended
  else state.setStage id signIn .ended

def step (state : MfaState) : MfaEvent → Option MfaState
  | .signIn code passwordOk =>
    some { state with
      signIns := fun other =>
        if other = state.nextSignIn then some { code, passwordOk } else state.signIns other
      nextSignIn := state.nextSignIn + 1 }
  | .listCredentials id => do
    let signIn ← state.signIns id
    match signIn.stage with
    | .password => some (state.setStage id signIn (afterPassword state.tables signIn))
    | _ => none
  | .readMaterial id => do
    let signIn ← state.signIns id
    match signIn.stage with
    | .required code => some (state.setStage id signIn (.checking code state.tables.confirmedTotp))
    | _ => none
  | .checkCredential id secret now => do
    let signIn ← state.signIns id
    match signIn.stage with
    | .checking code (credential :: rest) =>
      some (state.setStage id signIn (afterCredential crypto code credential rest secret now))
    | _ => none
  | .readDigests id => do
    let signIn ← state.signIns id
    match signIn.stage with
    | .checking code [] => some (state.setStage id signIn (afterDigests crypto state.tables code))
    | _ => none
  | .consume id => do
    let signIn ← state.signIns id
    match signIn.stage with
    | .matched found => some (state.consume id signIn found)
    | _ => none
  | .openSession id => do
    let signIn ← state.signIns id
    match signIn.stage with
    | .passed factor =>
      some { state.setStage id signIn .ended with admitted := state.admitted ++ [⟨id, factor⟩] }
    | _ => none
  | .fail id => do
    let signIn ← state.signIns id
    match signIn.stage with
    | .ended => none
    | _ => some (state.setStage id signIn .ended)
  | .createCredential kind => some { state with tables := state.tables.createCredential kind }
  | .replaceCodes digests => do
    let tables ← state.tables.replaceRecoveryCodes digests
    some { state with tables }
  | .confirm credential => some { state with tables := state.tables.confirmCredential credential }
  | .delete credential => some { state with tables := state.tables.deleteCredential credential }
  | .clear kind => some { state with tables := state.tables.clear kind }

def machine : Machine MfaState MfaEvent where
  initial state := state = {}
  step := step crypto

end MfaState

end SecondFactor

end RDownloader
