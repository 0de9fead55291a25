import RDownloader.Core.Text

/-!
# One answer on a news server's line (`rd-usenet/src/nntp.rs`)
-/

namespace RDownloader

namespace Text

/-- `trim_matches(['<', '>'])`. -/
def trimBrackets (text : Text) : Text :=
  let bracket : Char → Bool := fun c => c = '<' || c = '>'
  (((text.dropWhile bracket).reverse).dropWhile bracket).reverse

/-- `char::is_whitespace`, the Unicode property. -/
def isUnicodeWhitespace (c : Char) : Bool :=
  let code := c.toNat
  (0x9 ≤ code && code ≤ 0xd) || (0x2000 ≤ code && code ≤ 0x200a) ||
    code ∈ [0x20, 0x85, 0xa0, 0x1680, 0x2028, 0x2029, 0x202f, 0x205f, 0x3000]

/-- `split_whitespace`. -/
def splitWhitespace (text : Text) : List Text :=
  text.splitOnP isUnicodeWhitespace |>.filter (· ≠ [])

end Text

/-- What a server puts on the line in answer to a `BODY` command: a status line, and the unstuffed
lines that follow a `222`. -/
structure NntpAnswer (δ : Type u) where
  status : Text
  data : δ

structure Body (δ : Type u) where
  messageId : Option Text
  data : δ

inductive BodyError where
  /-- `430`/`423`: this server does not have the article. -/
  | unavailable (status : Text)
  /-- Any other status: the server could not answer this request. -/
  | serverFault (status : Text)
  /-- The connection is no longer in step. -/
  | broken (error : Text)

/-- `ARTICLE_ABSENT`. -/
def articleAbsent : List Nat := [423, 430]

/-- `status_code`: the first three characters as a `u16`. -/
def statusCode (line : Text) : Except Text Nat :=
  match line with
  | a :: b :: c :: _ =>
    match Text.parseU64 [a, b, c] with
    | some code => .ok code
    | none => .error "invalid NNTP status".toList
  | _ => .error "short NNTP status".toList

/-- `answered_message_id`: the message-id a `222 n message-id` line names, without its angle
brackets. -/
def answeredMessageId (line : Text) : Option Text :=
  match (Text.splitWhitespace line)[2]? with
  | some ('<' :: token) =>
    match token.reverse with
    | '>' :: inner => if inner = [] then none else some inner.reverse
    | _ => none
  | _ => none

/-- `NntpReader::read_body`, once the answer has arrived whole. -/
def readBody (answer : NntpAnswer δ) : Except BodyError (Body δ) :=
  match statusCode answer.status with
  | .ok code =>
    if code = 222 then .ok ⟨answeredMessageId answer.status, answer.data⟩
    else if code ∈ articleAbsent then .error (.unavailable answer.status)
    else .error (.serverFault answer.status)
  | .error error => .error (.broken error)

variable {answer : NntpAnswer δ}

/-- The server says that it does not have the article. -/
def NntpAnswer.refuses (answer : NntpAnswer δ) : Bool :=
  match statusCode answer.status with
  | .ok code => code ∈ articleAbsent
  | .error _ => false

/-- An answer that brings a body names `id` for it. -/
def NntpAnswer.names (answer : NntpAnswer δ) (id : Text) : Bool :=
  match readBody answer with
  | .ok body => body.messageId = some id
  | .error _ => true

theorem NntpAnswer.names_ok {id : Text} (h : answer.names id) (hbody : readBody answer = .ok body) :
    body.messageId = some id := by
  rw [names, hbody] at h
  exact of_decide_eq_true h

theorem readBody_unavailable (h : readBody answer = .error (.unavailable status)) :
    answer.refuses ∧ status = answer.status := by
  rw [readBody] at h
  rw [NntpAnswer.refuses]
  split at h
  · next code hcode =>
    split at h
    · cases h
    · split at h
      · next habsent =>
        cases h
        exact ⟨decide_eq_true habsent, rfl⟩
      · cases h
  · cases h

theorem readBody_ok (h : readBody answer = .ok body) :
    answer.refuses = false ∧ body.data = answer.data := by
  rw [readBody] at h
  rw [NntpAnswer.refuses]
  split at h
  · next code hcode =>
    split at h
    · next hbody =>
      cases h
      subst hbody
      exact ⟨rfl, rfl⟩
    · split at h <;> cases h
  · cases h

example : answeredMessageId "222 0 <part-1@example.test>".toList =
    some "part-1@example.test".toList := by decide +kernel

end RDownloader
