import RDownloader.Usenet.Nntp
import RDownloader.Usenet.YencHeader

/-!
# Reading from a news server (`rd-usenet/src/nntp.rs`)

The stream arrives in pieces, however the socket cuts it. A line is read up to its line feed, or up
to the bytes a `take` leaves it; a body is the unstuffed lines up to a lone dot.
-/

namespace RDownloader

open Text

def lineFeed : UInt8 := ascii '\n'

def crlf : Bytes := [ascii '\r', ascii '\n']

def dot : UInt8 := ascii '.'

/-- `MAX_STATUS_LINE`. -/
def maxStatusLine : Nat := 16 * 1024

/-- The receiving half of a connection. The program sets the limit to 128 MiB. -/
structure NntpReader where
  /-- What is still to arrive: the first piece is the rest of the buffer. -/
  pieces : List Bytes
  arrives : ∀ piece ∈ pieces, piece ≠ []
  maxArticleBytes : Nat
  bounded : maxArticleBytes + 3 ≤ u64Max

namespace NntpReader

/-- From one buffer: the bytes up to the first line feed, at most `limit`. -/
def takeLine : Nat → Bytes → Bytes × Bytes
  | 0, bytes => ([], bytes)
  | _, [] => ([], [])
  | limit + 1, byte :: bytes =>
    if byte = lineFeed then ([byte], bytes)
    else (byte :: (takeLine limit bytes).1, (takeLine limit bytes).2)

def keep (left : Bytes) (pieces : List Bytes) : List Bytes :=
  if left = [] then pieces else left :: pieces

/-- `take(limit).read_until(b'\n')`. -/
def readUntil (limit : Nat) : List Bytes → Bytes × List Bytes
  | [] => ([], [])
  | piece :: pieces =>
    let taken := takeLine limit piece
    if taken.2 ≠ [] ∨ taken.1.getLast? = some lineFeed then
      (taken.1, keep taken.2 pieces)
    else
      let more := readUntil (limit - taken.1.length) pieces
      (taken.1 ++ more.1, more.2)

variable {limit : Nat} {line bytes rest : Bytes} {pieces : List Bytes}

/-! ## One line -/

@[simp] theorem takeLine_nil (limit : Nat) : takeLine limit [] = ([], []) := by
  cases limit <;> rfl

theorem takeLine_append (limit : Nat) (bytes : Bytes) :
    (takeLine limit bytes).1 ++ (takeLine limit bytes).2 = bytes := by
  induction bytes generalizing limit with
  | nil => rw [takeLine_nil]; rfl
  | cons byte bytes ih =>
    cases limit with
    | zero => rfl
    | succ limit =>
      rw [takeLine]
      split
      · rfl
      · exact congrArg (byte :: ·) (ih limit)

/-- A buffer with the end of the line decides alone. -/
theorem takeLine_stop (h : (takeLine limit bytes).2 ≠ [] ∨
    (takeLine limit bytes).1.getLast? = some lineFeed) (rest : Bytes) :
    takeLine limit (bytes ++ rest) = ((takeLine limit bytes).1, (takeLine limit bytes).2 ++ rest) := by
  induction bytes generalizing limit with
  | nil =>
    rw [takeLine_nil] at h
    exact (h.elim (fun hleft => hleft rfl) nofun).elim
  | cons byte bytes ih =>
    cases limit with
    | zero => rfl
    | succ limit =>
      rw [takeLine] at h
      rw [List.cons_append, takeLine, takeLine]
      split
      · rfl
      · rename_i hbyte
        rw [if_neg hbyte] at h
        have hlast : (takeLine limit bytes).2 ≠ [] ∨
            (takeLine limit bytes).1.getLast? = some lineFeed := by
          refine h.imp_right fun hlast => ?_
          cases hline : (takeLine limit bytes).1 with
          | nil =>
            rw [hline] at hlast
            exact absurd (Option.some.inj hlast) hbyte
          | cons next line =>
            rw [hline] at hlast
            rwa [List.getLast?_cons_cons] at hlast
        rw [ih hlast]

/-- Without it, the line goes on in the next one. -/
theorem takeLine_more (h : ¬((takeLine limit bytes).2 ≠ [] ∨
    (takeLine limit bytes).1.getLast? = some lineFeed)) (rest : Bytes) :
    takeLine limit (bytes ++ rest) =
      ((takeLine limit bytes).1 ++ (takeLine (limit - (takeLine limit bytes).1.length) rest).1,
        (takeLine (limit - (takeLine limit bytes).1.length) rest).2) := by
  induction bytes generalizing limit with
  | nil => rw [takeLine_nil]; rfl
  | cons byte bytes ih =>
    cases limit with
    | zero => exact (h (.inl (List.cons_ne_nil _ _))).elim
    | succ limit =>
      rw [takeLine] at h
      rw [List.cons_append, takeLine, takeLine]
      split
      · rename_i hbyte
        rw [if_pos hbyte, hbyte] at h
        exact (h (.inr rfl)).elim
      · rename_i hbyte
        rw [if_neg hbyte] at h
        have hmore : ¬((takeLine limit bytes).2 ≠ [] ∨
            (takeLine limit bytes).1.getLast? = some lineFeed) := by
          refine fun hstop => h (hstop.imp_right fun hlast => ?_)
          obtain ⟨before, hline⟩ := List.getLast?_eq_some_iff.mp hlast
          rw [hline, ← List.cons_append, List.getLast?_concat]
        rw [ih hmore, List.length_cons, Nat.add_sub_add_right]
        rfl

theorem keep_flatten (left : Bytes) (pieces : List Bytes) :
    (keep left pieces).flatten = left ++ pieces.flatten := by
  rw [keep]
  split
  · rename_i hleft
    rw [hleft]
    rfl
  · rfl

/-- How the stream is cut does not matter. -/
theorem readUntil_eq (limit : Nat) (pieces : List Bytes) :
    ((readUntil limit pieces).1, (readUntil limit pieces).2.flatten) =
      takeLine limit pieces.flatten := by
  induction pieces generalizing limit with
  | nil => rw [List.flatten_nil, takeLine_nil]; rfl
  | cons piece pieces ih =>
    rw [List.flatten_cons, readUntil]
    dsimp only
    split
    · rename_i hstop
      rw [takeLine_stop hstop, keep_flatten]
    · rename_i hmore
      rw [takeLine_more hmore, ← ih]

theorem readUntil_append (limit : Nat) (pieces : List Bytes) :
    (readUntil limit pieces).1 ++ (readUntil limit pieces).2.flatten = pieces.flatten := by
  have heq := readUntil_eq limit pieces
  rw [← takeLine_append limit pieces.flatten, ← heq]

/-- What is left of a stream has no empty piece either. -/
theorem readUntil_arrives (h : ∀ piece ∈ pieces, piece ≠ []) (limit : Nat) :
    ∀ piece ∈ (readUntil limit pieces).2, piece ≠ [] := by
  induction pieces generalizing limit with
  | nil => nofun
  | cons piece pieces ih =>
    rw [List.forall_mem_cons] at h
    rw [readUntil]
    dsimp only
    split
    · rw [keep]
      split
      · exact h.2
      · exact List.forall_mem_cons.mpr ⟨‹_›, h.2⟩
    · exact ih h.2 _

/-- A line that fits comes whole. -/
theorem takeLine_fits (hline : lineFeed ∉ line) (hlimit : line.length < limit) (rest : Bytes) :
    takeLine limit (line ++ lineFeed :: rest) = (line ++ [lineFeed], rest) := by
  induction line generalizing limit with
  | nil =>
    obtain ⟨limit, rfl⟩ := Nat.exists_eq_add_one.mpr hlimit
    exact if_pos rfl
  | cons byte line ih =>
    obtain ⟨hbyte, hline⟩ := List.ne_and_not_mem_of_not_mem_cons hline
    obtain ⟨limit, rfl⟩ := Nat.exists_eq_add_one.mpr (Nat.zero_lt_of_lt hlimit)
    rw [List.cons_append, takeLine, if_neg hbyte.symm, ih hline (Nat.lt_of_succ_lt_succ hlimit)]
    rfl

/-- A line that does not fit is cut off where the limit is. -/
theorem takeLine_cut (hline : lineFeed ∉ line) (hlimit : limit ≤ line.length) (rest : Bytes) :
    (takeLine limit (line ++ rest)).1 = line.take limit := by
  induction line generalizing limit with
  | nil =>
    obtain rfl := Nat.le_zero.mp hlimit
    rfl
  | cons byte line ih =>
    obtain ⟨hbyte, hline⟩ := List.ne_and_not_mem_of_not_mem_cons hline
    cases limit with
    | zero => rfl
    | succ limit =>
      rw [List.cons_append, takeLine, if_neg hbyte.symm, ih hline (Nat.le_of_succ_le_succ hlimit)]
      rfl

/-! ## Bodies -/

/-- A line that begins with two dots loses the first. -/
def unstuff (line : Bytes) : Bytes := if [dot, dot].isPrefixOf line then line.drop 1 else line

def tooLong : String := "NNTP article exceeds configured size limit"

theorem readUntil_shorter (h : (readUntil limit pieces).1 ≠ []) :
    (readUntil limit pieces).2.flatten.length < pieces.flatten.length := by
  have hlength := congrArg List.length (readUntil_append limit pieces)
  rw [List.length_append] at hlength
  have hpos := List.length_pos_iff.mpr h
  omega

/-- The unstuffed lines up to the terminator, behind what is there already. -/
def readLines (maxArticleBytes : Nat) (body : Bytes) (pieces : List Bytes) :
    Except String (Bytes × List Bytes) :=
  let budget := maxArticleBytes - body.length + 3
  let read := readUntil budget pieces
  if _h : read.1 = [] then
    .error "NNTP connection closed during article"
  else if read.1.length = budget ∧ read.1.getLast? ≠ some lineFeed then
    .error tooLong
  else if read.1 = dot :: crlf ∨ read.1 = [dot, lineFeed] then
    .ok (body, read.2)
  else
    let line := unstuff read.1
    if maxArticleBytes < body.length + line.length then
      .error tooLong
    else
      readLines maxArticleBytes (body ++ line) read.2
termination_by pieces.flatten.length
decreasing_by exact readUntil_shorter _h

def readStatus (pieces : List Bytes) : Except Text (Text × List Bytes) :=
  let read := readUntil (maxStatusLine + 1) pieces
  match fromUtf8 read.1 with
  | none => .error "stream did not contain valid UTF-8".toList
  | some line =>
    if maxStatusLine < read.1.length then .error "NNTP status line exceeds limit".toList
    else if read.1 = [] then .error "NNTP connection closed".toList
    else .ok (line, read.2)

/-- The answer to the oldest unanswered `BODY`, and what is left of the stream. -/
def readBody (reader : NntpReader) : Except BodyError (Body Bytes × List Bytes) :=
  match readStatus reader.pieces with
  | .error error => .error (.broken error)
  | .ok (status, pieces) =>
    match RDownloader.readBody { status, data := () } with
    | .error error => .error error
    | .ok body =>
      match readLines reader.maxArticleBytes [] pieces with
      | .error error => .error (.broken error.toList)
      | .ok (data, pieces) => .ok ({ messageId := body.messageId, data }, pieces)

/-! ## What a server sends -/

/-- A line beginning with a dot gets another one. -/
def stuff (line : Bytes) : Bytes := if line.head? = some dot then dot :: line else line

def body (lines : List Bytes) : Bytes := lines.flatMap (· ++ crlf)

def stuffed (lines : List Bytes) : Bytes := lines.flatMap (stuff · ++ crlf)

variable {lines : List Bytes} {maxArticleBytes : Nat} {start : Bytes}

theorem lineFeed_not_mem_stuff (hline : lineFeed ∉ line) : lineFeed ∉ stuff line := by
  rw [stuff]
  split
  · exact List.not_mem_cons_of_ne_of_not_mem (by decide) hline
  · exact hline

theorem length_stuff_le (line : Bytes) : (stuff line).length ≤ line.length + 1 := by
  rw [stuff]
  split
  · exact Nat.le_refl _
  · exact Nat.le_succ _

theorem length_le_stuff (line : Bytes) : line.length ≤ (stuff line).length := by
  rw [stuff]
  split
  · exact Nat.le_succ _
  · exact Nat.le_refl _

theorem unstuff_stuff (line : Bytes) : unstuff (stuff line ++ crlf) = line ++ crlf := by
  cases line with
  | nil => rfl
  | cons byte line =>
    rw [stuff, List.head?_cons]
    split
    · rename_i hbyte
      obtain rfl := Option.some.inj hbyte
      rfl
    · rename_i hbyte
      have hne : (dot == byte) = false :=
        beq_eq_false_iff_ne.mpr fun heq => hbyte (congrArg some heq.symm)
      have hnot : [dot, dot].isPrefixOf (byte :: line ++ crlf) = false := by
        rw [List.cons_append, List.isPrefixOf_cons_cons, hne]
        rfl
      rw [unstuff, hnot]
      rfl

/-- No stuffed line is a terminator. -/
theorem stuff_ne_terminator (line : Bytes) :
    ¬(stuff line ++ crlf = dot :: crlf ∨ stuff line ++ crlf = [dot, lineFeed]) := by
  cases line with
  | nil => decide
  | cons byte line =>
    rw [stuff, List.head?_cons]
    split
    · rename_i hbyte
      obtain rfl := Option.some.inj hbyte
      have hsecond : ∀ (next : UInt8) (other : Bytes), next ≠ dot →
          dot :: dot :: line ++ crlf ≠ dot :: next :: other :=
        fun next other hne heq => hne (List.cons.inj (List.cons.inj heq).2).1.symm
      exact not_or.mpr ⟨hsecond _ _ (by decide), hsecond _ _ (by decide)⟩
    · rename_i hbyte
      have hhead : ∀ other : Bytes, byte :: line ++ crlf ≠ dot :: other :=
        fun other heq => hbyte (congrArg some (List.cons.inj heq).1)
      exact not_or.mpr ⟨hhead _, hhead _⟩

/-! ## Reading what is sent -/

variable {following : Bytes}

theorem readUntil_line (hline : lineFeed ∉ line) (hlimit : line.length < limit)
    (harrive : pieces.flatten = line ++ lineFeed :: rest) :
    (readUntil limit pieces).1 = line ++ [lineFeed] ∧ (readUntil limit pieces).2.flatten = rest := by
  have heq := readUntil_eq limit pieces
  rw [harrive, takeLine_fits hline hlimit] at heq
  exact Prod.mk.inj heq

theorem lineFeed_not_mem_return (hline : lineFeed ∉ line) :
    lineFeed ∉ stuff line ++ [ascii '\r'] := fun h =>
  (List.mem_append.mp h).elim (lineFeed_not_mem_stuff hline) (by decide)

/-- The line ending of a stuffed line, apart. -/
theorem stuff_crlf (line rest : Bytes) :
    stuff line ++ crlf ++ rest = stuff line ++ [ascii '\r'] ++ lineFeed :: rest := by
  simp [crlf, lineFeed]

theorem getLast_stuff (line : Bytes) : (stuff line ++ crlf).getLast? = some lineFeed := by
  rw [List.getLast?_append]
  rfl

theorem stuff_ne_nil (line : Bytes) : stuff line ++ crlf ≠ [] :=
  List.append_ne_nil_of_right_ne_nil _ (List.cons_ne_nil _ _)

theorem length_crlf (line : Bytes) : (line ++ crlf).length = line.length + 2 := List.length_append

theorem readUntil_stuff (hline : lineFeed ∉ line)
    (hlimit : (stuff line ++ [ascii '\r']).length < limit)
    (harrive : pieces.flatten = stuff line ++ crlf ++ rest) :
    (readUntil limit pieces).1 = stuff line ++ crlf ∧ (readUntil limit pieces).2.flatten = rest := by
  rw [stuff_crlf] at harrive
  have hread := readUntil_line (lineFeed_not_mem_return hline) hlimit harrive
  rw [List.append_assoc] at hread
  exact hread

/-- The lone dot ends the body. -/
theorem readLines_dot (harrive : pieces.flatten = dot :: crlf ++ following) :
    ∃ left, readLines maxArticleBytes start pieces = .ok (start, left) ∧
      left.flatten = following := by
  have hline : lineFeed ∉ [dot, ascii '\r'] := by decide
  have hlimit : [dot, ascii '\r'].length < maxArticleBytes - start.length + 3 :=
    Nat.lt_add_left _ (by decide : 2 < 3)
  obtain ⟨hread, hleft⟩ := readUntil_line hline hlimit harrive
  refine ⟨_, ?_, hleft⟩
  have hdot : [dot, ascii '\r'] ++ [lineFeed] = dot :: crlf := rfl
  rw [hdot] at hread
  have hlast : (dot :: crlf).getLast? = some lineFeed := rfl
  rw [readLines]
  dsimp only
  rw [hread, dif_neg (List.cons_ne_nil _ _), if_neg fun h => h.2 hlast, if_pos (.inl rfl)]

/-- A line that fits is put behind the others. -/
theorem readLines_line (hline : lineFeed ∉ line)
    (hfit : start.length + (line ++ crlf).length ≤ maxArticleBytes)
    (harrive : pieces.flatten = stuff line ++ crlf ++ rest) :
    ∃ left, left.flatten = rest ∧ readLines maxArticleBytes start pieces =
      readLines maxArticleBytes (start ++ (line ++ crlf)) left := by
  have hlength := length_stuff_le line
  have hlimit : (stuff line ++ [ascii '\r']).length < maxArticleBytes - start.length + 3 := by
    rw [length_crlf] at hfit
    rw [List.length_append, List.length_singleton]
    omega
  obtain ⟨hread, hleft⟩ := readUntil_stuff hline hlimit harrive
  refine ⟨_, hleft, ?_⟩
  rw [readLines]
  dsimp only
  rw [hread, dif_neg (stuff_ne_nil line), if_neg fun h => h.2 (getLast_stuff line),
    if_neg (stuff_ne_terminator line), unstuff_stuff, if_neg (Nat.not_lt.mpr hfit)]

/-- A line that does not fit is refused, whether or not the budget lets it come whole. -/
theorem readLines_long (hline : lineFeed ∉ line)
    (hlong : maxArticleBytes < start.length + (line ++ crlf).length)
    (harrive : pieces.flatten = stuff line ++ crlf ++ rest) :
    readLines maxArticleBytes start pieces = .error tooLong := by
  have hreturn := lineFeed_not_mem_return hline
  by_cases hlimit : (stuff line ++ [ascii '\r']).length < maxArticleBytes - start.length + 3
  · obtain ⟨hread, -⟩ := readUntil_stuff hline hlimit harrive
    rw [readLines]
    dsimp only
    rw [hread, dif_neg (stuff_ne_nil line), if_neg fun h => h.2 (getLast_stuff line),
      if_neg (stuff_ne_terminator line), unstuff_stuff, if_pos hlong]
  · -- the budget ends inside the line, so that what is read has no line feed
    have hread := congrArg Prod.fst (readUntil_eq (maxArticleBytes - start.length + 3) pieces)
    rw [harrive, stuff_crlf, takeLine_cut hreturn (Nat.not_lt.mp hlimit)] at hread
    have hlength : ((stuff line ++ [ascii '\r']).take (maxArticleBytes - start.length + 3)).length =
        maxArticleBytes - start.length + 3 :=
      List.length_take_of_le (Nat.not_lt.mp hlimit)
    have hlast : ((stuff line ++ [ascii '\r']).take
        (maxArticleBytes - start.length + 3)).getLast? ≠ some lineFeed :=
      fun h => hreturn (List.mem_of_mem_take (List.mem_of_getLast? h))
    rw [readLines]
    dsimp only at hread ⊢
    rw [hread, dif_neg (List.ne_nil_of_length_pos (by omega)), if_pos ⟨hlength, hlast⟩]

/-- The lines of a body come out as they were before the stuffing, however the stream is cut. -/
theorem readLines_stuffed (hlines : ∀ line ∈ lines, lineFeed ∉ line)
    (hfit : start.length + (body lines).length ≤ maxArticleBytes)
    (harrive : pieces.flatten = stuffed lines ++ (dot :: crlf ++ following)) :
    ∃ left, readLines maxArticleBytes start pieces = .ok (start ++ body lines, left) ∧
      left.flatten = following := by
  induction lines generalizing start pieces with
  | nil =>
    rw [body, List.flatMap_nil, List.append_nil]
    exact readLines_dot harrive
  | cons line lines ih =>
    rw [List.forall_mem_cons] at hlines
    have hbody : body (line :: lines) = line ++ crlf ++ body lines := rfl
    rw [hbody, List.length_append] at hfit
    rw [stuffed, List.flatMap_cons, List.append_assoc] at harrive
    have hline : start.length + (line ++ crlf).length ≤ maxArticleBytes := by omega
    obtain ⟨left, hleft, hread⟩ := readLines_line hlines.1 hline harrive
    have hassoc : start ++ (line ++ crlf ++ body lines) = start ++ (line ++ crlf) ++ body lines := by
      simp only [List.append_assoc]
    rw [hread, hbody, hassoc]
    refine ih hlines.2 ?_ hleft
    rw [List.length_append]
    omega

/-- A body that is too long is refused. -/
theorem readLines_refused (hlines : ∀ line ∈ lines, lineFeed ∉ line)
    (hstart : start.length ≤ maxArticleBytes)
    (hlong : maxArticleBytes < start.length + (body lines).length)
    (harrive : pieces.flatten = stuffed lines ++ (dot :: crlf ++ following)) :
    readLines maxArticleBytes start pieces = .error tooLong := by
  induction lines generalizing start pieces with
  | nil => exact absurd hstart (Nat.not_le.mpr hlong)
  | cons line lines ih =>
    rw [List.forall_mem_cons] at hlines
    have hbody : body (line :: lines) = line ++ crlf ++ body lines := rfl
    rw [hbody, List.length_append] at hlong
    rw [stuffed, List.flatMap_cons, List.append_assoc] at harrive
    by_cases hfit : start.length + (line ++ crlf).length ≤ maxArticleBytes
    · obtain ⟨left, hleft, hread⟩ := readLines_line hlines.1 hfit harrive
      rw [hread]
      exact ih hlines.2 (by rwa [List.length_append]) (by rw [List.length_append]; omega) hleft
    · exact readLines_long hlines.1 (Nat.not_le.mp hfit) harrive

/-- Stuffing never shortens a body. -/
theorem length_body_le (lines : List Bytes) : (body lines).length ≤ (stuffed lines).length := by
  induction lines with
  | nil => exact Nat.le_refl _
  | cons line lines ih =>
    have hline := length_le_stuff line
    have hbody : body (line :: lines) = line ++ crlf ++ body lines := rfl
    have hstuffed : stuffed (line :: lines) = stuff line ++ crlf ++ stuffed lines := rfl
    simp only [hbody, hstuffed, List.length_append]
    omega

/-! ## Answers -/

/-- A status line that announces a body. -/
structure Announces (status : Text) : Prop where
  oneLine : ∃ text, status = text ++ ['\n'] ∧ '\n' ∉ text
  fits : (encode status).length ≤ maxStatusLine
  follows : statusCode status = .ok 222

variable {status : Text} {reader : NntpReader}

theorem readStatus_line (h : Announces status) (harrive : pieces.flatten = encode status ++ rest) :
    ∃ left, readStatus pieces = .ok (status, left) ∧ left.flatten = rest := by
  obtain ⟨text, htext, hfeed⟩ := h.oneLine
  have hnew : encode ['\n'] = [lineFeed] := rfl
  have hencode : encode status = encode text ++ [lineFeed] := by
    rw [htext, encode_append, hnew]
  have hfits := h.fits
  have hline : lineFeed ∉ encode text := fun hmem =>
    hfeed (mem_of_ascii_mem_encode (by decide) hmem)
  have hlimit : (encode text).length < maxStatusLine + 1 := by
    rw [hencode, List.length_append, List.length_singleton] at hfits
    omega
  rw [hencode, List.append_assoc] at harrive
  obtain ⟨hread, hleft⟩ := readUntil_line hline hlimit harrive
  rw [← hencode] at hread
  have hne : encode status ≠ [] := by
    rw [hencode]
    exact List.append_ne_nil_of_right_ne_nil _ (List.cons_ne_nil _ _)
  refine ⟨_, ?_, hleft⟩
  rw [readStatus, hread, fromUtf8_encode]
  exact (if_neg (Nat.not_lt.mpr h.fits)).trans (if_neg hne)

theorem readBody_announced (h : Announces status) :
    RDownloader.readBody { status, data := () } = .ok ⟨answeredMessageId status, ()⟩ := by
  rw [RDownloader.readBody, h.follows]
  rfl

/-- An announced body comes out unstuffed, and what follows it is left on the line. -/
theorem readBody_stuffed (h : Announces status) (hlines : ∀ line ∈ lines, lineFeed ∉ line)
    (hfit : (body lines).length ≤ reader.maxArticleBytes)
    (harrive : reader.pieces.flatten =
      encode status ++ (stuffed lines ++ (dot :: crlf ++ following))) :
    ∃ left, reader.readBody = .ok (⟨answeredMessageId status, body lines⟩, left) ∧
      left.flatten = following := by
  obtain ⟨pieces, hstatus, hpieces⟩ := readStatus_line h harrive
  have hzero : ([] : Bytes).length + (body lines).length ≤ reader.maxArticleBytes := by
    rwa [List.length_nil, Nat.zero_add]
  obtain ⟨left, hread, hleft⟩ := readLines_stuffed hlines hzero hpieces
  refine ⟨left, ?_, hleft⟩
  rw [readBody, hstatus]
  dsimp only
  rw [readBody_announced h]
  dsimp only
  rw [hread]
  rfl

/-- A body of more than the configured size is refused. -/
theorem readBody_refused (h : Announces status) (hlines : ∀ line ∈ lines, lineFeed ∉ line)
    (hlong : reader.maxArticleBytes < (body lines).length)
    (harrive : reader.pieces.flatten =
      encode status ++ (stuffed lines ++ (dot :: crlf ++ following))) :
    reader.readBody = .error (.broken tooLong.toList) := by
  obtain ⟨pieces, hstatus, hpieces⟩ := readStatus_line h harrive
  have hzero : reader.maxArticleBytes < ([] : Bytes).length + (body lines).length := by
    rwa [List.length_nil, Nat.zero_add]
  have hread := readLines_refused hlines (Nat.zero_le _) hzero hpieces
  rw [readBody, hstatus]
  dsimp only
  rw [readBody_announced h]
  dsimp only
  rw [hread]

end NntpReader
end RDownloader
