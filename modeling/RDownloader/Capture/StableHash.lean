import RDownloader.Core.CookieRoundTrip
import RDownloader.Core.Dates
import RDownloader.Usenet.YencHeader

/-!
# What a replay is consented to (`rd-core/src/request_template.rs`)

A consent is bound to a hash of the request it was given for. The fields go into the hash one after
the other, each followed by a zero byte, and those that are absent are left out.
-/

namespace RDownloader

/-- The parts that are read of an address, as the `url` crate parses it: a host or path holds no
zero character, a host no slash, and the path of a web address begins with one. -/
structure ParsedUrl where
  scheme : Text
  host : Option Text
  /-- None for the default port of the scheme. -/
  port : Option Nat
  path : Text
  host_clean : ∀ text ∈ host, '/' ∉ text ∧ '\x00' ∉ text
  path_clean : '\x00' ∉ path
  path_head : scheme ∈ ["http".toList, "https".toList] → path.head? = some '/'

/-- Metadata of a captured request body: what identifies it. -/
structure CapturedBody where
  contentType : Text
  sha256 : Text
  deriving DecidableEq

/-- What a consent covers of a captured request. -/
structure CapturedRequest where
  method : Text
  effectiveUrl : Option ParsedUrl := none
  approvedOrigins : List Text := []
  body : Option CapturedBody := none

namespace Replay

def isWeb (url : ParsedUrl) : Bool := url.scheme = "http".toList || url.scheme = "https".toList

/-- `scheme://host[:port]`, lowercased. -/
def originOf (url : ParsedUrl) : Option Text :=
  let scheme := Text.toAsciiLowercase url.scheme
  if scheme ≠ "http".toList ∧ scheme ≠ "https".toList then none
  else url.host.bind fun host =>
    let host := Text.toAsciiLowercase (CookieFile.trimEnd '.' host)
    if host = [] then none
    else match url.port with
      | some port => some (scheme ++ "://".toList ++ host ++ ':' :: Nat.toDigits 10 port)
      | none => some (scheme ++ "://".toList ++ host)

def toAsciiUppercase (text : Text) : Text :=
  text.map fun c => if 'a' ≤ c ∧ c ≤ 'z' then Char.ofNat (c.toNat - 32) else c

/-- `REQUEST_TEMPLATE_VERSION`, least significant byte first. -/
def versionBytes : Bytes := [1, 0, 0, 0]

/-- The addresses of a request: the link, and where the browser ended up. -/
def candidates (url : ParsedUrl) (request : CapturedRequest) : List ParsedUrl :=
  url :: request.effectiveUrl.toList

def maxApprovedOrigins : Nat := 4

def pushOrigin (origins : List Text) (candidate : ParsedUrl) : List Text :=
  match originOf candidate with
  | some origin => if origin ∈ origins then origins else origins ++ [origin]
  | none => origins

/-- The origins that a capture may be replayed against. -/
def deriveApprovedOrigins (url : ParsedUrl) (effectiveUrl : Option ParsedUrl) : List Text :=
  ((url :: effectiveUrl.toList).foldl pushOrigin []).take maxApprovedOrigins

/-- What `stable_hash` feeds to the hasher. -/
def hashed (url : ParsedUrl) (request : CapturedRequest) (authProfile : Option Text) : Bytes :=
  versionBytes ++ Text.encode (toAsciiUppercase (Text.trimmed request.method)) ++ [0] ++
    ((candidates url request).flatMap fun candidate =>
      Text.encode ((originOf candidate).getD []) ++ Text.encode candidate.path ++ [0]) ++
    ((request.approvedOrigins.mergeSort Text.notAfter).flatMap fun origin =>
      Text.encode origin ++ [0]) ++
    (match request.body with
      | some body => Text.encode body.contentType ++ [0] ++ Text.encode body.sha256 ++ [0]
      | none => []) ++
    Text.encode (authProfile.getD [])

/-- `stable_hash`, with `sha256` as the digest in hexadecimal. -/
def stableHash (sha256 : Bytes → Text) (url : ParsedUrl) (request : CapturedRequest)
    (authProfile : Option Text) : Text := sha256 (hashed url request authProfile)

/-- The two requests are the same in everything a consent covers. -/
structure SameConsent (url : ParsedUrl) (request : CapturedRequest) (authProfile : Option Text)
    (url' : ParsedUrl) (request' : CapturedRequest) (authProfile' : Option Text) : Prop where
  method : toAsciiUppercase (Text.trimmed request.method) =
    toAsciiUppercase (Text.trimmed request'.method)
  origin : originOf url = originOf url'
  path : url.path = url'.path
  effective : request.effectiveUrl.map (fun url => (originOf url, url.path)) =
    request'.effectiveUrl.map fun url => (originOf url, url.path)
  origins : request.approvedOrigins.Perm request'.approvedOrigins
  body : request.body = request'.body
  profile : authProfile.getD [] = authProfile'.getD []

/-! ## Segments -/

/-- The origin and the path of an address, as they are fed. -/
def addressSegment (url : ParsedUrl) : Text := (originOf url).getD [] ++ url.path

def bodySegments : Option CapturedBody → List Text
  | some body => [body.contentType, body.sha256]
  | none => []

/-- What stands between the zero bytes. -/
def segments (url : ParsedUrl) (request : CapturedRequest) (authProfile : Option Text) :
    List Text :=
  toAsciiUppercase (Text.trimmed request.method) :: (candidates url request).map addressSegment ++
    request.approvedOrigins.mergeSort Text.notAfter ++ bodySegments request.body ++
    [authProfile.getD []]

theorem intercalate_concat_eq (texts : List Text) (last : Text) :
    ['\x00'].intercalate (texts ++ [last]) = (texts.flatMap (· ++ ['\x00'])) ++ last := by
  induction texts with
  | nil => simp
  | cons text texts ih =>
    rw [List.cons_append, List.intercalate_cons_of_ne_nil (by simp), ih, List.flatMap_cons]
    simp only [List.append_assoc]

theorem encode_zero : Text.encode ['\x00'] = [0] := by decide

theorem encode_flatMap (texts : List Text) :
    Text.encode (texts.flatMap (· ++ ['\x00'])) =
      texts.flatMap fun text => Text.encode text ++ [0] := by
  induction texts with
  | nil => rfl
  | cons text texts ih =>
    rw [List.flatMap_cons, List.flatMap_cons, Text.encode_append, Text.encode_append, ih,
      encode_zero]

theorem hashed_eq (url : ParsedUrl) (request : CapturedRequest) (authProfile : Option Text) :
    hashed url request authProfile =
      versionBytes ++ Text.encode (['\x00'].intercalate (segments url request authProfile)) := by
  rw [segments, intercalate_concat_eq, Text.encode_append, encode_flatMap, hashed]
  cases request.body <;>
    simp [bodySegments, addressSegment, List.flatMap_append, List.flatMap_map, List.append_assoc]

/-- Texts are told apart by their bytes. -/
theorem encode_inj {a b : Text} (h : Text.encode a = Text.encode b) : a = b :=
  Option.some.inj ((Text.fromUtf8_encode a).symm.trans (h ▸ Text.fromUtf8_encode b))

/-- A list of texts without the separator is read back from its join. -/
theorem intercalate_inj {xs ys : List Text} (hxs : xs ≠ []) (hys : ys ≠ [])
    (hx : ∀ text ∈ xs, '\x00' ∉ text) (hy : ∀ text ∈ ys, '\x00' ∉ text)
    (h : ['\x00'].intercalate xs = ['\x00'].intercalate ys) : xs = ys := by
  rw [← List.splitOn_intercalate '\x00' hx hxs, h, List.splitOn_intercalate '\x00' hy hys]

/-! ## Origins -/

/-- An origin as the code spells it: two slashes in the middle, and nothing that is fed between
fields. -/
def OriginText (origin : Text) : Prop :=
  ∃ front back, origin = front ++ '/' :: '/' :: back ∧ front ≠ [] ∧ '/' ∉ front ∧ '/' ∉ back ∧
    '\x00' ∉ origin

theorem originText_originOf {url : ParsedUrl} {origin : Text} (h : originOf url = some origin) :
    OriginText origin := by
  unfold originOf at h
  dsimp only at h
  split at h
  next => cases h
  next hscheme =>
    obtain ⟨host, hhost, horigin⟩ := Option.bind_eq_some_iff.mp h
    have hclean {c : Char} (hc : c.toNat < 65) (hdot : c ≠ '.') (h : c ∉ host) :
        c ∉ Text.toAsciiLowercase (CookieFile.trimEnd '.' host) := by
      rwa [CookieFile.mem_lowercase hc, CookieFile.mem_trimEnd hdot]
    have hslash := hclean (by decide) (by decide) (url.host_clean host hhost).1
    have hzero := hclean (by decide) (by decide) (url.host_clean host hhost).2
    have hback : ∃ back, origin = Text.toAsciiLowercase url.scheme ++ "://".toList ++ back ∧
        '/' ∉ back ∧ '\x00' ∉ back := by
      split at horigin
      next => cases horigin
      next =>
        split at horigin
        next port _ =>
          have hdigit {c : Char} (hc : c.isDigit = false) (hcolon : c ≠ ':') :
              c ∉ ':' :: Nat.toDigits 10 port := by
            rw [List.mem_cons, not_or]
            exact ⟨hcolon, fun hmem => by simp [Text.isDigit_of_mem_toDigits hmem] at hc⟩
          refine ⟨_, (Option.some.inj horigin).symm.trans (List.append_assoc ..), ?_, ?_⟩
          · exact List.not_mem_append hslash (hdigit (by decide) (by decide))
          · exact List.not_mem_append hzero (hdigit (by decide) (by decide))
        next => exact ⟨_, (Option.some.inj horigin).symm, hslash, hzero⟩
    have hweb : Text.toAsciiLowercase url.scheme = "http".toList ∨
        Text.toAsciiLowercase url.scheme = "https".toList := by
      by_cases hhttp : Text.toAsciiLowercase url.scheme = "http".toList
      · exact .inl hhttp
      · exact .inr (Decidable.byContradiction fun hhttps => hscheme ⟨hhttp, hhttps⟩)
    obtain ⟨back, rfl, hslash, hzero⟩ := hback
    rcases hweb with hweb | hweb <;> rw [hweb]
    · exact ⟨"http:".toList, back, rfl, by decide, by decide, hslash,
        List.not_mem_append (by decide) hzero⟩
    · exact ⟨"https:".toList, back, rfl, by decide, by decide, hslash,
        List.not_mem_append (by decide) hzero⟩

theorem originOf_of_mem_pushOrigin {origins : List Text} {candidate : ParsedUrl} {origin : Text}
    (h : ∀ origin ∈ origins, ∃ url, originOf url = some origin)
    (hmem : origin ∈ pushOrigin origins candidate) : ∃ url, originOf url = some origin := by
  unfold pushOrigin at hmem
  split at hmem
  next spelled hspelled =>
    split at hmem
    · exact h origin hmem
    · rcases List.mem_append.mp hmem with hmem | hmem
      · exact h origin hmem
      · exact ⟨candidate, (List.mem_singleton.mp hmem) ▸ hspelled⟩
  next => exact h origin hmem

/-- What a capture is approved for is spelled by `origin_of`. -/
theorem originOf_of_mem_derive {url : ParsedUrl} {effectiveUrl : Option ParsedUrl} {origin : Text}
    (hmem : origin ∈ deriveApprovedOrigins url effectiveUrl) :
    ∃ url, originOf url = some origin := by
  refine List.foldlRecOn (url :: effectiveUrl.toList) pushOrigin
    (motive := fun origins => ∀ origin ∈ origins, ∃ url, originOf url = some origin)
    (fun _ h => absurd h List.not_mem_nil) (fun origins h candidate _ origin hmem => ?_) origin
    (List.mem_of_mem_take hmem)
  exact originOf_of_mem_pushOrigin h hmem

theorem cut_inj {c : Char} {a b x y : Text} (ha : c ∉ a) (hb : c ∉ b)
    (h : a ++ c :: x = b ++ c :: y) : a = b ∧ x = y := by
  have hsplit : Text.splitOnce c (a ++ c :: x) = some (a, x) := Text.splitOnce_append ha
  rw [h, Text.splitOnce_append hb] at hsplit
  cases hsplit
  exact ⟨rfl, rfl⟩

namespace OriginText

variable {origin : Text} (h : OriginText origin)
include h

theorem zero : '\x00' ∉ origin := by
  obtain ⟨-, -, -, -, -, -, hzero⟩ := h
  exact hzero

theorem count : origin.count '/' = 2 := by
  obtain ⟨front, back, rfl, -, hfront, hback, -⟩ := h
  simp [List.count_eq_zero_of_not_mem hfront, List.count_eq_zero_of_not_mem hback]

theorem head : origin.head? ≠ some '/' := by
  obtain ⟨front, back, rfl, hne, hfront, -, -⟩ := h
  obtain ⟨c, front, rfl⟩ := List.exists_cons_of_ne_nil hne
  rintro ⟨⟩
  exact hfront (List.mem_cons_self ..)

theorem slash : '/' ∈ origin := List.count_pos_iff.mp (by rw [h.count]; decide)

/-- An origin ends where the path after it begins. -/
theorem append_inj {origin' path path' : Text} (h' : OriginText origin')
    (hpath : path.head? = some '/') (hpath' : path'.head? = some '/')
    (heq : origin ++ path = origin' ++ path') : origin = origin' ∧ path = path' := by
  obtain ⟨front, back, rfl, -, hfront, hback, -⟩ := h
  obtain ⟨front', back', rfl, -, hfront', hback', -⟩ := h'
  obtain ⟨path, rfl⟩ := List.head?_eq_some_iff.mp hpath
  obtain ⟨path', rfl⟩ := List.head?_eq_some_iff.mp hpath'
  simp only [List.append_assoc, List.cons_append] at heq
  obtain ⟨rfl, hrest⟩ := cut_inj hfront hfront' heq
  obtain ⟨rfl, rfl⟩ := cut_inj hback hback' (List.cons.inj hrest).2
  exact ⟨rfl, rfl⟩

end OriginText

theorem head_path {url : ParsedUrl} (h : isWeb url = true) : url.path.head? = some '/' := by
  refine url.path_head ?_
  simpa [isWeb] using h

/-- What is fed of a web address is read back. -/
theorem addressSegment_inj {url url' : ParsedUrl} (hweb : isWeb url = true)
    (hweb' : isWeb url' = true) (h : addressSegment url = addressSegment url') :
    originOf url = originOf url' ∧ url.path = url'.path := by
  unfold addressSegment at h
  have hpath := head_path hweb
  have hpath' := head_path hweb'
  -- a text that begins like a path does not begin like an origin
  have hmixed {origin path path' : Text} (horigin : OriginText origin)
      (hpath : path.head? = some '/') : path ≠ origin ++ path' := by
    rintro rfl
    obtain ⟨c, rest, rfl⟩ := List.exists_cons_of_ne_nil (List.ne_nil_of_mem horigin.slash)
    exact horigin.head hpath
  cases horigin : originOf url with
  | none =>
    cases horigin' : originOf url' with
    | none =>
      rw [horigin, horigin'] at h
      exact ⟨rfl, h⟩
    | some origin' =>
      rw [horigin, horigin'] at h
      exact absurd h (hmixed (originText_originOf horigin') hpath)
  | some origin =>
    cases horigin' : originOf url' with
    | none =>
      rw [horigin, horigin'] at h
      exact absurd h.symm (hmixed (originText_originOf horigin) hpath')
    | some origin' =>
      rw [horigin, horigin'] at h
      obtain ⟨rfl, hrest⟩ :=
        (originText_originOf horigin).append_inj (originText_originOf horigin') hpath hpath' h
      exact ⟨rfl, hrest⟩

/-- What is fed of a web address is no origin: its path brings a slash more. -/
theorem not_originText_addressSegment {url : ParsedUrl} (hweb : isWeb url = true) :
    ¬ OriginText (addressSegment url) := by
  intro htext
  have hpath := head_path hweb
  cases horigin : originOf url with
  | none =>
    rw [addressSegment, horigin] at htext
    exact htext.head hpath
  | some origin =>
    obtain ⟨path, hpath⟩ := List.head?_eq_some_iff.mp hpath
    have hcount := htext.count
    rw [addressSegment, horigin, hpath, Option.getD_some, List.count_append,
      (originText_originOf horigin).count, List.count_cons_self] at hcount
    omega

/-! ## Reading the segments -/

/-- A captured request as the sanitiser leaves it, with origins as `origin_of` spells them: the
digest is hexadecimal, and no field holds what is fed between fields. -/
structure Sanitized (request : CapturedRequest) (authProfile : Option Text) : Prop where
  method : '\x00' ∉ request.method
  effective : ∀ url ∈ request.effectiveUrl, isWeb url = true
  origins : ∀ origin ∈ request.approvedOrigins, ∃ url, originOf url = some origin
  contentType : ∀ body ∈ request.body, '\x00' ∉ body.contentType
  sha256 : ∀ body ∈ request.body, '\x00' ∉ body.sha256 ∧ '/' ∉ body.sha256
  profile : ∀ profile ∈ authProfile, '\x00' ∉ profile

theorem zero_toAsciiUppercase {text : Text} (h : '\x00' ∉ text) :
    '\x00' ∉ toAsciiUppercase text := by
  rw [toAsciiUppercase, List.mem_map]
  rintro ⟨c, hc, heq⟩
  split at heq
  next hcase =>
    have hnat := congrArg Char.toNat heq
    have hle : 97 ≤ c.toNat := Char.le_def.mp hcase.1
    have hle' : c.toNat ≤ 122 := Char.le_def.mp hcase.2
    have hvalid : (c.toNat - 32).isValidChar := .inl (by omega)
    rw [Char.ofNat, dif_pos hvalid] at hnat
    change c.toNat - 32 = 0 at hnat
    omega
  next => exact h (heq ▸ hc)

theorem zero_addressSegment (url : ParsedUrl) : '\x00' ∉ addressSegment url := by
  rw [addressSegment]
  refine List.not_mem_append ?_ url.path_clean
  cases h : originOf url with
  | none => exact List.not_mem_nil
  | some origin => exact (originText_originOf h).zero

theorem slash_addressSegment {url : ParsedUrl} (h : isWeb url = true) : '/' ∈ addressSegment url :=
  List.mem_append_right _ (List.mem_of_head? (head_path h))

/-- The origins as they are fed. -/
def sortedOrigins (request : CapturedRequest) : List Text :=
  request.approvedOrigins.mergeSort Text.notAfter

theorem sortedOrigins_eq_iff {request request' : CapturedRequest} :
    sortedOrigins request = sortedOrigins request' ↔
      request.approvedOrigins.Perm request'.approvedOrigins := by
  have hperm (request : CapturedRequest) := List.mergeSort_perm request.approvedOrigins Text.notAfter
  have htrans (a b c : Text) : Text.notAfter a b → Text.notAfter b c → Text.notAfter a c :=
    Text.notAfter_trans
  have htotal (a b : Text) : (Text.notAfter a b || Text.notAfter b a) = true := by
    simpa using Text.notAfter_total a b
  have hsorted (request : CapturedRequest) :
      (sortedOrigins request).Pairwise fun a b => Text.notAfter a b :=
    List.pairwise_mergeSort htrans htotal request.approvedOrigins
  constructor
  · intro h
    exact (hperm request).symm.trans ((List.Perm.of_eq h).trans (hperm request'))
  · intro h
    exact List.Perm.eq_of_pairwise (fun _ _ _ _ => Text.notAfter_antisymm) (hsorted request)
      (hsorted request') ((hperm request).trans (h.trans (hperm request').symm))

/-- What stands between the link and the body. -/
def middle (request : CapturedRequest) : List Text :=
  request.effectiveUrl.toList.map addressSegment ++ sortedOrigins request

theorem segments_eq (url : ParsedUrl) (request : CapturedRequest) (authProfile : Option Text) :
    segments url request authProfile =
      (toAsciiUppercase (Text.trimmed request.method) :: addressSegment url ::
        (middle request ++ bodySegments request.body)) ++ [authProfile.getD []] := by
  simp [segments, middle, sortedOrigins, candidates]

namespace Sanitized

variable {request : CapturedRequest} {authProfile : Option Text}
variable (h : Sanitized request authProfile)
include h

theorem originText {origin : Text} (hmem : origin ∈ sortedOrigins request) : OriginText origin := by
  obtain ⟨url, hurl⟩ := h.origins origin (List.mem_mergeSort.mp hmem)
  exact originText_originOf hurl

theorem zero_segments (url : ParsedUrl) :
    ∀ text ∈ segments url request authProfile, '\x00' ∉ text := by
  intro text hmem
  simp only [segments, List.mem_append, List.mem_cons, List.not_mem_nil, or_false,
    List.mem_map] at hmem
  rcases hmem with (((rfl | ⟨url, -, rfl⟩) | hmem) | hmem) | rfl
  · exact zero_toAsciiUppercase fun hmem => h.method (Text.mem_of_mem_trimmed hmem)
  · exact zero_addressSegment url
  · exact (h.originText hmem).zero
  · cases hbody : request.body with
    | none => rw [hbody] at hmem; cases hmem
    | some body =>
      rw [hbody, bodySegments, List.mem_cons, List.mem_singleton] at hmem
      rcases hmem with rfl | rfl
      · exact h.contentType body hbody
      · exact (h.sha256 body hbody).1
  · cases hprofile : authProfile with
    | none => exact List.not_mem_nil
    | some profile => exact h.profile profile hprofile

/-- What stands between the link and the body holds slashes, which a digest does not. -/
theorem slash {text : Text} (hmem : text ∈ middle request) : '/' ∈ text := by
  rcases List.mem_append.mp hmem with hmem | hmem
  · obtain ⟨url, hurl, rfl⟩ := List.mem_map.mp hmem
    exact slash_addressSegment (h.effective url (Option.mem_toList.mp hurl))
  · exact (h.originText hmem).slash

/-- A body shows by its digest. -/
theorem middle_body_inj {request' : CapturedRequest} {authProfile' : Option Text}
    (h' : Sanitized request' authProfile')
    (heq : middle request ++ bodySegments request.body =
      middle request' ++ bodySegments request'.body) :
    middle request = middle request' ∧ request.body = request'.body := by
  have hdigest {body : CapturedBody} {texts : List Text} :
      body.sha256 ∈ texts ++ bodySegments (some body) :=
    List.mem_append_right _ (by simp [bodySegments])
  cases hbody : request.body with
  | none =>
    cases hbody' : request'.body with
    | none =>
      rw [hbody, hbody', bodySegments, List.append_nil, List.append_nil] at heq
      exact ⟨heq, rfl⟩
    | some body' =>
      rw [hbody, hbody', bodySegments.eq_2, List.append_nil] at heq
      exact absurd (h.slash (heq ▸ hdigest)) (h'.sha256 body' hbody').2
  | some body =>
    cases hbody' : request'.body with
    | none =>
      rw [hbody, hbody', bodySegments.eq_2, List.append_nil] at heq
      exact absurd (h'.slash (heq ▸ hdigest)) (h.sha256 body hbody).2
    | some body' =>
      rw [hbody, hbody'] at heq
      obtain ⟨hmiddle, hfields⟩ := List.append_inj' heq rfl
      cases body
      cases body'
      cases hfields
      exact ⟨hmiddle, rfl⟩

/-- The address of the browser is no origin. -/
theorem middle_inj {request' : CapturedRequest} {authProfile' : Option Text}
    (h' : Sanitized request' authProfile') (heq : middle request = middle request') :
    request.effectiveUrl.map (fun url => (originOf url, url.path)) =
        request'.effectiveUrl.map (fun url => (originOf url, url.path)) ∧
      sortedOrigins request = sortedOrigins request' := by
  unfold middle at heq
  cases heffective : request.effectiveUrl with
  | none =>
    cases heffective' : request'.effectiveUrl with
    | none =>
      rw [heffective, heffective'] at heq
      exact ⟨rfl, heq⟩
    | some url' =>
      rw [heffective, heffective'] at heq
      have heq : sortedOrigins request = addressSegment url' :: sortedOrigins request' := heq
      have hmem : addressSegment url' ∈ sortedOrigins request := heq ▸ List.mem_cons_self ..
      exact absurd (h.originText hmem)
        (not_originText_addressSegment (h'.effective url' heffective'))
  | some url =>
    cases heffective' : request'.effectiveUrl with
    | none =>
      rw [heffective, heffective'] at heq
      have heq : addressSegment url :: sortedOrigins request = sortedOrigins request' := heq
      have hmem : addressSegment url ∈ sortedOrigins request' := heq ▸ List.mem_cons_self ..
      exact absurd (h'.originText hmem)
        (not_originText_addressSegment (h.effective url heffective))
    | some url' =>
      rw [heffective, heffective'] at heq
      obtain ⟨hsegment, horigins⟩ := List.cons.inj heq
      obtain ⟨horigin, hpath⟩ := addressSegment_inj (h.effective url heffective)
        (h'.effective url' heffective') hsegment
      exact ⟨by rw [Option.map_some, Option.map_some, horigin, hpath], horigins⟩

end Sanitized

/-- The fields that a consent covers are read back from the segments. -/
theorem segments_eq_iff {url url' : ParsedUrl} {request request' : CapturedRequest}
    {authProfile authProfile' : Option Text} (hweb : isWeb url = true) (hweb' : isWeb url' = true)
    (h : Sanitized request authProfile) (h' : Sanitized request' authProfile') :
    segments url request authProfile = segments url' request' authProfile' ↔
      SameConsent url request authProfile url' request' authProfile' := by
  rw [segments_eq, segments_eq]
  constructor
  · intro heq
    obtain ⟨hfields, hprofile⟩ := List.append_inj' heq rfl
    obtain ⟨hmethod, hrest⟩ := List.cons.inj hfields
    obtain ⟨hlink, hrest⟩ := List.cons.inj hrest
    obtain ⟨horigin, hpath⟩ := addressSegment_inj hweb hweb' hlink
    obtain ⟨hmiddle, hbody⟩ := h.middle_body_inj h' hrest
    obtain ⟨heffective, horigins⟩ := h.middle_inj h' hmiddle
    exact ⟨hmethod, horigin, hpath, heffective, sortedOrigins_eq_iff.mp horigins, hbody,
      (List.cons.inj hprofile).1⟩
  · intro same
    have heffective : request.effectiveUrl.map addressSegment =
        request'.effectiveUrl.map addressSegment := by
      have hpairs := congrArg (Option.map fun (origin, path) => origin.getD [] ++ path) same.effective
      rwa [Option.map_map, Option.map_map] at hpairs
    have hmiddle : middle request = middle request' := by
      rw [middle, middle, sortedOrigins_eq_iff.mpr same.origins, ← Option.toList_map,
        ← Option.toList_map, heffective]
    rw [same.method, addressSegment, addressSegment, same.origin, same.path, hmiddle, same.body,
      same.profile]

/-- The bytes of two requests are the same exactly when a consent to one is a consent to the other,
and so are their hashes where no two messages hash alike. -/
theorem hashed_eq_iff {url url' : ParsedUrl} {request request' : CapturedRequest}
    {authProfile authProfile' : Option Text} (hweb : isWeb url = true) (hweb' : isWeb url' = true)
    (h : Sanitized request authProfile) (h' : Sanitized request' authProfile') :
    (hashed url request authProfile = hashed url' request' authProfile' ↔
      SameConsent url request authProfile url' request' authProfile') ∧
    ∀ sha256 : Bytes → Text, sha256.Injective →
      (stableHash sha256 url request authProfile = stableHash sha256 url' request' authProfile' ↔
        SameConsent url request authProfile url' request' authProfile') := by
  have hbytes : hashed url request authProfile = hashed url' request' authProfile' ↔
      SameConsent url request authProfile url' request' authProfile' := by
    rw [← segments_eq_iff hweb hweb' h h', hashed_eq, hashed_eq, List.append_cancel_left_eq]
    refine ⟨fun heq => ?_, fun heq => by rw [heq]⟩
    exact intercalate_inj (by simp [segments]) (by simp [segments]) (h.zero_segments url)
      (h'.zero_segments url') (encode_inj heq)
  exact ⟨hbytes, fun sha256 hinjective => hinjective.eq_iff.trans hbytes⟩

/-- A file on a host, fetched over https. -/
def fileOn (host : Text) (hslash : '/' ∉ host) (hzero : '\x00' ∉ host) : ParsedUrl where
  scheme := "https".toList
  host := some host
  port := none
  path := "/f.bin".toList
  host_clean := fun _ h => Option.some.inj h ▸ ⟨hslash, hzero⟩
  path_clean := by decide
  path_head := fun _ => rfl

def fileOnCdn : ParsedUrl := fileOn "cdn.example".toList (by decide) (by decide)

theorem hashed_eq_iff_capture :
    hashed fileOnCdn { method := "GET".toList, approvedOrigins := ["https://cdn.example".toList] }
        none =
      hashed fileOnCdn { method := "get".toList, approvedOrigins := ["https://cdn.example".toList] }
        (some []) := by
  have hsanitized {method : Text} {profile : Option Text} (hmethod : '\x00' ∉ method)
      (hprofile : ∀ text ∈ profile, '\x00' ∉ text) : Sanitized
      { method, approvedOrigins := ["https://cdn.example".toList] } profile :=
    { method := hmethod
      effective := fun _ h => nomatch h
      origins := fun _ h => ⟨fileOnCdn, by rw [List.mem_singleton.mp h]; decide⟩
      contentType := fun _ h => nomatch h
      sha256 := fun _ h => nomatch h
      profile := hprofile }
  refine (hashed_eq_iff (by decide) (by decide) (hsanitized (by decide) (by decide))
    (hsanitized (by decide) (by decide))).1.mpr ?_
  exact ⟨by decide, rfl, rfl, rfl, .refl _, rfl, rfl⟩

/-- Methods are compared without the white space around them, and a body whose fields read like
origins stands where these do. -/
theorem captures_confused :
    (hashed fileOnCdn { method := " GET".toList } none =
        hashed fileOnCdn { method := "GET".toList } none ∧
      toAsciiUppercase " GET".toList ≠ toAsciiUppercase "GET".toList) ∧
    hashed fileOnCdn
        { method := "POST".toList
          approvedOrigins := ["https://a.example".toList, "https://b.example".toList] } none =
      hashed fileOnCdn
        { method := "POST".toList
          body := some ⟨"https://a.example".toList, "https://b.example".toList⟩ } none ∧
    originOf (fileOn "a.example".toList (by decide) (by decide)) =
      some "https://a.example".toList ∧
    originOf (fileOn "b.example".toList (by decide) (by decide)) =
      some "https://b.example".toList := by
  have hsorted : ["https://a.example".toList, "https://b.example".toList].mergeSort Text.notAfter =
      ["https://a.example".toList, "https://b.example".toList] :=
    List.mergeSort_of_pairwise (by decide)
  refine ⟨⟨?_, by decide⟩, ?_, by decide, by decide⟩
  · rw [hashed_eq, hashed_eq, segments_eq, segments_eq, middle, middle, sortedOrigins,
      sortedOrigins, List.mergeSort_nil]
    decide +kernel
  · rw [hashed_eq, hashed_eq, segments_eq, segments_eq, middle, middle, sortedOrigins,
      sortedOrigins, hsorted, List.mergeSort_nil]
    decide +kernel

end Replay
end RDownloader
