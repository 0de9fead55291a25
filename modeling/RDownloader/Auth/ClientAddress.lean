import RDownloader.Auth.AddressText

/-!
# Who a request came from (`rd-authn/src/client_ip.rs`, `cidr.rs`)

A forwarded header is read only when the peer is a proxy that the operator named, and then from
the right.
-/

namespace RDownloader

open IpAddr

namespace IpAddr

def octets : IpAddr → List (BitVec 8)
  | v4 address => (List.range 4).map fun index => BitVec.ofNat 8 (octet address index)
  | v6 address =>
    (List.range 16).map fun index => BitVec.ofNat 8 (address.toNat / 2 ^ (8 * (15 - index)))

def bits : IpAddr → Nat
  | v4 _ => 32
  | v6 _ => 128

end IpAddr

/-- One address range. -/
structure Cidr where
  network : IpAddr
  prefixBits : Nat
  fits : prefixBits ≤ network.bits

namespace Cidr

def prefixMatches (network address : List (BitVec 8)) (prefixBits : Nat) : Bool :=
  let whole := prefixBits / 8
  let remainder := prefixBits % 8
  if network.take whole ≠ address.take whole then false
  else if remainder = 0 then true
  else
    let mask := BitVec.allOnes 8 <<< (8 - remainder)
    network[whole]?.map (· &&& mask) = address[whole]?.map (· &&& mask)

/-- Families do not mix. -/
def contains (range : Cidr) (address : IpAddr) : Bool :=
  match range.network, address.unmap with
  | v4 network, v4 address =>
    prefixMatches (octets (v4 network)) (octets (v4 address)) range.prefixBits
  | v6 network, v6 address =>
    prefixMatches (octets (v6 network)) (octets (v6 address)) range.prefixBits
  | _, _ => false

end Cidr

/-- Where the request is treated as coming from, and whether a proxy said so. -/
structure ClientAddress where
  address : IpAddr
  fromForwardedHeader : Bool
  deriving DecidableEq

namespace ClientAddress

/-- `MAX_HOPS`. -/
def maxHops : Nat := 32

def isTrusted (address : IpAddr) (trusted : List Cidr) : Bool :=
  trusted.any fun range => range.contains address.unmap

/-- `str::parse::<u16>`. -/
def parseU16 (text : Text) : Option Nat :=
  let digits := match text with
    | '+' :: rest => rest
    | _ => text
  (Text.digits? digits).filter (· ≤ 65535)

/-- One entry, with or without a port, bracketed or not. -/
def parseAddress (value : Text) : Option IpAddr :=
  match Text.trimmed value with
  | [] => none
  | '[' :: rest => do
    let (inside, _) ← Text.splitOnce ']' rest
    (parse inside).map unmap
  | value =>
    match parse value with
    | some address => some address.unmap
    | none => do
      -- Only for v4: a bare v6 with a port cannot be read without brackets.
      let (host, port) ← Text.rsplitOnce ':' value
      let _ ← parseU16 port
      (parseV4 host).map v4

/-- The rightmost entries that name an address, in order. -/
def readHops (read : Text → Option IpAddr) (value : Text) : List IpAddr :=
  (((value.splitOn ',').reverse.take maxHops).filterMap read).reverse

/-- An entry of `X-Forwarded-For`. -/
def readEntry (entry : Text) : Option IpAddr := parseAddress (Text.trimmed entry)

/-- `trim_matches`. -/
def trimQuotes (text : Text) : Text :=
  ((text.dropWhile (· = '"')).reverse.dropWhile (· = '"')).reverse

/-- The value of a pair whose key is `for`. -/
def forValue (pair : Text) : Option Text := do
  let (key, value) ← Text.splitOnce '=' pair
  if Text.eqIgnoreAsciiCase (Text.trimmed key) "for".toList then some value else none

/-- An element of `Forwarded`. -/
def readElement (element : Text) : Option IpAddr :=
  ((element.splitOn ';').filterMap forValue).findSome? fun value =>
    parseAddress (trimQuotes (Text.trimmed value))

def parseForwardedFor (value : Text) : List IpAddr := readHops readEntry value

def parseForwarded (value : Text) : List IpAddr := readHops readElement value

/-- The hops that are looked at: those of the first header that names any. -/
def candidates (forwardedFor forwarded : Option Text) : List IpAddr :=
  (((forwardedFor.map parseForwardedFor).filter (· ≠ [])).or
    ((forwarded.map parseForwarded).filter (· ≠ []))).getD []

/-- The client address of one request. -/
def resolve (peer : IpAddr) (forwardedFor forwarded : Option Text) (trusted : List Cidr) :
    ClientAddress :=
  let peer := peer.unmap
  if !isTrusted peer trusted then { address := peer, fromForwardedHeader := false }
  else
    -- right to left: the first hop that is not itself a trusted proxy
    match (candidates forwardedFor forwarded).reverse.find? fun hop => !isTrusted hop trusted with
    | some address => { address, fromForwardedHeader := true }
    | none => { address := peer, fromForwardedHeader := false }

/-! ## What the right part settles -/

variable {peer address : IpAddr} {forwardedFor forwarded : Option Text} {trusted : List Cidr}
  {left right : Text} {read : Text → Option IpAddr}

theorem unmap_unmap (address : IpAddr) : address.unmap.unmap = address.unmap := by
  cases address with
  | v4 address => rfl
  | v6 address =>
    by_cases h : address >>> 32 = 0xffff
    · rw [show (v6 address).unmap = v4 (address.setWidth 32) from if_pos h]
      rfl
    · have hself : (v6 address).unmap = v6 address := if_neg h
      rw [hself, hself]

@[simp] theorem isTrusted_unmap : isTrusted address.unmap trusted = isTrusted address trusted := by
  rw [isTrusted, unmap_unmap, isTrusted]

/-- The hop that is believed, or else the peer. -/
def believed (peer : IpAddr) (hops : List IpAddr) (trusted : List Cidr) : IpAddr :=
  (hops.reverse.find? fun hop => !isTrusted hop trusted).getD peer.unmap

theorem resolve_of_untrusted (h : isTrusted peer trusted = false) :
    resolve peer forwardedFor forwarded trusted =
      { address := peer.unmap, fromForwardedHeader := false } := by
  rw [resolve, isTrusted_unmap, h]
  rfl

theorem resolve_address (h : isTrusted peer trusted = true) :
    (resolve peer forwardedFor forwarded trusted).address =
      believed peer (candidates forwardedFor forwarded) trusted := by
  rw [resolve, isTrusted_unmap, h, believed, Bool.not_true, if_neg Bool.false_ne_true]
  cases (candidates forwardedFor forwarded).reverse.find? fun hop => !isTrusted hop trusted <;> rfl

theorem candidates_of_forwardedFor {value : Text} (h : parseForwardedFor value ≠ []) :
    candidates (some value) forwarded = parseForwardedFor value := by
  rw [candidates, Option.map_some, Option.filter_some, if_pos (decide_eq_true h)]
  rfl

theorem candidates_of_forwarded {value : Text}
    (h : forwardedFor.all fun value => parseForwardedFor value = []) :
    candidates forwardedFor (some value) = parseForwarded value := by
  have hnone : (forwardedFor.map parseForwardedFor).filter (· ≠ []) = none := by
    cases forwardedFor with
    | none => rfl
    | some first => simpa using h
  rw [candidates, hnone, Option.none_or, Option.map_some, Option.filter_some]
  by_cases hne : parseForwarded value = []
  · simp [hne]
  · rw [if_pos (decide_eq_true hne)]
    rfl

/-- The entries of the right part come first, and then as many of the left as there is room for. -/
theorem reverse_readHops (read : Text → Option IpAddr) (left right : Text) :
    (readHops read (left ++ ',' :: right)).reverse =
      ((right.splitOn ',').reverse.take maxHops).filterMap read ++
        ((left.splitOn ',').reverse.take (maxHops - (right.splitOn ',').length)).filterMap read := by
  rw [readHops, List.reverse_reverse, List.splitOn_append_cons_self, List.reverse_append,
    List.take_append, List.filterMap_append, List.length_reverse]

/-- The part to the right of a comma settles the client: it names somebody who is no trusted proxy,
or nothing else is looked at, or nobody else can be named. -/
def Settles (read : Text → Option IpAddr) (right : Text) (trusted : List Cidr) : Prop :=
  maxHops ≤ (right.splitOn ',').length ∨
    (∃ entry ∈ right.splitOn ',', ∃ address, read entry = some address ∧
      isTrusted address trusted = false) ∨
    ∀ address, isTrusted address trusted = true

theorem readHops_of_long (h : maxHops ≤ (right.splitOn ',').length) (left left' : Text) :
    readHops read (left ++ ',' :: right) = readHops read (left' ++ ',' :: right) := by
  refine List.reverse_inj.mp ?_
  rw [reverse_readHops, reverse_readHops, Nat.sub_eq_zero_of_le h, List.take_zero, List.take_zero]

theorem believed_of_trusted (h : ∀ address, isTrusted address trusted = true)
    (hops : List IpAddr) : believed peer hops trusted = peer.unmap := by
  have hnone : hops.reverse.find? (fun hop => !isTrusted hop trusted) = none :=
    List.find?_eq_none.mpr fun hop _ => by rw [h hop]; exact Bool.false_ne_true
  rw [believed, hnone]
  rfl

/-- Whoever is named to the right is found before anybody to the left. -/
theorem find_reverse_readHops {entry : Text} (hshort : (right.splitOn ',').length < maxHops)
    (hentry : entry ∈ right.splitOn ',') (hread : read entry = some address)
    (huntrusted : isTrusted address trusted = false) :
    ∃ hop, ∀ left, (readHops read (left ++ ',' :: right)).reverse.find?
      (fun hop => !isTrusted hop trusted) = some hop := by
  have hmem : address ∈ ((right.splitOn ',').reverse.take maxHops).filterMap read := by
    rw [List.take_of_length_le (by rw [List.length_reverse]; omega)]
    exact List.mem_filterMap.mpr ⟨entry, List.mem_reverse.mpr hentry, hread⟩
  have hfind : (!isTrusted address trusted) = true := by
    rw [huntrusted]
    rfl
  obtain ⟨hop, hhop⟩ := Option.isSome_iff_exists.mp
    (List.find?_isSome (p := fun hop => !isTrusted hop trusted) |>.mpr ⟨address, hmem, hfind⟩)
  refine ⟨hop, fun left => ?_⟩
  rw [reverse_readHops, List.find?_append, hhop]
  rfl

theorem believed_of_settles (h : Settles read right trusted) (left left' : Text) :
    believed peer (readHops read (left ++ ',' :: right)) trusted =
      believed peer (readHops read (left' ++ ',' :: right)) trusted := by
  by_cases hlong : maxHops ≤ (right.splitOn ',').length
  · rw [readHops_of_long hlong left left']
  rcases h.resolve_left hlong with ⟨entry, hentry, address, hread, huntrusted⟩ | htrusted
  · obtain ⟨hop, hfind⟩ :=
      find_reverse_readHops (Nat.lt_of_not_le hlong) hentry hread huntrusted
    rw [believed, believed, hfind left, hfind left']
  · rw [believed_of_trusted htrusted, believed_of_trusted htrusted]

/-- How a header writes an address, so that it is read again. -/
def Writes (read : Text → Option IpAddr) (entryOf : IpAddr → Text) : Prop :=
  ∀ address, ',' ∉ entryOf address ∧ read (entryOf address) = some address.unmap

/-- One entry to the left is looked at when there is room for it. -/
theorem reverse_readHops_of_lt {entryOf : IpAddr → Text} (hwrites : Writes read entryOf)
    (hshort : (right.splitOn ',').length < maxHops) (address : IpAddr) :
    (readHops read (entryOf address ++ ',' :: right)).reverse =
      (right.splitOn ',').reverse.filterMap read ++ [address.unmap] := by
  obtain ⟨hcomma, hread⟩ := hwrites address
  rw [reverse_readHops, List.take_of_length_le (by rw [List.length_reverse]; omega),
    List.splitOn_eq_singleton hcomma, List.reverse_singleton,
    List.take_of_length_le (by rw [List.length_singleton]; omega),
    List.filterMap_cons_some hread, List.filterMap_nil]

/-- Where the right part does not settle the client, the left part names it. -/
theorem believed_of_not_settles {entryOf : IpAddr → Text} (hwrites : Writes read entryOf)
    (hpeer : isTrusted peer trusted = true) (h : ¬ Settles read right trusted) :
    ∃ left left', readHops read (left ++ ',' :: right) ≠ [] ∧
      readHops read (left' ++ ',' :: right) ≠ [] ∧
      believed peer (readHops read (left ++ ',' :: right)) trusted ≠
        believed peer (readHops read (left' ++ ',' :: right)) trusted := by
  rw [Settles, not_or, not_or] at h
  obtain ⟨hlong, hentries, hall⟩ := h
  have hshort := Nat.lt_of_not_le hlong
  obtain ⟨address, huntrusted⟩ := Classical.not_forall.mp hall
  have hright : ((right.splitOn ',').reverse.filterMap read).find?
      (fun hop => !isTrusted hop trusted) = none := by
    refine List.find?_eq_none.mpr fun hop hhop => ?_
    obtain ⟨entry, hentry, hread⟩ := List.mem_filterMap.mp hhop
    intro hneg
    exact hentries ⟨entry, List.mem_reverse.mp hentry, hop, hread, by simpa using hneg⟩
  have hbelieved (hop : IpAddr) :
      believed peer (readHops read (entryOf hop ++ ',' :: right)) trusted =
        ([hop.unmap].find? fun hop => !isTrusted hop trusted).getD peer.unmap := by
    rw [believed, reverse_readHops_of_lt hwrites hshort, List.find?_append, hright,
      Option.none_or]
  have hne (hop : IpAddr) : readHops read (entryOf hop ++ ',' :: right) ≠ [] := by
    refine List.reverse_ne_nil_iff.mp ?_
    rw [reverse_readHops_of_lt hwrites hshort]
    exact List.append_ne_nil_of_right_ne_nil _ (List.cons_ne_nil _ _)
  refine ⟨entryOf address, entryOf peer, hne address, hne peer, ?_⟩
  rw [hbelieved, hbelieved, List.find?_cons_of_pos (by simpa using huntrusted),
    List.find?_cons_of_neg (by simp [hpeer])]
  -- the peer is trusted, and the address to the left is not
  intro heq
  have hsame : address.unmap = peer.unmap := heq
  rw [← isTrusted_unmap, hsame, isTrusted_unmap] at huntrusted
  exact huntrusted hpeer

/-! ## Both headers -/

theorem parseAddress_written (address : IpAddr) :
    parseAddress (Text.trimmed (written address)) = some address.unmap := by
  have htight : (written address).Tight :=
    Text.tight_of_forall fun c hc => isWhiteSpace_of_isAddressChar (mem_written hc)
  have hself := Text.trimmed_of_tight htight
  rw [parseAddress, hself, hself]
  split
  next hnil => 
    have hparse := parse_written address
    rw [hnil] at hparse
    cases hparse
  next rest hbracket =>
    have hchar := mem_written (hbracket ▸ List.mem_cons_self : '[' ∈ written address)
    cases hchar
  next => rw [parse_written]

theorem not_mem_written {c : Char} (h : isAddressChar c = false) (address : IpAddr) :
    c ∉ written address := fun hmem => Bool.false_ne_true (h.symm.trans (mem_written hmem))

theorem writes_written : Writes readEntry written := fun address =>
  ⟨not_mem_written rfl address, parseAddress_written address⟩

/-- An address as an element of `Forwarded`. -/
def element (address : IpAddr) : Text := "for".toList ++ '=' :: written address

theorem not_mem_element {c : Char} (hfor : c ∉ "for=".toList) (h : isAddressChar c = false)
    (address : IpAddr) : c ∉ element address := by
  have hsplit : element address = "for=".toList ++ written address := rfl
  rw [hsplit, List.mem_append]
  exact fun hmem => hmem.elim hfor (not_mem_written h address)

theorem trimQuotes_written (address : IpAddr) : trimQuotes (written address) = written address := by
  have hquote {text : Text} (h : '"' ∉ text) : text.dropWhile (· = '"') = text := by
    cases text with
    | nil => rfl
    | cons c text =>
      rw [List.mem_cons, not_or] at h
      exact List.dropWhile_cons_of_neg (by simpa using Ne.symm h.1)
  have hnot : '"' ∉ written address := not_mem_written rfl address
  rw [trimQuotes, hquote hnot, hquote (mt List.mem_reverse.mp hnot), List.reverse_reverse]

theorem writes_element : Writes readElement element := by
  intro address
  refine ⟨not_mem_element (by decide) rfl address, ?_⟩
  have htight : (written address).Tight :=
    Text.tight_of_forall fun c hc => isWhiteSpace_of_isAddressChar (mem_written hc)
  have hvalue : forValue (element address) = some (written address) := by
    rw [forValue, element, Text.splitOnce_append (by decide)]
    rfl
  have hread := parseAddress_written address
  rw [Text.trimmed_of_tight htight] at hread
  rw [readElement, List.splitOn_eq_singleton (not_mem_element (by decide) rfl address),
    List.filterMap_cons_some hvalue, List.filterMap_nil, List.findSome?_cons,
    Text.trimmed_of_tight htight, trimQuotes_written, hread]

theorem believed_forwardedFor_of_settles (h : Settles readEntry right trusted)
    (forwarded : Option Text) (left left' : Text) :
    believed peer (candidates (some (left ++ ',' :: right)) forwarded) trusted =
      believed peer (candidates (some (left' ++ ',' :: right)) forwarded) trusted := by
  by_cases hlong : maxHops ≤ (right.splitOn ',').length
  · have heq : parseForwardedFor (left ++ ',' :: right) =
        parseForwardedFor (left' ++ ',' :: right) := readHops_of_long hlong left left'
    rw [candidates, candidates, Option.map_some, Option.map_some, heq]
  rcases h.resolve_left hlong with ⟨entry, hentry, address, hread, huntrusted⟩ | htrusted
  · -- a header that names somebody is the one that is read
    obtain ⟨hop, hfind⟩ :=
      find_reverse_readHops (Nat.lt_of_not_le hlong) hentry hread huntrusted
    have hne (left : Text) : parseForwardedFor (left ++ ',' :: right) ≠ [] := by
      intro hnil
      have hsome := hfind left
      rw [show readHops readEntry (left ++ ',' :: right) = [] from hnil] at hsome
      cases hsome
    rw [candidates_of_forwardedFor (hne left), candidates_of_forwardedFor (hne left')]
    exact believed_of_settles h left left'
  · rw [believed_of_trusted htrusted, believed_of_trusted htrusted]

theorem forwardedFor_iff (hpeer : isTrusted peer trusted = true) (forwarded : Option Text)
    (right : Text) :
    (∀ left left', believed peer (candidates (some (left ++ ',' :: right)) forwarded) trusted =
      believed peer (candidates (some (left' ++ ',' :: right)) forwarded) trusted) ↔
      Settles readEntry right trusted := by
  constructor
  · intro hsame
    refine Classical.byContradiction fun hnot => ?_
    obtain ⟨left, left', hne, hne', hdiffer⟩ := believed_of_not_settles writes_written hpeer hnot
    have heq := hsame left left'
    rw [candidates_of_forwardedFor hne, candidates_of_forwardedFor hne'] at heq
    exact hdiffer heq
  · exact fun h => believed_forwardedFor_of_settles h forwarded

theorem forwarded_iff (hpeer : isTrusted peer trusted = true) (forwardedFor : Option Text)
    (right : Text) :
    (∀ left left', believed peer (candidates forwardedFor (some (left ++ ',' :: right))) trusted =
      believed peer (candidates forwardedFor (some (left' ++ ',' :: right))) trusted) ↔
      (forwardedFor.any fun value => parseForwardedFor value ≠ []) ∨
        Settles readElement right trusted := by
  by_cases hfirst : forwardedFor.all fun value => parseForwardedFor value = []
  · have hany : ¬ (forwardedFor.any fun value => parseForwardedFor value ≠ []) = true := by
      cases forwardedFor with
      | none => simp
      | some value => simpa using hfirst
    simp only [candidates_of_forwarded hfirst, or_iff_right hany]
    constructor
    · intro hsame
      refine Classical.byContradiction fun hnot => ?_
      obtain ⟨left, left', -, -, hdiffer⟩ := believed_of_not_settles writes_element hpeer hnot
      exact hdiffer (hsame left left')
    · exact fun h => believed_of_settles h
  · cases forwardedFor with
    | none => exact absurd rfl hfirst
    | some value =>
      have hne : parseForwardedFor value ≠ [] := by simpa using hfirst
      simp [candidates_of_forwardedFor hne, hne]

/-- What stands to the left of a comma decides nothing exactly when the right part settles the
client; an untrusted peer is the client itself. -/
theorem client_settled_iff (peer : IpAddr) (forwardedFor forwarded : Option Text)
    (trusted : List Cidr) (right : Text) :
    if isTrusted peer trusted then
      ((∀ left left',
          (resolve peer (some (left ++ ',' :: right)) forwarded trusted).address =
            (resolve peer (some (left' ++ ',' :: right)) forwarded trusted).address) ↔
        Settles readEntry right trusted) ∧
      ((∀ left left',
          (resolve peer forwardedFor (some (left ++ ',' :: right)) trusted).address =
            (resolve peer forwardedFor (some (left' ++ ',' :: right)) trusted).address) ↔
        (forwardedFor.any fun value => parseForwardedFor value ≠ []) ∨
          Settles readElement right trusted)
    else resolve peer forwardedFor forwarded trusted =
      { address := peer.unmap, fromForwardedHeader := false } := by
  split
  next hpeer =>
    simp only [resolve_address hpeer]
    exact ⟨forwardedFor_iff hpeer forwarded right, forwarded_iff hpeer forwardedFor right⟩
  next hpeer => exact resolve_of_untrusted (Bool.eq_false_iff.mpr hpeer)

/-- `10.0.0.0/8`. -/
def tenNetwork : Cidr := { network := v4 0x0a000000, prefixBits := 8, fits := by decide }

/-- Entries that are no address are skipped, so the client is the entry before them. -/
theorem left_decides_before_unknown :
    ¬ ∀ (peer : IpAddr) (forwarded : Option Text) (trusted : List Cidr) (left left' right : Text),
      isTrusted peer trusted = true → (right.splitOn ',').length ≤ maxHops →
      (∀ entry ∈ (right.splitOn ',').head?, ∀ address ∈ readEntry entry,
        isTrusted address trusted = false) →
      (resolve peer (some (left ++ ',' :: right)) forwarded trusted).address =
        (resolve peer (some (left' ++ ',' :: right)) forwarded trusted).address := by
  intro h
  have hsame := h (v4 0x0a000001) none [tenNetwork] "203.0.113.9".toList "198.51.100.7".toList
    "unknown".toList (by decide +kernel) (by decide +kernel) (by decide +kernel)
  revert hsame
  decide +kernel

end ClientAddress
end RDownloader
