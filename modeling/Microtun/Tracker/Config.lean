import Microtun.Core.Admission
import Microtun.Tracker.Registry
import Microtun.Tracker.Toml

/-! Loading `tracker.toml` into a served registry, `config.rs`, and reloading it, `resolver.rs`. -/

namespace Microtun

/-- An interface address: an address with the length of its network. -/
inductive IpInet where
  | v4 (address : BitVec 32) (networkLength : Nat) (h : networkLength ≤ 32)
  | v6 (address : BitVec 128) (networkLength : Nat) (h : networkLength ≤ 128)
deriving DecidableEq

namespace IpInet

def address : IpInet → IpAddr
  | v4 address _ _ => .v4 address
  | v6 address _ _ => .v6 address

def networkLength : IpInet → Nat
  | v4 _ networkLength _ => networkLength
  | v6 _ networkLength _ => networkLength

/-- The network, without host bits. -/
def network : IpInet → IpCidr
  | v4 address networkLength h => .v4 (.ofAddress address networkLength h)
  | v6 address networkLength h => .v6 (.ofAddress address networkLength h)

theorem networkLength_network (i : IpInet) : i.network.networkLength = i.networkLength := by
  cases i <;> rfl

end IpInet

namespace Tracker

/-- The text forms of the crates `cidr` and `toml_parser` and of socket addresses. -/
structure Formats where
  parseIpInet : String → Option IpInet
  parseSocketAddr : String → Option SocketAddr
  showIpInet : IpInet → String
  showIpCidr : IpCidr → String
  showSocketAddr : SocketAddr → String
  toml : String → Toml.Document

/-- The characters with the property `White_Space`. -/
def isWhitespace (c : Char) : Bool :=
  let n := c.toNat
  (9 ≤ n && n ≤ 13) || n == 0x20 || n == 0x85 || n == 0xa0 || n == 0x1680 ||
    (0x2000 ≤ n && n ≤ 0x200a) || n == 0x2028 || n == 0x2029 || n == 0x202f || n == 0x205f ||
    n == 0x3000

def trim (s : String) : String :=
  .ofList ((s.toList.dropWhile isWhitespace).reverse.dropWhile isWhitespace).reverse

def toAsciiLowercase (s : String) : String :=
  .ofList (s.toList.map fun c => if 'A' ≤ c ∧ c ≤ 'Z' then .ofNat (c.toNat + 32) else c)

def eqIgnoreAsciiCase (a b : String) : Bool := toAsciiLowercase a == toAsciiLowercase b

/-- The text before the first `c` and the text after it. -/
def splitOnce (c : Char) : List Char → Option (List Char × List Char)
  | [] => none
  | head :: rest =>
    if head = c then some ([], rest)
    else (splitOnce c rest).map fun (before, after) => (head :: before, after)

def keyPrefixLen : Nat := 12

def PeerRecord.keyPrefix (r : PeerRecord) : String :=
  .ofList (r.publicKeyText.toList.take keyPrefixLen)

def BuildError.message (F : Formats) : BuildError → String
  | .sharedKey text => "two peers share the public key " ++ text
  | .sharedPrefix owner claimant cidr =>
    "peers " ++ owner.keyPrefix ++ " and " ++ claimant.keyPrefix ++ " both claim " ++
      F.showIpCidr cidr

namespace Config

open Toml (rejectIf need rejectIf_ok)

def defaultListenPort : UInt16 := 51820
def defaultMtu : UInt16 := 1280
def configApiGroup : String := "microtun.dev"
def configApiVersion : String := "v1alpha1"
def configApiVersionId : String := "microtun.dev/v1alpha1"
def configKind : String := "TrackerConfig"
def tunnelAddressMaxLen : Nat := 43
def selfAlias : String := "@self"

def maxUdpSize : Nat := 1500
def outerIpv6UdpOverhead : Nat := 48
def dataOverhead : Nat := 32
def envelopeHeaderLen : Nat := 36

def recommendedMaxMtu : Nat :=
  (maxUdpSize - outerIpv6UdpOverhead - dataOverhead) / 16 * 16

def recommendedMaxRelayedMtu : Nat :=
  let outerPayload := maxUdpSize - outerIpv6UdpOverhead
  let relayPlaintext := (outerPayload - dataOverhead) / 16 * 16
  let innerDatagram := relayPlaintext - envelopeHeaderLen
  (innerDatagram - dataOverhead) / 16 * 16

example : recommendedMaxMtu = 1408 ∧ recommendedMaxRelayedMtu = 1328 := by decide

structure ServerOptions where
  listen : SocketAddr
  tunnelAddress : IpInet
  mtu : UInt16
  enableForwarding : Bool
  privateKey : Key
  publicKey : Key
deriving DecidableEq

/-- A configuration that has been accepted. -/
structure Loaded where
  options : ServerOptions
  registry : Built

/-- A peer whose relay is still as it is written. -/
structure Draft where
  name : Option String
  publicKey : Key
  endpoint : Option SocketAddr
  relay : Option String
  persistentKeepalive : Option UInt16
  address : IpCidr

section

variable (F : Formats) (path : String)

def supportedApiVersion (value : String) : Bool :=
  match splitOnce '/' value.toList with
  | some (group, version) =>
    String.ofList group == configApiGroup && String.ofList version == configApiVersion
  | none => false

def validateMaxLen (value : String) (maxLen : Nat) (field : String) : Except ConfigError Unit :=
  rejectIf (decide (value.utf8ByteSize > maxLen))
    (.file path (field ++ " exceeds the device-config-compatible limit of " ++ toString maxLen ++
      " bytes"))

def validateMtu (mtu : UInt16) : Except ConfigError Unit := do
  rejectIf (mtu == 0) (.file path "Tunnel.MTU must be non-zero")
  rejectIf (decide (mtu.toNat > recommendedMaxRelayedMtu))
    (.file path ("Tunnel.MTU must not exceed " ++ toString recommendedMaxRelayedMtu ++
      " (the largest inner packet that fits a 1500-byte path, including " ++
      "the relay envelope; direct-only deployments could carry up to " ++
      toString recommendedMaxMtu ++ ")"))

def validateBaseConfig (config : TrackerConfig) : Except ConfigError Unit := do
  rejectIf (!supportedApiVersion config.microtun.apiVersion)
    (.file path ("unsupported config ApiVersion " ++ config.microtun.apiVersion ++ " (expected " ++
      configApiVersionId ++ ")"))
  rejectIf (config.microtun.kind != configKind)
    (.file path ("unsupported config Kind " ++ config.microtun.kind ++ " (expected " ++
      configKind ++
      ")"))
  validateMaxLen path config.tunnel.privateKey keyTextLen "Tunnel.PrivateKey"
  validateMaxLen path config.tunnel.tunnelAddress tunnelAddressMaxLen "Tunnel.Address"
  rejectIf (decodeKey config.tunnel.privateKey).isNone
    (.file path "Tunnel.PrivateKey must be a 32-byte tunnel key in standard base64")
  rejectIf (F.parseIpInet config.tunnel.tunnelAddress).isNone
    (.file path "Tunnel.Address must be an IPv4 or IPv6 address/CIDR")
  match config.tunnel.mtu with
  | some mtu => validateMtu path mtu
  | none => .ok ()

/-- Check a name against the names seen, which are lowercase. -/
def validateName («section» name : String) (seen : List String) :
    Except ConfigError (List String) := do
  let name := trim name
  rejectIf (name == "") (.file path ("[" ++ «section» ++ "] has an empty `Name`"))
  rejectIf (decide (toAsciiLowercase name ∈ seen))
    (.file path ("duplicate " ++ «section» ++ " name `" ++ name ++ "`"))
  return toAsciiLowercase name :: seen

def validateNamesFrom (seen : List String) : List PeerConfig → Except ConfigError Unit
  | [] => .ok ()
  | peer :: rest => do
    let seen ← validateName path "Peer" peer.name seen
    validateNamesFrom seen rest

def validateNames (config : TrackerConfig) : Except ConfigError Unit :=
  validateNamesFrom path [] config.peers

def key (value what : String) : Except ConfigError Key :=
  match decodeKey value with
  | some key => .ok key
  | none => .error (.file path
    ("`" ++ what ++ "` must be a key in base64 (" ++ toString keyTextLen ++
      " characters ending in `=`), found `" ++ value ++ "`"))

def peerEndpoint (peer : PeerConfig) : Except ConfigError (Option SocketAddr) :=
  match peer.endpoint with
  | none => .ok none
  | some value =>
    match F.parseSocketAddr value with
    | some endpoint => .ok (some (Ip.unmapSocketAddr endpoint))
    | none => .error (.file path ("Peer `" ++ peer.name ++
        "` Endpoint must be an address and port such as 198.51.100.20:51820, found `" ++ value ++
        "`"))

/-- The canonical form of a peer's prefix. -/
def peerAddress (name value : String) : Except ConfigError IpCidr :=
  let token := trim value
  match F.parseIpInet token with
  | none => .error (.file path ("Peer `" ++ name ++ "` Address `" ++ token ++
      "` is not a CIDR prefix such as 10.0.0.3/32"))
  | some written =>
    if written.networkLength = 0 then
      .error (.file path ("Peer `" ++ name ++ "` Address `" ++ F.showIpInet written ++
        "` is the default route; resolver answers may not carry one"))
    else .ok written.network

def peerDraft (peer : PeerConfig) : Except ConfigError Draft := do
  let publicKey ← key path peer.publicKey "Peer.PublicKey"
  let endpoint ← peerEndpoint F path peer
  let address ← peerAddress F path peer.name peer.address
  return {
    name := some (trim peer.name)
    publicKey
    endpoint
    relay := peer.relay.map trim
    persistentKeepalive := peer.persistentKeepalive.filter (· ≠ 0)
    address }

def selfPublicKey (drafts : List Draft) : Except Panic Key :=
  match drafts.find? fun candidate => candidate.name.isNone with
  | some candidate => .ok candidate.publicKey
  | none => .error (.expect "a parsed configuration has exactly one Tracker draft")

/-- The key that a relay value names. -/
def relayKey (drafts : List Draft) (value : String) : Except Panic (Except ConfigError Key) :=
  if eqIgnoreAsciiCase value selfAlias then do return .ok (← selfPublicKey drafts)
  else
    let named := drafts.find? fun candidate => candidate.name.any fun name =>
      eqIgnoreAsciiCase name value
    .ok <| match (named.map (·.publicKey)).or (decodeKey value) with
      | some key => .ok key
      | none => .error (.file path ("Relay names `" ++ value ++
          "`, but no Peer with that Name exists; use `" ++ selfAlias ++
          "`, a configured peer name, or a public key in base64"))

/-- Check the key of a relay. -/
def checkRelay (drafts : List Draft) (draft : Draft) (relay : Key) : Except ConfigError Key :=
  if relay = draft.publicKey then .error (.file path "a peer cannot be its own relay")
  else match drafts.find? fun candidate => candidate.publicKey = relay with
    | none => .error (.file path ("this peer relays through " ++ encodeKey relay ++
        ", which has no registry record"))
    | some relayDraft =>
      if relayDraft.relay.isSome then
        .error (.file path ("this peer relays through " ++ encodeKey relay ++
          ", which is itself relayed; relay chaining is not supported"))
      else .ok relay

def resolveRelay (drafts : List Draft) (draft : Draft) :
    Except Panic (Except ConfigError (Option Key)) :=
  match draft.relay with
  | none => .ok (.ok none)
  | some value => do
    match ← relayKey path drafts value with
    | .error e => return .error e
    | .ok relay => return (checkRelay path drafts draft relay).map some

/-- The records of the remaining drafts. -/
def resolveFrom (drafts : List Draft) : List Draft →
    Except Panic (Except ConfigError (List PeerRecord))
  | [] => .ok (.ok [])
  | draft :: rest => do
    match ← resolveRelay path drafts draft with
    | .error e => return .error e
    | .ok relay =>
      match ← resolveFrom drafts rest with
      | .error e => return .error e
      | .ok records =>
        return .ok (.new draft.publicKey draft.endpoint relay draft.address
          draft.persistentKeepalive
          :: records)

def resolve (drafts : List Draft) : Except Panic (Except ConfigError (List PeerRecord)) :=
  resolveFrom path drafts drafts

def peerDrafts : List PeerConfig → Except ConfigError (List Draft)
  | [] => .ok []
  | peer :: rest => do
    let draft ← peerDraft F path peer
    return draft :: (← peerDrafts rest)

/-- The options and the drafts of a document. -/
def drafts [Crypto] (config : TrackerConfig) : Except ConfigError (ServerOptions × List Draft) := do
  validateBaseConfig F path config
  validateNames path config
  let privateKey ← key path config.tunnel.privateKey "Tunnel.PrivateKey"
  let publicKey := Crypto.publicKey privateKey
  let tunnelAddress ← need path (F.parseIpInet config.tunnel.tunnelAddress)
    "Tunnel.Address is invalid after base config validation"
  let options : ServerOptions := {
    listen := .v4 0 (.ofNat 16 (config.tunnel.listenPort.getD defaultListenPort).toNat)
    tunnelAddress
    mtu := config.tunnel.mtu.getD defaultMtu
    enableForwarding := config.tunnel.enableForwarding
    privateKey
    publicKey }
  let self : Draft := {
    name := none
    publicKey
    endpoint := none
    relay := none
    persistentKeepalive := none
    address := .host tunnelAddress.address }
  let peers ← peerDrafts F path config.peers
  return (options, self :: peers)

/-- The registry of records, with the text of its error. -/
def buildRegistry (records : List PeerRecord) : Except Panic (Except ConfigError Built) :=
  match h : Registry.build records with
  | .error p => .error p
  | .ok (.error e) => .ok (.error (.file path (e.message F)))
  | .ok (.ok registry) => .ok (.ok ⟨registry, records, h⟩)

def parse [Crypto] (text : String) : Except Panic (Except ConfigError Loaded) :=
  match (do drafts F path (← Toml.parseTrackerToml (F.toml text) text path)) with
  | .error e => .ok (.error e)
  | .ok (options, drafts) => do
    match ← resolve path drafts with
    | .error e => return .error e
    | .ok records =>
      match ← buildRegistry F path records with
      | .error e => return .error e
      | .ok registry => return .ok ⟨options, registry⟩

end

/-! ### What an accepted document has -/

section

variable {α β γ : Type} {r : α → β → Prop} {s : β → γ → Prop} {as : List α} {bs : List β}
  {cs : List γ}

theorem exists_partner (h : List.Forall₂ r as bs) {a : α} (ha : a ∈ as) : ∃ b ∈ bs, r a b := by
  induction h with
  | nil => exact nomatch ha
  | cons hhead htail ih =>
    cases List.mem_cons.mp ha with
    | inl heq => exact ⟨_, List.mem_cons_self, heq ▸ hhead⟩
    | inr hmem =>
      obtain ⟨b, hb, hr⟩ := ih hmem
      exact ⟨b, List.mem_cons_of_mem _ hb, hr⟩

theorem forall₂_comp (h : List.Forall₂ r as bs) (h' : List.Forall₂ s bs cs) :
    List.Forall₂ (fun a c => ∃ b, r a b ∧ s b c) as cs := by
  induction h generalizing cs with
  | nil =>
    cases h'
    exact .nil
  | cons hhead htail ih =>
    cases h' with
    | cons hhead' htail' => exact .cons ⟨_, hhead, hhead'⟩ (ih htail')

end

section

variable {F : Formats} {path : String}

theorem validateNamesFrom_spec {seen : List String} {peers : List PeerConfig} {u : Unit}
    (h : validateNamesFrom path seen peers = .ok u) :
    (∀ peer ∈ peers, trim peer.name ≠ "" ∧ toAsciiLowercase (trim peer.name) ∉ seen) ∧
      (peers.map fun peer => toAsciiLowercase (trim peer.name)).Nodup := by
  induction peers generalizing seen with
  | nil => exact ⟨fun _ hp => (nomatch hp), List.nodup_nil⟩
  | cons peer rest ih =>
    obtain ⟨seen', hname, h⟩ := bind_eq_ok.mp h
    obtain ⟨_, hempty, hname⟩ := bind_eq_ok.mp hname
    obtain ⟨_, hdup, hname⟩ := bind_eq_ok.mp hname
    have hempty := rejectIf_ok hempty
    have hdup := rejectIf_ok hdup
    rw [← Except.ok.inj hname] at h
    obtain ⟨hall, hnodup⟩ := ih h
    constructor
    · intro p hp
      cases List.mem_cons.mp hp with
      | inl heq =>
        subst heq
        exact ⟨by simpa using hempty, by simpa using hdup⟩
      | inr hp =>
        obtain ⟨hne, hnew⟩ := hall p hp
        exact ⟨hne, fun hin => hnew (List.mem_cons_of_mem _ hin)⟩
    · rw [List.map_cons, List.nodup_cons]
      refine ⟨fun hin => ?_, hnodup⟩
      obtain ⟨p, hp, heq⟩ := List.mem_map.mp hin
      refine (hall p hp).2 ?_
      rw [heq]
      exact List.mem_cons_self

/-- The draft of a configured peer. -/
structure Drafted (F : Formats) (peer : PeerConfig) (draft : Draft) : Prop where
  name : draft.name = some (trim peer.name)
  publicKey : decodeKey peer.publicKey = some draft.publicKey
  address : ∃ written, F.parseIpInet (trim peer.address) = some written ∧
    draft.address = written.network ∧ draft.address.networkLength ≠ 0

theorem peerDraft_spec {peer : PeerConfig} {draft : Draft}
    (h : peerDraft F path peer = .ok draft) : Drafted F peer draft := by
  obtain ⟨publicKey, hkey, h⟩ := bind_eq_ok.mp h
  obtain ⟨endpoint, -, h⟩ := bind_eq_ok.mp h
  obtain ⟨address, haddress, h⟩ := bind_eq_ok.mp h
  rw [← Except.ok.inj h]
  refine ⟨rfl, ?_, ?_⟩
  · unfold key at hkey
    cases hdecode : decodeKey peer.publicKey with
    | none => simp [hdecode] at hkey
    | some k =>
      simp only [hdecode] at hkey
      rw [Except.ok.inj hkey]
  · unfold peerAddress at haddress
    cases hparse : F.parseIpInet (trim peer.address) with
    | none => simp [hparse] at haddress
    | some written =>
      simp only [hparse] at haddress
      by_cases hzero : written.networkLength = 0
      · simp [hzero] at haddress
      · rw [if_neg hzero] at haddress
        rw [← Except.ok.inj haddress]
        exact ⟨written, rfl, rfl, by rw [written.networkLength_network]; exact hzero⟩

theorem peerDrafts_spec {peers : List PeerConfig} {drafts : List Draft}
    (h : peerDrafts F path peers = .ok drafts) : List.Forall₂ (Drafted F) peers drafts := by
  induction peers generalizing drafts with
  | nil =>
    rw [← Except.ok.inj h]
    exact .nil
  | cons peer rest ih =>
    obtain ⟨draft, hdraft, h⟩ := bind_eq_ok.mp h
    obtain ⟨later, hlater, h⟩ := bind_eq_ok.mp h
    rw [← Except.ok.inj h]
    exact .cons (peerDraft_spec hdraft) (ih hlater)

/-- The draft of the Tracker. -/
def selfDraft (options : ServerOptions) : Draft where
  name := none
  publicKey := options.publicKey
  endpoint := none
  relay := none
  persistentKeepalive := none
  address := .host options.tunnelAddress.address

theorem drafts_spec [Crypto] {config : TrackerConfig} {options : ServerOptions} {all : List Draft}
    (h : drafts F path config = .ok (options, all)) : (∀ peer ∈ config.peers, trim peer.name ≠ "") ∧
      (config.peers.map fun peer => toAsciiLowercase (trim peer.name)).Nodup ∧
      decodeKey config.tunnel.privateKey = some options.privateKey ∧
      options.publicKey = Crypto.publicKey options.privateKey ∧
      F.parseIpInet config.tunnel.tunnelAddress = some options.tunnelAddress ∧
      ∃ peers, all = selfDraft options :: peers ∧ List.Forall₂ (Drafted F) config.peers peers := by
  unfold drafts at h
  obtain ⟨_, -, h⟩ := bind_eq_ok.mp h
  obtain ⟨_, hnames, h⟩ := bind_eq_ok.mp h
  obtain ⟨privateKey, hkey, h⟩ := bind_eq_ok.mp h
  obtain ⟨tunnelAddress, haddress, h⟩ := bind_eq_ok.mp h
  obtain ⟨peers, hpeers, h⟩ := bind_eq_ok.mp h
  obtain ⟨rfl, rfl⟩ := Prod.mk.inj (Except.ok.inj h)
  obtain ⟨hall, hnodup⟩ := validateNamesFrom_spec hnames
  refine ⟨fun peer hp => (hall peer hp).1, hnodup, ?_, rfl, ?_, peers, rfl, peerDrafts_spec hpeers⟩
  · unfold key at hkey
    cases hdecode : decodeKey config.tunnel.privateKey with
    | none => simp [hdecode] at hkey
    | some k =>
      simp only [hdecode] at hkey
      rw [Except.ok.inj hkey]
  · unfold need at haddress
    cases hparse : F.parseIpInet config.tunnel.tunnelAddress with
    | none => simp [hparse] at haddress
    | some t =>
      simp only [hparse] at haddress
      rw [Except.ok.inj haddress]

/-- The record of a draft: its relay is the key of another draft that has none. -/
structure Recorded (all : List Draft) (draft : Draft) (record : PeerRecord) : Prop where
  publicKey : record.publicKey = draft.publicKey
  address : record.address = draft.address
  unrelayed : draft.relay = none → record.relay = none
  relay : ∀ k, record.relay = some k → k ≠ draft.publicKey ∧
    ∃ d ∈ all, d.publicKey = k ∧ d.relay = none

theorem checkRelay_spec {all : List Draft} {draft : Draft} {relay k : Key}
    (h : checkRelay path all draft relay = .ok k) :
    k ≠ draft.publicKey ∧ ∃ d ∈ all, d.publicKey = k ∧ d.relay = none := by
  unfold checkRelay at h
  by_cases hself : relay = draft.publicKey
  · rw [if_pos hself] at h
    exact nomatch h
  · rw [if_neg hself] at h
    cases hfind : all.find? fun candidate => decide (candidate.publicKey = relay) with
    | none => simp [hfind] at h
    | some d =>
      simp only [hfind] at h
      by_cases hrelay : d.relay.isSome = true
      · simp [hrelay] at h
      · rw [if_neg hrelay] at h
        rw [← Except.ok.inj h]
        exact ⟨hself, d, List.mem_of_find?_eq_some hfind, by simpa using List.find?_some hfind,
          by simpa using hrelay⟩

theorem resolveRelay_spec {all : List Draft} (hself : ∃ d ∈ all, d.name = none) (draft : Draft) :
    ∃ r, resolveRelay path all draft = .ok r ∧ ∀ relay, r = .ok relay →
      (draft.relay = none → relay = none) ∧
      ∀ k, relay = some k → k ≠ draft.publicKey ∧ ∃ d ∈ all, d.publicKey = k ∧ d.relay = none := by
  unfold resolveRelay
  cases hrelay : draft.relay with
  | none =>
    refine ⟨_, rfl, fun relay h => ?_⟩
    rw [← Except.ok.inj h]
    exact ⟨fun _ => rfl, fun _ hk => nomatch hk⟩
  | some value =>
    have hkey : ∃ r, relayKey path all value = .ok r := by
      unfold relayKey
      by_cases halias : eqIgnoreAsciiCase value selfAlias = true
      · rw [if_pos halias]
        unfold selfPublicKey
        cases hfind : all.find? fun candidate => candidate.name.isNone with
        | some d => exact ⟨.ok d.publicKey, rfl⟩
        | none =>
          obtain ⟨d, hd, hname⟩ := hself
          have := List.find?_eq_none.mp hfind d hd
          simp [hname] at this
      · rw [if_neg halias]
        exact ⟨_, rfl⟩
    obtain ⟨r, hr⟩ := hkey
    simp only [hr, ok_bind]
    cases r with
    | error e => exact ⟨.error e, rfl, fun _ h => nomatch h⟩
    | ok relay =>
      refine ⟨_, rfl, fun found h => ?_⟩
      cases hcheck : checkRelay path all draft relay with
      | error e =>
        rw [hcheck] at h
        exact nomatch h
      | ok k =>
        rw [hcheck] at h
        rw [← Except.ok.inj h]
        refine ⟨fun hno => (nomatch hno), fun k' hk => ?_⟩
        rw [← Option.some.inj hk]
        exact checkRelay_spec hcheck

theorem resolveFrom_spec {all : List Draft} (hself : ∃ d ∈ all, d.name = none) (rest : List Draft) :
    ∃ r, resolveFrom path all rest = .ok r ∧
      ∀ records, r = .ok records → List.Forall₂ (Recorded all) rest records := by
  induction rest with
  | nil =>
    refine ⟨_, rfl, fun records h => ?_⟩
    rw [← Except.ok.inj h]
    exact .nil
  | cons draft rest ih =>
    unfold resolveFrom
    obtain ⟨r, hr, hrelay⟩ := @resolveRelay_spec path _ hself draft
    obtain ⟨later, hlater, hrest⟩ := ih
    simp only [hr, ok_bind]
    cases r with
    | error e => exact ⟨.error e, rfl, fun _ h => nomatch h⟩
    | ok relay =>
      simp only [hlater, ok_bind]
      cases later with
      | error e => exact ⟨.error e, rfl, fun _ h => nomatch h⟩
      | ok records =>
        refine ⟨_, rfl, fun found h => ?_⟩
        rw [← Except.ok.inj h]
        obtain ⟨hnone, hsome⟩ := hrelay relay rfl
        exact .cons ⟨rfl, rfl, hnone, hsome⟩ (hrest records rfl)

/-- What is accepted: the records are the Tracker's and one for each configured peer, and keys,
prefixes, names and relays are in order. -/
structure Accepted [Crypto] (F : Formats) (config : TrackerConfig) (loaded : Loaded) : Prop where
  privateKey : decodeKey config.tunnel.privateKey = some loaded.options.privateKey
  publicKey : loaded.options.publicKey = Crypto.publicKey loaded.options.privateKey
  tunnelAddress : F.parseIpInet config.tunnel.tunnelAddress = some loaded.options.tunnelAddress
  records : ∃ self rest, loaded.registry.val.peers = self :: rest ∧
    self.publicKey = loaded.options.publicKey ∧
    self.address = .host loaded.options.tunnelAddress.address ∧ self.relay = none ∧
    List.Forall₂ (fun (peer : PeerConfig) (record : PeerRecord) =>
      decodeKey peer.publicKey = some record.publicKey ∧
      ∃ written, F.parseIpInet (trim peer.address) = some written ∧
        record.address = written.network) config.peers rest
  keys : (loaded.registry.val.peers.map (·.publicKey)).Nodup
  prefixes : (loaded.registry.val.peers.map (·.address)).Nodup
  noDefault : ∀ record ∈ loaded.registry.val.peers, record.address.networkLength ≠ 0
  named : ∀ peer ∈ config.peers, trim peer.name ≠ ""
  names : (config.peers.map fun peer => toAsciiLowercase (trim peer.name)).Nodup
  relays : ∀ record ∈ loaded.registry.val.peers, ∀ k, record.relay = some k →
    k ≠ record.publicKey ∧ ∃ relay ∈ loaded.registry.val.peers,
      relay.publicKey = k ∧ relay.relay = none

theorem buildRegistry_spec (records : List PeerRecord) :
    ∃ r, buildRegistry F path records = .ok r ∧ ∀ registry, r = .ok registry →
      registry.val.peers = records ∧ (records.map (·.publicKey)).Nodup ∧
        (records.map (·.address)).Nodup := by
  unfold buildRegistry
  split
  · next p hbuild =>
    exfalso
    rcases Registry.build_spec records with ⟨⟨e, he⟩, -⟩ | ⟨r, hr, -⟩
    · rw [he] at hbuild
      exact nomatch hbuild
    · rw [hr] at hbuild
      exact nomatch hbuild
  · exact ⟨_, rfl, fun _ h => nomatch h⟩
  · next built hbuild =>
    refine ⟨_, rfl, fun registry h => ?_⟩
    rw [← Except.ok.inj h]
    rcases Registry.build_spec records with ⟨⟨e, he⟩, -⟩ | ⟨r, hr, -, hpeers, hkeys, hprefixes⟩
    · rw [he] at hbuild
      exact nomatch hbuild
    · rw [hr] at hbuild
      obtain rfl : r = built := Except.ok.inj (Except.ok.inj hbuild)
      exact ⟨hpeers, hkeys, hprefixes⟩

theorem networkLength_host (address : IpAddr) : (IpCidr.host address).networkLength ≠ 0 := by
  cases address with
  | v4 a => exact (by decide : (32 : Nat) ≠ 0)
  | v6 a => exact (by decide : (128 : Nat) ≠ 0)

theorem Accepted.of_recorded [Crypto] {config : TrackerConfig} {options : ServerOptions}
    {peers : List Draft} {registry : Built}
    (hnamed : ∀ peer ∈ config.peers, trim peer.name ≠ "")
    (hnames : (config.peers.map fun peer => toAsciiLowercase (trim peer.name)).Nodup)
    (hprivate : decodeKey config.tunnel.privateKey = some options.privateKey)
    (hpublic : options.publicKey = Crypto.publicKey options.privateKey)
    (htunnel : F.parseIpInet config.tunnel.tunnelAddress = some options.tunnelAddress)
    (hpeers : List.Forall₂ (Drafted F) config.peers peers)
    (hrecords : List.Forall₂ (Recorded (selfDraft options :: peers)) (selfDraft options :: peers)
      registry.val.peers)
    (hkeys : (registry.val.peers.map (·.publicKey)).Nodup)
    (hprefixes : (registry.val.peers.map (·.address)).Nodup) :
    Accepted F config ⟨options, registry⟩ where
  privateKey := hprivate
  publicKey := hpublic
  tunnelAddress := htunnel
  records := by
    obtain ⟨self, rest, hself, hrest, heq⟩ := List.forall₂_cons_left_iff.mp hrecords
    refine ⟨self, rest, heq, hself.publicKey, hself.address, hself.unrelayed rfl, ?_⟩
    refine (forall₂_comp hpeers hrest).imp fun peer record hr => ?_
    obtain ⟨draft, hdraft, hr⟩ := hr
    obtain ⟨written, hparse, haddress, -⟩ := hdraft.address
    exact ⟨hr.publicKey ▸ hdraft.publicKey, written, hparse, hr.address.trans haddress⟩
  keys := hkeys
  prefixes := hprefixes
  noDefault := by
    intro record hrec
    obtain ⟨draft, hdraft, hr⟩ := exists_partner hrecords.flip hrec
    rw [hr.address]
    cases List.mem_cons.mp hdraft with
    | inl heq =>
      subst heq
      exact networkLength_host _
    | inr hdraft =>
      obtain ⟨peer, -, hd⟩ := exists_partner hpeers.flip hdraft
      obtain ⟨_, -, -, hne⟩ := hd.address
      exact hne
  named := hnamed
  names := hnames
  relays := by
    intro record hrec k hk
    obtain ⟨draft, -, hr⟩ := exists_partner hrecords.flip hrec
    obtain ⟨hne, d, hd, rfl, hnone⟩ := hr.relay k hk
    obtain ⟨relay, hrelay, hr'⟩ := exists_partner hrecords hd
    exact ⟨hr.publicKey ▸ hne, relay, hrelay, hr'.publicKey, hr'.unrelayed hnone⟩

theorem parse_spec [Crypto] (F : Formats) (path text : String) :
    ∃ r, parse F path text = .ok r ∧ ∀ loaded, r = .ok loaded →
      ∃ config, Toml.parseTrackerToml (F.toml text) text path = .ok config ∧
        Accepted F config loaded := by
  unfold parse
  cases hconfig : Toml.parseTrackerToml (F.toml text) text path with
  | error e => exact ⟨.error e, rfl, fun _ h => nomatch h⟩
  | ok config =>
    rw [show ((Except.ok config : Except ConfigError TrackerConfig) >>= fun config =>
      drafts F path config) = drafts F path config from rfl]
    cases hdrafts : drafts F path config with
    | error e => exact ⟨.error e, rfl, fun _ h => nomatch h⟩
    | ok pair =>
      obtain ⟨options, all⟩ := pair
      obtain ⟨hnamed, hnames, hprivate, hpublic, htunnel, peers, rfl, hpeers⟩ := drafts_spec hdrafts
      obtain ⟨r, hresolve, hrecords⟩ :=
        @resolveFrom_spec path (selfDraft options :: peers) ⟨_, List.mem_cons_self, rfl⟩
        (selfDraft options :: peers)
      simp only
      unfold resolve
      simp only [hresolve, ok_bind]
      cases r with
      | error e => exact ⟨.error e, rfl, fun _ h => nomatch h⟩
      | ok records =>
        have hrecords := hrecords records rfl
        obtain ⟨built, hbuilt, hregistry⟩ := @buildRegistry_spec F path records
        simp only [hbuilt, ok_bind]
        cases built with
        | error e => exact ⟨.error e, rfl, fun _ h => nomatch h⟩
        | ok registry =>
          obtain ⟨heq, hkeys, hprefixes⟩ := hregistry registry rfl
          refine ⟨_, rfl, fun loaded h => ⟨config, rfl, ?_⟩⟩
          rw [← Except.ok.inj h]
          subst heq
          exact .of_recorded hnamed hnames hprivate hpublic htunnel hpeers hrecords hkeys hprefixes

/-! ### What the records are good for -/

variable [Crypto] {config : TrackerConfig} {loaded : Loaded}

/-- The record of an address is the one with the longest prefix, and no other prefix is as long. -/
theorem Accepted.lookupAddress (h : Accepted F config loaded) (address : IpAddr) :
    ∃ found, loaded.registry.val.lookupAddress address = .ok found ∧
      (found = none → ∀ record ∈ loaded.registry.val.peers, record.address.contains address =
        false) ∧ ∀ record, found = some record → record ∈ loaded.registry.val.peers ∧
        record.address.contains address = true ∧
        ∀ other ∈ loaded.registry.val.peers, other.address.contains address = true →
          other ≠ record → other.address.networkLength < record.address.networkLength := by
  obtain ⟨found, hrun, hnone, hsome⟩ :=
    Registry.lookupAddress_spec loaded.registry.sound address
  refine ⟨found, hrun, hnone, fun record hrec => ?_⟩
  obtain ⟨hmem, hcontains, hmax⟩ := hsome record hrec
  refine ⟨hmem, hcontains, fun other hother hc hne => ?_⟩
  refine Nat.lt_of_le_of_ne (hmax other hother hc) fun hlen => hne ?_
  exact List.inj_on_of_nodup_map h.prefixes hother hmem (eq_of_contains hc hcontains hlen)

/-- A record served for a key is accepted by a client that is not that peer and does not have it
pinned. -/
theorem Accepted.checkResolvedAnswer (h : Accepted F config loaded) {p : PublishedRegistry}
    (hp : p.registry = loaded.registry) {k : Key} {peer : ResolvedPeer}
    (hserved : p.served k = some peer) {cap : Capacities} {R P : Type} (c : Core cap R P)
    (hself : c.sPub ≠ k) (hpinned : ((c.findPeer k).bind c.peer).any PeerEntry.isPinned = false) :
    c.checkResolvedAnswer (.byPublicKey k) peer = .ok () := by
  unfold PublishedRegistry.served at hserved
  obtain ⟨record, hrec, rfl⟩ := Option.map_eq_some_iff.mp hserved
  have hmem : record ∈ loaded.registry.val.peers := by
    rw [← hp]
    exact ((Registry.lookupKey_iff p.registry.sound k record).mp hrec).1
  obtain rfl : record.publicKey = k := PublishedRegistry.lookupKey_publicKey hrec
  have hrelay : record.relay ≠ some record.publicKey :=
    fun heq => (h.relays record hmem _ heq).1 rfl
  have hlen := h.noDefault record hmem
  unfold Core.checkResolvedAnswer PeerRecord.resolvedWithEndpoint
  simp only [ne_eq, not_true, decide_false, Bool.false_eq_true, if_false, hpinned]
  rw [if_neg (Ne.symm hself), if_neg hrelay, if_neg hlen]

end

end Config

end Tracker

end Microtun
