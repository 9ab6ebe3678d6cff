import Microtun.Crypto.Reference
import Microtun.Tracker.Config

/-! Reloading a changed `tracker.toml`, `resolver.rs`: a file that is not accepted changes nothing.
-/

namespace Microtun.Tracker

/-- What cannot be changed without a restart. -/
structure FixedServer where
  publicKey : Key
  listen : SocketAddr
  mtu : UInt16
  enableForwarding : Bool
  tunnelAddress : IpInet
deriving DecidableEq

/-- What was read from the file. -/
inductive Observation where
  | contents (text : String)
  | readError (text : String)
deriving DecidableEq

def validateReload (F : Formats) (fixed : FixedServer) (loaded : Config.Loaded) :
    Except String Unit := do
  Toml.rejectIf (decide (loaded.options.publicKey ≠ fixed.publicKey))
    "[Tunnel] PrivateKey changed; restart to change tunnel identity"
  Toml.rejectIf (decide (loaded.options.listen ≠ fixed.listen))
    ("[Tunnel] ListenPort changed from " ++ F.showSocketAddr fixed.listen ++ " to " ++
      F.showSocketAddr loaded.options.listen ++ "; restart to rebind UDP")
  Toml.rejectIf (decide (loaded.options.mtu ≠ fixed.mtu))
    ("[Tunnel] MTU changed from " ++ toString fixed.mtu ++ " to " ++ toString loaded.options.mtu ++
      "; restart to rebuild the virtual TCP stack")
  Toml.rejectIf (decide (loaded.options.enableForwarding ≠ fixed.enableForwarding))
    "[Tunnel] EnableForwarding changed; restart to change relay forwarding policy"
  Toml.rejectIf (decide (loaded.options.tunnelAddress ≠ fixed.tunnelAddress))
    "[Tunnel] Address changed; restart to rebuild the virtual TCP stack"

/-- The published registry and what the file last held. -/
structure Reloader where
  published : PublishedRegistry
  lastObservation : Option Observation

/-- Read the file again.  `order` lists the keys of both registries, as the set of them does. -/
def reloadIfChanged [Crypto] (F : Formats) (path : String) (read : Except String String)
    (order : PublishedRegistry → Built → List Key) (fixed : FixedServer) (r : Reloader) :
    Except Panic (Reloader × List RegistryChange) :=
  let observation := match read with
    | .ok contents => Observation.contents contents
    | .error e => .readError e
  if r.lastObservation = some observation then .ok (r, [])
  else
    let r := { r with lastObservation := some observation }
    match observation with
    | .readError _ => .ok (r, [])
    | .contents contents => do
      match ← Config.parse F path contents with
      | .error _ => return (r, [])
      | .ok loaded =>
        match validateReload F fixed loaded with
        | .error _ => return (r, [])
        | .ok () =>
          let (published, changes) :=
            r.published.replace loaded.registry (order r.published loaded.registry)
          return ({ r with published }, changes)

section

variable [Crypto] {F : Formats} {path : String}

/-- A reload leaves the published registry and its learned endpoints alone, or publishes what the
file was accepted as. -/
theorem reloadIfChanged_spec (read : Except String String)
    (order : PublishedRegistry → Built → List Key) (fixed : FixedServer) (r : Reloader) :
    ∃ r' changes, reloadIfChanged F path read order fixed r = .ok (r', changes) ∧
      (r'.published = r.published ∧ changes = [] ∨ ∃ contents loaded config, read = .ok contents ∧
          Config.parse F path contents = .ok (.ok loaded) ∧ Config.Accepted F config loaded ∧
          r'.published = r.published.reloaded loaded.registry) := by
  unfold reloadIfChanged
  cases read with
  | error e =>
    by_cases hsame : r.lastObservation = some (.readError e)
    · exact ⟨r, [], if_pos hsame, .inl ⟨rfl, rfl⟩⟩
    · exact ⟨_, [], if_neg hsame, .inl ⟨rfl, rfl⟩⟩
  | ok contents =>
    by_cases hsame : r.lastObservation = some (.contents contents)
    · exact ⟨r, [], if_pos hsame, .inl ⟨rfl, rfl⟩⟩
    · simp only [if_neg hsame]
      obtain ⟨parsed, hparse, haccepted⟩ := Config.parse_spec F path contents
      simp only [hparse, ok_bind]
      cases parsed with
      | error e => exact ⟨_, [], rfl, .inl ⟨rfl, rfl⟩⟩
      | ok loaded =>
        simp only
        cases validateReload F fixed loaded with
        | error e => exact ⟨_, [], rfl, .inl ⟨rfl, rfl⟩⟩
        | ok u =>
          obtain ⟨config, -, hconfig⟩ := haccepted loaded rfl
          exact ⟨_, _, rfl, .inr ⟨contents, loaded, config, rfl, hparse, hconfig, rfl⟩⟩

/-- What `parse` accepts makes a registry in order, whose records are accepted by clients and found
by the longest prefix, and a reload publishes only such registries. -/
theorem config_sound (F : Formats) (path : String) :
    (∀ text loaded, Config.parse F path text = .ok (.ok loaded) →
      ∃ config, Toml.parseTrackerToml (F.toml text) text path = .ok config ∧
        config.peers.length = (F.toml text).events.countP Toml.Event.closesArray ∧
        Config.Accepted F config loaded ∧
        (∀ p : PublishedRegistry, p.registry = loaded.registry → ∀ k peer, p.served k = some peer →
          ∀ (cap : Capacities) (R P : Type) (c : Core cap R P), c.sPub ≠ k →
            ((c.findPeer k).bind c.peer).any PeerEntry.isPinned = false →
            c.checkResolvedAnswer (.byPublicKey k) peer = .ok ()) ∧
        ∀ address, ∃ found, loaded.registry.val.lookupAddress address = .ok found ∧ (found = none →
            ∀ record ∈ loaded.registry.val.peers, record.address.contains address = false) ∧
          ∀ record, found = some record → record ∈ loaded.registry.val.peers ∧
            record.address.contains address = true ∧
            ∀ other ∈ loaded.registry.val.peers, other.address.contains address = true →
              other ≠ record → other.address.networkLength < record.address.networkLength) ∧
    ∀ read order fixed r, ∃ r' changes,
      reloadIfChanged F path read order fixed r = .ok (r', changes) ∧
        (r'.published = r.published ∧ changes = [] ∨ ∃ contents loaded config, read = .ok contents ∧
            Config.parse F path contents = .ok (.ok loaded) ∧ Config.Accepted F config loaded ∧
            r'.published = r.published.reloaded loaded.registry) := by
  refine ⟨fun text loaded h => ?_, reloadIfChanged_spec⟩
  obtain ⟨parsed, hparse, haccepted⟩ := Config.parse_spec F path text
  rw [hparse] at h
  obtain ⟨config, hconfig, hacc⟩ := haccepted loaded (Except.ok.inj h)
  refine ⟨config, hconfig, Toml.length_peers hconfig, hacc, ?_, hacc.lookupAddress⟩
  intro p hp k peer hserved cap R P c hself hpinned
  exact hacc.checkResolvedAnswer hp hserved c hself hpinned

end

/-! ### A document -/

namespace Sample

/-- A line of a document. -/
inductive Line where
  | header (name : String)
  | arrayHeader (name : String)
  | assignment (key value : String)

def Line.text : Line → String
  | header name => "[" ++ name ++ "]\n"
  | arrayHeader name => "[[" ++ name ++ "]]\n"
  | assignment key value => key ++ " = \"" ++ value ++ "\"\n"

/-- The `n` bytes from `start` on. -/
def span (start n : Nat) : Toml.Span := ⟨start, start + n⟩

/-- What a parser says of a line that starts there. -/
def Line.events (start : Nat) : Line → List Toml.Event
  | header name =>
    let n := name.utf8ByteSize
    [.stdTableOpen (span start 1), .simpleKey (span (start + 1) n) (.ok name),
      .stdTableClose (span (start + 1 + n) 1)]
  | arrayHeader name =>
    let n := name.utf8ByteSize
    [.arrayTableOpen (span start 2), .simpleKey (span (start + 2) n) (.ok name),
      .arrayTableClose (span (start + 2 + n) 2)]
  | assignment key value =>
    let n := key.utf8ByteSize
    [.simpleKey (span start n) (.ok key),
      .scalar (span (start + n + 3) (value.utf8ByteSize + 2)) (.ok (value, .string))]

def eventsOf : (start : Nat) → List Line → List Toml.Event
  | _, [] => []
  | start, line :: rest => line.events start ++ eventsOf (start + line.text.utf8ByteSize) rest

def privateKey : Key := Reference.keyOf 8

/-- A Tracker with one peer behind it. -/
def lines : List Line :=
  [.header "Microtun", .assignment "ApiVersion" "microtun.dev/v1alpha1",
    .assignment "Kind" "TrackerConfig", .header "Tunnel",
    .assignment "PrivateKey" (encodeKey privateKey), .assignment "Address" "10.0.0.1/24",
    .arrayHeader "Peer", .assignment "Name" "laptop",
    .assignment "PublicKey" (encodeKey (Vector.replicate 32 1)),
    .assignment "Address" "10.0.0.7/32", .assignment "Relay" "@self"]

def text : String := String.join (lines.map Line.text)

/-- The two addresses of the document, and the document. -/
def formats : Formats where
  parseIpInet text :=
    if text = "10.0.0.1/24" then some (.v4 0x0a000001#32 24 (by decide))
    else if text = "10.0.0.7/32" then some (.v4 0x0a000007#32 32 IpCidr.v4_full)
    else none
  parseSocketAddr _ := none
  showIpInet _ := ""
  showIpCidr _ := ""
  showSocketAddr _ := ""
  toml read :=
    if read = text then ⟨eventsOf 0 lines, none⟩
    else ⟨[], some ⟨"unexpected text", none, none⟩⟩

end Sample

open scoped Reference in
/-- The document is accepted. -/
theorem config_sound_document : ∃ (loaded : Config.Loaded) (config : TrackerConfig),
    Config.parse Sample.formats "tracker.toml" Sample.text = .ok (.ok loaded) ∧
      config.peers.length = 1 ∧ Config.Accepted Sample.formats config loaded := by
  have hsome : ((Config.parse Sample.formats "tracker.toml" Sample.text).toOption.bind
      Except.toOption).isSome = true := by decide +kernel
  obtain ⟨loaded, hloaded⟩ := Option.isSome_iff_exists.mp hsome
  obtain ⟨r, hr, hloaded⟩ := Option.bind_eq_some_iff.mp hloaded
  have hparse : Config.parse Sample.formats "tracker.toml" Sample.text = .ok (.ok loaded) := by
    cases hp : Config.parse Sample.formats "tracker.toml" Sample.text with
    | error e =>
      rw [hp] at hr
      exact nomatch hr
    | ok parsed =>
      rw [hp] at hr
      obtain rfl : parsed = r := Option.some.inj hr
      cases parsed with
      | error e => exact nomatch hloaded
      | ok l => rw [Option.some.inj hloaded]
  obtain ⟨config, -, hlen, hacc, -⟩ :=
    (config_sound Sample.formats "tracker.toml").1 Sample.text loaded hparse
  exact ⟨loaded, config, hparse, hlen.trans (by decide +kernel), hacc⟩

end Microtun.Tracker
