import Mathlib.Data.List.Basic
import Microtun.Lib.Except

/-! The schema of `tracker.toml`, `config/parser.rs`: what the organizer makes of the events of a
TOML document. Lexing, parsing and decoding are those of the crate `toml_parser`: a document is the
events that it reports, with its keys and scalars decoded. -/

namespace Microtun.Tracker

/-- A configuration problem, located in the file where possible. -/
structure ConfigError where
  path : String
  line : Option Nat
  message : String
deriving DecidableEq, Repr

namespace ConfigError

def atLine (path : String) (line : Nat) (message : String) : ConfigError :=
  ⟨path, some line, message⟩

def file (path : String) (message : String) : ConfigError := ⟨path, none, message⟩

end ConfigError

structure MicrotunConfig where
  apiVersion : String
  kind : String
deriving DecidableEq, Repr

structure TunnelConfig where
  privateKey : String
  tunnelAddress : String
  mtu : Option UInt16
  listenPort : Option UInt16
  enableForwarding : Bool
deriving DecidableEq, Repr

structure PeerConfig where
  name : String
  publicKey : String
  endpoint : Option String
  address : String
  relay : Option String
  persistentKeepalive : Option UInt16
deriving DecidableEq, Repr

/-- The tables and values of a document. -/
structure TrackerConfig where
  microtun : MicrotunConfig
  tunnel : TunnelConfig
  peers : List PeerConfig
deriving DecidableEq, Repr

namespace Toml

/-- Bytes `start .. stop` of the text. -/
structure Span where
  start : Nat
  stop : Nat
deriving DecidableEq, Repr

inductive IntegerRadix where
  | dec
  | hex
  | oct
  | bin
deriving DecidableEq, Repr

def IntegerRadix.value : IntegerRadix → Nat
  | dec => 10
  | hex => 16
  | oct => 8
  | bin => 2

inductive ScalarKind where
  | string
  | boolean (value : Bool)
  | integer (radix : IntegerRadix)
  | float
  | dateTime
deriving DecidableEq, Repr

structure ParseError where
  description : String
  unexpected : Option Span
  context : Option Span
deriving DecidableEq, Repr

inductive Event where
  | stdTableOpen (span : Span)
  | stdTableClose (span : Span)
  | arrayTableOpen (span : Span)
  | arrayTableClose (span : Span)
  | inlineTableOpen (span : Span)
  | arrayOpen (span : Span)
  | simpleKey (span : Span) (decoded : Except ParseError String)
  | keySep (span : Span)
  | scalar (span : Span) (decoded : Except ParseError (String × ScalarKind))
  | error (span : Span)

structure Document where
  events : List Event
  error : Option ParseError

structure MicrotunBuilder where
  apiVersion : Option String := none
  kind : Option String := none

structure TunnelBuilder where
  privateKey : Option String := none
  tunnelAddress : Option String := none
  mtu : Option UInt16 := none
  listenPort : Option UInt16 := none
  enableForwarding : Option Bool := none

structure PeerBuilder where
  name : Option String := none
  publicKey : Option String := none
  endpoint : Option String := none
  address : Option String := none
  relay : Option String := none
  persistentKeepalive : Option UInt16 := none

structure Builder where
  seenMicrotun : Bool := false
  seenTunnel : Bool := false
  microtun : MicrotunBuilder := {}
  tunnel : TunnelBuilder := {}
  peers : List PeerBuilder := []

/-! A setter gives the slot's new value, or nothing if it refuses. -/

def setString (slot : Option String) (value : String) (kind : ScalarKind) :
    Option (Option String) :=
  if slot.isSome || kind ≠ .string then none else some (some value)

def digitValue (radix : Nat) (c : Char) : Option Nat :=
  let value :=
    if '0' ≤ c ∧ c ≤ '9' then some (c.toNat - '0'.toNat)
    else if 'a' ≤ c ∧ c ≤ 'z' then some (c.toNat - 'a'.toNat + 10)
    else if 'A' ≤ c ∧ c ≤ 'Z' then some (c.toNat - 'A'.toNat + 10)
    else none
  value.filter (· < radix)

/-- `u16::from_str_radix`: an optional plus, then digits only. -/
def fromStrRadix (text : List Char) (radix : Nat) : Option UInt16 := do
  let digits ← match text with
    | [] => none
    | ['+'] => none
    | '+' :: digits => some digits
    | digits => some digits
  let values ← digits.mapM (digitValue radix)
  let number := values.foldl (fun n d => n * radix + d) 0
  if number < 65536 then some (.ofNat number) else none

def parseU16 (value : String) (radix : IntegerRadix) : Option UInt16 :=
  let chars := match value.toList with
    | '+' :: rest => rest
    | chars => chars
  if chars.head? = some '-' then none else fromStrRadix chars radix.value

def setU16 (slot : Option UInt16) (value : String) (kind : ScalarKind) : Option (Option UInt16) :=
  match slot, kind with
  | none, .integer radix => (parseU16 value radix).map some
  | _, _ => none

def setBool (slot : Option Bool) (kind : ScalarKind) : Option (Option Bool) :=
  match slot, kind with
  | none, .boolean value => some (some value)
  | _, _ => none

def MicrotunBuilder.assign (b : MicrotunBuilder) (key value : String) (kind : ScalarKind) :
    Option MicrotunBuilder :=
  match key with
  | "ApiVersion" => (setString b.apiVersion value kind).map fun slot =>
    { b with apiVersion := slot }
  | "Kind" => (setString b.kind value kind).map fun slot => { b with kind := slot }
  | _ => none

def TunnelBuilder.assign (b : TunnelBuilder) (key value : String) (kind : ScalarKind) :
    Option TunnelBuilder :=
  match key with
  | "PrivateKey" => (setString b.privateKey value kind).map fun slot =>
    { b with privateKey := slot }
  | "Address" =>
    (setString b.tunnelAddress value kind).map fun slot => { b with tunnelAddress := slot }
  | "MTU" => (setU16 b.mtu value kind).map fun slot => { b with mtu := slot }
  | "ListenPort" => (setU16 b.listenPort value kind).map fun slot => { b with listenPort := slot }
  | "EnableForwarding" =>
    (setBool b.enableForwarding kind).map fun slot => { b with enableForwarding := slot }
  | _ => none

def PeerBuilder.assign (b : PeerBuilder) (key value : String) (kind : ScalarKind) :
    Option PeerBuilder :=
  match key with
  | "Name" => (setString b.name value kind).map fun slot => { b with name := slot }
  | "PublicKey" => (setString b.publicKey value kind).map fun slot => { b with publicKey := slot }
  | "Endpoint" => (setString b.endpoint value kind).map fun slot => { b with endpoint := slot }
  | "Address" => (setString b.address value kind).map fun slot => { b with address := slot }
  | "Relay" => (setString b.relay value kind).map fun slot => { b with relay := slot }
  | "PersistentKeepalive" =>
    (setU16 b.persistentKeepalive value kind).map fun slot => { b with persistentKeepalive := slot }
  | _ => none

inductive Section where
  | root
  | microtun
  | tunnel
  | peer (index : Nat)
deriving DecidableEq

def Section.name : Section → String
  | root => "<root>"
  | microtun => "Microtun"
  | tunnel => "Tunnel"
  | peer _ => "Peer"

inductive HeaderKind where
  | none
  | standard
  | array
deriving DecidableEq

/-- The organizer: where it is in the document, what it has of it, and the first thing wrong. -/
structure Receiver where
  «section» : Section := .root
  headerKind : HeaderKind := .none
  headerName : String := ""
  pendingKey : Option (Span × String) := none
  builder : Builder := {}
  semanticError : Option (Span × String) := none

namespace Receiver

def fail (r : Receiver) (span : Span) (message : String) : Receiver :=
  { r with semanticError := r.semanticError.or (some (span, message)) }

/-- Report an error of the decoder. -/
def failDecode (r : Receiver) (span : Span) (e : ParseError) : Receiver :=
  r.fail ((e.unexpected.or e.context).getD span) e.description

/-- The section that a header opens. -/
def openSection (r : Receiver) (span : Span) (name : String) : Receiver × Section :=
  match r.headerKind with
  | .standard =>
    if name = "Microtun" ∧ !r.builder.seenMicrotun then
      ({ r with builder := { r.builder with seenMicrotun := true } }, .microtun)
    else if name = "Tunnel" ∧ !r.builder.seenTunnel then
      ({ r with builder := { r.builder with seenTunnel := true } }, .tunnel)
    else if name = "Microtun" ∨ name = "Tunnel" then
      (r.fail span ("duplicate [" ++ name ++ "] table"), .root)
    else if name = "Peer" then
      (r.fail span "Peer entries must use [[Peer]] array tables", .root)
    else (r.fail span ("unknown TOML table [" ++ name ++ "]"), .root)
  | .array =>
    if name = "Peer" then
      ({ r with builder := { r.builder with peers := r.builder.peers ++ [{}] } },
        .peer r.builder.peers.length)
    else (r.fail span ("unknown TOML array table [[" ++ name ++ "]]"), .root)
  | .none => (r.fail span "invalid TOML table header", .root)

def finishHeader (r : Receiver) (span : Span) : Receiver :=
  let (r, «section») := openSection { r with headerName := "" } span r.headerName
  { r with «section», headerKind := .none }

/-- The builder with the value assigned, unless the schema refuses it. -/
def assign (r : Receiver) (key value : String) (kind : ScalarKind) : Option Builder :=
  match r.section with
  | .microtun =>
    (r.builder.microtun.assign key value kind).map fun microtun => { r.builder with microtun }
  | .tunnel => (r.builder.tunnel.assign key value kind).map fun tunnel => { r.builder with tunnel }
  | .peer index => do
    let peer ← r.builder.peers[index]?
    let peer ← peer.assign key value kind
    return { r.builder with peers := r.builder.peers.set index peer }
  | .root => none

def assignScalar (r : Receiver) (span : Span) (decoded : Except ParseError (String × ScalarKind)) :
    Receiver :=
  match r.pendingKey with
  | none => r.fail span "TOML value has no key"
  | some (keySpan, key) =>
    let r := { r with pendingKey := none }
    if r.section = .root then
      r.fail keySpan "top-level configuration keys are not supported"
    else match decoded with
      | .error e => r.failDecode span e
      | .ok (value, kind) =>
        match r.assign key value kind with
        | some builder => { r with builder }
        | none =>
          r.fail keySpan
            ("unknown, duplicate, or type-mismatched key " ++ r.section.name ++ "." ++ key)

def receive (r : Receiver) : Event → Receiver
  | .stdTableOpen span =>
    let r := if r.pendingKey.isSome then r.fail span "unfinished TOML key before table header"
      else r
    { r with headerKind := .standard, headerName := "" }
  | .stdTableClose span =>
    if r.headerKind ≠ .standard ∨ r.headerName = "" then r.fail span "invalid TOML table header"
    else r.finishHeader span
  | .arrayTableOpen span =>
    let r :=
      if r.pendingKey.isSome then r.fail span "unfinished TOML key before array table header" else r
    { r with headerKind := .array, headerName := "" }
  | .arrayTableClose span =>
    if r.headerKind ≠ .array ∨ r.headerName = "" then
      r.fail span "invalid TOML array table header"
    else r.finishHeader span
  | .inlineTableOpen span => r.fail span "inline tables are not supported in tracker configuration"
  | .arrayOpen span => r.fail span "array values are not supported in tracker configuration"
  | .simpleKey span decoded =>
    match decoded with
    | .error e => r.failDecode span e
    | .ok key =>
      if r.headerKind ≠ .none then
        if r.headerName = "" then { r with headerName := key }
        else r.fail span "dotted table names are not supported"
      else if r.pendingKey.isSome then r.fail span "dotted keys are not supported"
      else { r with pendingKey := some (span, key) }
  | .keySep span => r.fail span "dotted keys and table names are not supported"
  | .scalar span decoded => r.assignScalar span decoded
  | .error span => r.fail span "invalid TOML syntax"

end Receiver

/-- An early return of an error. -/
def rejectIf {ε : Type} (bad : Bool) (e : ε) : Except ε Unit :=
  if bad then .error e else .ok ()

theorem rejectIf_ok {ε : Type} {bad : Bool} {e : ε} {u : Unit} (h : rejectIf bad e = .ok u) :
    bad = false := by
  cases bad with
  | false => rfl
  | true => exact nomatch h

/-- A slot that has to be filled. -/
def need {α : Type} (path : String) (slot : Option α) (message : String) : Except ConfigError α :=
  match slot with
  | some value => .ok value
  | none => .error (.file path message)

def PeerBuilder.finish (path : String) (label : Nat) (b : PeerBuilder) :
    Except ConfigError PeerConfig := do
  let field (name : String) : String := "missing Peer[" ++ toString label ++ "]." ++ name
  return {
    name := ← need path b.name (field "Name")
    publicKey := ← need path b.publicKey (field "PublicKey")
    endpoint := b.endpoint
    address := ← need path b.address (field "Address")
    relay := b.relay
    persistentKeepalive := b.persistentKeepalive }

def finishPeers (path : String) : Nat → List PeerBuilder → Except ConfigError (List PeerConfig)
  | _, [] => .ok []
  | label, peer :: rest => do
    let peer ← peer.finish path label
    return peer :: (← finishPeers path (label + 1) rest)

def Builder.finish (path : String) (b : Builder) : Except ConfigError TrackerConfig := do
  rejectIf (!b.seenMicrotun) (.file path "missing [Microtun] table")
  rejectIf (!b.seenTunnel) (.file path "missing [Tunnel] table")
  let microtun : MicrotunConfig := {
    apiVersion := ← need path b.microtun.apiVersion "missing Microtun.ApiVersion"
    kind := ← need path b.microtun.kind "missing Microtun.Kind" }
  let tunnel : TunnelConfig := {
    privateKey := ← need path b.tunnel.privateKey "missing Tunnel.PrivateKey"
    tunnelAddress := ← need path b.tunnel.tunnelAddress "missing Tunnel.Address"
    mtu := b.tunnel.mtu
    listenPort := b.tunnel.listenPort
    enableForwarding := b.tunnel.enableForwarding.getD false }
  let peers ← finishPeers path 1 b.peers
  return { microtun, tunnel, peers }

/-- The line that a span starts on. -/
def sourceLine (text : String) (span : Span) : Nat :=
  (text.toUTF8.toList.take span.start).count 10 + 1

def parseTrackerToml (document : Document) (text path : String) :
    Except ConfigError TrackerConfig :=
  let receiver := document.events.foldl Receiver.receive {}
  match document.error with
  | some e =>
    let message := "invalid TOML: " ++ e.description
    .error (match e.unexpected.or e.context with
      | some span => .atLine path (sourceLine text span) message
      | none => .file path message)
  | none =>
    match receiver.semanticError with
    | some (span, message) => .error (.atLine path (sourceLine text span) message)
    | none => receiver.builder.finish path

/-! ### One peer for each array table -/

/-- The end of an array table's header. -/
def Event.closesArray : Event → Bool
  | .arrayTableClose _ => true
  | _ => false

namespace Receiver

variable {r : Receiver} {span : Span}

theorem fail_ne_none (r : Receiver) (span : Span) (message : String) :
    (r.fail span message).semanticError ≠ none := by
  unfold fail
  cases r.semanticError <;> exact nofun

/-- Receive an event without an error: then there was none before, and the peers have grown by `n`.
-/
def Grown (r r' : Receiver) (n : Nat) : Prop :=
  r'.semanticError = none →
    r.semanticError = none ∧ r'.builder.peers.length = r.builder.peers.length + n

theorem grown_fail (r : Receiver) (r' : Receiver) (n : Nat) (message : String) :
    Grown r (r'.fail span message) n := fun h => absurd h (fail_ne_none r' span message)

theorem grown_finishHeader_standard (h : r.headerKind = .standard) :
    Grown r (r.finishHeader span) 0 := by
  unfold finishHeader openSection
  simp only [h]
  split
  · exact fun herr => ⟨herr, rfl⟩
  · split
    · exact fun herr => ⟨herr, rfl⟩
    · split
      · exact grown_fail r _ 0 _
      · split
        · exact grown_fail r _ 0 _
        · exact grown_fail r _ 0 _

theorem grown_finishHeader_array (h : r.headerKind = .array) : Grown r (r.finishHeader span) 1 := by
  unfold finishHeader openSection
  simp only [h]
  split
  · exact fun herr => ⟨herr, by simp⟩
  · exact grown_fail r _ 1 _

theorem length_assign {key value : String} {kind : ScalarKind} {builder : Builder}
    (h : r.assign key value kind = some builder) :
    builder.peers.length = r.builder.peers.length := by
  unfold assign at h
  cases hsection : r.section with
  | root => simp [hsection] at h
  | microtun =>
    simp only [hsection] at h
    obtain ⟨_, -, rfl⟩ := Option.map_eq_some_iff.mp h
    rfl
  | tunnel =>
    simp only [hsection] at h
    obtain ⟨_, -, rfl⟩ := Option.map_eq_some_iff.mp h
    rfl
  | peer index =>
    simp only [hsection] at h
    obtain ⟨_, -, h⟩ := Option.bind_eq_some_iff.mp h
    obtain ⟨_, -, h⟩ := Option.bind_eq_some_iff.mp h
    rw [← Option.some.inj h]
    exact List.length_set

theorem grown_assignScalar (decoded : Except ParseError (String × ScalarKind)) :
    Grown r (r.assignScalar span decoded) 0 := by
  unfold assignScalar
  cases r.pendingKey with
  | none => exact grown_fail r r 0 _
  | some pending =>
    obtain ⟨keySpan, key⟩ := pending
    simp only
    split
    · exact grown_fail r _ 0 _
    · cases decoded with
      | error e => exact grown_fail r _ 0 _
      | ok value =>
        obtain ⟨value, kind⟩ := value
        simp only
        cases hassign : assign { r with pendingKey := none } key value kind with
        | none => exact grown_fail r _ 0 _
        | some builder => exact fun herr => ⟨herr, length_assign hassign⟩

theorem grown_receive (e : Event) : Grown r (r.receive e) (if e.closesArray then 1 else 0) := by
  cases e with
  | stdTableOpen span =>
    show Grown r _ 0
    unfold receive
    simp only
    split
    · exact fun herr => absurd herr (fail_ne_none r span _)
    · exact fun herr => ⟨herr, rfl⟩
  | stdTableClose span =>
    show Grown r _ 0
    unfold receive
    simp only
    split
    · exact grown_fail r r 0 _
    · next hkind => exact grown_finishHeader_standard (by simpa using (not_or.mp hkind).1)
  | arrayTableOpen span =>
    show Grown r _ 0
    unfold receive
    simp only
    split
    · exact fun herr => absurd herr (fail_ne_none r span _)
    · exact fun herr => ⟨herr, rfl⟩
  | arrayTableClose span =>
    show Grown r _ 1
    unfold receive
    simp only
    split
    · exact grown_fail r r 1 _
    · next hkind => exact grown_finishHeader_array (by simpa using (not_or.mp hkind).1)
  | inlineTableOpen span => exact grown_fail r r 0 _
  | arrayOpen span => exact grown_fail r r 0 _
  | simpleKey span decoded =>
    show Grown r _ 0
    unfold receive
    cases decoded with
    | error e => exact grown_fail r r 0 _
    | ok key =>
      simp only
      repeat' split
      all_goals first | exact grown_fail r r 0 _ | exact fun herr => ⟨herr, rfl⟩
  | keySep span => exact grown_fail r r 0 _
  | scalar span decoded => exact grown_assignScalar decoded
  | error span => exact grown_fail r r 0 _

/-- A document without an error has as many peers as headers of array tables. -/
theorem grown_foldl (events : List Event) :
    Grown r (events.foldl receive r) (events.countP Event.closesArray) := by
  induction events generalizing r with
  | nil => exact fun herr => ⟨herr, rfl⟩
  | cons e rest ih =>
    intro herr
    obtain ⟨herr', hlen⟩ := ih herr
    obtain ⟨herr'', hlen'⟩ := grown_receive e herr'
    refine ⟨herr'', ?_⟩
    rw [List.countP_cons, List.foldl_cons, hlen, hlen']
    omega

end Receiver

theorem length_finishPeers {path : String} {label : Nat} {builders : List PeerBuilder}
    {peers : List PeerConfig} (h : finishPeers path label builders = .ok peers) :
    peers.length = builders.length := by
  induction builders generalizing label peers with
  | nil =>
    cases h
    rfl
  | cons b rest ih =>
    unfold finishPeers at h
    obtain ⟨peer, -, h⟩ := bind_eq_ok.mp h
    obtain ⟨later, hrest, h⟩ := bind_eq_ok.mp h
    rw [← Except.ok.inj h, List.length_cons, List.length_cons, ih hrest]

theorem finish_peers {path : String} {b : Builder} {config : TrackerConfig}
    (h : b.finish path = .ok config) : finishPeers path 1 b.peers = .ok config.peers := by
  unfold Builder.finish at h
  obtain ⟨_, -, h⟩ := bind_eq_ok.mp h
  obtain ⟨_, -, h⟩ := bind_eq_ok.mp h
  obtain ⟨_, -, h⟩ := bind_eq_ok.mp h
  obtain ⟨_, -, h⟩ := bind_eq_ok.mp h
  obtain ⟨_, -, h⟩ := bind_eq_ok.mp h
  obtain ⟨_, -, h⟩ := bind_eq_ok.mp h
  obtain ⟨peers, hpeers, h⟩ := bind_eq_ok.mp h
  rw [← Except.ok.inj h]
  exact hpeers

theorem length_peers {document : Document} {text path : String} {config : TrackerConfig}
    (h : parseTrackerToml document text path = .ok config) :
    config.peers.length = document.events.countP Event.closesArray := by
  unfold parseTrackerToml at h
  cases herror : document.error with
  | some e => simp [herror] at h
  | none =>
    simp only [herror] at h
    cases hsem : (document.events.foldl Receiver.receive {}).semanticError with
    | some e => simp [hsem] at h
    | none =>
      simp only [hsem] at h
      have hlen := (Receiver.grown_foldl (r := {}) document.events hsem).2
      rw [length_finishPeers (finish_peers h), hlen]
      exact Nat.zero_add _

end Toml

end Microtun.Tracker
