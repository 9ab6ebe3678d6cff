import Microtun.Api.Session
import Microtun.Lib.System
import Microtun.Tracker.Registry

/-! What the Tracker answers to calls of the Peers API, `rpc.rs`: admission, the request budget of
each peer, lookups and watches. -/

namespace Microtun.Tracker

open Api

def maxConnectionsPerPeer : Nat := 4
def requestsPerSec : Nat := 20
def requestBurst : Nat := 40
def requestCostMt : Nat := 1000

/-- What a peer uses of the server.  Times are in nanoseconds. -/
structure PeerUsage where
  connections : Nat
  requestTokensMt : Nat
  lastRefill : Nat
deriving DecidableEq, Repr

namespace PeerUsage

def new (now : Nat) : PeerUsage := ⟨0, requestBurst * requestCostMt, now⟩

/-- The tokens in the bucket at a time. -/
def tokensAt (p : PeerUsage) (now : Nat) : Nat :=
  let elapsedMs := (now - p.lastRefill) / 1000000
  let gained := min (elapsedMs * requestsPerSec) (2 ^ 32 - 1)
  min (p.requestTokensMt + gained) (requestBurst * requestCostMt)

def allowRequest (p : PeerUsage) (now : Nat) : Bool × PeerUsage :=
  let tokens := p.tokensAt now
  if tokens < requestCostMt then (false, { p with requestTokensMt := tokens, lastRefill := now })
  else (true, { p with requestTokensMt := tokens - requestCostMt, lastRefill := now })

end PeerUsage

/-- What the handlers of all connections share. -/
structure AppState where
  published : PublishedRegistry
  keyed : KeyedDispatchState
  /-- The configured peers heard from. -/
  seen : HashSet Key
  refused : UInt64
  usage : HashMap Key PeerUsage
  rateLimited : UInt64
  connectionLimited : UInt64

namespace AppState

variable (s : AppState)

/-- Only peers that are configured or connected keep their accounts. -/
def retainUsage (config : Built) : HashMap Key PeerUsage :=
  s.usage.retain fun k => (s.usage.lookup k).any (·.connections != 0) ||
    (config.val.lookupKey k).isSome

/-- What `open_connection` does under the lock of the usage, once it found the key configured. -/
def reserve (config : Built) (key : Key) (now : Nat) : Bool × AppState :=
  let usage := s.retainUsage config
  let peer := (usage.lookup key).getD (.new now)
  if maxConnectionsPerPeer ≤ peer.connections then
    (false, { s with
      usage := usage.insert key peer
      connectionLimited := s.connectionLimited + 1 })
  else (true, { s with
    usage := usage.insert key { peer with connections := peer.connections + 1 } })

/-- Reserve a connection for a configured key; others are not tracked. -/
def openConnection (key : Key) (now : Nat) : Bool × AppState :=
  let config := s.published.registry
  if config.val.lookupKey key = none then (true, s) else s.reserve config key now

/-- What `close_connection` does under the lock of the usage. -/
def release (configured : Bool) (key : Key) : AppState :=
  match s.usage.lookup key with
  | none => s
  | some peer =>
    let connections := peer.connections - 1
    if connections = 0 ∧ configured = false then { s with usage := s.usage.erase key }
    else { s with usage := s.usage.insert key { peer with connections } }

def closeConnection (key : Key) : AppState :=
  s.release (s.published.registry.val.lookupKey key).isSome key

/-- Charge a request, once the configuration is read. -/
def allowRequest (config : Built) (key : Key) (now : Nat) : Bool × AppState :=
  if config.val.lookupKey key = none then (true, s)
  else
    let usage := s.retainUsage config
    let peer := (usage.lookup key).getD (.new now)
    match peer.allowRequest now with
    | (true, peer) => (true, { s with usage := usage.insert key peer })
    | (false, peer) => (false, { s with
        usage := usage.insert key peer
        rateLimited := s.rateLimited + 1 })

def note (record : PeerRecord) : AppState := { s with seen := s.seen.insert record.publicKey () }

def refuse : AppState := { s with refused := s.refused + 1 }

/-- Is the caller configured? -/
def admits (config : Built) (source : Key) : Bool × AppState :=
  match config.val.lookupKey source with
  | some caller => (true, s.note caller)
  | none => (false, s.refuse)

end AppState

/-- What a lookup asks for. -/
inductive Lookup where
  | key (text : String)
  | address (text : String)
deriving DecidableEq, Repr

inductive Answer where
  | record (info : PeerInfo)
  | miss
  | notAdmitted
  | badArgument
deriving DecidableEq

/-- The record in the shape of the API, with the endpoint in force. -/
def PublishedRegistry.info (p : PublishedRegistry) (T : Texts) (record : PeerRecord) :
    Except Api.Error PeerInfo :=
  PeerInfo.fromFields T record.publicKey (p.effectiveEndpoint record) record.relay record.address
    record.persistentKeepalive

namespace AppState

variable (T : Texts) (s : AppState)

def answer : Option PeerRecord → Except Panic Answer
  | none => .ok .miss
  | some record => match s.published.info T record with
    | .ok info => .ok (.record info)
    | .error _ => .error (.expect "validated Tracker records fit the bounded API type")

/-- Admit the caller and look a record up, under one read lock. -/
def lookup (caller : Key) (query : Lookup) : Except Panic (Answer × AppState) :=
  match s.admits s.published.registry caller with
  | (false, s) => return (.notAdmitted, s)
  | (true, s) =>
    match query with
    | .key text =>
      match decodeKey text with
      | none => return (.badArgument, s)
      | some key => do return (← s.answer T (s.published.lookupKey key), s)
    | .address text =>
      match T.parseIpAddr text with
      | none => return (.badArgument, s)
      | some address => do
        return (← s.answer T (← s.published.lookupAddress (Ip.unmapIp address)), s)

/-- Subscribe the connection `id` to a peer and give the record, under one read lock. -/
def watch (caller : Key) (id : UInt64) (text : String) : Except Panic (Answer × AppState) :=
  match s.admits s.published.registry caller with
  | (false, s) => return (.notAdmitted, s)
  | (true, s) =>
    match decodeKey text with
    | none => return (.badArgument, s)
    | some publicKey =>
      match s.published.lookupKey publicKey with
      | none => return (.miss, { s with keyed := s.keyed.unwatch id publicKey })
      | some record => do
        let s := { s with keyed := s.keyed.watch id publicKey }
        return (← s.answer T (some record), s)

def respond (answer : Answer) (responder : Responder) : Reply :=
  match answer with
  | .record info => responder.ok (.found info)
  | .miss => responder.ok .notFound
  | .notAdmitted => responder.error Codes.notAdmitted "caller is not a configured peer"
  | .badArgument =>
    responder.error Codes.invalidParams "params member is not a valid public key or address"

/-- The part of `handle_request` after the request is charged. -/
def handleRequest (caller : Key) (id : UInt64) (method : String) (message : List UInt8)
    (responder : Responder) : Except Panic (Reply × AppState) :=
  if method = methodByKey then
    match parseParams (ε := Empty) (responder.codec.keyParams message) with
    | .error _ => return (responder.invalidParams, s)
    | .ok publicKey => do
      let (record, s) ← s.lookup T caller (.key publicKey)
      return (respond record responder, s)
  else if method = methodByAddress then
    match parseParams (ε := Empty) (responder.codec.addressParams message) with
    | .error _ => return (responder.invalidParams, s)
    | .ok address => do
      let (record, s) ← s.lookup T caller (.address address)
      return (respond record responder, s)
  else if method = methodWatch then
    match parseParams (ε := Empty) (responder.codec.keyParams message) with
    | .error _ => return (responder.invalidParams, s)
    | .ok publicKey => do
      let (record, s) ← s.watch T caller id publicKey
      return (respond record responder, s)
  else return (responder.unknownMethod, s)

end AppState

/-! ### Targets -/

/-- What the argument of a lookup or a watch names. -/
inductive Target where
  | key (publicKey : Key)
  | address (address : IpAddr)
deriving DecidableEq, Repr

/-- The target of a request, if it is a lookup or a watch whose argument decodes. -/
def targetOf (C : Codec) (T : Texts) (method : String) (message : List UInt8) : Option Target :=
  if method = methodByKey ∨ method = methodWatch then
    (C.keyParams message).join.bind fun text => (decodeKey text).map .key
  else if method = methodByAddress then
    (C.addressParams message).join.bind fun text =>
      (T.parseIpAddr text).map fun address => .address (Ip.unmapIp address)
  else none

/-- Some record has the key, or a prefix that contains the address. -/
def PublishedRegistry.Configured (p : PublishedRegistry) : Target → Prop
  | .key publicKey => ∃ record ∈ p.registry.val.peers, record.publicKey = publicKey
  | .address address => ∃ record ∈ p.registry.val.peers, record.address.contains address = true

namespace PublishedRegistry

variable {p : PublishedRegistry}

theorem configured_key (k : Key) : p.Configured (.key k) ↔
    ∃ record, p.lookupKey k = some record := by
  constructor
  · rintro ⟨record, hmem, hk⟩
    exact ⟨record, (Registry.lookupKey_iff p.registry.sound k record).mpr ⟨hmem, hk⟩⟩
  · rintro ⟨record, hrec⟩
    obtain ⟨hmem, hk⟩ := (Registry.lookupKey_iff p.registry.sound k record).mp hrec
    exact ⟨record, hmem, hk⟩

theorem not_configured_key {k : Key} (h : p.lookupKey k = none) : ¬ p.Configured (.key k) := by
  rw [configured_key, h]
  exact fun ⟨_, hrec⟩ => nomatch hrec

/-- A lookup by address does not panic, and finds a record exactly if some prefix has the address.
-/
theorem lookupAddress_configured (address : IpAddr) : ∃ found, p.lookupAddress address = .ok found ∧
      (p.Configured (.address address) ↔ ∃ record, found = some record) := by
  obtain ⟨found, hrun, hnone, hsome⟩ := Registry.lookupAddress_spec p.registry.sound address
  refine ⟨found, hrun, ?_⟩
  cases found with
  | none =>
    refine iff_of_false ?_ (fun ⟨_, h⟩ => nomatch h)
    rintro ⟨record, hmem, hcontains⟩
    exact absurd hcontains (by rw [hnone rfl record hmem]; exact Bool.false_ne_true)
  | some record =>
    obtain ⟨hmem, hcontains, -⟩ := hsome record rfl
    exact iff_of_true ⟨record, hmem, hcontains⟩ ⟨record, rfl⟩

end PublishedRegistry

/-! ### One request -/

namespace AppState

variable {C : Codec} {T : Texts} {s : AppState}

/-- What is written for a reply: the reply itself, or a small error in place of one that does not
fit. -/
def written (C : Codec) (room : Nat) (id : UInt32) (reply : Reply) : Reply :=
  reply.or (writeError C room (some id) Codes.internal "internal error")

theorem toSlice_eq_some {n : Nat} {text t : List UInt8} (h : toSlice n text = some t) :
    text = t := by
  unfold toSlice at h
  by_cases hfits : text.length ≤ n
  · rw [if_pos hfits] at h
    exact Option.some.inj h
  · rw [if_neg hfits] at h
    exact nomatch h

theorem written_error (hC : C.Faithful) {room : Nat} {id : UInt32} {reply : Reply}
    (h : ∀ text, reply = some text → ∀ i, text ≠ C.result ⟨i, .notFound⟩) (i : UInt32) :
    written C room id reply ≠ some (C.result ⟨i, .notFound⟩) := by
  intro hw
  cases reply with
  | some text => exact h text rfl i (Option.some.inj hw)
  | none =>
    exact hC.notFound_ne_error _ _
      (toSlice_eq_some (show writeError _ _ _ _ _ = _ from hw)).symm

theorem error_ne (hC : C.Faithful) {room : Nat} {id : Option UInt32} {code : UInt16}
    {message : String} (text : List UInt8)
    (h : writeError C room id code message = some text) (i : UInt32) :
    text ≠ C.result ⟨i, .notFound⟩ := by
  rintro rfl
  exact hC.notFound_ne_error _ _ (toSlice_eq_some h).symm

theorem respond_notFound (hC : C.Faithful) (answer : Answer) (id : UInt32) :
    written C recordMessageLen id (respond answer ⟨C, recordMessageLen, id⟩) =
      some (C.result ⟨id, .notFound⟩) ↔ answer = .miss := by
  cases answer with
  | record info =>
    refine iff_of_false (written_error hC (fun text h i => ?_) id) nofun
    rintro rfl
    exact hC.notFound_ne_found _ _ _ (toSlice_eq_some h).symm
  | miss =>
    refine iff_of_true ?_ rfl
    unfold respond Responder.ok toSlice
    simp only [if_pos (hC.notFound_fits id)]
    rfl
  | notAdmitted => exact iff_of_false (written_error hC (error_ne hC) id) nofun
  | badArgument => exact iff_of_false (written_error hC (error_ne hC) id) nofun

/-- A lookup by an admitted caller whose target, if it decodes, is not configured. -/
def Missing (p : PublishedRegistry) (caller : Key) (target : Option Target) : Prop :=
  p.Configured (.key caller) ∧ ∃ t, target = some t ∧ ¬ p.Configured t

/-- The run answers a miss exactly under the condition. -/
def Misses (r : Except Panic (Answer × AppState)) (missing : Prop) : Prop :=
  match r with
  | .ok (answer, _) => answer = .miss ↔ missing
  | .error _ => ¬ missing

/-- A record that is found is no miss, whether or not it fits the wire type. -/
theorem answer_some (record : PeerRecord) (s' : AppState) {missing : Prop} (h : ¬ missing) :
    Misses (do return (← s.answer T (some record), s')) missing := by
  simp only [answer]
  cases s.published.info T record with
  | error e => exact h
  | ok info =>
    exact iff_of_false (show ¬ Answer.record info = .miss from nofun) h

theorem admits_spec (source : Key) : (s.admits s.published.registry source = (false, s.refuse) ∧
        ¬ s.published.Configured (.key source)) ∨
      ∃ caller, s.admits s.published.registry source = (true, s.note caller) ∧
        s.published.Configured (.key source) := by
  unfold admits
  cases hrec : s.published.registry.val.lookupKey source with
  | none => exact .inl ⟨rfl, PublishedRegistry.not_configured_key hrec⟩
  | some caller =>
    exact .inr ⟨caller, rfl, (PublishedRegistry.configured_key source).mpr ⟨caller, hrec⟩⟩

theorem not_missing {caller key : Key} {found : PeerRecord}
    (hkey : s.published.lookupKey key = some found) :
    ¬ Missing s.published caller (some (.key key)) := by
  rintro ⟨-, t, ht, hnone⟩
  obtain rfl : Target.key key = t := Option.some.inj ht
  exact hnone ((PublishedRegistry.configured_key key).mpr ⟨found, hkey⟩)

theorem lookup_key_spec (caller : Key) (text : String) : Misses (s.lookup T caller (.key text))
      (Missing s.published caller ((decodeKey text).map .key)) := by
  unfold lookup
  rcases admits_spec (s := s) caller with ⟨hadmits, hno⟩ | ⟨record, hadmits, hyes⟩
  · rw [hadmits]
    exact iff_of_false nofun fun h => hno h.1
  · rw [hadmits]
    simp only
    cases decodeKey text with
    | none => exact iff_of_false nofun fun ⟨_, t, ht, _⟩ => nomatch ht
    | some key =>
      show Misses (do return (← (s.note record).answer T (s.published.lookupKey key), _)) _
      cases hkey : s.published.lookupKey key with
      | none =>
        exact iff_of_true rfl ⟨hyes, _, rfl, PublishedRegistry.not_configured_key hkey⟩
      | some found =>
        exact answer_some found _ (not_missing hkey)

theorem lookup_address_spec (caller : Key) (text : String) :
    Misses (s.lookup T caller (.address text)) (Missing s.published caller
      ((T.parseIpAddr text).map fun address => .address (Ip.unmapIp address))) := by
  unfold lookup
  rcases admits_spec (s := s) caller with ⟨hadmits, hno⟩ | ⟨record, hadmits, hyes⟩
  · rw [hadmits]
    exact iff_of_false nofun fun h => hno h.1
  · rw [hadmits]
    simp only
    cases T.parseIpAddr text with
    | none => exact iff_of_false nofun fun ⟨_, t, ht, _⟩ => nomatch ht
    | some address =>
      obtain ⟨found, hrun, hfound⟩ :=
        PublishedRegistry.lookupAddress_configured (p := s.published) (Ip.unmapIp address)
      show Misses (do
        return (← (s.note record).answer T (← s.published.lookupAddress (Ip.unmapIp address)), _)) _
      rw [hrun]
      cases found with
      | none =>
        refine iff_of_true rfl ⟨hyes, _, rfl, fun h => ?_⟩
        obtain ⟨_, h⟩ := hfound.mp h
        exact nomatch h
      | some found =>
        refine answer_some found _ ?_
        rintro ⟨-, t, ht, hnone⟩
        obtain rfl : Target.address (Ip.unmapIp address) = t := Option.some.inj ht
        exact hnone (hfound.mpr ⟨found, rfl⟩)

theorem watch_spec (caller : Key) (id : UInt64) (text : String) : Misses (s.watch T caller id text)
      (Missing s.published caller ((decodeKey text).map .key)) := by
  unfold watch
  rcases admits_spec (s := s) caller with ⟨hadmits, hno⟩ | ⟨record, hadmits, hyes⟩
  · rw [hadmits]
    exact iff_of_false nofun fun h => hno h.1
  · rw [hadmits]
    simp only
    cases decodeKey text with
    | none => exact iff_of_false nofun fun ⟨_, t, ht, _⟩ => nomatch ht
    | some key =>
      have hpub : (s.note record).published.lookupKey key = s.published.lookupKey key := rfl
      simp only [hpub]
      cases hkey : s.published.lookupKey key with
      | none =>
        exact iff_of_true rfl ⟨hyes, _, rfl, PublishedRegistry.not_configured_key hkey⟩
      | some found =>
        exact answer_some found _ (not_missing hkey)

/-- What is written for a request that was charged: a miss exactly if the caller is configured and
the target, which decodes, is not. -/
theorem handleRequest_spec (hC : C.Faithful) (caller : Key) (id : UInt64) (method : String)
    (message : List UInt8) (i : UInt32) :
    match s.handleRequest T caller id method message ⟨C, recordMessageLen, i⟩ with
    | .ok (reply, _) => written C recordMessageLen i reply = some (C.result ⟨i, .notFound⟩) ↔
        Missing s.published caller (targetOf C T method message)
    | .error _ => ¬ Missing s.published caller (targetOf C T method message) := by
  have hrespond : ∀ (r : Except Panic (Answer × AppState)) (missing : Prop), Misses r missing →
      match (do
        let (record, s) ← r
        return (respond record ⟨C, recordMessageLen, i⟩, s) : Except Panic (Reply × AppState)) with
      | .ok (reply, _) => written C recordMessageLen i reply = some (C.result ⟨i, .notFound⟩) ↔
          missing
      | .error _ => ¬ missing := by
    intro r missing h
    cases r with
    | error e => exact h
    | ok r => exact (respond_notFound hC r.1 i).trans h
  have hno : ¬ Missing s.published caller none := fun ⟨_, t, ht, _⟩ => nomatch ht
  unfold handleRequest targetOf
  by_cases hkey : method = methodByKey
  · rw [if_pos hkey, if_pos (.inl hkey)]
    simp only
    cases hparams : C.keyParams message with
    | none => exact iff_of_false (written_error hC (error_ne hC) i) hno
    | some params =>
      cases params with
      | none => exact iff_of_false (written_error hC (error_ne hC) i) hno
      | some text => exact hrespond _ _ (lookup_key_spec caller text)
  · rw [if_neg hkey]
    by_cases haddr : method = methodByAddress
    · have hwatch : ¬ (method = methodByKey ∨ method = methodWatch) := by
        rw [haddr]
        decide
      rw [if_pos haddr, if_neg hwatch, if_pos haddr]
      simp only
      cases hparams : C.addressParams message with
      | none => exact iff_of_false (written_error hC (error_ne hC) i) hno
      | some params =>
        cases params with
        | none => exact iff_of_false (written_error hC (error_ne hC) i) hno
        | some text => exact hrespond _ _ (lookup_address_spec caller text)
    · rw [if_neg haddr]
      by_cases hwatch : method = methodWatch
      · rw [if_pos hwatch, if_pos (.inr hwatch)]
        simp only
        cases hparams : C.keyParams message with
        | none => exact iff_of_false (written_error hC (error_ne hC) i) hno
        | some params =>
          cases params with
          | none => exact iff_of_false (written_error hC (error_ne hC) i) hno
          | some text => exact hrespond _ _ (watch_spec caller id text)
      · rw [if_neg hwatch, if_neg (by simp [hkey, hwatch]), if_neg haddr]
        exact iff_of_false (written_error hC (error_ne hC) i) hno

/-! No request changes what is published. -/

theorem published_admit (config : Built) (source : Key) :
    (s.admits config source).2.published = s.published := by
  unfold admits
  cases config.val.lookupKey source <;> rfl

theorem published_openConnection (key : Key) (now : Nat) :
    (s.openConnection key now).2.published = s.published := by
  unfold openConnection reserve
  by_cases hnone : s.published.registry.val.lookupKey key = none
  · simp only [if_pos hnone]
  · simp only [if_neg hnone]
    split <;> rfl

theorem published_closeConnection (key : Key) :
    (s.closeConnection key).published = s.published := by
  unfold closeConnection release
  cases s.usage.lookup key with
  | none => rfl
  | some peer =>
    simp only
    split <;> rfl

theorem published_allowRequest (config : Built) (key : Key) (now : Nat) :
    (s.allowRequest config key now).2.published = s.published := by
  unfold allowRequest
  by_cases hnone : config.val.lookupKey key = none
  · simp only [if_pos hnone]
  · simp only [if_neg hnone]
    split <;> rfl

/-- The run leaves what is published. -/
def Keeps {α : Type} (s : AppState) (r : Except Panic (α × AppState)) : Prop :=
  ∀ a s', r = .ok (a, s') → s'.published = s.published

theorem Keeps.pure {α : Type} {a : α} {s' : AppState} (h : s'.published = s.published) :
    Keeps s (.ok (a, s')) := by
  intro b t hrun
  rw [← (Prod.mk.inj (Except.ok.inj hrun)).2, h]

theorem Keeps.error {α : Type} {e : Panic} : Keeps (α := α) s (.error e) := nofun

theorem Keeps.map {α β : Type} {r : Except Panic (α × AppState)} (h : Keeps s r) (f : α → β) :
    Keeps s (do
      let (a, s) ← r
      return (f a, s)) := by
  cases r with
  | error e => exact .error
  | ok r => exact .pure (h r.1 r.2 rfl)

theorem Keeps.bind {α β : Type} {x : Except Panic α} {f : α → Except Panic (β × AppState)}
    (h : ∀ a, Keeps s (f a)) : Keeps s (x >>= f) := by
  cases x with
  | error e => exact .error
  | ok a => exact h a

theorem keeps_lookup (T : Texts) (caller : Key) (query : Lookup) :
    Keeps s (s.lookup T caller query) := by
  unfold lookup
  have hpub := published_admit (s := s) s.published.registry caller
  generalize s.admits s.published.registry caller = r at hpub
  obtain ⟨_ | _, s'⟩ := r
  · exact .pure hpub
  · cases query with
    | key text =>
      simp only
      cases decodeKey text with
      | none => exact .pure hpub
      | some key => exact .bind fun _ => .pure hpub
    | address text =>
      simp only
      cases T.parseIpAddr text with
      | none => exact .pure hpub
      | some address => exact .bind fun _ => .bind fun _ => .pure hpub

theorem keeps_watch (T : Texts) (caller : Key) (id : UInt64) (text : String) :
    Keeps s (s.watch T caller id text) := by
  unfold watch
  have hpub := published_admit (s := s) s.published.registry caller
  generalize s.admits s.published.registry caller = r at hpub
  obtain ⟨_ | _, s'⟩ := r
  · exact .pure hpub
  · simp only
    cases decodeKey text with
    | none => exact .pure hpub
    | some key =>
      simp only
      cases s'.published.lookupKey key with
      | none => exact .pure hpub
      | some record => exact .bind fun _ => .pure hpub

theorem keeps_handleRequest (T : Texts) (caller : Key) (id : UInt64) (method : String)
    (message : List UInt8) (responder : Responder) :
    Keeps s (s.handleRequest T caller id method message responder) := by
  unfold handleRequest
  by_cases hkey : method = methodByKey
  · rw [if_pos hkey]
    cases parseParams (ε := Empty) (responder.codec.keyParams message) with
    | error e => exact .pure rfl
    | ok text => exact (keeps_lookup T caller _).map fun record => respond record responder
  · rw [if_neg hkey]
    by_cases haddr : method = methodByAddress
    · rw [if_pos haddr]
      cases parseParams (ε := Empty) (responder.codec.addressParams message) with
      | error e => exact .pure rfl
      | ok text => exact (keeps_lookup T caller _).map fun record => respond record responder
    · rw [if_neg haddr]
      by_cases hwatch : method = methodWatch
      · rw [if_pos hwatch]
        cases parseParams (ε := Empty) (responder.codec.keyParams message) with
        | error e => exact .pure rfl
        | ok text => exact (keeps_watch T caller id text).map fun record => respond record responder
      · rw [if_neg hwatch]
        exact .pure rfl

end AppState

end Microtun.Tracker
