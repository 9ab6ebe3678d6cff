import Microtun.Core.State
import Microtun.Ip
import Microtun.Routing.Correct
import Mathlib.Logic.Relation

/-! An abstract engine: the tables and how they may change. A table is a function from its keys or a
multiset of its entries. A step is one change after which all tables agree again; the code makes
some of these changes in several moves. -/

namespace Microtun

open Function (update)

/-- What the tables know of a peer. -/
structure Member where
  key : Key
  pinned : Bool
  address : IpCidr
  policy : InboundPolicy
  relay : Option Key
  interval : Option Nat
  sessions : PeerSessions
  greatestTs : Bytes 12
  lastInitiationConsumption : Option Nat

/-- The part of a peer that only the resolver changes. -/
structure Identity where
  key : Key
  pinned : Bool
  address : IpCidr
  policy : InboundPolicy
  relay : Option Key
  interval : Option Nat

/-- The three ways in which a peer can hold a slot. -/
inductive Stage where
  | handshake
  | next
  | live
deriving DecidableEq, Repr

namespace Member

def identity (m : Member) : Identity := ⟨m.key, m.pinned, m.address, m.policy, m.relay, m.interval⟩

def unlink (m : Member) (s : Nat) : Member := { m with sessions := m.sessions.unlink s }

/-- The persistent keepalive timer runs if and only if the peer has one. -/
def Kept (m : Member) : Prop := m.sessions.persistentKeepaliveDue.isSome = m.interval.isSome

@[simp] theorem identity_unlink (m : Member) (s : Nat) : (m.unlink s).identity = m.identity := rfl

end Member

/-- Is the lookup one that waits for an answer? -/
def InflightResolve.live (r : InflightResolve) : Bool := r.kind ≠ .negative

/-- A lookup by address serves packets, and a lookup by key installs or reconciles a peer. -/
def InflightResolve.Fits (r : InflightResolve) : Prop :=
  match r.query with
  | .byDstAddress _ => r.kind = .outbound
  | .byPublicKey _ => r.kind ≠ .outbound

/-- Does the peer hold the slot in this way? -/
def PeerSessions.Lists (ps : PeerSessions) (s : Nat) : Stage → Prop
  | .handshake => ps.handshake = some s
  | .next => ps.next = some s
  | .live => ps.current = some s ∨ ps.previous = some s

/-- Who holds a slot, and in which way. -/
def Slot.holder {replayWords : Nat} : Slot replayWords → Option (Nat × Stage)
  | free => none
  | initiating handshake => some (handshake.peer, .handshake)
  | established session => some (session.peer, if session.confirmed then .live else .next)

/-- The datagram of a seal is of its type and carries its counter. -/
def Seal.CarriesCounter (record : Seal) : Prop :=
  (record.messageType = Messages.msgData ∨ record.messageType = Messages.msgRelay) ∧
    record.datagram.head? = some record.messageType ∧
    (slice record.datagram Messages.Data.counter).bind readU64Le = some record.counter

/-- What an event of the log is about. -/
inductive Topic where
  | output
  | session
  | lookup
  | attempt
  | report
  | room
deriving DecidableEq, Repr

def Event.topic : Event → Topic
  | innerPacket .. | sealed _ | accepted .. | fault _ | relayFailed .. => .session
  | resolve _ taken => if taken then .lookup else .output
  | closed _ | sought .. => .lookup
  | authenticated _ known => if known then .output else .lookup
  | initiation .. | installed _ | admitted .. => .attempt
  | peerEvicted _ => .report
  | displaced .. => .room
  | _ => .output

/-- The counters that were sealed under a session, latest first. -/
def sealsOf (serial : Nat) (marks : List Event) : List Nat :=
  marks.filterMap fun
    | .sealed record => if record.serial = serial then some record.counter else none
    | _ => none

/-- The counters that were accepted under a session, latest first. -/
def acceptsOf (serial : Nat) (marks : List Event) : List Nat :=
  marks.filterMap fun
    | .accepted serial' counter => if serial' = serial then some counter else none
    | _ => none

/-- The session and the counter of every delivery, latest first. -/
def deliveries (marks : List Event) : List (Nat × Nat) :=
  marks.filterMap fun
    | .innerPacket serial counter .. => some (serial, counter)
    | _ => none

/-- The tables of an engine. The last fields are the parts of the log that are about sessions, about
lookups, about handshake attempts, about what was released, and about what had to make room. -/
structure Tables (cap : Capacities) where
  config : CoreConfig
  peer : Nat → Option Member
  find : Key → Option Nat
  slot : Nat → Slot cap.replayWords
  slotFor : UInt32 → Option Nat
  routes : RouteCache cap.maxRoutes
  firewall : Firewall cap.maxPeers
  parked : Multiset PendingPacket
  lookups : Multiset InflightResolve
  owed : Multiset PendingReconcile
  initiations : Nat → Option PendingInitiation
  released : List Key
  budget : IntervalBudget
  timer : TimerCache
  established : Nat
  marks : List Event
  diary : List Event
  attempts : List Event
  reports : List Event
  rooms : List Event

namespace Tables

variable {cap : Capacities}

/-- Is there a peer at the index? -/
def Installed (t : Tables cap) (p : Nat) : Prop := (t.peer p).isSome

/-- Is the persistent keepalive of the peer kept up? -/
def Kept (t : Tables cap) (p : Nat) : Prop := ∀ m, t.peer p = some m → m.Kept

def setPeer (t : Tables cap) (p : Nat) (m : Member) : Tables cap :=
  { t with peer := update t.peer p (some m) }

def setSlot (t : Tables cap) (s : Nat) (x : Slot cap.replayWords) : Tables cap :=
  { t with slot := update t.slot s x }

def setIndex (t : Tables cap) (i : UInt32) (s : Option Nat) : Tables cap :=
  { t with slotFor := update t.slotFor i s }

def arm (t : Tables cap) (d : Nat) : Tables cap := { t with timer := t.timer.arm d }

def withParked (t : Tables cap) (parked : Multiset PendingPacket) : Tables cap := { t with parked }

def withLookups (t : Tables cap) (lookups : Multiset InflightResolve) : Tables cap :=
  { t with lookups }

def withOwed (t : Tables cap) (owed : Multiset PendingReconcile) : Tables cap := { t with owed }

/-- Everything that waits for an instant outside of the sessions. -/
def deadlines (t : Tables cap) : Multiset Nat :=
  t.parked.map (·.deadline) + t.lookups.map (·.deadline) + t.owed.map (·.due)

def mark (t : Tables cap) (e : Event) : Tables cap := { t with marks := e :: t.marks }

def enter (t : Tables cap) (e : Event) : Tables cap := { t with diary := e :: t.diary }

def note (t : Tables cap) (e : Event) : Tables cap := { t with attempts := e :: t.attempts }

/-- Note that the record of a peer was released, if there is room for the note. -/
def release (t : Tables cap) (key : Key) : Tables cap :=
  { t with released :=
    if key ∈ t.released then t.released
    else if cap.backend = .inline ∧ cap.maxPeers ≤ t.released.length then t.released
    else t.released ++ [key] }

/-- Let go of the initiation that waits for a lookup. -/
def letGo (t : Tables cap) (id : Nat) : Tables cap :=
  { t with initiations := fun i => (t.initiations i).filter fun e => e.resolveId ≠ id }

/-- A live lookup goes, and with it the initiation that waits for it. -/
def shut (t : Tables cap) (r : InflightResolve) (rest : Multiset InflightResolve) : Tables cap :=
  { t with
    lookups := rest
    initiations := if r.kind = .install .authenticatedInitiator then (t.letGo r.id).initiations
      else t.initiations
    diary := .closed r.query :: t.diary }

/-- Free a slot, with its index and the link of its owner. -/
def clear (t : Tables cap) (s : Nat) : Tables cap :=
  { t with
    slot := update t.slot s .free
    slotFor := match (t.slot s).localIndex with
      | some i => update t.slotFor i none
      | none => t.slotFor
    peer := fun p =>
      if (t.slot s).owner = some p then (t.peer p).map fun m => m.unlink s else t.peer p }

/-- The instant is armed, and it lies ahead.  The second half needs time to be left, and a negative
answer to last. -/
def Ahead (now : Nat) (t : Tables cap) (d : Nat) : Prop :=
  NotAfter t.timer.get (some d) ∧ (now < maxMillis → t.config.negativeTtl ≠ 0 → now < d)

/-- A timer may be kept, stopped, or set to an instant ahead. -/
def Reset (now : Nat) (t : Tables cap) (old new : Option Nat) : Prop :=
  new = old ∨ ∀ d, new = some d → t.Ahead now d

/-- The trie of the routes agrees with their slots, and a pinned route is the incumbent of its
prefix. -/
def RoutesSound (routes : RouteCache cap.maxRoutes) : Prop :=
  ∃ m, RouteCache.Consistent cap.backend routes m ∧
    ∀ i e, routes.entry i = some e → e.pinned = true → m.lookup e.cidr = some i

end Tables

/-- The pool of waiting initiations after another one was parked in it: in the place of an older one
that waits for the same lookup, else in a free slot, if there is one. -/
inductive Parked (initiations : Nat → Option PendingInitiation) (e : PendingInitiation) :
    (Nat → Option PendingInitiation) → Prop
  | newer {n : Nat} {x : PendingInitiation} (hx : initiations n = some x)
    (hid : x.resolveId = e.resolveId)
    (hlater : x.consumed.timestamp.toList < e.consumed.timestamp.toList) :
    Parked initiations e (update initiations n (some e))
  | older {n : Nat} {x : PendingInitiation} (hx : initiations n = some x)
    (hid : x.resolveId = e.resolveId)
    (hlater : e.consumed.timestamp.toList ≤ x.consumed.timestamp.toList) :
    Parked initiations e initiations
  | spare {n : Nat} (hn : initiations n = none)
    (hnone : ∀ i x, initiations i = some x → x.resolveId ≠ e.resolveId) :
    Parked initiations e (update initiations n (some e))
  | full (hnone : ∀ i x, initiations i = some x → x.resolveId ≠ e.resolveId) :
    Parked initiations e initiations

/-- A session that was just established. -/
structure Session.Opened {replayWords : Nat} (sess : Session replayWords) (peer now serial : Nat)
    (role : Role) : Prop where
  peer : sess.peer = peer
  nSend : sess.nSend = 0
  replay : sess.replay = .new replayWords
  created : sess.created = now
  serial : sess.serial = serial
  confirmed : sess.confirmed = decide (role = .initiator)
  role : sess.role = role

/-- What a step may do. Its rank says how far it reaches: it changes the sessions that there are,
the parked packets and the timers, without a mark; it may also leave a mark; it may touch the flows
and the use of routes; it may establish a session; it may remove peers and move their routes; it may
add a peer; it may report what was released. -/
structure Scope where
  rank : Nat := 0
  /-- It may use the table of lookups and what goes with it. -/
  desk : Bool := false
  /-- It may discharge what is owed to this key. -/
  answers : Option Key := none
  /-- It may leave behind an initiation whose lookup is gone. -/
  strands : Bool := false
  /-- It may take away a lookup that packets wait for. -/
  orphans : Bool := false
  /-- It may stop the persistent keepalive of this peer. -/
  lapses : Option Nat := none
  /-- It may deliver a packet. -/
  delivers : Bool := false
deriving DecidableEq, Repr

namespace Scope

def quiet : Scope := {}

def traffic : Scope := { rank := 1 }

def flow : Scope := { rank := 2 }

def establish : Scope := { rank := 3 }

def admin : Scope := { rank := 4 }

def install : Scope := { rank := 5 }

def flush : Scope := { rank := 6 }

@[simp] theorem rank_quiet : quiet.rank = 0 := rfl

@[simp] theorem rank_traffic : traffic.rank = 1 := rfl

@[simp] theorem rank_flow : flow.rank = 2 := rfl

@[simp] theorem rank_establish : establish.rank = 3 := rfl

@[simp] theorem rank_admin : admin.rank = 4 := rfl

@[simp] theorem rank_install : install.rank = 5 := rfl

@[simp] theorem rank_flush : flush.rank = 6 := rfl

/-- The ranks that are about sessions and lookups, and not about peers and their routes. -/
def Routine (k : Scope) : Prop := k.rank ≤ 1 ∨ k.rank = 3

instance (k : Scope) : Decidable k.Routine := inferInstanceAs (Decidable (_ ∨ _))

/-- The same with the desk. -/
def atDesk (k : Scope) : Scope := { k with desk := true }

@[simp] theorem rank_atDesk (k : Scope) : k.atDesk.rank = k.rank := rfl

instance : LE Scope where
  le k l := k.rank ≤ l.rank ∧ (k.desk → l.desk) ∧ (k.answers = none ∨ k.answers = l.answers) ∧
    (k.strands → l.strands) ∧ (k.orphans → l.orphans) ∧
    (k.lapses = none ∨ k.lapses = l.lapses) ∧ (k.delivers → l.delivers)

instance (k l : Scope) : Decidable (k ≤ l) :=
  inferInstanceAs (Decidable (k.rank ≤ l.rank ∧ (k.desk → l.desk) ∧
    (k.answers = none ∨ k.answers = l.answers) ∧ (k.strands → l.strands) ∧
    (k.orphans → l.orphans) ∧ (k.lapses = none ∨ k.lapses = l.lapses) ∧
    (k.delivers → l.delivers)))

theorem le_refl (k : Scope) : k ≤ k := ⟨Nat.le_refl _, id, Or.inr rfl, id, id, Or.inr rfl, id⟩

theorem le_trans {k l m : Scope} (h : k ≤ l) (h' : l ≤ m) : k ≤ m := by
  obtain ⟨hrank, hdesk, hans, hstr, horph, hlapse, hdel⟩ := h
  obtain ⟨hrank', hdesk', hans', hstr', horph', hlapse', hdel'⟩ := h'
  refine ⟨hrank.trans hrank', fun h => hdesk' (hdesk h), ?_, fun h => hstr' (hstr h),
    fun h => horph' (horph h), ?_, fun h => hdel' (hdel h)⟩
  · rcases hans with h | h
    · exact Or.inl h
    · rw [h]
      exact hans'
  · rcases hlapse with h | h
    · exact Or.inl h
    · rw [h]
      exact hlapse'

theorem quiet_le (k : Scope) : quiet ≤ k :=
  ⟨Nat.zero_le _, by rintro ⟨⟩, Or.inl rfl, by rintro ⟨⟩, by rintro ⟨⟩, Or.inl rfl, by rintro ⟨⟩⟩

/-- What a quiet step at the desk may do, every scope with the desk may do. -/
theorem desk_le {k : Scope} (h : k.desk = true) : quiet.atDesk ≤ k :=
  ⟨Nat.zero_le _, fun _ => h, Or.inl rfl, by rintro ⟨⟩, by rintro ⟨⟩, Or.inl rfl, by rintro ⟨⟩⟩

/-- What an answer about a peer may do at the desk, every scope that answers for it may do. -/
theorem answers_le {k : Scope} {key : Key} {n : Nat} (hrank : n ≤ k.rank) (hdesk : k.desk = true)
    (hans : k.answers = some key) : { rank := n, desk := true, answers := some key } ≤ k :=
  ⟨hrank, fun _ => hdesk, Or.inr hans.symm, by rintro ⟨⟩, by rintro ⟨⟩, Or.inl rfl, by rintro ⟨⟩⟩

end Scope

namespace Tables

variable {cap : Capacities} [Crypto]

/-- One change of the tables at the instant `now`. -/
inductive Step (now : Nat) : Scope → Tables cap → Tables cap → Prop
  | arm {t : Tables cap} (d : Nat) : Step now .quiet t (t.arm d)
  | clear {t : Tables cap} (s : Nat) : Step now .quiet t (t.clear s)
  /-- A handshake attempt of ours begins. -/
  | initiate {t : Tables cap} {p s d : Nat} {m : Member} {h : Initiating}
    (hp : t.peer p = some m) (hh : m.sessions.handshake = none) (hs : t.slot s = .free)
    (hi : t.slotFor h.localIndex = none) (howner : h.peer = p) (hretry : t.Ahead now h.retryAt)
    (hpace : saturatingAdd now rekeyTimeout ≤ h.retryAt) (hd : t.Ahead now d) :
    Step now .quiet t ((((t.setSlot s (.initiating h)).setIndex h.localIndex (some s)).setPeer p
      { m with sessions := { m.sessions with
        handshake := some s
        attemptDeadline := some d } }).note (.initiation p now true))
  | retry {t : Tables cap} {s : Nat} {h h' : Initiating} (hs : t.slot s = .initiating h)
    (hdue : h.retryAt ≤ now) (hpeer : h'.peer = h.peer) (hi : h'.localIndex = h.localIndex)
    (hretry : t.Ahead now h'.retryAt) (hpace : saturatingAdd now rekeyTimeout ≤ h'.retryAt) :
    Step now .quiet t ((t.setSlot s (.initiating h')).note (.initiation h.peer now false))
  /-- An initiation of a peer passes the replay check and the gate. -/
  | pass {t : Tables cap} {p : Nat} {m : Member} {ts : Bytes 12} (hp : t.peer p = some m)
    (hlater : m.greatestTs.toList < ts.toList)
    (hgap : ∀ last, m.lastInitiationConsumption = some last →
      handshakeInitiationMinInterval < saturatingSince now last) :
    Step now .quiet t ((t.setPeer p { m with
      greatestTs := ts
      lastInitiationConsumption := some now }).note (.admitted p ts now))
  /-- We answer an initiation; the session is not confirmed yet. -/
  | respond {t : Tables cap} {p s : Nat} {m : Member} {sess : Session cap.replayWords}
    (hp : t.peer p = some m) (hn : m.sessions.next = none) (hs : t.slot s = .free)
    (hi : t.slotFor sess.localIndex = none) (hsess : sess.Opened p now t.established .responder)
    (hd : t.Ahead now (saturatingAdd now rejectAfterTime)) :
    Step now .establish t { ((t.setSlot s (.established sess)).setIndex sess.localIndex
      (some s)).setPeer p { m with sessions := { m.sessions with next := some s } } with
        established := t.established + 1 }
  /-- A handshake attempt of ours is answered. -/
  | complete {t : Tables cap} {p s : Nat} {m : Member} {h : Initiating}
    {sess : Session cap.replayWords} (hp : t.peer p = some m) (hs : t.slot s = .initiating h)
    (howner : h.peer = p) (hprev : m.sessions.previous = none)
    (hi : sess.localIndex = h.localIndex) (hsess : sess.Opened p now t.established .initiator)
    (hd : t.Ahead now (saturatingAdd now rejectAfterTime)) :
    Step now .establish t { (t.setSlot s (.established sess)).setPeer p { m with
      sessions := { m.sessions with
        handshake := none
        attemptDeadline := none
        previous := m.sessions.current
        current := some s } } with established := t.established + 1 }
  | confirm {t : Tables cap} {p s : Nat} {m : Member} {sess : Session cap.replayWords}
    (hp : t.peer p = some m) (hs : t.slot s = .established sess) (hn : m.sessions.next = some s)
    (hprev : m.sessions.previous = none) :
    Step now .quiet t ((t.setSlot s (.established { sess with confirmed := true })).setPeer p
      { m with
      sessions := { m.sessions with
        next := none
        previous := m.sessions.current
        current := some s } })
  | noteRekey {t : Tables cap} {s : Nat} {sess : Session cap.replayWords}
    (hs : t.slot s = .established sess) (rekeyTriggered : Bool) :
    Step now .quiet t (t.setSlot s (.established { sess with rekeyTriggered }))
  | timers {t : Tables cap} {p : Nat} {m : Member} {keepaliveDue persistentKeepaliveDue replyDue}
    (hp : t.peer p = some m) (hk : t.Reset now m.sessions.keepaliveDue keepaliveDue)
    (hpk : t.Reset now m.sessions.persistentKeepaliveDue persistentKeepaliveDue)
    (hr : t.Reset now m.sessions.replyDue replyDue)
    (hkeep : persistentKeepaliveDue = m.sessions.persistentKeepaliveDue ∨
      persistentKeepaliveDue.isSome = m.interval.isSome) :
    Step now .quiet t (t.setPeer p { m with
      sessions := { m.sessions with keepaliveDue, persistentKeepaliveDue, replyDue } })
  /-- The persistent keepalive of a peer is stopped. -/
  | lapse {t : Tables cap} {p : Nat} {m : Member} (hp : t.peer p = some m) :
    Step now { lapses := some p } t (t.setPeer p { m with
      sessions := { m.sessions with persistentKeepaliveDue := none } })
  | dropParked {t : Tables cap} {parked : Multiset PendingPacket} (h : parked ≤ t.parked) :
    Step now .quiet t (t.withParked parked)
  /-- A packet waits for the handshake with a peer. -/
  | park {t : Tables cap} {p : PendingPacket} {q : Nat} (hd : t.Ahead now p.deadline)
    (hw : p.wait = .handshake q) (hq : t.Installed q) :
    Step now .quiet t (t.withParked (p ::ₘ t.parked))
  /-- A packet waits for the lookup of its destination. -/
  | await {t : Tables cap} {p : PendingPacket} {r : InflightResolve} {header : IpHeader}
    (hd : t.Ahead now p.deadline) (hw : p.wait = .resolve r.id) (hr : r ∈ t.lookups)
    (hparse : Ip.parseHeader p.packet = some header) (hq : r.query = .byDstAddress header.dst)
    (hk : r.kind = .outbound) :
    Step now (.atDesk .quiet) t (t.withParked (p ::ₘ t.parked))
  /-- A question is asked that is not being asked. -/
  | ask {t : Tables cap} {r : InflightResolve} (hlive : r.live = true) (hemit : r.emitted = false)
    (hkind : r.kind ≠ .install .authenticatedInitiator) (hfits : r.Fits)
      (hid : ∀ x ∈ t.lookups, x.id ≠ r.id)
    (hquery : ∀ x ∈ t.lookups, x.query = r.query → x.live = false ∧ x.deadline ≤ now ∧
      ∃ key, r.query = .byPublicKey key)
    (hroom : t.lookups.card < t.config.maxInflightResolves) (hd : t.Ahead now r.deadline) :
    Step now (.atDesk .quiet) t (t.withLookups (r ::ₘ t.lookups))
  /-- Negative answers are forgotten. -/
  | forget {t : Tables cap} {lookups : Multiset InflightResolve} (h : lookups ≤ t.lookups)
    (hlive : lookups.filter (·.live) = t.lookups.filter (·.live)) :
    Step now (.atDesk .quiet) t (t.withLookups lookups)
  /-- A negative answer is remembered. -/
  | deny {t : Tables cap} {r : InflightResolve} (hneg : r.live = false) (hemit : r.emitted = true)
    (hid : ∀ x ∈ t.lookups, x.id ≠ r.id) (hquery : ∀ x ∈ t.lookups, x.query ≠ r.query)
    (hroom : t.lookups.card < t.config.maxInflightResolves) (hd : t.Ahead now r.deadline) :
    Step now (.atDesk .quiet) t (t.withLookups (r ::ₘ t.lookups))
  /-- A live lookup is answered, expires or is replaced, and lets go of its initiation. -/
  | close {t : Tables cap} {r : InflightResolve} {rest : Multiset InflightResolve}
    {answers : Option Key} {orphans : Bool} (h : t.lookups = r ::ₘ rest) (hlive : r.live = true)
    (howed : ∀ key, r.kind = .reconcile → r.query = .byPublicKey key →
      (∃ o ∈ t.owed, o.publicKey = key) ∨ answers = some key)
    (hserved : orphans = true ∨
      (r.kind = .outbound → ∀ p ∈ t.parked, p.wait ≠ .resolve r.id)) :
    Step now { desk := true, answers, orphans } t (t.shut r rest)
  /-- A live lookup goes and leaves its initiation behind. -/
  | strand {t : Tables cap} {r : InflightResolve} {rest : Multiset InflightResolve} {key : Key}
    (h : t.lookups = r ::ₘ rest) (hlive : r.live = true) (hquery : r.query = .byPublicKey key) :
    Step now { desk := true, answers := some key, strands := true } t
      ((t.withLookups rest).enter (.closed r.query))
  /-- An initiation of an unknown peer is authenticated, and the peer is not being looked up. -/
  | identify {t : Tables cap} {consumed : Noise.ConsumedInitiation}
    (hnone : ∀ r ∈ t.lookups, r.query = .byPublicKey consumed.sPubI → r.live = false) :
    Step now (.atDesk .quiet) t (t.enter (.authenticated consumed false))
  /-- The peer of an initiation is looked up, and the initiation waits for the answer. -/
  | seek {t : Tables cap} {r : InflightResolve} {e : PendingInitiation} {room : Bool}
    {initiations : Nat → Option PendingInitiation}
    (hkind : r.kind = .install .authenticatedInitiator) (hemit : r.emitted = false)
    (hkey : r.query = .byPublicKey e.consumed.sPubI) (hid : ∀ x ∈ t.lookups, x.id ≠ r.id)
    (hquery : ∀ x ∈ t.lookups, x.query = r.query → x.live = false ∧ x.deadline ≤ now ∧
      ∃ key, r.query = .byPublicKey key)
    (hlimit : t.lookups.card < t.config.maxInflightResolves) (hd : t.Ahead now r.deadline)
    (hown : e.resolveId = r.id) (hpark : Parked t.initiations e initiations)
    (hroom : room = true → ∃ n, initiations n = some e) :
    Step now (.atDesk .quiet) t
      ({ t.withLookups (r ::ₘ t.lookups) with initiations }.enter (.sought r.id e.consumed room))
  /-- An initiation of an unknown peer is authenticated, and waits for the lookup of the peer. -/
  | hold {t : Tables cap} {e : PendingInitiation} {r : InflightResolve}
    {initiations : Nat → Option PendingInitiation} (hr : r ∈ t.lookups) (hid : r.id = e.resolveId)
    (hkind : r.kind = .install .authenticatedInitiator)
    (hquery : r.query = .byPublicKey e.consumed.sPubI)
    (hpark : Parked t.initiations e initiations) :
    Step now (.atDesk .quiet) t ({ t with initiations }.enter (.authenticated e.consumed false))
  /-- A peer is to be reconciled, or earlier than it was to be. -/
  | owe {t : Tables cap} {o : PendingReconcile} {rest : Multiset PendingReconcile}
    (h : t.owed = rest ∨ ∃ x, x.publicKey = o.publicKey ∧ t.owed = x ::ₘ rest)
    (hd : t.Ahead now o.due) : Step now (.atDesk .quiet) t (t.withOwed (o ::ₘ rest))
  | discharge {t : Tables cap} {o : PendingReconcile} {rest : Multiset PendingReconcile}
    {answers : Option Key} (h : t.owed = o ::ₘ rest)
    (hwhy : answers = some o.publicKey ∨
      ∃ r ∈ t.lookups, r.kind = .reconcile ∧ r.query = .byPublicKey o.publicKey) :
    Step now { desk := true, answers } t (t.withOwed rest)
  /-- The sink takes a lookup. -/
  | offer {t : Tables cap} {r : InflightResolve} {rest : Multiset InflightResolve}
    (h : t.lookups = r ::ₘ rest) (hemit : r.emitted = false) :
    Step now (.atDesk .quiet) t ((t.withLookups ({ r with emitted := true } ::ₘ rest)).enter
      (.resolve ⟨r.id, r.query⟩ true))
  /-- A datagram is sealed under a session. -/
  | sealed {t : Tables cap} {s : Nat} {sess : Session cap.replayWords} {record : Seal}
    (hs : t.slot s = .established sess) (hsend : sess.canSend now = true)
    (hserial : record.serial = sess.serial) (hcounter : record.counter = sess.nSend)
    (hconf : record.confirmed = sess.confirmed)
    (hage : record.age = saturatingSince now sess.created) (hseal : record.CarriesCounter) :
    Step now .traffic t ((t.setSlot s (.established { sess with nSend := sess.nSend + 1 })).mark
      (.sealed record))
  /-- A datagram is authenticated under a session, and it is no replay. -/
  | accept {t : Tables cap} {s counter : Nat} {sess : Session cap.replayWords}
    {replay : ReplayWindow cap.replayWords} (hs : t.slot s = .established sess)
    (hfresh : sess.replay.checkAndUpdate counter = (true, replay)) :
    Step now .traffic t ((t.setSlot s (.established { sess with replay })).mark
      (.accepted sess.serial counter))
  | reject {t : Tables cap} {s counter : Nat} {sess : Session cap.replayWords}
    {replay : ReplayWindow cap.replayWords} (hs : t.slot s = .established sess)
    (hstale : sess.replay.checkAndUpdate counter = (false, replay)) :
    Step now .traffic t (t.setSlot s (.established { sess with replay }))
  /-- A packet is delivered that was accepted and not delivered before. -/
  | deliver {t : Tables cap} {serial counter : Nat} {key : Key} {endpoint : Option SocketAddr}
    {packet : List UInt8} (hnot : (serial, counter) ∉ deliveries t.marks)
    (hacc : counter ∈ acceptsOf serial t.marks) :
    Step now { rank := 1, delivers := true } t
      (t.mark (.innerPacket serial counter key endpoint packet))
  /-- A relayed send failed after the session had sealed `n` datagrams. -/
  | relayFailed {t : Tables cap} {serial n : Nat}
    (h : Crypto.SealsDatagrams → (sealsOf serial t.marks).length = n) :
    Step now .traffic t (t.mark (.relayFailed serial n))
  | flows {t : Tables cap} {firewall : Firewall cap.maxPeers}
    (h : firewall.Within t.Installed) : Step now .flow t { t with firewall }
  /-- Routes are used, none is added or removed. -/
  | use {t : Tables cap} {routes : RouteCache cap.maxRoutes} (hsound : RoutesSound routes)
    (h : ∀ i, (routes.entry i).map (fun e => (e.cidr, e.peer, e.pinned)) =
      (t.routes.entry i).map fun e => (e.cidr, e.peer, e.pinned)) :
    Step now .flow t { t with routes }
  /-- The record of a peer is replaced, apart from its route. -/
  | refresh {t : Tables cap} {p : Nat} {m : Member} {policy : InboundPolicy}
    {relay : Option Key} {interval persistentKeepaliveDue : Option Nat} (hp : t.peer p = some m)
    (hpinned : m.pinned = false) (hinterval : interval ≠ some 0)
    (hpk : t.Reset now m.sessions.persistentKeepaliveDue persistentKeepaliveDue)
    (hkeep : (interval = m.interval ∧
        persistentKeepaliveDue = m.sessions.persistentKeepaliveDue) ∨
      persistentKeepaliveDue.isSome = interval.isSome) :
    Step now .admin t (t.setPeer p { m with
      policy, relay, interval, sessions := { m.sessions with persistentKeepaliveDue } })
  /-- The route of a peer is put in the place of the one it has, if it has one. That of a pinned
  peer has the address it is configured with. -/
  | route {t : Tables cap} {p i : Nat} {m : Member} {e : Entry}
    {routes : RouteCache cap.maxRoutes} (hp : t.peer p = some m) (hsound : RoutesSound routes)
    (hentry : ∀ j, routes.entry j =
      update (fun j => (t.routes.entry j).filter fun e => e.peer ≠ p) i (some e) j)
    (hi : (t.routes.entry i).all fun e => e.peer = p) (hpeer : e.peer = p)
    (hpinned : e.pinned = m.pinned) (hfixed : m.pinned = true → e.cidr = m.address) :
    Step now .admin t { t.setPeer p { m with address := e.cidr } with routes }
  /-- A peer that nothing else refers to is removed, with its routes. -/
  | evict {t : Tables cap} {p : Nat} {m : Member} {routes : RouteCache cap.maxRoutes}
    (hp : t.peer p = some m) (hpinned : m.pinned = false)
    (hslots : m.sessions.slots = [none, none, none, none])
    (hwait : ∀ q ∈ t.parked, q.wait ≠ .handshake p)
    (hflows : t.firewall.Within fun q => t.Installed q ∧ q ≠ p) (hsound : RoutesSound routes)
    (hentry : ∀ j, routes.entry j = (t.routes.entry j).filter fun e => e.peer ≠ p) :
    Step now .admin t ({ t with
      peer := update t.peer p none
      find := update t.find m.key none
      routes }.release m.key)
  | release {t : Tables cap} (key : Key) : Step now .admin t (t.release key)
  /-- The budget for making room is used up. -/
  | refuse {t : Tables cap} {budget : IntervalBudget} (h : t.budget.tryTake now = (false, budget)) :
    Step now .admin t { t with budget }
  /-- The budget is charged for an idle peer that is to make room. -/
  | displace {t : Tables cap} {p : Nat} {m : Member} {e : PeerEntry} {budget : IntervalBudget}
    (h : t.budget.tryTake now = (true, budget)) (hp : t.peer p = some m)
    (hpinned : m.pinned = false) (hslots : m.sessions.slots = [none, none, none, none])
    (hkey : e.publicKey = m.key) (hkind : e.isPinned = m.pinned)
      (hsessions : e.sessions = m.sessions)
    (hidle : t.config.dynamicPeerMinIdle ≤ saturatingSince now e.lastActivity) :
    Step now .admin t { t with
      budget
      rooms := .displaced e now :: t.rooms }
  | install {t : Tables cap} {p : Nat} {m : Member} (hp : t.peer p = none)
    (hkey : t.find m.key = none) (hinterval : m.interval ≠ some 0)
    (hsessions : m.sessions = { PeerSessions.default with
      persistentKeepaliveDue := m.sessions.persistentKeepaliveDue })
    (hpk : t.Reset now none m.sessions.persistentKeepaliveDue)
    (hkeep : m.sessions.persistentKeepaliveDue.isSome = m.interval.isSome) :
    Step now .install t ({ t.setPeer p m with find := update t.find m.key (some p) }.note
      (.installed p))
  /-- What was released is reported. -/
  | flush {t : Tables cap} : Step now .flush t { t with
      released := []
      reports := t.released.map Event.peerEvicted ++ t.reports }

/-- Any number of steps that reach no further than `scope`. -/
def Steps (now : Nat) (scope : Scope) : Tables cap → Tables cap → Prop :=
  Relation.ReflTransGen fun t t' => ∃ k : Scope, k ≤ scope ∧ Step now k t t'

end Tables

end Microtun
