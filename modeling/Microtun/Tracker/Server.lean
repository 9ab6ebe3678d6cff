import Microtun.Tracker.Rpc

/-! The Tracker serving its connections, `serve_connection` in `rpc.rs`: for each connection a task
that reads and answers and one that writes invalidations, beside the task that publishes.  Each
event is what one task does under the locks that it takes at once. -/

namespace Microtun.Tracker

open Api

/-- A request that a connection received, and how many states were published before it. -/
structure Request where
  id : UInt32
  method : String
  message : List UInt8
  since : Nat

/-- What a request was charged against. -/
structure Charge where
  config : Built
  usage : HashMap Key PeerUsage
  now : Nat

/-- Where the task is that reads. -/
inductive Reader where
  | waiting
  | requested (r : Request)
  /-- The configuration is read, the usage not yet locked. -/
  | charging (r : Request) (config : Built)
  | charged (r : Request) (charge : Charge)
  | notified (publicKey : String)
  | unwatching (publicKey : Key)
  | replying (text : List UInt8)
  /-- About to report a message that ends the session. -/
  | failing (text : List UInt8)
  | ended

/-- What the reader does with a report that ends the session. -/
def Reader.fail (C : Codec) (text : String) : Reader :=
  match writeError C recordMessageLen none Codes.badMessage text with
  | some text => .failing text
  | none => .ended

/-- What the reader does with a message. -/
def Reader.heard (C : Codec) (since : Nat) (message : List UInt8) : Reader :=
  match C.envelope message with
  | none => .fail C "malformed message"
  | some ⟨some id, some method⟩ => .requested ⟨id, method, message, since⟩
  | some ⟨none, some method⟩ =>
    if method ≠ methodUnwatch then .waiting
    else match parseParams (ε := Empty) (C.keyParams message) with
      | .error _ => .waiting
      | .ok publicKey => .notified publicKey
  | some ⟨some _, none⟩ => .waiting
  | some ⟨none, none⟩ => .fail C "not a Peers API message"

/-- What the reader does with what is to be written for a request, if anything is. -/
def Reader.write : Reply → Reader
  | some text => .replying text
  | none => .ended

/-- Where the task is that writes invalidations. -/
inductive Notifier where
  | waiting
  | taken (change : RegistryChange)
  | sending (text : List UInt8)

structure Serving where
  subscription : UInt64
  reader : Reader
  notifier : Notifier
  /-- The messages written that the client has not read, the next one first. -/
  out : List (List UInt8)

inductive Connection where
  /-- The caller is admitted and has no permit yet. -/
  | greeting (caller : Key)
  | upgrading (caller : Key)
  | serving (caller : Key) (v : Serving)

/-- A request that was answered, when `seen` was published. -/
structure Answered where
  caller : Key
  request : Request
  charge : Charge
  seen : PublishedRegistry
  reply : Reply

structure Server where
  app : AppState
  /-- The changes of the last publication that are not dispatched yet; its lock is held till then.
  -/
  publishing : List RegistryChange
  connections : HashMap Nat Connection
  /-- The states published, in order. -/
  history : List PublishedRegistry
  /-- The requests answered, the last one first. -/
  answered : List Answered

namespace Server

variable (C : Codec) (T : Texts) (s : Server)

/-- The task of the connection `c` goes on. -/
def set (c : Nat) (caller : Key) (v : Serving) : Server :=
  { s with connections := s.connections.insert c (.serving caller v) }

def publish (r : PublishedRegistry × List RegistryChange) : Option Server :=
  if s.publishing = [] then some { s with
    app := { s.app with published := r.1 }
    publishing := r.2
    history := s.history ++ [r.1] }
  else none

def dispatch : Option Server :=
  match s.publishing with
  | [] => none
  | change :: rest => some { s with
      publishing := rest
      app := { s.app with keyed := s.app.keyed.dispatchPeer change } }

/-- The handshake is read; only a configured caller gets further. -/
def accept (c : Nat) (caller : Key) : Option Server :=
  if s.publishing = [] ∧ c ∉ s.connections then
    match s.app.published.lookupKey caller with
    | none => some { s with app := s.app.refuse }
    | some _ => some { s with connections := s.connections.insert c (.greeting caller) }
  else none

/-- The configuration and the usage are read at once here, and apart in `Accounting`. -/
def permit (c : Nat) (now : Nat) : Option Server :=
  match s.publishing, s.connections.lookup c with
  | [], some (.greeting caller) =>
    match s.app.openConnection caller now with
    | (true, app) => some { s with
        app, connections := s.connections.insert c (.upgrading caller) }
    | (false, app) => some { s with app, connections := s.connections.erase c }
  | _, _ => none

def subscribe (c : Nat) : Option Server :=
  match s.connections.lookup c with
  | some (.upgrading caller) =>
    let (subscription, keyed) := s.app.keyed.subscribe caller
    some ({ s with app := { s.app with keyed } }.set c caller ⟨subscription, .waiting, .waiting,
      []⟩)
  | _ => none

/-- The connection ends, for whatever reason. -/
def close (c : Nat) : Option Server :=
  match s.publishing, s.connections.lookup c with
  | [], some conn => some { s with
      app := match conn with
        | .greeting _ => s.app
        | .upgrading caller => s.app.closeConnection caller
        | .serving caller v =>
          { s.app with keyed := s.app.keyed.remove v.subscription }.closeConnection caller
      connections := s.connections.erase c }
  | _, _ => none

/-- A turn of `poll`: a message is there. -/
def receive (c : Nat) (message : List UInt8) : Option Server :=
  match s.connections.lookup c with
  | some (.serving caller v) =>
    match v.reader with
    | .waiting =>
      some (s.set c caller { v with reader := .heard C (s.history.length - 1) message })
    | _ => none
  | _ => none

/-- The reader takes a snapshot of the configuration. -/
def readConfig (c : Nat) : Option Server :=
  match s.publishing, s.connections.lookup c with
  | [], some (.serving caller v) =>
    match v.reader with
    | .requested r => some (s.set c caller
      { v with reader := .charging r s.app.published.registry })
    | .notified publicKey =>
      match s.app.admits s.app.published.registry caller with
      | (false, app) => some ({ s with app }.set c caller { v with reader := .waiting })
      | (true, app) =>
        match decodeKey publicKey with
        | none => some ({ s with app }.set c caller { v with reader := .waiting })
        | some key => some ({ s with app }.set c caller { v with reader := .unwatching key })
    | _ => none
  | _, _ => none

def charge (c : Nat) (now : Nat) : Option Server :=
  match s.connections.lookup c with
  | some (.serving caller v) =>
    match v.reader with
    | .charging r config =>
      let charge : Charge := ⟨config, s.app.usage, now⟩
      match s.app.allowRequest config caller now with
      | (true, app) => some ({ s with app }.set c caller { v with reader := .charged r charge })
      | (false, app) =>
        let reply := AppState.written C recordMessageLen r.id
          (writeError C recordMessageLen (some r.id) Codes.rateLimited
            "request rate limit exceeded")
        some ({ s with
          app
          answered := ⟨caller, r, charge, s.app.published, reply⟩ :: s.answered }.set c caller
            { v with reader := .write reply })
    | _ => none
  | _ => none

/-- The lookup for a request, under the read lock. -/
def answer (c : Nat) : Option Server :=
  match s.publishing, s.connections.lookup c with
  | [], some (.serving caller v) =>
    match v.reader with
    | .charged r charge =>
      match s.app.handleRequest T caller v.subscription r.method r.message
          ⟨C, recordMessageLen, r.id⟩ with
      | .ok (reply, app) =>
        let reply := AppState.written C recordMessageLen r.id reply
        some ({ s with
          app
          answered := ⟨caller, r, charge, s.app.published, reply⟩ :: s.answered }.set c caller
            { v with reader := .write reply })
      | .error _ => some ({ s with
          answered := ⟨caller, r, charge, s.app.published, none⟩ :: s.answered }.set c caller
            { v with reader := .ended })
    | _ => none
  | _, _ => none

def unwatch (c : Nat) : Option Server :=
  match s.connections.lookup c with
  | some (.serving caller v) =>
    match v.reader with
    | .unwatching key =>
      some ({ s with app := { s.app with
        keyed := s.app.keyed.unwatch v.subscription key } }.set c caller
          { v with reader := .waiting })
    | _ => none
  | _ => none

/-- The reader writes what it has to write. -/
def reply (c : Nat) : Option Server :=
  match s.connections.lookup c with
  | some (.serving caller v) =>
    match v.reader with
    | .replying text => some (s.set c caller { v with reader := .waiting, out := v.out ++ [text] })
    | .failing text => some (s.set c caller { v with reader := .ended, out := v.out ++ [text] })
    | _ => none
  | _ => none

/-- The notifier takes the pending change of a key. -/
def takeChange (c : Nat) (key : Key) : Option Server :=
  match s.connections.lookup c with
  | some (.serving caller v) =>
    match v.notifier, s.app.keyed.connections.lookup v.subscription with
    | .waiting, some d =>
      match d.queue.recv key with
      | (some change, _) =>
        some ({ s with app := { s.app with keyed := s.app.keyed.recv v.subscription key } }.set c
          caller { v with notifier := .taken change })
      | (none, _) => none
    | _, _ => none
  | _ => none

/-- The notification of a change, `send_peer_invalidation`. -/
def invalidation (change : RegistryChange) : Option (List UInt8) :=
  let method := match change.kind with
    | .changed => methodChanged
    | .removed => methodRemoved
  toSlice recordMessageLen (C.call ⟨none, method, some (.byKey (encodeKey change.publicKey))⟩)

/-- The notifier has a change; a caller that is no longer configured is not told of it. -/
def checkCaller (c : Nat) : Option Server :=
  match s.publishing, s.connections.lookup c with
  | [], some (.serving caller v) =>
    match v.notifier with
    | .taken change =>
      match s.app.published.lookupKey caller, invalidation C change with
      | some _, some text => some (s.set c caller { v with notifier := .sending text })
      | _, _ => s.close c
    | _ => none
  | _, _ => none

def notify (c : Nat) : Option Server :=
  match s.connections.lookup c with
  | some (.serving caller v) =>
    match v.notifier with
    | .sending text => some (s.set c caller { v with notifier := .waiting, out := v.out ++ [text] })
    | _ => none
  | _ => none

/-- The client reads a message. -/
def read (c : Nat) : Option Server :=
  match s.connections.lookup c with
  | some (.serving caller v) =>
    match v.out with
    | _ :: out => some (s.set c caller { v with out })
    | [] => none
  | _ => none

inductive Event where
  | replace (registry : Built) (order : List Key)
  | observeEndpoint (publicKey : Key) (endpoint : SocketAddr)
  | dispatch
  | accept (c : Nat) (caller : Key)
  | permit (c : Nat) (now : Nat)
  | subscribe (c : Nat)
  | close (c : Nat)
  | receive (c : Nat) (message : List UInt8)
  | readConfig (c : Nat)
  | charge (c : Nat) (now : Nat)
  | answer (c : Nat)
  | unwatch (c : Nat)
  | reply (c : Nat)
  | takeChange (c : Nat) (key : Key)
  | checkCaller (c : Nat)
  | notify (c : Nat)
  | read (c : Nat)

def step : Event → Option Server
  | .replace registry order =>
    if s.app.published.Lists registry order then s.publish (s.app.published.replace registry order)
    else none
  | .observeEndpoint publicKey endpoint =>
    s.publish (s.app.published.observeEndpoint publicKey endpoint)
  | .dispatch => s.dispatch
  | .accept c caller => s.accept c caller
  | .permit c now => s.permit c now
  | .subscribe c => s.subscribe c
  | .close c => s.close c
  | .receive c message => s.receive C c message
  | .readConfig c => s.readConfig c
  | .charge c now => s.charge C c now
  | .answer c => s.answer C T c
  | .unwatch c => s.unwatch c
  | .reply c => s.reply c
  | .takeChange c key => s.takeChange c key
  | .checkCaller c => s.checkCaller C c
  | .notify c => s.notify c
  | .read c => s.read c

/-- The Tracker starts with a configuration and no connections. -/
def system : System Server Event where
  init s := s.app.keyed = .empty ∧ s.app.usage = ∅ ∧ s.publishing = [] ∧ s.connections = ∅ ∧
    s.history = [s.app.published] ∧ s.answered = []
  step := step C T

end Server

end Microtun.Tracker
