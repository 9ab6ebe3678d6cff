import Microtun.Lib.System
import Microtun.Tracker.Registry

/-! The resolver of the Tracker's own tunnel, `resolver.rs`: a task that answers from the published
registry and refreshes the peers its core holds when they change. -/

namespace Microtun.Tracker

/-- A record as the Tracker's own tunnel sees it.  A peer reached through the Tracker is reached
directly there. -/
def resolveRecord (record : PeerRecord) (endpoint : Option SocketAddr) (localPublicKey : Key) :
    ResolvedPeer :=
  let peer := record.resolvedWithEndpoint endpoint
  if peer.relay = some localPublicKey then { peer with relay := none } else peer

namespace PublishedRegistry

variable (p : PublishedRegistry) (localPublicKey : Key)

def resolved : Option PeerRecord → ResolveOutcome
  | some record => .found (resolveRecord record (p.effectiveEndpoint record) localPublicKey)
  | none => .notFound

/-- The outcome that `send_update` sends. -/
def projection (publicKey : Key) : ResolveOutcome :=
  p.resolved localPublicKey (p.lookupKey publicKey)

def resolveShared : ResolveQuery → Except Panic ResolveOutcome
  | .byPublicKey publicKey => .ok (p.resolved localPublicKey (p.lookupKey publicKey))
  | .byDstAddress address => do return p.resolved localPublicKey (← p.lookupAddress address)

end PublishedRegistry

/-- How many changes the broadcast channel keeps for a receiver. -/
def changesCapacity : Nat := 256

/-- The receiver of a broadcast channel. -/
structure Changes where
  queue : List RegistryChange
  lagged : Bool
deriving DecidableEq

/-- A receiver that is full loses its oldest message and will first see that it lagged. -/
def Changes.send (c : Changes) (change : RegistryChange) : Changes :=
  if c.queue.length < changesCapacity then { c with queue := c.queue ++ [change] }
  else ⟨c.queue.tail ++ [change], true⟩

/-- An event with the request it answers. -/
inductive Sent where
  | resolved (request : ResolveRequest) (response : ResolveResponse)
  | updated (update : PeerUpdate)
deriving DecidableEq

namespace Sent

def outcome : Sent → ResolveOutcome
  | resolved _ response => response.outcome
  | updated update => update.outcome

/-- The key an event is about, if it is about one. -/
def key : Sent → Option Key
  | resolved request response => match response.outcome with
    | .found info => some info.publicKey
    | _ => match request.query with
      | .byPublicKey key => some key
      | .byDstAddress _ => none
  | updated update => some update.publicKey

end Sent

/-- Where the task is. -/
inductive Phase where
  /-- At the `select!`. -/
  | waiting
  /-- Past the lookup for a command. -/
  | looked (request : ResolveRequest) (outcome : ResolveOutcome)
  /-- Keys of held peers to send updates for. -/
  | updating (keys : List Key)
  /-- Waiting for room in the event channel. -/
  | sending (event : Sent) (later : List Key)
  | returned
deriving DecidableEq

structure Local where
  published : PublishedRegistry
  localPublicKey : Key
  changes : Changes
  commands : List ResolverCommand
  held : HashSet Key
  phase : Phase
  /-- The events sent, the last one first. -/
  sent : List Sent

namespace Local

def publish (w : Local) (r : PublishedRegistry × List RegistryChange) : Local :=
  { w with published := r.1, changes := r.2.foldl Changes.send w.changes }

def takeCommand (w : Local) : Option Local :=
  match w.phase, w.commands with
  | .waiting, .resolve request :: rest =>
    match w.published.resolveShared w.localPublicKey request.query with
    | .ok outcome => some { w with phase := .looked request outcome, commands := rest }
    | .error _ => some { w with phase := .returned, commands := rest }
  | .waiting, .forget publicKey :: rest =>
    some { w with held := w.held.erase publicKey, commands := rest }
  | _, _ => none

def takeChange (w : Local) : Option Local :=
  match w.phase with
  | .waiting =>
    if w.changes.lagged then
      some { w with changes := { w.changes with lagged := false }, phase := .updating w.held.keys }
    else match w.changes.queue with
      | [] => none
      | change :: rest => some { w with
          changes := { w.changes with queue := rest }
          phase := if change.publicKey ∈ w.held then .updating [change.publicKey] else .waiting }
  | _ => none

/-- The task goes on with what it is doing. -/
def proceed (w : Local) : Option Local :=
  match w.phase with
  | .looked request outcome => some { w with
      held := match outcome with
        | .found peer => w.held.insert peer.publicKey ()
        | _ => w.held
      phase := .sending (.resolved request (request.complete outcome)) [] }
  | .updating [] => some { w with phase := .waiting }
  | .updating (key :: rest) => some { w with
      phase := .sending (.updated ⟨key, w.published.projection w.localPublicKey key⟩) rest }
  | .sending event later => some { w with
      sent := event :: w.sent
      phase := if later = [] then .waiting else .updating later }
  | _ => none

inductive Event where
  | command (c : ResolverCommand)
  | replace (registry : Built) (keys : List Key)
  | observeEndpoint (publicKey : Key) (endpoint : SocketAddr)
  | takeCommand
  | takeChange
  | proceed
  /-- A channel to the core is closed. -/
  | closed

def step (w : Local) : Event → Option Local
  | .command c => some { w with commands := w.commands ++ [c] }
  | .replace registry keys =>
    if w.published.Lists registry keys then some (w.publish (w.published.replace registry keys))
    else none
  | .observeEndpoint publicKey endpoint =>
    some (w.publish (w.published.observeEndpoint publicKey endpoint))
  | .takeCommand => w.takeCommand
  | .takeChange => w.takeChange
  | .proceed => w.proceed
  | .closed => some { w with phase := .returned }

/-- The task starts with an empty held set and subscribed to changes. -/
def system : System Local Event where
  init w := w.changes = ⟨[], false⟩ ∧ w.commands = [] ∧ w.held = ∅ ∧ w.phase = .waiting ∧
    w.sent = []
  step := step

/-- The last outcome sent for a key. -/
def lastOutcome (w : Local) (key : Key) : Option ResolveOutcome :=
  (w.sent.find? fun e => e.key = some key).map Sent.outcome

end Local

/-! ### What is still to be told -/

/-- A change of the key is in the receiver, or the receiver lost some. -/
def Changes.Holds (c : Changes) (key : Key) : Prop :=
  c.lagged = true ∨ ∃ change ∈ c.queue, change.publicKey = key

theorem Changes.Holds.send {c : Changes} {key : Key} (change : RegistryChange)
    (h : c.Holds key ∨ change.publicKey = key) : (c.send change).Holds key := by
  unfold Changes.send
  by_cases hroom : c.queue.length < changesCapacity
  · rw [if_pos hroom]
    rcases h with (hlag | ⟨x, hx, hk⟩) | hk
    · exact .inl hlag
    · exact .inr ⟨x, List.mem_append_left _ hx, hk⟩
    · exact .inr ⟨change, List.mem_append_right _ (List.mem_singleton_self _), hk⟩
  · rw [if_neg hroom]
    exact .inl rfl

theorem Changes.Holds.foldl {c : Changes} {key : Key} (changes : List RegistryChange)
    (h : c.Holds key ∨ ∃ change ∈ changes, change.publicKey = key) :
    (changes.foldl Changes.send c).Holds key := by
  induction changes generalizing c with
  | nil =>
    cases h with
    | inl h => exact h
    | inr h =>
      obtain ⟨_, hmem, -⟩ := h
      exact nomatch hmem
  | cons change changes ih =>
    refine ih ?_
    rcases h with h | ⟨x, hx, hk⟩
    · exact .inl (.send change (.inl h))
    · cases List.mem_cons.mp hx with
      | inl heq => exact .inl (.send change (.inr (heq ▸ hk)))
      | inr hx => exact .inr ⟨x, hx, hk⟩

namespace PublishedRegistry

variable {p p' : PublishedRegistry} {localPublicKey : Key}

theorem projection_congr {k : Key} (h : p'.served k = p.served k) :
    p'.projection localPublicKey k = p.projection localPublicKey k := by
  have hof : ∀ p : PublishedRegistry, p.projection localPublicKey k =
      match p.served k with
      | some peer =>
        .found (if peer.relay = some localPublicKey then { peer with relay := none } else peer)
      | none => .notFound := by
    intro p
    unfold projection served
    cases p.lookupKey k <;> rfl
  rw [hof, hof, h]

/-- A lookup for the core answers, and a record it finds is the one its key has. -/
theorem resolveShared_spec (p : PublishedRegistry) (localPublicKey : Key) (query : ResolveQuery) :
    ∃ outcome, p.resolveShared localPublicKey query = .ok outcome ∧
      (∀ info, outcome = .found info → outcome = p.projection localPublicKey info.publicKey) ∧
      (outcome ≠ .failed) ∧
      ∀ k, query = .byPublicKey k → outcome = p.projection localPublicKey k := by
  have hkey : ∀ record : PeerRecord, ∀ info,
      p.resolved localPublicKey (some record) = .found info →
        info.publicKey = record.publicKey := by
    intro record info h
    rw [← ResolveOutcome.found.inj h]
    unfold resolveRecord
    by_cases hrelay : (record.resolvedWithEndpoint (p.effectiveEndpoint record)).relay =
        some localPublicKey
    · rw [if_pos hrelay]
      rfl
    · rw [if_neg hrelay]
      rfl
  have hfound : ∀ found : Option PeerRecord,
      (∀ record, found = some record → p.lookupKey record.publicKey = some record) →
      ∀ info, p.resolved localPublicKey found = .found info →
        p.resolved localPublicKey found = p.projection localPublicKey info.publicKey := by
    intro found hlook info h
    cases found with
    | none => exact nomatch h
    | some record =>
      unfold projection
      rw [hkey record info h, hlook record rfl]
  have hok : ∀ found : Option PeerRecord, p.resolved localPublicKey found ≠ .failed := by
    intro found
    cases found <;> exact nofun
  cases query with
  | byPublicKey k =>
    refine ⟨_, rfl, hfound _ fun record hrec => ?_, hok _, ?_⟩
    · rw [lookupKey_publicKey hrec]
      exact hrec
    · rintro k' ⟨⟩
      rfl
  | byDstAddress address =>
    obtain ⟨found, hrun, hlook⟩ := lookupAddress_lookupKey (p := p) address
    refine ⟨p.resolved localPublicKey found, ?_, hfound found hlook, hok _, fun k h => nomatch h⟩
    show (do return p.resolved localPublicKey (← p.lookupAddress address) : Except Panic _) = _
    rw [hrun]
    rfl

end PublishedRegistry

namespace Local

/-- The outcome the task is about to send, with its key. -/
def inFlight (w : Local) : Option (Key × ResolveOutcome) :=
  match w.phase with
  | .looked request outcome =>
    (Sent.resolved request (request.complete outcome)).key.map fun key => (key, outcome)
  | .sending event _ => event.key.map fun key => (key, event.outcome)
  | _ => none

/-- The keys the task will look up again. -/
def todo (w : Local) : List Key :=
  match w.phase with
  | .updating keys => keys
  | .sending _ later => later
  | _ => []

/-- The last outcome for the key is the one in force, or the task will tell it again. -/
def Told (w : Local) (key : Key) : Prop :=
  w.lastOutcome key = some (w.published.projection w.localPublicKey key) ∨ w.changes.Holds key ∨
    key ∈ w.todo ∨ w.inFlight = some (key, w.published.projection w.localPublicKey key)

/-- Every held key is told, and what is about to be sent is in force unless a change waits. -/
structure Fresh (w : Local) : Prop where
  told : w.phase ≠ .returned → ∀ key ∈ w.held, w.Told key
  inFlight : ∀ key outcome, w.inFlight = some (key, outcome) →
    outcome = w.published.projection w.localPublicKey key ∨ w.changes.Holds key

variable {w w' : Local}

theorem Fresh.publish (h : w.Fresh) {r : PublishedRegistry × List RegistryChange}
    (hr : ∀ k, r.1.served k ≠ w.published.served k → ∃ c ∈ r.2, c.publicKey = k) :
    (w.publish r).Fresh := by
  have hkey : ∀ k, r.1.projection w.localPublicKey k = w.published.projection w.localPublicKey k ∨
      (w.publish r).changes.Holds k := by
    intro k
    by_cases hserved : r.1.served k = w.published.served k
    · exact .inl (PublishedRegistry.projection_congr hserved)
    · exact .inr (.foldl r.2 (.inr (hr k hserved)))
  have hkeep : ∀ k, w.changes.Holds k → (w.publish r).changes.Holds k :=
    fun k hk => .foldl r.2 (.inl hk)
  constructor
  · intro hphase key hheld
    cases hkey key with
    | inr hholds => exact .inr (.inl hholds)
    | inl hsame =>
      rcases h.told hphase key hheld with hlast | hholds | htodo | hfly
      · left
        show w.lastOutcome key = some (r.1.projection w.localPublicKey key)
        rw [hsame]
        exact hlast
      · exact .inr (.inl (hkeep key hholds))
      · exact .inr (.inr (.inl htodo))
      · right; right; right
        show w.inFlight = some (key, r.1.projection w.localPublicKey key)
        rw [hsame]
        exact hfly
  · intro key outcome hfly
    cases hkey key with
    | inr hholds => exact .inr hholds
    | inl hsame =>
      cases h.inFlight key outcome hfly with
      | inl heq => exact .inl (heq.trans hsame.symm)
      | inr hholds => exact .inr (hkeep key hholds)

theorem Fresh.takeCommand (h : w.Fresh) (hstep : w.takeCommand = some w') : w'.Fresh := by
  unfold Local.takeCommand at hstep
  cases hphase : w.phase with
  | waiting =>
    have hfly : w.inFlight = none := by
      unfold Local.inFlight
      rw [hphase]
    have hidle : ∀ key ∈ w.held,
        w.lastOutcome key = some (w.published.projection w.localPublicKey key) ∨
          w.changes.Holds key := by
      intro key hheld
      rcases h.told (by rw [hphase]; exact nofun) key hheld with hlast | hholds | htodo | hin
      · exact .inl hlast
      · exact .inr hholds
      · unfold Local.todo at htodo
        rw [hphase] at htodo
        exact nomatch htodo
      · rw [hfly] at hin
        exact nomatch hin
    cases hcommands : w.commands with
    | nil => simp [hphase, hcommands] at hstep
    | cons c rest =>
      cases c with
      | forget publicKey =>
        simp only [hphase, hcommands] at hstep
        rw [← Option.some.inj hstep]
        refine ⟨fun _ key hheld => ?_, fun key outcome hin => ?_⟩
        · cases hidle key (AList.mem_erase.mp hheld).2 with
          | inl hlast => exact .inl hlast
          | inr hholds => exact .inr (.inl hholds)
        · unfold Local.inFlight at hin
          simp only at hin
          exact nomatch hin
      | resolve request =>
        obtain ⟨outcome, hrun, hfound, hok, hquery⟩ :=
          w.published.resolveShared_spec w.localPublicKey request.query
        simp only [hphase, hcommands, hrun] at hstep
        rw [← Option.some.inj hstep]
        refine ⟨fun _ key hheld => ?_, fun key out hin => ?_⟩
        · cases hidle key hheld with
          | inl hlast => exact .inl hlast
          | inr hholds => exact .inr (.inl hholds)
        · left
          unfold Local.inFlight at hin
          simp only at hin
          obtain ⟨k, hk, hpair⟩ := Option.map_eq_some_iff.mp hin
          obtain ⟨rfl, rfl⟩ := Prod.mk.inj hpair
          unfold Sent.key at hk
          cases hout : outcome with
          | found info =>
            simp only [ResolveRequest.complete, hout] at hk
            rw [← Option.some.inj hk, ← hout]
            exact hfound info hout
          | failed => exact absurd hout hok
          | notFound =>
            simp only [ResolveRequest.complete, hout] at hk
            cases hq : request.query with
            | byDstAddress address =>
              rw [hq] at hk
              exact nomatch hk
            | byPublicKey k' =>
              rw [hq] at hk
              obtain rfl : k' = k := Option.some.inj hk
              rw [← hout]
              exact hquery k' hq
  | _ => simp [hphase] at hstep

theorem Fresh.takeChange (h : w.Fresh) (hstep : w.takeChange = some w') : w'.Fresh := by
  unfold Local.takeChange at hstep
  cases hphase : w.phase with
  | waiting =>
    have hfly : w.inFlight = none := by
      unfold Local.inFlight
      rw [hphase]
    simp only [hphase] at hstep
    by_cases hlag : w.changes.lagged = true
    · rw [if_pos hlag] at hstep
      rw [← Option.some.inj hstep]
      exact ⟨fun _ key hheld => .inr (.inr (.inl (AList.mem_keys.mp hheld))), fun _ _ hin =>
        nomatch hin⟩
    · rw [if_neg hlag] at hstep
      cases hqueue : w.changes.queue with
      | nil => simp [hqueue] at hstep
      | cons change rest =>
        simp only [hqueue] at hstep
        rw [← Option.some.inj hstep]
        constructor
        · intro _ key hheld
          by_cases hkey : change.publicKey = key
          · subst hkey
            have hheld' : change.publicKey ∈ w.held := hheld
            right; right; left
            unfold Local.todo
            simp [hheld']
          · rcases h.told (by rw [hphase]; exact nofun) key hheld with hlast | hholds | htodo | hin
            · exact .inl hlast
            · right; left
              rcases hholds with hl | ⟨x, hx, hk⟩
              · exact .inl hl
              · rw [hqueue] at hx
                cases List.mem_cons.mp hx with
                | inl heq => exact absurd (heq ▸ hk) hkey
                | inr hx => exact .inr ⟨x, hx, hk⟩
            · unfold Local.todo at htodo
              rw [hphase] at htodo
              exact nomatch htodo
            · rw [hfly] at hin
              exact nomatch hin
        · intro key outcome hin
          unfold Local.inFlight at hin
          by_cases hheld : change.publicKey ∈ w.held <;> simp [hheld] at hin
  | _ => simp [hphase] at hstep

theorem Fresh.proceed (h : w.Fresh) (hstep : w.proceed = some w') : w'.Fresh := by
  unfold Local.proceed at hstep
  cases hphase : w.phase with
  | waiting => simp [hphase] at hstep
  | returned => simp [hphase] at hstep
  | looked request outcome =>
    simp only [hphase] at hstep
    have hfly : w.inFlight =
        (Sent.resolved request (request.complete outcome)).key.map fun key => (key, outcome) := by
      unfold Local.inFlight
      rw [hphase]
    have htodo : w.todo = [] := by
      unfold Local.todo
      rw [hphase]
    rw [← Option.some.inj hstep]
    constructor
    · intro _ key hheld
      have hold : key ∈ w.held ∨ ∃ peer, outcome = .found peer ∧ key = peer.publicKey := by
        cases outcome with
        | found peer =>
          cases (AList.mem_insert _).mp hheld with
          | inl heq => exact .inr ⟨peer, rfl, heq⟩
          | inr hold => exact .inl hold
        | notFound => exact .inl hheld
        | failed => exact .inl hheld
      cases hold with
      | inl hold =>
        rcases h.told (by rw [hphase]; exact nofun) key hold with hlast | hholds | hin | hin
        · exact .inl hlast
        · exact .inr (.inl hholds)
        · rw [htodo] at hin
          exact nomatch hin
        · right; right; right
          rw [hfly] at hin
          exact hin
      | inr hnew =>
        obtain ⟨peer, rfl, rfl⟩ := hnew
        have hin : w.inFlight = some (peer.publicKey, .found peer) := hfly
        cases h.inFlight _ _ hin with
        | inl heq =>
          right; right; right
          show some (peer.publicKey, ResolveOutcome.found peer) = some _
          rw [heq]
        | inr hholds => exact .inr (.inl hholds)
    · intro key out hin
      exact h.inFlight key out (hfly.trans hin)
  | updating keys =>
    cases keys with
    | nil =>
      simp only [hphase] at hstep
      rw [← Option.some.inj hstep]
      refine ⟨fun _ key hheld => ?_, fun _ _ hin => nomatch hin⟩
      rcases h.told (by rw [hphase]; exact nofun) key hheld with hlast | hholds | hin | hin
      · exact .inl hlast
      · exact .inr (.inl hholds)
      · unfold Local.todo at hin
        rw [hphase] at hin
        exact nomatch hin
      · unfold Local.inFlight at hin
        rw [hphase] at hin
        exact nomatch hin
    | cons k rest =>
      simp only [hphase] at hstep
      rw [← Option.some.inj hstep]
      constructor
      · intro _ key hheld
        by_cases hkey : key = k
        · exact .inr (.inr (.inr (by rw [hkey]; rfl)))
        · rcases h.told (by rw [hphase]; exact nofun) key hheld with hlast | hholds | hin | hin
          · exact .inl hlast
          · exact .inr (.inl hholds)
          · unfold Local.todo at hin
            rw [hphase] at hin
            exact .inr (.inr (.inl ((List.mem_cons.mp hin).resolve_left hkey)))
          · unfold Local.inFlight at hin
            rw [hphase] at hin
            exact nomatch hin
      · intro key outcome hin
        obtain ⟨hk, hout⟩ := Prod.mk.inj (Option.some.inj hin)
        left
        rw [← hk, ← hout]
        rfl
  | sending event later =>
    simp only [hphase] at hstep
    have hfly : w.inFlight = event.key.map fun key => (key, event.outcome) := by
      unfold Local.inFlight
      rw [hphase]
    have htodo : w.todo = later := by
      unfold Local.todo
      rw [hphase]
    rw [← Option.some.inj hstep]
    constructor
    · intro _ key hheld
      by_cases hkey : event.key = some key
      · have hin : w.inFlight = some (key, event.outcome) := by rw [hfly, hkey]; rfl
        cases h.inFlight _ _ hin with
        | inr hholds => exact .inr (.inl hholds)
        | inl heq =>
          left
          unfold Local.lastOutcome
          simp [hkey, heq]
      · have hlast' : ∀ o, w.lastOutcome key = some o →
            ((event :: w.sent).find? fun e => e.key = some key).map Sent.outcome = some o := by
          intro o ho
          rw [List.find?_cons_of_neg (by simpa using hkey)]
          exact ho
        rcases h.told (by rw [hphase]; exact nofun) key hheld with hlast | hholds | hin | hin
        · exact .inl (hlast' _ hlast)
        · exact .inr (.inl hholds)
        · right; right; left
          rw [htodo] at hin
          unfold Local.todo
          cases later with
          | nil => exact nomatch hin
          | cons k rest => exact hin
        · rw [hfly] at hin
          obtain ⟨k, hk, hpair⟩ := Option.map_eq_some_iff.mp hin
          exact absurd ((Prod.mk.inj hpair).1 ▸ hk) hkey
    · intro key outcome hin
      unfold Local.inFlight at hin
      cases later <;> simp at hin

theorem Fresh.step (h : w.Fresh) {e : Event} (hstep : w.step e = some w') : w'.Fresh := by
  cases e with
  | command c =>
    rw [← Option.some.inj hstep]
    exact ⟨h.told, h.inFlight⟩
  | replace registry keys =>
    change (if w.published.Lists registry keys then _ else none) = some w' at hstep
    by_cases hkeys : w.published.Lists registry keys
    · rw [if_pos hkeys] at hstep
      rw [← Option.some.inj hstep]
      exact h.publish fun k hk => PublishedRegistry.mem_replace hkeys hk
    · rw [if_neg hkeys] at hstep
      exact nomatch hstep
  | observeEndpoint publicKey endpoint =>
    rw [← Option.some.inj hstep]
    exact h.publish fun k hk => PublishedRegistry.mem_observeEndpoint hk
  | takeCommand => exact h.takeCommand hstep
  | takeChange => exact h.takeChange hstep
  | proceed => exact h.proceed hstep
  | closed =>
    rw [← Option.some.inj hstep]
    exact ⟨fun hno => absurd rfl hno, fun _ _ hin => nomatch hin⟩

/-- The command channel and the receiver of changes are empty. -/
structure Drained (w : Local) : Prop where
  commands : w.commands = []
  queue : w.changes.queue = []
  lagged : w.changes.lagged = false

theorem Fresh.start (h : system.init w) : w.Fresh := by
  obtain ⟨-, -, hheld, hphase, -⟩ := h
  constructor
  · intro _ k hk
    rw [hheld] at hk
    exact absurd hk (AList.notMem_empty k)
  · intro k outcome hin
    unfold Local.inFlight at hin
    rw [hphase] at hin
    exact nomatch hin

/-- With both channels empty, the last outcome sent for a held key is the one in force, unless the
task is still at its last message and will send that outcome; at the `select!` it is. -/
theorem converges (hreach : system.Reachable w) (hdrained : w.Drained)
    (hphase : w.phase ≠ .returned) {key : Key} (hkey : key ∈ w.held) :
    (w.lastOutcome key = some (w.published.projection w.localPublicKey key) ∨ key ∈ w.todo ∨
      w.inFlight = some (key, w.published.projection w.localPublicKey key)) ∧ (w.phase = .waiting →
      w.lastOutcome key = some (w.published.projection w.localPublicKey key)) := by
  have hfresh : w.Fresh := hreach.invariant (fun _ => Fresh.start) fun _ _ _ h hstep => h.step hstep
  have htold : w.lastOutcome key = some (w.published.projection w.localPublicKey key) ∨
      key ∈ w.todo ∨ w.inFlight = some (key, w.published.projection w.localPublicKey key) := by
    rcases hfresh.told hphase key hkey with hlast | hholds | hmid
    · exact .inl hlast
    · rcases hholds with hlag | ⟨x, hx, -⟩
      · exact absurd hlag (by simp [hdrained.lagged])
      · rw [hdrained.queue] at hx
        exact nomatch hx
    · exact .inr hmid
  refine ⟨htold, fun hwaiting => ?_⟩
  rcases htold with hlast | htodo | hin
  · exact hlast
  · unfold Local.todo at htodo
    rw [hwaiting] at htodo
    exact nomatch htodo
  · unfold Local.inFlight at hin
    rw [hwaiting] at hin
    exact nomatch hin

/-! ### A run -/

namespace Sample

def record : PeerRecord :=
  .new (Vector.replicate 32 1) none none (.host (.v4 0x0a000001#32)) none

def registry : Built where
  val := match Registry.build [record] with
    | .ok (.ok registry) => registry
    | _ => .empty
  built := ⟨[record], rfl⟩

def start : Local where
  published := ⟨registry, ∅⟩
  localPublicKey := Vector.replicate 32 2
  changes := ⟨[], false⟩
  commands := []
  held := ∅
  phase := .waiting
  sent := []

/-- The core looks a peer up, and the task is about to send its answer. -/
def lookup : List Event :=
  [.command (.resolve ⟨0, .byPublicKey record.publicKey⟩), .takeCommand, .proceed]

theorem reachable_start : system.Reachable start :=
  .start ⟨rfl, rfl, rfl, rfl, rfl⟩

end Sample

open Local.Sample

/-- Both channels are empty while the answer for a key that is already held waits to be sent. -/
theorem unsent_when_drained : ∃ (w : Local) (key : Key), system.Reachable w ∧ w.Drained ∧
    w.phase ≠ .returned ∧ key ∈ w.held ∧
    w.lastOutcome key ≠ some (w.published.projection w.localPublicKey key) := by
  refine ⟨_, record.publicKey, reachable_start.replay lookup rfl, ⟨rfl, rfl, rfl⟩, ?_, ?_, ?_⟩
  · decide
  · decide
  · decide

/-- The same lookup, once its answer is sent. -/
theorem converges_lookup : ∃ (w : Local) (key : Key), key ∈ w.held ∧
    w.lastOutcome key = some (w.published.projection w.localPublicKey key) := by
  refine ⟨_, record.publicKey, ?_, (converges (reachable_start.replay
    (lookup ++ [.proceed]) rfl) ⟨rfl, rfl, rfl⟩ ?_ ?_).2 rfl⟩
  · decide
  · decide
  · decide

end Local

end Microtun.Tracker
