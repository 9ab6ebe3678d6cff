import Microtun.Api.Client
import Microtun.Tracker.Server

/-! The authority of `not_found`: who is told it by the Tracker, and what a client takes for it. -/

namespace Microtun.Tracker

open Api

/-- The request was within the budget of its caller; a caller that is not configured has none. -/
def Charge.Within (charge : Charge) (caller : Key) : Prop :=
  charge.config.val.lookupKey caller = none ∨
    requestCostMt ≤ ((charge.usage.lookup caller).getD (.new charge.now)).tokensAt charge.now

theorem PeerUsage.allowRequest_iff (p : PeerUsage) (now : Nat) :
    (p.allowRequest now).1 = true ↔ requestCostMt ≤ p.tokensAt now := by
  unfold PeerUsage.allowRequest
  by_cases h : p.tokensAt now < requestCostMt
  · simp [h]
  · simp [h, Nat.le_of_not_lt h]

namespace AppState

variable {s : AppState}

theorem lookup_retainUsage {config : Built} {key : Key} (h : config.val.lookupKey key ≠ none) :
    (s.retainUsage config).lookup key = s.usage.lookup key := by
  unfold retainUsage
  rw [HashMap.lookup_retain, if_pos]
  rw [Bool.or_eq_true]
  exact .inr (Option.isSome_iff_ne_none.mpr h)

theorem allowRequest_spec (config : Built) (key : Key) (now : Nat) :
    ((s.allowRequest config key now).1 = true ↔ Charge.Within ⟨config, s.usage, now⟩ key) ∧
      (s.allowRequest config key now).2.published = s.published := by
  unfold allowRequest Charge.Within
  by_cases hnone : config.val.lookupKey key = none
  · simp [hnone]
  · simp only [if_neg hnone, lookup_retainUsage hnone]
    have hiff := PeerUsage.allowRequest_iff ((s.usage.lookup key).getD (.new now)) now
    generalize ((s.usage.lookup key).getD (.new now)).allowRequest now = r at hiff ⊢
    obtain ⟨_ | _, peer⟩ := r
    · exact ⟨⟨nofun, fun h => hiff.mpr (h.resolve_left hnone)⟩, rfl⟩
    · exact ⟨⟨fun h => .inr (hiff.mp h), fun _ => rfl⟩, rfl⟩

end AppState

/-! ### The answers of a server -/

/-- The reply is a miss exactly if the request was within the budget and asks, by an argument that
decodes, a configured caller's question about what is not configured. -/
def Answered.Right (C : Codec) (T : Texts) (a : Answered) : Prop :=
  a.reply = some (C.result ⟨a.request.id, .notFound⟩) ↔
    a.charge.Within a.caller ∧ a.seen.Configured (.key a.caller) ∧
      ∃ target, targetOf C T a.request.method a.request.message = some target ∧
        ¬ a.seen.Configured target

/-- The request in hand came when one of the first `n` states was published, and once it is charged
it was within the budget. -/
def Reader.Holds (n : Nat) (caller : Key) : Reader → Prop
  | .requested r => r.since < n
  | .charging r _ => r.since < n
  | .charged r charge => r.since < n ∧ charge.Within caller
  | _ => True

theorem Reader.Holds.mono {n m : Nat} (hnm : n ≤ m) {caller : Key} {reader : Reader}
    (h : reader.Holds n caller) : reader.Holds m caller := by
  cases reader with
  | requested r => exact Nat.lt_of_lt_of_le h hnm
  | charging r config => exact Nat.lt_of_lt_of_le h hnm
  | charged r charge => exact ⟨Nat.lt_of_lt_of_le h.1 hnm, h.2⟩
  | _ => trivial

theorem Reader.holds_write (n : Nat) (caller : Key) (reply : Reply) :
    (Reader.write reply).Holds n caller := by
  cases reply <;> trivial

theorem Reader.holds_heard {C : Codec} {n since : Nat} (hsince : since < n) (caller : Key)
    (message : List UInt8) : (Reader.heard C since message).Holds n caller := by
  have hfail : ∀ text, (Reader.fail C text).Holds n caller := by
    intro text
    unfold Reader.fail
    cases writeError C recordMessageLen none Codes.badMessage text <;> trivial
  unfold Reader.heard
  split
  · exact hfail _
  · exact hsince
  · rename_i method _
    by_cases hmethod : method ≠ methodUnwatch
    · rw [if_pos hmethod]
      trivial
    · rw [if_neg hmethod]
      cases parseParams (ε := Empty) (C.keyParams message) <;> trivial
  · trivial
  · exact hfail _

namespace Server

/-- All that was answered is right, from a state published since the request came. -/
structure Authoritative (C : Codec) (T : Texts) (s : Server) : Prop where
  current : s.history.getLast? = some s.app.published
  holds : ∀ c caller v, s.connections.lookup c = some (.serving caller v) →
    v.reader.Holds s.history.length caller
  answered : ∀ a ∈ s.answered, a.Right C T ∧
    ∃ i, a.request.since ≤ i ∧ s.history[i]? = some a.seen

variable {C : Codec} {T : Texts} {s : Server}

namespace Authoritative

theorem pos (h : s.Authoritative C T) : s.history.length - 1 < s.history.length := by
  have hne : s.history ≠ [] := by
    intro hnil
    have := h.current
    rw [hnil] at this
    exact nomatch this
  have := List.length_pos_iff.mpr hne
  omega

theorem published (h : s.Authoritative C T) {n : Nat} (hn : n < s.history.length) :
    ∃ i, n ≤ i ∧ s.history[i]? = some s.app.published := by
  refine ⟨s.history.length - 1, by omega, ?_⟩
  rw [← List.getLast?_eq_getElem?]
  exact h.current

/-- A step that publishes and answers nothing, and leaves every reader with what it may hold. -/
theorem frame {s' : Server} (h : s.Authoritative C T) (hhist : s'.history = s.history)
    (hpub : s'.app.published = s.app.published) (hans : s'.answered = s.answered)
    (hconn : ∀ c caller v, s'.connections.lookup c = some (.serving caller v) →
      s.connections.lookup c = some (.serving caller v) ∨
        v.reader.Holds s.history.length caller) : s'.Authoritative C T where
  current := by rw [hhist, hpub, h.current]
  holds c caller v hv := by
    rw [hhist]
    exact (hconn c caller v hv).elim (h.holds c caller v) id
  answered := by
    rw [hans, hhist]
    exact h.answered

theorem app (h : s.Authoritative C T) {app : AppState}
    (hpub : app.published = s.app.published) : ({ s with app } : Server).Authoritative C T :=
  h.frame rfl hpub rfl fun _ _ _ hv => .inl hv

theorem set (h : s.Authoritative C T) {c : Nat} {caller : Key} {v : Serving}
    (hv : v.reader.Holds s.history.length caller) : (s.set c caller v).Authoritative C T := by
  refine h.frame rfl rfl rfl fun c' caller' v' hv' => ?_
  change (s.connections.insert c _).lookup c' = _ at hv'
  rw [HashMap.lookup_insert_eq_ite] at hv'
  by_cases hc : c' = c
  · rw [if_pos hc] at hv'
    obtain ⟨rfl, rfl⟩ := Connection.serving.inj (Option.some.inj hv')
    exact .inr hv
  · rw [if_neg hc] at hv'
    exact .inl hv'

theorem erase (h : s.Authoritative C T) (c : Nat) :
    ({ s with connections := s.connections.erase c } : Server).Authoritative C T := by
  refine h.frame rfl rfl rfl fun c' caller v hv => .inl ?_
  change (s.connections.erase c).lookup c' = _ at hv
  rw [HashMap.lookup_erase_eq_ite] at hv
  by_cases hc : c' = c
  · rw [if_pos hc] at hv
    exact nomatch hv
  · rwa [if_neg hc] at hv

theorem insert (h : s.Authoritative C T) (c : Nat) {conn : Connection}
    (hconn : ∀ caller v, conn ≠ .serving caller v) :
    ({ s with connections := s.connections.insert c conn } : Server).Authoritative C T := by
  refine h.frame rfl rfl rfl fun c' caller v hv => .inl ?_
  change (s.connections.insert c conn).lookup c' = _ at hv
  rw [HashMap.lookup_insert_eq_ite] at hv
  by_cases hc : c' = c
  · rw [if_pos hc] at hv
    exact absurd (Option.some.inj hv) (hconn caller v)
  · rwa [if_neg hc] at hv

theorem answer (h : s.Authoritative C T) {a : Answered} (hright : a.Right C T)
    (hseen : a.seen = s.app.published) (hsince : a.request.since < s.history.length) :
    ({ s with answered := a :: s.answered } : Server).Authoritative C T where
  current := h.current
  holds := h.holds
  answered b hb := by
    cases List.mem_cons.mp hb with
    | inl heq =>
      rw [heq, hseen]
      exact ⟨hright, h.published hsince⟩
    | inr hb => exact h.answered b hb

/-! One event each. -/

variable {s' : Server} {c : Nat}

theorem publish (h : s.Authoritative C T) {r : PublishedRegistry × List RegistryChange}
    (hstep : s.publish r = some s') : s'.Authoritative C T := by
  unfold Server.publish at hstep
  by_cases hlock : s.publishing = []
  · rw [if_pos hlock] at hstep
    obtain rfl := Option.some.inj hstep
    refine ⟨List.getLast?_concat, fun c caller v hv => ?_, fun a ha => ?_⟩
    · exact (h.holds c caller v hv).mono (List.length_append ▸ Nat.le_add_right _ _)
    · obtain ⟨hright, i, hi, hseen⟩ := h.answered a ha
      have hlt := (List.getElem?_eq_some_iff.mp hseen).1
      exact ⟨hright, i, hi, (List.getElem?_append_left hlt).trans hseen⟩
  · rw [if_neg hlock] at hstep
    exact nomatch hstep

theorem dispatch (h : s.Authoritative C T) (hstep : s.dispatch = some s') :
    s'.Authoritative C T := by
  unfold Server.dispatch at hstep
  cases hpub : s.publishing with
  | nil =>
    rw [hpub] at hstep
    exact nomatch hstep
  | cons change rest =>
    rw [hpub] at hstep
    obtain rfl := Option.some.inj hstep
    exact h.frame rfl rfl rfl fun _ _ _ hv => .inl hv

theorem accept (h : s.Authoritative C T) {caller : Key} (hstep : s.accept c caller = some s') :
    s'.Authoritative C T := by
  unfold Server.accept at hstep
  by_cases hfree : s.publishing = [] ∧ c ∉ s.connections
  · rw [if_pos hfree] at hstep
    cases hrec : s.app.published.lookupKey caller with
    | none =>
      rw [hrec] at hstep
      obtain rfl := Option.some.inj hstep
      exact h.app rfl
    | some record =>
      rw [hrec] at hstep
      obtain rfl := Option.some.inj hstep
      exact h.insert c nofun
  · rw [if_neg hfree] at hstep
    exact nomatch hstep

theorem permit (h : s.Authoritative C T) {now : Nat} (hstep : s.permit c now = some s') :
    s'.Authoritative C T := by
  unfold Server.permit at hstep
  split at hstep
  · rename_i caller _ _
    have hpub := AppState.published_openConnection (s := s.app) caller now
    generalize s.app.openConnection caller now = r at hstep hpub
    obtain ⟨_ | _, app⟩ := r
    · obtain rfl := Option.some.inj hstep
      exact (h.app hpub).erase c
    · obtain rfl := Option.some.inj hstep
      exact (h.app hpub).insert c nofun
  · exact nomatch hstep

theorem subscribe (h : s.Authoritative C T) (hstep : s.subscribe c = some s') :
    s'.Authoritative C T := by
  unfold Server.subscribe at hstep
  split at hstep
  · rename_i caller _
    generalize s.app.keyed.subscribe caller = r at hstep
    obtain ⟨subscription, keyed⟩ := r
    obtain rfl := Option.some.inj hstep
    exact (h.app (by rfl)).set trivial
  · exact nomatch hstep

theorem published_ended (s : Server) (conn : Connection) :
    (match conn with
      | .greeting _ => s.app
      | .upgrading caller => s.app.closeConnection caller
      | .serving caller v => AppState.closeConnection
        { s.app with keyed := s.app.keyed.remove v.subscription } caller).published =
          s.app.published := by
  cases conn with
  | greeting caller => rfl
  | upgrading caller => exact AppState.published_closeConnection caller
  | serving caller v => exact AppState.published_closeConnection caller

theorem close (h : s.Authoritative C T) (hstep : s.close c = some s') : s'.Authoritative C T := by
  unfold Server.close at hstep
  split at hstep
  · rename_i conn _ _
    obtain rfl := Option.some.inj hstep
    exact (h.app (published_ended s conn)).erase c
  · cases hstep

theorem receive (h : s.Authoritative C T) {message : List UInt8}
    (hstep : s.receive C c message = some s') : s'.Authoritative C T := by
  unfold Server.receive at hstep
  split at hstep
  · split at hstep
    · obtain rfl := Option.some.inj hstep
      exact h.set (Reader.holds_heard h.pos _ _)
    · exact nomatch hstep
  · exact nomatch hstep

theorem readConfig (h : s.Authoritative C T) (hstep : s.readConfig c = some s') :
    s'.Authoritative C T := by
  unfold Server.readConfig at hstep
  split at hstep
  · rename_i caller v _ hv
    have hheld := h.holds c caller v hv
    split at hstep
    · rename_i r hreader
      obtain rfl := Option.some.inj hstep
      rw [hreader] at hheld
      exact h.set hheld
    · rename_i text hreader
      have hpub := AppState.published_admit (s := s.app) s.app.published.registry caller
      generalize s.app.admits s.app.published.registry caller = r at hstep hpub
      obtain ⟨_ | _, app⟩ := r
      · obtain rfl := Option.some.inj hstep
        exact (h.app hpub).set trivial
      · simp only at hstep
        cases hkey : decodeKey text with
        | none =>
          rw [hkey] at hstep
          obtain rfl := Option.some.inj hstep
          exact (h.app hpub).set trivial
        | some key =>
          rw [hkey] at hstep
          obtain rfl := Option.some.inj hstep
          exact (h.app hpub).set trivial
    · exact nomatch hstep
  · exact nomatch hstep

/-- A request over the budget is answered with an error. -/
theorem charge (hC : C.Faithful) (h : s.Authoritative C T) {now : Nat}
    (hstep : s.charge C c now = some s') : s'.Authoritative C T := by
  unfold Server.charge at hstep
  split at hstep
  · rename_i caller v hv
    have hheld := h.holds c caller v hv
    split at hstep
    · rename_i r config hreader
      rw [hreader] at hheld
      obtain ⟨hiff, hpub⟩ := AppState.allowRequest_spec (s := s.app) config caller now
      generalize s.app.allowRequest config caller now = t at hstep hiff hpub
      obtain ⟨_ | _, app⟩ := t
      · obtain rfl := Option.some.inj hstep
        have hright : Answered.Right C T ⟨caller, r, ⟨config, s.app.usage, now⟩, s.app.published,
            AppState.written C recordMessageLen r.id (writeError C recordMessageLen (some r.id)
              Codes.rateLimited "request rate limit exceeded")⟩ :=
          iff_of_false (AppState.written_error hC (AppState.error_ne hC) r.id)
            fun hwithin => nomatch hiff.mpr hwithin.1
        exact ((h.answer hright rfl hheld).app hpub).set (Reader.holds_write _ _ _)
      · obtain rfl := Option.some.inj hstep
        exact (h.app hpub).set ⟨hheld, hiff.mp rfl⟩
    · exact nomatch hstep
  · exact nomatch hstep

theorem answerRequest (hC : C.Faithful) (h : s.Authoritative C T)
    (hstep : s.answer C T c = some s') : s'.Authoritative C T := by
  unfold Server.answer at hstep
  split at hstep
  · rename_i caller v _ hv
    have hheld := h.holds c caller v hv
    split at hstep
    · rename_i r charge hreader
      rw [hreader] at hheld
      have hspec := AppState.handleRequest_spec (T := T) (s := s.app) hC caller v.subscription
        r.method r.message r.id
      have hkeeps := AppState.keeps_handleRequest (s := s.app) T caller v.subscription r.method
        r.message ⟨C, recordMessageLen, r.id⟩
      generalize s.app.handleRequest T caller v.subscription r.method r.message
        ⟨C, recordMessageLen, r.id⟩ = t at hstep hspec hkeeps
      cases t with
      | error e =>
        obtain rfl := Option.some.inj hstep
        have hright : Answered.Right C T ⟨caller, r, charge, s.app.published, none⟩ :=
          iff_of_false nofun fun hmiss => hspec hmiss.2
        exact (h.answer hright rfl hheld.1).set trivial
      | ok t =>
        obtain ⟨reply, app⟩ := t
        obtain rfl := Option.some.inj hstep
        have hright : Answered.Right C T ⟨caller, r, charge, s.app.published,
            AppState.written C recordMessageLen r.id reply⟩ :=
          hspec.trans ⟨fun hmiss => ⟨hheld.2, hmiss⟩, fun hmiss => hmiss.2⟩
        exact ((h.answer hright rfl hheld.1).app (hkeeps reply app rfl)).set
          (Reader.holds_write _ _ _)
    · exact nomatch hstep
  · exact nomatch hstep

theorem unwatch (h : s.Authoritative C T) (hstep : s.unwatch c = some s') :
    s'.Authoritative C T := by
  unfold Server.unwatch at hstep
  split at hstep
  · split at hstep
    · obtain rfl := Option.some.inj hstep
      exact (h.app (by rfl)).set trivial
    · exact nomatch hstep
  · exact nomatch hstep

theorem reply (h : s.Authoritative C T) (hstep : s.reply c = some s') : s'.Authoritative C T := by
  unfold Server.reply at hstep
  split at hstep
  · split at hstep
    · obtain rfl := Option.some.inj hstep
      exact h.set trivial
    · obtain rfl := Option.some.inj hstep
      exact h.set trivial
    · exact nomatch hstep
  · exact nomatch hstep

theorem notifier (h : s.Authoritative C T) {app : AppState} {caller : Key} {v v' : Serving}
    (hv : s.connections.lookup c = some (.serving caller v))
    (hpub : app.published = s.app.published) (hreader : v'.reader = v.reader) :
    (({ s with app } : Server).set c caller v').Authoritative C T :=
  (h.app hpub).set (hreader ▸ h.holds c caller v hv)

theorem takeChange (h : s.Authoritative C T) {key : Key} (hstep : s.takeChange c key = some s') :
    s'.Authoritative C T := by
  unfold Server.takeChange at hstep
  split at hstep
  · rename_i caller v hv
    split at hstep
    · split at hstep
      · obtain rfl := Option.some.inj hstep
        exact h.notifier hv (by rfl) (by rfl)
      · exact nomatch hstep
    · exact nomatch hstep
  · exact nomatch hstep

theorem checkCaller (h : s.Authoritative C T) (hstep : s.checkCaller C c = some s') :
    s'.Authoritative C T := by
  unfold Server.checkCaller at hstep
  split at hstep
  · rename_i caller v _ hv
    split at hstep
    · split at hstep
      · obtain rfl := Option.some.inj hstep
        exact h.set (h.holds c caller v hv)
      · exact h.close hstep
    · exact nomatch hstep
  · exact nomatch hstep

theorem notify (h : s.Authoritative C T) (hstep : s.notify c = some s') : s'.Authoritative C T := by
  unfold Server.notify at hstep
  split at hstep
  · rename_i caller v hv
    split at hstep
    · obtain rfl := Option.some.inj hstep
      exact h.set (h.holds c caller v hv)
    · exact nomatch hstep
  · exact nomatch hstep

theorem read (h : s.Authoritative C T) (hstep : s.read c = some s') : s'.Authoritative C T := by
  unfold Server.read at hstep
  split at hstep
  · rename_i caller v hv
    split at hstep
    · obtain rfl := Option.some.inj hstep
      exact h.set (h.holds c caller v hv)
    · exact nomatch hstep
  · exact nomatch hstep

theorem step (hC : C.Faithful) (h : s.Authoritative C T) {e : Event}
    (hstep : s.step C T e = some s') : s'.Authoritative C T := by
  cases e with
  | replace registry order =>
    change (if s.app.published.Lists registry order then _ else none) = some s' at hstep
    by_cases hlists : s.app.published.Lists registry order
    · rw [if_pos hlists] at hstep
      exact h.publish hstep
    · rw [if_neg hlists] at hstep
      exact nomatch hstep
  | observeEndpoint publicKey endpoint => exact h.publish hstep
  | dispatch => exact h.dispatch hstep
  | accept c caller => exact h.accept hstep
  | permit c now => exact h.permit hstep
  | subscribe c => exact h.subscribe hstep
  | close c => exact h.close hstep
  | receive c message => exact h.receive hstep
  | readConfig c => exact h.readConfig hstep
  | charge c now => exact h.charge hC hstep
  | answer c => exact h.answerRequest hC hstep
  | unwatch c => exact h.unwatch hstep
  | reply c => exact h.reply hstep
  | takeChange c key => exact h.takeChange hstep
  | checkCaller c => exact h.checkCaller hstep
  | notify c => exact h.notify hstep
  | read c => exact h.read hstep

theorem init (h : (system C T).init s) : s.Authoritative C T := by
  obtain ⟨-, -, -, hconn, hhist, hans⟩ := h
  refine ⟨by rw [hhist]; rfl, fun c caller v hv => ?_, fun a ha => ?_⟩
  · rw [hconn] at hv
    exact nomatch hv
  · rw [hans] at ha
    exact nomatch ha

end Authoritative

end Server

/-! ### Both ends -/

/-- Whatever the Tracker is asked on however many connections while it publishes what it will, a
reply is `not_found` exactly if the request was within the budget, and in one state published since
it came the caller is configured and the target that the argument names is not.  A client whose
session makes fewer than 2³² calls gives each its own id; it takes a call for a miss only if it
received exactly that with the id of the call and no method, and for a record only if the record
has the key it asked for. -/
theorem notFound_authoritative {ε : Type} (C : Codec) (T : Texts) (hC : C.Faithful) :
    (∀ s, (Server.system C T).Reachable s → ∀ a ∈ s.answered, a.Right C T ∧
      ∃ i, a.request.since ≤ i ∧ s.history[i]? = some a.seen) ∧
    ∀ (tx : Nat) (handler : ChangeHandler) (inbox : List (Received ε)) (ops : List (Client.Op ε)),
      ops.countP Client.Op.calls < 2 ^ 32 →
      (∀ asked ∈ Client.Link.run C T tx ⟨.new handler, inbox⟩ ops, asked.Sound C) ∧
        ((Client.Link.run C T tx ⟨.new handler, inbox⟩ ops).filterMap Asked.id).Nodup := by
  refine ⟨fun s hs => ?_, fun tx handler inbox ops hcalls => ?_⟩
  · exact (hs.invariant (I := Server.Authoritative C T) (fun _ => Server.Authoritative.init)
      fun _ _ _ h hstep => h.step hC hstep).answered
  · obtain ⟨hsound, n, -, hrange⟩ := Client.run_spec (C := C) (T := T) ops
      ⟨.new handler, inbox⟩ (by
        show (1 : UInt32).toNat + _ ≤ _
        rw [UInt32.toNat_one]
        omega)
    refine ⟨hsound, List.Nodup.of_map UInt32.toNat ?_⟩
    rw [hrange]
    exact List.nodup_range'

namespace Server.Sample

def callerKey : Key := Vector.replicate 32 1

def absentText : String := "zMzMzMzMzMzMzMzMzMzMzMzMzMzMzMzMzMzMzMzMzMw="

def registry : Built where
  val := match Registry.build [.new callerKey none none (.host (.v4 0x0a000001#32)) none] with
    | .ok (.ok registry) => registry
    | _ => .empty
  built := ⟨[.new callerKey none none (.host (.v4 0x0a000001#32)) none], rfl⟩

def texts : Texts :=
  ⟨fun _ => none, fun _ => none, fun _ => none, fun _ => "", fun _ => "", fun _ => ""⟩

def ascii (s : String) : List UInt8 := s.toList.map fun c => .ofNat c.toNat

def digits (id : UInt32) : List UInt8 :=
  ((Nat.toDigits 10 id.toNat).take 10).map fun c => .ofNat c.toNat

def notFound (id : UInt32) : List UInt8 :=
  ascii "\x7b\"id\":" ++ digits id ++ ascii ",\"result\":\x7b\"not_found\":\x7b\x7d\x7d\x7d"

def request : List UInt8 :=
  ascii ("\x7b\"id\":1,\"method\":\"peer.by_key\",\"params\":\x7b\"public_key\":\"" ++ absentText ++
    "\"\x7d\x7d")

/-- As much of the codec as one call and its answer need. -/
def codec : Codec where
  call _ := request
  result r := match r.result with
    | .notFound => notFound r.id
    | .found _ => ascii "\x7b\"result\":\x7b\"found\":\x7b\x7d\x7d,\"id\":" ++ digits r.id ++
      ascii "\x7d"
  error _ := ascii "\x7b\"error\":\x7b\x7d\x7d"
  envelope m :=
    if m = request then some ⟨some 1, some methodByKey⟩
    else if m = notFound 1 then some ⟨some 1, none⟩
    else none
  keyParams m := if m = request then some (some absentText) else none
  addressParams _ := none
  response m := if m = notFound 1 then some ⟨some .notFound, none⟩ else none

theorem faithful : codec.Faithful where
  notFound_ne_found id id' info h := nomatch h
  notFound_ne_error id e h := nomatch h
  notFound_fits id := by
    show (notFound id).length ≤ _
    unfold notFound digits
    rw [List.length_append, List.length_append, List.length_map, List.length_take]
    have : (ascii ",\"result\":\x7b\"not_found\":\x7b\x7d\x7d\x7d").length ≤ 100 := by decide
    have : (ascii "\x7b\"id\":").length ≤ 100 := by decide
    unfold recordMessageLen
    omega

def start : Server where
  app := ⟨⟨registry, ∅⟩, .empty, ∅, 0, ∅, 0, 0⟩
  publishing := []
  connections := ∅
  history := [⟨registry, ∅⟩]
  answered := []

def events : List Event :=
  [.accept 0 callerKey, .permit 0 0, .subscribe 0, .receive 0 request, .readConfig 0, .charge 0 0,
    .answer 0]

def missed : Option (Except (ClientError Empty) ResolveOutcome) → Bool
  | some (.ok .notFound) => true
  | _ => false

end Server.Sample

open Server Server.Sample

/-- A configured peer asks for a key that is not configured, and its client takes the answer. -/
theorem notFound_authoritative_miss :
    (∃ s a, (Server.system codec texts).Reachable s ∧ a ∈ s.answered ∧
      a.reply = some (notFound 1) ∧ a.seen.Configured (.key a.caller)) ∧
    ∃ asked : Asked Empty, asked.outcome = some (.ok .notFound) ∧ asked.id = some 1 ∧
      Session.Answers codec asked.used 1 .notFound := by
  obtain ⟨hserver, hclient⟩ := notFound_authoritative (ε := Empty) codec texts faithful
  constructor
  · have hrun : (((Server.system codec texts).replay start events).map fun s =>
        s.answered.map fun a => (a.request.id, a.reply)) = some [(1, some (notFound 1))] := by
      decide +kernel
    obtain ⟨s, hs, hans⟩ := Option.map_eq_some_iff.mp hrun
    have hreach := (@System.Reachable.start _ _ (Server.system codec texts) start
      ⟨rfl, rfl, rfl, rfl, rfl, rfl⟩).replay events hs
    obtain ⟨a, rest, hlist, ha, -⟩ := List.map_eq_cons_iff.mp hans
    obtain ⟨hid, hreply⟩ := Prod.mk.inj ha
    have hmem : a ∈ s.answered := hlist ▸ List.mem_cons_self
    have hright := (hserver s hreach a hmem).1
    exact ⟨s, a, hreach, hmem, hreply, (hright.mp (by rw [hreply, hid]; rfl)).2.1⟩
  · have hrun : (Client.Link.run (ε := Empty) codec texts queryMessageLen
        ⟨.new ⟨[]⟩, [.message (notFound 1) (.ok ())]⟩
        [.lookup (.byPublicKey (Vector.replicate 32 0xcc)) (.ok ()) 1]).map
          (fun a => (a.id, missed a.outcome)) = [(some 1, true)] := by decide +kernel
    obtain ⟨a, rest, hlist, ha, -⟩ := List.map_eq_cons_iff.mp hrun
    obtain ⟨hid, hout⟩ := Prod.mk.inj ha
    have hmiss : a.outcome = some (.ok .notFound) := by
      unfold missed at hout
      split at hout
      · assumption
      · cases hout
    obtain ⟨id, hid', hans⟩ := ((hclient queryMessageLen ⟨[]⟩ _ _ (by decide)).1 a
      (hlist ▸ List.mem_cons_self)).notFound hmiss
    obtain rfl : 1 = id := Option.some.inj (hid.symm.trans hid')
    exact ⟨a, hmiss, hid, hans⟩

end Microtun.Tracker
