import Microtun.Api.Session

/-! The typed client of the Peers API, `client.rs`, for a client that queues invalidations without
a bound. -/

namespace Microtun.Api

inductive ClientError (ε : Type) where
  | codec (e : Error)
  | session (e : SessionError ε)
  | unexpectedPublicKey (expected actual : Key)
deriving DecidableEq

/-- The public keys that notifications named. -/
structure ChangeHandler where
  invalidated : List Key
deriving DecidableEq

namespace ChangeHandler

variable (h : ChangeHandler)

def pushInvalidated (publicKey : Key) : ChangeHandler :=
  if publicKey ∈ h.invalidated then h else ⟨h.invalidated ++ [publicKey]⟩

end ChangeHandler

def decodeInvalidationNotification (C : Codec) (method : String) (message : List UInt8) :
    Option Key :=
  if method ≠ methodChanged ∧ method ≠ methodRemoved then none
  else match C.keyParams message with
    | some (some publicKey) => decodeKey publicKey
    | _ => none

/-- A client answers no requests and queues the keys it is told of. -/
def changeHandler (C : Codec) : Handler ChangeHandler where
  handleRequest h _ _ responder := (responder.unknownMethod, h)
  handleNotification h method message :=
    match decodeInvalidationNotification C method message with
    | some publicKey => h.pushInvalidated publicKey
    | none => h

def validatePublicKey {ε : Type} (outcome : ResolveOutcome) (expected : Option Key) :
    Except (ClientError ε) ResolveOutcome :=
  match expected, outcome with
  | some expected, .found peer =>
    if peer.publicKey ≠ expected then .error (.unexpectedPublicKey expected peer.publicKey)
    else .ok outcome
  | _, _ => .ok outcome

theorem validatePublicKey_ok {ε : Type} {outcome o : ResolveOutcome} {expected : Option Key}
    (h : validatePublicKey (ε := ε) outcome expected = .ok o) :
    o = outcome ∧ ∀ peer, o = .found peer → ∀ key, expected = some key → peer.publicKey = key := by
  unfold validatePublicKey at h
  cases expected with
  | none => exact ⟨(Except.ok.inj h).symm, nofun⟩
  | some key =>
    cases outcome with
    | found peer =>
      by_cases hkey : peer.publicKey ≠ key
      · simp only [if_pos hkey] at h
        exact nomatch h
      · simp only [if_neg hkey] at h
        obtain rfl : ResolveOutcome.found peer = o := Except.ok.inj h
        refine ⟨rfl, fun peer' heq key' hkey' => ?_⟩
        rw [← ResolveOutcome.found.inj heq, ← Option.some.inj hkey']
        exact not_not.mp hkey
    | notFound =>
      obtain rfl : ResolveOutcome.notFound = o := Except.ok.inj h
      exact ⟨rfl, nofun⟩
    | failed =>
      obtain rfl : ResolveOutcome.failed = o := Except.ok.inj h
      exact ⟨rfl, nofun⟩

/-- One operation of a client: the call it made, if it came to one, the key that a record must
have, the messages that it took, and how it ended unless it was given up. -/
structure Asked (ε : Type) where
  id : Option UInt32
  expected : Option Key
  used : List (Received ε)
  outcome : Option (Except (ClientError ε) ResolveOutcome)

namespace Client

variable {ε : Type} (C : Codec) (T : Texts) (tx : Nat)

/-- What a client makes of the end of a call. -/
def conclude (expected : Option Key) :
    Except (SessionError ε) LookupResult → Except (ClientError ε) ResolveOutcome
  | .error e => .error (.session e)
  | .ok result => validatePublicKey (classifyResult T result) expected

/-- A session with what its transport will give it. -/
structure Link (ε : Type) where
  session : Session ChangeHandler
  inbox : List (Received ε)

namespace Link

variable (l : Link ε)

def callResult (expected : Option Key) (method : String) (params : QueryParams)
    (sent : Except ε Unit) (limit : Nat) : Link ε × Asked ε :=
  let id := l.session.nextId
  let w := l.session.call C (changeHandler C) tx method params sent limit l.inbox
  (⟨w.session, w.inbox⟩, ⟨some id, expected, w.used, w.outcome.map (conclude T expected)⟩)

def lookup (query : ResolveQuery) (sent : Except ε Unit) (limit : Nat) : Link ε × Asked ε :=
  let expected := match query with
    | .byPublicKey publicKey => some publicKey
    | .byDstAddress _ => none
  match encodeQuery T query with
  | .error e => (l, ⟨none, expected, [], some (.error (.codec e))⟩)
  | .ok call => l.callResult C T tx expected call.method call.params sent limit

def watch (publicKey : Key) (sent : Except ε Unit) (limit : Nat) : Link ε × Asked ε :=
  l.callResult C T tx (some publicKey) methodWatch (.byKey (encodeKey publicKey)) sent limit

def unwatch (publicKey : Key) (sent : Except ε Unit) : Link ε :=
  { l with session :=
      (l.session.notify C tx methodUnwatch (.byKey (encodeKey publicKey)) sent).1 }

def poll : Link ε :=
  match l.inbox with
  | [] => l
  | r :: inbox => ⟨(l.session.poll C (changeHandler C) tx r).1, inbox⟩

end Link

/-- What a client does with its session; a call is given up after `limit` messages. -/
inductive Op (ε : Type) where
  | lookup (query : ResolveQuery) (sent : Except ε Unit) (limit : Nat)
  | watch (publicKey : Key) (sent : Except ε Unit) (limit : Nat)
  | unwatch (publicKey : Key) (sent : Except ε Unit)
  | poll
  | handle (change : ChangeHandler → ChangeHandler)

def Op.calls : Op ε → Bool
  | .lookup .. | .watch .. => true
  | _ => false

def Link.perform (l : Link ε) : Op ε → Link ε × Option (Asked ε)
  | .lookup query sent limit =>
    let (l, asked) := l.lookup C T tx query sent limit
    (l, some asked)
  | .watch publicKey sent limit =>
    let (l, asked) := l.watch C T tx publicKey sent limit
    (l, some asked)
  | .unwatch publicKey sent => (l.unwatch C tx publicKey sent, none)
  | .poll => (l.poll C tx, none)
  | .handle change => ({ l with session := { l.session with
      handler := change l.session.handler } }, none)

/-- The operations of a session that ask something, in order. -/
def Link.run (l : Link ε) : List (Op ε) → List (Asked ε)
  | [] => []
  | op :: ops =>
    let (l, asked) := l.perform C T tx op
    asked.toList ++ l.run ops

end Client

namespace Asked

/-- The call ends with an authoritative miss only if it received exactly that for its own id, and
with a record only if the record has the key it asked for. -/
structure Sound {ε : Type} (C : Codec) (a : Asked ε) : Prop where
  notFound : a.outcome = some (.ok .notFound) →
    ∃ id, a.id = some id ∧ Session.Answers C a.used id .notFound
  found : ∀ peer, a.outcome = some (.ok (.found peer)) → ∀ key, a.expected = some key →
    peer.publicKey = key

end Asked

namespace Client

variable {ε : Type} {C : Codec} {T : Texts} {tx : Nat}

theorem sound_conclude {id : UInt32} {used : List (Received ε)} {expected : Option Key}
    {outcome : Option (Except (SessionError ε) LookupResult)}
    (h : ∀ result, outcome = some (.ok result) → Session.Answers C used id result) :
    Asked.Sound C ⟨some id, expected, used, outcome.map (conclude T expected)⟩ := by
  constructor
  · intro hmiss
    obtain ⟨result, rfl, hresult⟩ := Option.map_eq_some_iff.mp hmiss
    cases result with
    | error e => exact nomatch hresult
    | ok result =>
      have hclass := (validatePublicKey_ok hresult).1
      exact ⟨id, rfl, classifyResult_eq_notFound hclass.symm ▸ h result rfl⟩
  · intro peer hfound key hkey
    obtain ⟨result, rfl, hresult⟩ := Option.map_eq_some_iff.mp hfound
    cases result with
    | error e => exact nomatch hresult
    | ok result => exact (validatePublicKey_ok hresult).2 peer rfl key hkey

theorem callResult_spec (l : Link ε) (expected : Option Key) (method : String)
    (params : QueryParams) (sent : Except ε Unit) (limit : Nat) :
    (l.callResult C T tx expected method params sent limit).1.session.nextId =
        max (l.session.nextId + 1) 1 ∧
      (l.callResult C T tx expected method params sent limit).2.id = some l.session.nextId ∧
      (l.callResult C T tx expected method params sent limit).2.Sound C := by
  obtain ⟨hnext, hans⟩ := Session.call_spec (C := C)
    (s := l.session) method params sent limit l.inbox
  exact ⟨hnext, rfl, sound_conclude hans⟩

theorem lookup_spec (l : Link ε) (query : ResolveQuery) (sent : Except ε Unit) (limit : Nat) :
    (l.lookup C T tx query sent limit).2.Sound C ∧
      ((l.lookup C T tx query sent limit).1.session.nextId = l.session.nextId ∧
          (l.lookup C T tx query sent limit).2.id = none ∨
        (l.lookup C T tx query sent limit).1.session.nextId = max (l.session.nextId + 1) 1 ∧
          (l.lookup C T tx query sent limit).2.id = some l.session.nextId) := by
  unfold Link.lookup
  cases encodeQuery T query with
  | error e => exact ⟨⟨nofun, nofun⟩, .inl ⟨rfl, rfl⟩⟩
  | ok call =>
    obtain ⟨hnext, hid, hsound⟩ := callResult_spec (C := C) (T := T) l _ call.method
      call.params sent limit
    exact ⟨hsound, .inr ⟨hnext, hid⟩⟩

/-- An operation takes the next id if it makes a call, and leaves it if not. -/
theorem perform_spec (l : Link ε) (op : Op ε) :
    (∀ asked, (l.perform C T tx op).2 = some asked → asked.Sound C) ∧
      ((l.perform C T tx op).1.session.nextId = l.session.nextId ∧
          (l.perform C T tx op).2.bind Asked.id = none ∨
        (l.perform C T tx op).1.session.nextId = max (l.session.nextId + 1) 1 ∧
          (l.perform C T tx op).2.bind Asked.id = some l.session.nextId ∧ op.calls = true) := by
  cases op with
  | lookup query sent limit =>
    obtain ⟨hsound, hids⟩ := lookup_spec (C := C) (T := T) l query sent limit
    refine ⟨fun asked h => Option.some.inj h ▸ hsound, ?_⟩
    cases hids with
    | inl h => exact .inl h
    | inr h => exact .inr ⟨h.1, h.2, rfl⟩
  | watch publicKey sent limit =>
    obtain ⟨hnext, hid, hsound⟩ := callResult_spec (C := C) (T := T) l
      (some publicKey) methodWatch (.byKey (encodeKey publicKey)) sent limit
    exact ⟨fun asked h => Option.some.inj h ▸ hsound, .inr ⟨hnext, hid, rfl⟩⟩
  | unwatch publicKey sent => exact ⟨fun _ h => (nomatch h), .inl ⟨Session.nextId_notify _ _ _, rfl⟩⟩
  | poll =>
    refine ⟨fun _ h => (nomatch h), .inl ⟨?_, rfl⟩⟩
    show (l.poll C tx).session.nextId = _
    unfold Link.poll
    cases l.inbox with
    | nil => rfl
    | cons r inbox => exact Session.nextId_poll r
  | handle change => exact ⟨fun _ h => (nomatch h), .inl ⟨rfl, rfl⟩⟩

theorem toNat_nextId (id : UInt32) :
    (max (id + 1) 1).toNat = id.toNat + 1 ∨ id.toNat + 1 = 2 ^ 32 := by
  have hlt := id.toNat_lt
  by_cases hlast : id.toNat + 1 = 2 ^ 32
  · exact .inr hlast
  · have hsucc : (id + 1).toNat = id.toNat + 1 := by
      rw [UInt32.toNat_add]
      exact Nat.mod_eq_of_lt (by simp only [UInt32.toNat_one]; omega)
    left
    show (if id + 1 ≤ 1 then 1 else id + 1).toNat = id.toNat + 1
    by_cases hle : id + 1 ≤ 1
    · rw [if_pos hle]
      rw [UInt32.le_iff_toNat_le, hsucc, UInt32.toNat_one] at hle
      rw [UInt32.toNat_one]
      omega
    · rw [if_neg hle, hsucc]

/-- The calls of a session take consecutive ids, up to the largest one. -/
theorem run_spec (ops : List (Op ε)) (l : Link ε)
    (hroom : l.session.nextId.toNat + ops.countP Op.calls ≤ 2 ^ 32) :
    (∀ asked ∈ l.run C T tx ops, asked.Sound C) ∧
      ∃ n ≤ ops.countP Op.calls, ((l.run C T tx ops).filterMap Asked.id).map UInt32.toNat =
        List.range' l.session.nextId.toNat n := by
  induction ops generalizing l with
  | nil => exact ⟨nofun, 0, Nat.le_refl 0, rfl⟩
  | cons op ops ih =>
    obtain ⟨hsound, hids⟩ := perform_spec (C := C) (T := T) l op
    unfold Link.run
    generalize l.perform C T tx op = r at hsound hids ⊢
    obtain ⟨l', asked⟩ := r
    simp only at hsound hids ⊢
    have hfilter : ((asked.toList ++ l'.run C T tx ops).filterMap Asked.id) =
        (asked.bind Asked.id).toList ++ (l'.run C T tx ops).filterMap Asked.id := by
      rw [List.filterMap_append]
      cases asked with
      | none => rfl
      | some asked => cases h : asked.id <;> simp [h]
    have hcons : (∀ asked ∈ l'.run C T tx ops, asked.Sound C) →
        ∀ a ∈ asked.toList ++ l'.run C T tx ops, a.Sound C := by
      intro hrest a ha
      cases List.mem_append.mp ha with
      | inl ha => exact hsound a (Option.mem_toList.mp ha)
      | inr ha => exact hrest a ha
    rw [List.countP_cons] at hroom ⊢
    rw [hfilter]
    rcases hids with ⟨hnext, hnone⟩ | ⟨hnext, hsome, hcall⟩
    · obtain ⟨hrest, n, hn, hrange⟩ := ih l' (by rw [hnext]; omega)
      rw [hnone, Option.toList_none, List.nil_append]
      exact ⟨hcons hrest, n, Nat.le_add_right_of_le hn, hnext ▸ hrange⟩
    · rw [if_pos hcall] at hroom ⊢
      rw [hsome, Option.toList_some, List.map_append]
      cases toNat_nextId l.session.nextId with
      | inl hsucc =>
        obtain ⟨hrest, n, hn, hrange⟩ := ih l' (by rw [hnext, hsucc]; omega)
        rw [hnext, hsucc] at hrange
        exact ⟨hcons hrest, n + 1, Nat.succ_le_succ hn, by rw [hrange]; rfl⟩
      | inr hlast =>
        -- the largest id is taken by the last call
        have hnone : ops.countP Op.calls = 0 := by omega
        obtain ⟨hrest, n, hn, hrange⟩ := ih l' (by
          rw [hnone]
          exact Nat.le_of_lt l'.session.nextId.toNat_lt)
        obtain rfl : n = 0 := Nat.le_zero.mp (hnone ▸ hn)
        exact ⟨hcons hrest, 1, Nat.le_add_left 1 _, by rw [hrange]; rfl⟩

end Client

end Microtun.Api
