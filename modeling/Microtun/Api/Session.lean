import Microtun.Api

/-! One conversation over a WebSocket, `session.rs`: calls with one outstanding at a time, and
dispatch of what arrives meanwhile.  What the transport gives a session is a list of messages and
failures that it takes from the front. -/

namespace Microtun.Api

/-- Failures of the session layer, over those of the transport. -/
inductive SessionError (ε : Type) where
  | transport (e : ε)
  | malformed
  | overflow
  | missingParams
  | remote (error : RemoteError)
deriving DecidableEq

/-- The answer of a handler, if it fits the transmit buffer. -/
abbrev Reply := Option (List UInt8)

/-- Answers one request, in a buffer with some room. -/
structure Responder where
  codec : Codec
  room : Nat
  id : UInt32

def writeError (C : Codec) (room : Nat) (id : Option UInt32) (code : UInt16) (message : String) :
    Reply :=
  toSlice room (C.error ⟨id, code, message⟩)

namespace Responder

variable (r : Responder)

def ok (result : LookupResult) : Reply := toSlice r.room (r.codec.result ⟨r.id, result⟩)

def error (code : UInt16) (message : String) : Reply :=
  writeError r.codec r.room (some r.id) code message

def unknownMethod : Reply := r.error Codes.unknownMethod "unknown method"

def invalidParams : Reply := r.error Codes.invalidParams "invalid params"

end Responder

/-- The parameters of a message, once it is parsed for them. -/
def parseParams {ε α : Type} : Option (Option α) → Except (SessionError ε) α
  | none => .error .malformed
  | some none => .error .missingParams
  | some (some params) => .ok params

/-- The application that incoming messages are dispatched to. -/
structure Handler (H : Type) where
  handleRequest : H → String → List UInt8 → Responder → Reply × H
  handleNotification : H → String → List UInt8 → H

/-- A message, with how sending an answer to it goes, or a failure. -/
inductive Received (ε : Type) where
  | message (text : List UInt8) (reply : Except ε Unit)
  | error (e : ε)

structure Session (H : Type) where
  handler : H
  nextId : UInt32
  /-- The messages given to the transport, the last one first. -/
  sent : List (List UInt8)

/-- A call that ended or was given up, with the messages that it took. -/
structure Waited (H ε : Type) where
  session : Session H
  used : List (Received ε)
  inbox : List (Received ε)
  outcome : Option (Except (SessionError ε) LookupResult)

namespace Session

variable {H ε : Type} (C : Codec) (handle : Handler H) (tx : Nat)

def new (handler : H) : Session H := ⟨handler, 1, []⟩

def transmit (s : Session H) (text : List UInt8) (sent : Except ε Unit) :
    Session H × Except (SessionError ε) Unit :=
  ({ s with sent := text :: s.sent }, sent.mapError .transport)

/-- Report a message that belongs to no call, as far as that goes. -/
def report (s : Session H) (text : String) (sent : Except ε Unit) : Session H :=
  match writeError C tx none Codes.badMessage text with
  | some text => (s.transmit text sent).1
  | none => s

def dispatch (s : Session H) (message : List UInt8) (method : String) (id : Option UInt32)
    (sent : Except ε Unit) : Session H × Except (SessionError ε) Unit :=
  match id with
  | none => ({ s with handler := handle.handleNotification s.handler method message }, .ok ())
  | some id =>
    let (reply, handler) := handle.handleRequest s.handler method message ⟨C, tx, id⟩
    let s := { s with handler }
    -- a reply that does not fit gives way to a small error
    match reply.or (writeError C tx (some id) Codes.internal "internal error") with
    | some text => s.transmit text sent
    | none => (s, .error .overflow)

/-- One turn of the loop of `call`. -/
def turn (s : Session H) (id : UInt32) :
    Received ε → Session H × Option (Except (SessionError ε) LookupResult)
  | .error e => (s, some (.error (.transport e)))
  | .message text sent =>
    match C.envelope text with
    | none => (s.report C tx "malformed message" sent, some (.error .malformed))
    | some ⟨inboundId, some method⟩ =>
      match s.dispatch C handle tx text method inboundId sent with
      | (s, .ok ()) => (s, none)
      | (s, .error e) => (s, some (.error e))
    | some ⟨some responseId, none⟩ =>
      if responseId = id then
        match C.response text with
        | none => (s, some (.error .malformed))
        | some ⟨_, some error⟩ => (s, some (.error (.remote (.new error.code error.message))))
        | some ⟨some result, none⟩ => (s, some (.ok result))
        | some ⟨none, none⟩ => (s, some (.error .malformed))
      else (s, none)
    | some ⟨none, none⟩ =>
      (s.report C tx "not a Peers API message" sent, some (.error .malformed))

/-- Take messages until the call ends, `limit` of them at most. -/
def await (s : Session H) (id : UInt32) (limit : Nat) (inbox : List (Received ε)) : Waited H ε :=
  match limit, inbox with
  | 0, inbox => ⟨s, [], inbox, none⟩
  | _, [] => ⟨s, [], [], none⟩
  | limit + 1, r :: inbox =>
    match s.turn C handle tx id r with
    | (s, some outcome) => ⟨s, [r], inbox, some outcome⟩
    | (s, none) =>
      let w := await s id limit inbox
      { w with used := r :: w.used }

/-- Take the next id and send a call. -/
def start (s : Session H) (method : String) (params : QueryParams) (sent : Except ε Unit) :
    Session H × Except (SessionError ε) UInt32 :=
  let id := s.nextId
  let s := { s with nextId := max (s.nextId + 1) 1 }
  match toSlice tx (C.call ⟨some id, method, some params⟩) with
  | none => (s, .error .overflow)
  | some text =>
    match s.transmit text sent with
    | (s, .error e) => (s, .error e)
    | (s, .ok ()) => (s, .ok id)

/-- Send a call and wait for its answer; the caller gives up after `limit` messages. -/
def call (s : Session H) (method : String) (params : QueryParams) (sent : Except ε Unit)
    (limit : Nat) (inbox : List (Received ε)) : Waited H ε :=
  match s.start C tx method params sent with
  | (s, .error e) => ⟨s, [], inbox, some (.error e)⟩
  | (s, .ok id) => s.await C handle tx id limit inbox

def notify (s : Session H) (method : String) (params : QueryParams) (sent : Except ε Unit) :
    Session H × Except (SessionError ε) Unit :=
  match toSlice tx (C.call ⟨none, method, some params⟩) with
  | none => (s, .error .overflow)
  | some text => s.transmit text sent

/-- Receive and serve one message. -/
def poll (s : Session H) : Received ε → Session H × Except (SessionError ε) Unit
  | .error e => (s, .error (.transport e))
  | .message text sent =>
    match C.envelope text with
    | none => (s.report C tx "malformed message" sent, .error .malformed)
    | some ⟨id, some method⟩ => s.dispatch C handle tx text method id sent
    | some ⟨some _, none⟩ => (s, .ok ())
    | some ⟨none, none⟩ => (s.report C tx "not a Peers API message" sent, .error .malformed)

/-! ### What a call can end with -/

/-- The messages have one without a method that carries the id and exactly this result. -/
def Answers (C : Codec) (used : List (Received ε)) (id : UInt32) (result : LookupResult) : Prop :=
  ∃ text sent, .message text sent ∈ used ∧ C.envelope text = some ⟨some id, none⟩ ∧
    C.response text = some ⟨some result, none⟩

variable {C handle tx} {s : Session H} {id : UInt32}

theorem nextId_report (text : String) (sent : Except ε Unit) :
    (s.report C tx text sent).nextId = s.nextId := by
  unfold report
  cases writeError C tx none Codes.badMessage text <;> rfl

theorem nextId_dispatch (message : List UInt8) (method : String) (id : Option UInt32)
    (sent : Except ε Unit) :
    (s.dispatch C handle tx message method id sent).1.nextId = s.nextId := by
  unfold dispatch
  cases id with
  | none => rfl
  | some id =>
    simp only
    split <;> rfl

/-- A turn that ends the call with a result took an answer to it, and the ids go on as they were. -/
theorem turn_spec (r : Received ε) : (s.turn C handle tx id r).1.nextId = s.nextId ∧
      ∀ result, (s.turn C handle tx id r).2 = some (.ok result) → Answers C [r] id result := by
  cases r with
  | error e => exact ⟨rfl, nofun⟩
  | message text sent =>
    unfold turn
    simp only
    split
    · exact ⟨nextId_report _ _, nofun⟩
    · rename_i inboundId method _
      have hid : (s.dispatch C handle tx text method inboundId sent).1.nextId = s.nextId :=
        nextId_dispatch _ _ _ _
      generalize s.dispatch C handle tx text method inboundId sent = d at hid ⊢
      obtain ⟨s', _ | _⟩ := d
      · exact ⟨hid, nofun⟩
      · exact ⟨hid, nofun⟩
    · rename_i responseId henv
      by_cases hid : responseId = id
      · rw [if_pos hid]
        split
        · exact ⟨rfl, nofun⟩
        · exact ⟨rfl, nofun⟩
        · rename_i result hres
          refine ⟨rfl, fun result' h => ?_⟩
          obtain rfl : result = result' := Except.ok.inj (Option.some.inj h)
          exact ⟨text, sent, List.mem_singleton_self _, hid ▸ henv, hres⟩
        · exact ⟨rfl, nofun⟩
      · rw [if_neg hid]
        exact ⟨rfl, nofun⟩
    · exact ⟨nextId_report _ _, nofun⟩

theorem await_spec (limit : Nat) (inbox : List (Received ε)) :
    (s.await C handle tx id limit inbox).session.nextId = s.nextId ∧
      ∀ result, (s.await C handle tx id limit inbox).outcome = some (.ok result) →
        Answers C (s.await C handle tx id limit inbox).used id result := by
  induction limit generalizing s inbox with
  | zero =>
    unfold await
    exact ⟨rfl, nofun⟩
  | succ limit ih =>
    cases inbox with
    | nil =>
      unfold await
      exact ⟨rfl, nofun⟩
    | cons r inbox =>
      have hturn := @turn_spec _ _ C handle tx s id r
      unfold await
      generalize s.turn C handle tx id r = t at hturn ⊢
      obtain ⟨s', _ | outcome⟩ := t
      · have ih' := ih (s := s') inbox
        refine ⟨ih'.1.trans hturn.1, fun result h => ?_⟩
        obtain ⟨text, sent, hmem, hans⟩ := ih'.2 result h
        exact ⟨text, sent, List.mem_cons_of_mem _ hmem, hans⟩
      · exact ⟨hturn.1, fun result h => hturn.2 result h⟩

theorem start_spec (method : String) (params : QueryParams) (sent : Except ε Unit) :
    (s.start C tx method params sent).1.nextId = max (s.nextId + 1) 1 ∧
      ∀ id, (s.start C tx method params sent).2 = .ok id → id = s.nextId := by
  unfold start
  simp only
  cases toSlice tx (C.call ⟨some s.nextId, method, some params⟩) with
  | none => exact ⟨rfl, fun _ h => by cases h⟩
  | some text =>
    cases sent with
    | error e => exact ⟨rfl, fun _ h => by cases h⟩
    | ok _ => exact ⟨rfl, fun id h => (Except.ok.inj h).symm⟩

theorem call_spec (method : String) (params : QueryParams) (sent : Except ε Unit) (limit : Nat)
    (inbox : List (Received ε)) :
    (s.call C handle tx method params sent limit inbox).session.nextId = max (s.nextId + 1) 1 ∧
      ∀ result, (s.call C handle tx method params sent limit inbox).outcome = some (.ok result) →
        Answers C (s.call C handle tx method params sent limit inbox).used s.nextId result := by
  obtain ⟨hnext, hid⟩ := start_spec (C := C) (s := s) method params sent
  unfold call
  generalize s.start C tx method params sent = t at hnext hid ⊢
  obtain ⟨s', e | id⟩ := t
  · exact ⟨hnext, nofun⟩
  · obtain ⟨hsame, hans⟩ := await_spec (C := C) (s := s')
      limit inbox
    exact ⟨hsame.trans hnext, hid id rfl ▸ hans⟩

theorem nextId_notify (method : String) (params : QueryParams) (sent : Except ε Unit) :
    (s.notify C tx method params sent).1.nextId = s.nextId := by
  unfold notify
  cases toSlice tx (C.call ⟨none, method, some params⟩) <;> rfl

theorem nextId_poll (r : Received ε) : (s.poll C handle tx r).1.nextId = s.nextId := by
  cases r with
  | error e => rfl
  | message text sent =>
    unfold poll
    simp only
    split
    · exact nextId_report _ _
    · exact nextId_dispatch _ _ _ _
    · rfl
    · exact nextId_report _ _

end Session

end Microtun.Api
