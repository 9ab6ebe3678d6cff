import Microtun.Crypto

/-! Wire message layouts, `messages.rs`. -/

namespace Microtun

namespace Messages

def msgInitiation : UInt8 := 1
def msgResponse : UInt8 := 2
def msgCookieReply : UInt8 := 3
def msgData : UInt8 := 4

/-- Relay transport data. -/
def msgRelay : UInt8 := 0xF0

/-- The associated data of relay messages: their four-byte prefix. -/
def relayAeadAd : List UInt8 := [msgRelay, 0, 0, 0]

def initiationLen : Nat := 148
def responseLen : Nat := 92
def cookieReplyLen : Nat := 64
def dataHeaderLen : Nat := 16
def dataOverhead : Nat := dataHeaderLen + tagLen
def dataMinLen : Nat := dataOverhead

namespace Init

def sender : Range := ⟨4, 8⟩
def ephemeral : Range := ⟨8, 40⟩
def static : Range := ⟨40, 88⟩
def timestamp : Range := ⟨88, 116⟩
def mac1 : Range := ⟨116, 132⟩
def mac2 : Range := ⟨132, 148⟩
def alpha : Range := ⟨0, 116⟩
def beta : Range := ⟨0, 132⟩

end Init

namespace Resp

def sender : Range := ⟨4, 8⟩
def receiver : Range := ⟨8, 12⟩
def ephemeral : Range := ⟨12, 44⟩
def empty : Range := ⟨44, 60⟩
def mac1 : Range := ⟨60, 76⟩
def mac2 : Range := ⟨76, 92⟩
def alpha : Range := ⟨0, 60⟩
def beta : Range := ⟨0, 76⟩

end Resp

namespace CookieReply

def receiver : Range := ⟨4, 8⟩
def nonce : Range := ⟨8, 32⟩
def cookie : Range := ⟨32, 64⟩

end CookieReply

namespace Data

def receiver : Range := ⟨4, 8⟩
def counter : Range := ⟨8, 16⟩
def packetStart : Nat := dataHeaderLen

end Data

/-- Write the type and the three reserved zero bytes. -/
def writeType (buf : List UInt8) (messageType : UInt8) : Except Error (List UInt8) :=
  if buf.length < 4 then .error .bufferTooSmall
  else .ok (setField buf ⟨0, 4⟩ [messageType, 0, 0, 0])

end Messages

/-- The kinds of datagram. -/
inductive Message where
  | initiation
  | response
  | cookieReply
  | data
  | relayData
deriving DecidableEq, Repr

open Messages in
/-- The kind of a datagram, by its type byte and length. -/
def classify (buf : List UInt8) : Option Message :=
  match buf with
  | messageType :: 0 :: 0 :: 0 :: _ =>
    if messageType = msgInitiation ∧ buf.length = initiationLen then some .initiation
    else if messageType = msgResponse ∧ buf.length = responseLen then some .response
    else if messageType = msgCookieReply ∧ buf.length = cookieReplyLen then some .cookieReply
    else if messageType = msgData ∧ dataMinLen ≤ buf.length then some .data
    else if messageType = msgRelay ∧ dataMinLen ≤ buf.length then some .relayData
    else none
  | _ => none

open Messages in
theorem head_of_classify_data {buf : List UInt8} (h : classify buf = some .data) :
    buf.head? = some msgData := by
  unfold classify at h
  split at h
  · repeat' split at h
    · cases h
    · cases h
    · cases h
    · rename_i hdata
      rw [List.head?_cons, hdata.1]
    · cases h
    · cases h
  · cases h

end Microtun
