import Microtun.Ip
import Microtun.Messages
import Microtun.Noise
import Microtun.Time

/-! The cookie layer of `cookie.rs`. -/

namespace Microtun

/-- How long a cookie and the secret behind it are used. -/
def cookieRefreshTime : Nat := 120000

namespace Cookie

open Messages

def labelMac1 : List UInt8 := Noise.ascii "mac1----"

def labelCookie : List UInt8 := Noise.ascii "cookie--"

/-- The address and port of a source, as the cookie covers them. -/
def addrBytes (addr : SocketAddr) : List UInt8 :=
  match (Ip.unmapSocketAddr addr).ip with
  | .v4 address => toBeBytes 4 address.toNat ++ toBeBytes 2 addr.port.toNat
  | .v6 address => toBeBytes 16 address.toNat ++ toBeBytes 2 addr.port.toNat

/-- The ranges of `mac1` and `mac2` in a handshake message, each after what it covers. -/
def macRanges (msg : List UInt8) : Option ((Range × Range) × (Range × Range)) :=
  if msg.head? = some msgInitiation ∧ msg.length = initiationLen then
    some ((Init.alpha, Init.mac1), (Init.beta, Init.mac2))
  else if msg.head? = some msgResponse ∧ msg.length = responseLen then
    some ((Resp.alpha, Resp.mac1), (Resp.beta, Resp.mac2))
  else none

end Cookie

/-- The responder's rotating cookie secret. -/
structure CookieSecret where
  current : Key
  rotatedAt : Nat
deriving DecidableEq, Repr

variable [Crypto] {R : Type} [RngCore R]

namespace Cookie

open Messages

def mac1Key (sPubReceiver : Key) : Key := hash [labelMac1, sPubReceiver.toList]

def cookieKey (sPub : Key) : Key := hash [labelCookie, sPub.toList]

/-- Fill `mac1`, and `mac2` under a cookie that is fresh enough. -/
def applyMacs (msg : List UInt8) (peerPub : Key) (cookie : Option (Bytes 16 × Nat)) (now : Nat) :
    Except Error (Bytes 16 × List UInt8) :=
  match macRanges msg with
  | none => .error .crypto
  | some ((alpha, mac1), (beta, mac2)) => do
    let m1 ← mac16 (mac1Key peerPub).toList [field msg alpha]
    let msg := setField msg mac1 m1.toList
    match cookie with
    | some (c, received) =>
      if saturatingSince now received < cookieRefreshTime then
        let m2 ← mac16 c.toList [field msg beta]
        return (m1, setField msg mac2 m2.toList)
      else return (m1, setField msg mac2 (List.replicate 16 0))
    | none => return (m1, setField msg mac2 (List.replicate 16 0))

/-- Verify `mac1` of an inbound handshake message; gives its bytes. -/
def verifyMac1 (msg : List UInt8) (ourMac1Key : Key) : Option (Bytes 16) := do
  let ((alpha, mac1), _) ← macRanges msg
  let expect ← (mac16 ourMac1Key.toList [← slice msg alpha]).toOption
  let received ← slice msg mac1
  if macEq expect received then return .ofList 16 received else none

end Cookie

namespace CookieSecret

def new (rng : R) (now : Nat) : CookieSecret × R :=
  let (current, rng) := RngCore.fillBytes rng 32
  (⟨current, now⟩, rng)

/-- Rotate the secret if it is too old. -/
def refresh (secret : CookieSecret) (rng : R) (now : Nat) : CookieSecret × R :=
  if cookieRefreshTime ≤ saturatingSince now secret.rotatedAt then
    let (next, rng) := RngCore.fillBytes rng 32
    (⟨next, now⟩, rng)
  else (secret, rng)

def cookieFor (secret : CookieSecret) (src : SocketAddr) : Except Error (Bytes 16) :=
  mac16 secret.current.toList [Cookie.addrBytes src]

/-- Verify `mac2` of an inbound handshake message. -/
def verifyMac2 (secret : CookieSecret) (msg : List UInt8) (src : SocketAddr) : Bool :=
  match Cookie.macRanges msg with
  | none => false
  | some (_, (beta, mac2)) =>
    match mac16 secret.current.toList [Cookie.addrBytes src] with
    | .error _ => false
    | .ok cookie =>
      match slice msg beta with
      | none => false
      | some betaBytes =>
        match mac16 cookie.toList [betaBytes] with
        | .error _ => false
        | .ok expect => (slice msg mac2).any (macEq expect)

end CookieSecret

namespace Cookie

open Messages

/-- Build a cookie reply to a message that carried `provokingMac1`. -/
def createCookieReply (rng : R) (secret : CookieSecret) (ourCookieKey : Key) (receiver : UInt32)
    (src : SocketAddr) (provokingMac1 : Bytes 16) (msg : List UInt8) :
    Except Error (List UInt8) × R :=
  if msg.length ≠ cookieReplyLen then (.error .bufferTooSmall, rng)
  else
    let (nonce, rng) := RngCore.fillBytes rng 24
    let reply : Except Error (List UInt8) := do
      let msg ← writeType msg msgCookieReply
      let msg := setField msg CookieReply.receiver (toLeBytes 4 receiver.toNat)
      let msg := setField msg CookieReply.nonce nonce.toList
      let tau ← secret.cookieFor src
      let out := tau.toList ++ (field msg CookieReply.cookie).drop 16
      let out ← xaeadSeal ourCookieKey nonce out 16 provokingMac1.toList
      return setField msg CookieReply.cookie out
    (reply, rng)

/-- Consume a cookie reply to the message whose `mac1` was `lastSentMac1`. -/
def consumeCookieReply (peerPub : Key) (lastSentMac1 : Bytes 16) (msg : List UInt8) :
    Except Error (Bytes 16) := do
  if msg.length ≠ cookieReplyLen then throw .crypto
  let nonce : Bytes 24 := .ofList 24 (field msg CookieReply.nonce)
  let buf := field msg CookieReply.cookie
  let cookie ← xaeadOpen (cookieKey peerPub) nonce buf lastSentMac1.toList
  return .ofList 16 cookie

end Cookie

end Microtun
