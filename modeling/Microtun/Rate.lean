import Microtun.Ip
import Microtun.Time
import Mathlib.Data.Nat.Basic

/-! Token buckets and the per-source rate limiter, `rate.rs`. -/

namespace Microtun

/-- The largest `u32`. -/
def maxU32 : Nat := 2 ^ 32 - 1

/-- What one operation costs, in millitokens. -/
def costMt : Nat := 1000

/-- A token bucket with a chosen rate and burst. -/
structure TokenBucket where
  millitokens : Nat
  capacityMt : Nat
  perSec : Nat
  last : Nat
deriving DecidableEq, Repr

namespace TokenBucket

def new (perSec burst now : Nat) : TokenBucket :=
  let capacityMt := min (burst * 1000) maxU32
  ⟨capacityMt, capacityMt, perSec, now⟩

def tokensAt (b : TokenBucket) (now : Nat) : Nat :=
  let elapsedMs := saturatingSince now b.last
  let gained := min (elapsedMs * b.perSec) maxMillis
  min (min (b.millitokens + gained) maxMillis) b.capacityMt

def isFull (b : TokenBucket) (now : Nat) : Bool := b.capacityMt ≤ b.tokensAt now

/-- Refill, then charge one operation if the budget allows it. -/
def tryTake (b : TokenBucket) (now : Nat) : Bool × TokenBucket :=
  let tokens := b.tokensAt now
  if costMt ≤ tokens then (true, { b with millitokens := tokens - costMt, last := now })
  else (false, { b with millitokens := tokens, last := now })

end TokenBucket

/-- What the limiter treats as one source. -/
inductive RateKey where
  | v4 (octets : BitVec 32)
  | v6Prefix (octets : BitVec 64)
deriving DecidableEq, Repr

def RateKey.fromIp (ip : IpAddr) : RateKey :=
  match Ip.unmapIp ip with
  | .v4 address => .v4 address
  | .v6 address => .v6Prefix ((address >>> 64).setWidth 64)

/-- A bounded table of buckets. -/
structure RateLimiter where
  perSec : Nat
  burst : Nat
  maxEntries : Nat
  buckets : List (RateKey × TokenBucket)
deriving DecidableEq, Repr

namespace RateLimiter

def new (perSec burst maxEntries : Nat) : RateLimiter := ⟨perSec, burst, maxEntries, []⟩

/-- Drop every bucket that has refilled to capacity. -/
def collect (l : RateLimiter) (now : Nat) : RateLimiter :=
  { l with buckets := l.buckets.filter fun (_, tokens) => !tokens.isFull now }

/-- Give an unseen source a bucket and charge it. -/
def admits (l : RateLimiter) (key : RateKey) (now : Nat) : Bool × RateLimiter :=
  let (allowed, tokens) := (TokenBucket.new l.perSec l.burst now).tryTake now
  (allowed, { l with buckets := l.buckets ++ [(key, tokens)] })

/-- Charge one handshake message to a source.  A full table denies. -/
def allow (l : RateLimiter) (ip : IpAddr) (now : Nat) : Bool × RateLimiter :=
  let key := RateKey.fromIp ip
  match l.buckets.find? (·.1 = key) with
  | some (_, tokens) =>
    let (allowed, tokens) := tokens.tryTake now
    (allowed, { l with
      buckets := l.buckets.map fun b => if b.1 = key then (key, tokens) else b })
  | none =>
    if l.maxEntries ≤ l.buckets.length then
      let l := l.collect now
      if l.maxEntries ≤ l.buckets.length then (false, l) else l.admits key now
    else l.admits key now

end RateLimiter

/-- A budget that refills one token per fixed interval. -/
structure IntervalBudget where
  available : Nat
  burst : Nat
  intervalMs : Nat
  lastRefill : Nat
deriving DecidableEq, Repr

namespace IntervalBudget

def new (interval burst now : Nat) : IntervalBudget := ⟨burst, burst, interval, now⟩

/-- Add the tokens gained until `now`. -/
def refill (b : IntervalBudget) (now : Nat) : IntervalBudget :=
  let refills := saturatingSince now b.lastRefill / b.intervalMs
  if refills = 0 then b
  else { b with
    available := min (min (b.available + min refills maxU32) maxU32) b.burst
    lastRefill := min (b.lastRefill + min (refills * b.intervalMs) maxMillis) maxMillis }

/-- Charge `count` operations, all or none. -/
def tryTakeMany (b : IntervalBudget) (count now : Nat) : Bool × IntervalBudget :=
  if count = 0 then (true, b)
  else if b.intervalMs = 0 ∨ b.burst = 0 ∨ b.burst < count then (false, b)
  else
    let b := b.refill now
    if b.available < count then (false, b) else (true, { b with available := b.available - count })

def tryTake (b : IntervalBudget) (now : Nat) : Bool × IntervalBudget := b.tryTakeMany 1 now

end IntervalBudget

end Microtun
