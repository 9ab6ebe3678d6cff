import Microtun.Core.Engine
import Microtun.Core.View

/-! The timestamps of an engine: however its wall clock is set, they increase, as the bytes that a
peer compares. -/

namespace Microtun

open Hoare

/-- The seconds of a timestamp. -/
def secondsOf (ts : Bytes 12) : Nat := ofBeBytes (ts.toList.take 8)

/-- The nanoseconds of a timestamp. -/
def nanosOf (ts : Bytes 12) : Nat := ofBeBytes (ts.toList.drop 8)

/-- The nanoseconds are less than a second, with the low 24 bits clear. -/
def Whitened (ts : Bytes 12) : Prop := nanosOf ts < 1000000000 ∧ nanosOf ts % 2 ^ 24 = 0

/-! ### Timestamps as numbers -/

section

variable {ts ts' : Bytes 12} {seconds nanos : Nat}

theorem secondsOf_lt (ts : Bytes 12) : secondsOf ts < 2 ^ 64 := by
  have h := ofBeBytes_lt (ts.toList.take 8)
  rw [List.length_take, Vector.length_toList] at h
  exact h

theorem nanosOf_lt (ts : Bytes 12) : nanosOf ts < 2 ^ 32 := by
  have h := ofBeBytes_lt (ts.toList.drop 8)
  rw [List.length_drop, Vector.length_toList] at h
  exact h

theorem ofBeBytes_stamp (ts : Bytes 12) :
    ofBeBytes ts.toList = secondsOf ts * 2 ^ 32 + nanosOf ts := by
  have h := ofBeBytes_append (ts.toList.take 8) (ts.toList.drop 8)
  rw [List.take_append_drop, List.length_drop, Vector.length_toList] at h
  exact h

theorem stamp_lt_iff : ts.toList < ts'.toList ↔
    secondsOf ts < secondsOf ts' ∨ secondsOf ts = secondsOf ts' ∧ nanosOf ts < nanosOf ts' := by
  have hn := nanosOf_lt ts
  have hn' := nanosOf_lt ts'
  rw [lt_iff_ofBeBytes_lt (by simp), ofBeBytes_stamp, ofBeBytes_stamp]
  omega

theorem toList_stamp (seconds nanos : Nat) :
    (Bytes.ofList 12 (toBeBytes 8 seconds ++ toBeBytes 4 nanos)).toList =
      toBeBytes 8 seconds ++ toBeBytes 4 nanos :=
  Bytes.toList_ofList (by simp)

theorem secondsOf_stamp (h : seconds < 2 ^ 64) :
    secondsOf (.ofList 12 (toBeBytes 8 seconds ++ toBeBytes 4 nanos)) = seconds := by
  rw [secondsOf, toList_stamp, List.take_left' (length_toBeBytes 8 seconds), ofBeBytes_toBeBytes]
  exact Nat.mod_eq_of_lt h

theorem nanosOf_stamp (h : nanos < 2 ^ 32) :
    nanosOf (.ofList 12 (toBeBytes 8 seconds ++ toBeBytes 4 nanos)) = nanos := by
  rw [nanosOf, toList_stamp, List.drop_left' (length_toBeBytes 8 seconds), ofBeBytes_toBeBytes]
  exact Nat.mod_eq_of_lt h

theorem whitened_tai64n {unixSecs : Nat} (hnanos : nanos < 1000000000)
    (h : tai64n unixSecs nanos = .ok ts) : Whitened ts := by
  unfold tai64n at h
  simp only at h
  split at h
  · cases h
  · cases h
    rw [Whitened, nanosOf_stamp (by omega)]
    omega

/-- The next timestamp is later, whatever the one before it is. -/
theorem nextWhitenedTimestamp_spec {last : Bytes 12} (h : nextWhitenedTimestamp last = .ok ts) :
    last.toList < ts.toList ∧ Whitened ts := by
  have hlast := nanosOf_lt last
  have hseconds := secondsOf_lt last
  unfold nextWhitenedTimestamp at h
  change (if 1000000000 ≤ min (nanosOf last / 2 ^ 24 * 2 ^ 24 + 2 ^ 24) maxU32 then
    if 2 ^ 64 ≤ secondsOf last + 1 then Except.error Error.timeOverflow
    else .ok (.ofList 12 (toBeBytes 8 (secondsOf last + 1) ++ toBeBytes 4 0))
    else .ok (.ofList 12 (toBeBytes 8 (secondsOf last) ++
      toBeBytes 4 (min (nanosOf last / 2 ^ 24 * 2 ^ 24 + 2 ^ 24) maxU32)))) = .ok ts at h
  have hmax : maxU32 = 2 ^ 32 - 1 := rfl
  split at h
  · split at h
    · cases h
    · cases h
      rw [stamp_lt_iff, Whitened, secondsOf_stamp (by omega), nanosOf_stamp (by omega)]
      omega
  · cases h
    rw [stamp_lt_iff, Whitened, secondsOf_stamp hseconds, nanosOf_stamp (by omega)]
    omega

end

/-! ### Runs of the clock -/

variable {cap : Capacities} {R P : Type} {c c' : Core cap R P} {ts : Bytes 12}

theorem wallTimestamp_whitened {now : Nat} (h : c.wallTimestamp now = .ok ts) : Whitened ts := by
  unfold Core.wallTimestamp at h
  split at h
  · cases h
  · exact whitened_tai64n (Nat.mod_lt _ (by decide)) h

/-- A timestamp that is returned is later than the last one, and becomes the last one. -/
theorem timestamp_ok {now : Nat} (h : Core.timestamp now c = (.ok ts, c')) :
    c.lastTs.toList < ts.toList ∧ Whitened ts ∧ c' = { c with lastTs := ts } := by
  unfold Core.timestamp at h
  split at h
  · cases h
  · rename_i wall hwall
    split at h
    · split at h
      · cases h
      · rename_i hnext
        cases h
        obtain ⟨hlt, hwhite⟩ := nextWhitenedTimestamp_spec hnext
        exact ⟨hlt, hwhite, rfl⟩
    · rename_i hle
      cases h
      exact ⟨List.not_le.mp hle, wallTimestamp_whitened hwall, rfl⟩

theorem timestamp_error {now : Nat} {e : Error} (h : Core.timestamp now c = (.error e, c')) :
    c' = c := by
  unfold Core.timestamp at h
  split at h
  · cases h
    rfl
  · split at h
    · split at h
      · cases h
        rfl
      · cases h
    · cases h

/-- The calls of an engine that use its wall clock. -/
inductive ClockCall where
  | setUnixTime (unixSecs nanos now : Nat)
  | timestamp (now : Nat)
deriving DecidableEq, Repr

/-- Make one call.  The result is the timestamp that it returned, if it returned one. -/
def ClockCall.run : ClockCall → CoreM cap R P (Option (Bytes 12))
  | .setUnixTime unixSecs nanos now => do
    Microtun.setUnixTime unixSecs nanos now
    return none
  | .timestamp now => do
    match ← (tryCore (Core.timestamp now)).run with
    | .ok ts => return some ts
    | .error _ => return none

/-- Make some calls, the first one first, and collect the timestamps that they return. -/
def ClockCall.runAll : List ClockCall → CoreM cap R P (List (Bytes 12))
  | [] => return []
  | call :: rest => do
    let ts ← call.run
    let later ← runAll rest
    return ts.toList ++ later

/-- One call returns a later timestamp, or none and keeps the last one. -/
theorem ClockCall.run_spec (call : ClockCall) (w : World cap R P) :
    wp call.run (fun r w' => match r with
      | some ts => w.core.lastTs.toList < ts.toList ∧ Whitened ts ∧ w'.core.lastTs = ts
      | none => w'.core.lastTs = w.core.lastTs) w := by
  cases call with
  | setUnixTime unixSecs nanos now => exact ⟨_, _, rfl, rfl⟩
  | timestamp now =>
    unfold ClockCall.run
    rw [wp_bind, wp_run, wpx_tryCore]
    cases h : Core.timestamp now w.core with
    | mk r c' =>
      cases r with
      | ok ts =>
        obtain ⟨hlt, hwhite, hc⟩ := timestamp_ok h
        exact wp_pure.mpr ⟨hlt, hwhite, by rw [hc]⟩
      | error e => exact wp_pure.mpr (by rw [timestamp_error h])

/-- However the wall clock is set and whatever the instants are, the timestamps of a run increase as
byte strings, and each is whitened. -/
theorem clock_timestamps_increase (calls : List ClockCall) (w : World cap R P) :
    wp (ClockCall.runAll calls) (fun stamps _ => stamps.Pairwise (fun a b => a.toList < b.toList) ∧
      ∀ ts ∈ stamps, w.core.lastTs.toList < ts.toList ∧ Whitened ts) w := by
  induction calls generalizing w with
  | nil => exact wp_pure.mpr ⟨List.Pairwise.nil, by simp⟩
  | cons call rest ih =>
    unfold ClockCall.runAll
    refine wp_seq (ClockCall.run_spec call w) fun r w1 hr => ?_
    refine wp_seq (ih w1) ?_
    intro later w2 hlater
    obtain ⟨hpair, hall⟩ := hlater
    apply wp_pure.mpr
    cases r with
    | none =>
      dsimp only at hr
      rw [hr] at hall
      exact ⟨hpair, hall⟩
    | some ts =>
      obtain ⟨hlt, hwhite, hlast⟩ := hr
      rw [hlast] at hall
      refine ⟨List.pairwise_cons.mpr ⟨fun ts' h => (hall ts' h).1, hpair⟩, fun ts' h => ?_⟩
      rcases List.mem_cons.mp h with rfl | h
      · exact ⟨hlt, hwhite⟩
      · exact ⟨List.lt_trans hlt (hall ts' h).1, (hall ts' h).2⟩

end Microtun
