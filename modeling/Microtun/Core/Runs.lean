import Microtun.Core.Spec.New
import Microtun.Crypto.Reference

/-! Runs of an engine. A call on a sound engine does not panic, does what its kind of call may do to
the tables, and leaves a sound engine. -/

namespace Microtun

open Hoare Tables
open Function (update update_self update_of_ne)

variable {cap : Capacities} {R P : Type} [Crypto] [RngCore R] [RelayPolicy P]
  {w w' : World cap R P} {config : Config} {start : Nat}

/-- What a call does, from the world `w`. -/
inductive Called (w : World cap R P) : Call → World cap R P → Prop
  | sendInner {now : Nat} {packet : List UInt8} {sink : Sink} {w1 w' : World cap R P}
    (hflush : Flushed now w1 w') (h : Steps now (.atDesk .flow) w.tables w1.tables) :
    Called w (.sendInner now packet sink) w'
  | receiveOuter {now : Nat} {source : SocketAddr} {data : List UInt8} {sink : Sink}
    {w1 w' : World cap R P} (hflush : Flushed now w1 w')
    (h : Steps now { rank := 3, desk := true, delivers := true } w.tables w1.tables)
    (hdel : Delivered w w1 now data) : Called w (.receiveOuter now source data sink) w'
  | fired {now : Nat} {sink : Sink} {w1 w' : World cap R P} (hflush : Flushed now w1 w')
    (h : Fired now w w1) : Called w (.handleTimeout now sink) w'
  | idle {now : Nat} {sink : Sink} {w' : World cap R P} (hflush : Flushed now w.recounted w')
    (hdue : w.core.anyDue now = false) : Called w (.handleTimeout now sink) w'
  | resolved {now : Nat} {response : ResolveResponse} {sink : Sink} {w1 w' : World cap R P}
    (hflush : Flushed now w1 w') (h : Completed now response w w1) :
    Called w (.resolverEventCompleted now (.resolved response) sink) w'
  | peerUpdated {now : Nat} {update : PeerUpdate} {sink : Sink} {w1 w' : World cap R P}
    {strands : Bool} (hflush : Flushed now w1 w')
    (h : Steps now (.held update.publicKey strands) w.tables w1.tables)
    (hstrands : strands = true → w.core.Strands update)
    (howed : w.core.holds update.publicKey = true →
      Refused w now update.publicKey update.outcome →
      w.core.canOwe update.publicKey = true → OwedTo w1.tables update.publicKey) :
    Called w (.resolverEventCompleted now (.peerUpdated update) sink) w'
  | setUnixTime {unixSecs nanos now : Nat} {w' : World cap R P} (h : w'.tables = w.tables)
    (hlog : w'.log = w.log) (hcore : w'.core = { w.core with wall := w'.core.wall }) :
    Called w (.setUnixTime unixSecs nanos now) w'

omit [RngCore R] [RelayPolicy P] in
theorem World.Sound.of_tables (hS : w.Sound) (h : w'.tables = w.tables) : w'.Sound :=
  ⟨h ▸ hS.inv, h ▸ hS.routed, h ▸ hS.released, h ▸ hS.timely, h ▸ hS.candid, hS.capacity⟩

theorem call_spec (hS : w.Sound) (call : Call) :
    wp (call.run : CoreM cap R P Unit) (fun _ w' => w'.Sound ∧ Called w call w') w := by
  cases call with
  | sendInner now packet sink =>
    refine wp_seq (sendInner_spec hS now packet sink) ?_
    rintro _ w' ⟨hS', w1, hflush, h⟩
    exact wp_pure.mpr ⟨hS', .sendInner hflush h⟩
  | receiveOuter now source data sink =>
    refine wp_seq (receiveOuter_spec hS now source data sink) ?_
    rintro _ w' ⟨hS', w1, hflush, h, hdel⟩
    exact wp_pure.mpr ⟨hS', .receiveOuter hflush h hdel⟩
  | handleTimeout now sink =>
    refine wp_seq (handleTimeout_spec hS now sink) ?_
    rintro r w' ⟨hr, hS', w1, hflush, hfired, hidle⟩
    refine wp_pure.mpr ⟨hS', ?_⟩
    cases r with
    | true => exact .fired hflush (hfired rfl)
    | false =>
      rw [hidle rfl] at hflush
      exact .idle hflush hr.symm
  | resolverEventCompleted now event sink =>
    cases event with
    | resolved response =>
      refine wp_seq (resolvedCall_spec hS now response sink) ?_
      rintro _ w' ⟨hS', w1, hflush, h⟩
      exact wp_pure.mpr ⟨hS', .resolved hflush h⟩
    | peerUpdated update =>
      refine wp_seq (updatedCall_spec hS now update sink) ?_
      rintro _ w' ⟨hS', w1, hflush, ⟨strands, h, hstrands⟩, howed⟩
      exact wp_pure.mpr ⟨hS', .peerUpdated hflush h hstrands howed⟩
  | setUnixTime unixSecs nanos now =>
    refine wp_mono (setUnixTime_spec unixSecs nanos now) ?_
    rintro _ w' ⟨htables, hlog, hcore⟩
    exact ⟨hS.of_tables htables, .setUnixTime htables hlog hcore⟩

theorem called_of_run (hS : w.Sound) {call : Call} (h : call.run w = .ok ((), w')) :
    w'.Sound ∧ Called w call w' := by
  obtain ⟨_, w'', hrun, hdone⟩ := call_spec hS call
  rw [h] at hrun
  cases hrun
  exact hdone

omit [RngCore R] [RelayPolicy P] in
/-- Every call makes steps, after a recount of the timers if there was nothing to do for them. -/
theorem Called.all {call : Call} (h : Called w call w') :
    ∃ scope, Steps call.now scope w.tables w'.tables ∨
      Steps call.now scope w.recounted.tables w'.tables := by
  have hflushed : ∀ {now : Nat} {w1 : World cap R P} {scope : Scope}, Flushed now w1 w' →
      scope.rank ≤ 6 → Steps now scope w.tables w1.tables →
      Steps now { scope with rank := 6, desk := true } w.tables w'.tables := by
    intro now w1 scope hflush hrank hsteps
    have hscope : scope ≤ { scope with rank := 6, desk := true } :=
      ⟨hrank, fun _ => rfl, Or.inr rfl, id, id, Or.inr rfl, id⟩
    have hend : ({ rank := 6, desk := true } : Scope) ≤ { scope with rank := 6, desk := true } :=
      ⟨Nat.le_refl 6, id, Or.inl rfl, by rintro ⟨⟩, by rintro ⟨⟩, Or.inl rfl, by rintro ⟨⟩⟩
    exact (hsteps.widen hscope).trans (hflush.all.widen hend)
  cases h with
  | sendInner hflush h => exact ⟨_, Or.inl (hflushed hflush (by decide) h)⟩
  | receiveOuter hflush h _ => exact ⟨_, Or.inl (hflushed hflush (by decide) h)⟩
  | fired hflush h =>
    obtain ⟨answers, lapses, hsteps, -⟩ := h.steps
    exact ⟨_, Or.inl (hflushed hflush (show 2 ≤ 6 by decide) hsteps)⟩
  | idle hflush _ => exact ⟨_, Or.inr hflush.all⟩
  | resolved hflush h =>
    obtain ⟨answers, hsteps, -⟩ := h.steps
    exact ⟨_, Or.inl (hflushed hflush (show 5 ≤ 6 by decide) hsteps)⟩
  | peerUpdated hflush h _ _ => exact ⟨_, Or.inl (hflushed hflush (show 4 ≤ 6 by decide) h)⟩
  | setUnixTime h _ _ => exact ⟨.quiet, Or.inl (Steps.of_eq h)⟩

theorem Run.sound {trace : List (World cap R P × Call)} (h : Run cap config start trace w) :
    w.Sound := by
  induction h with
  | new h => exact new_sound h
  | call call _ h ih => exact (called_of_run ih h).1

theorem Run.called {trace : List (World cap R P × Call)} {call : Call}
    (h : Run cap config start ((w, call) :: trace) w') :
    Run cap config start trace w ∧ w.Sound ∧ Called w call w' := by
  cases h with
  | call call hw h => exact ⟨hw, hw.sound, (called_of_run hw.sound h).2⟩

/-- What every new engine has, what every step keeps, and what does not depend on the cached bound,
is so in every engine that a run reaches. -/
theorem Run.keeps {I : Tables cap → Prop} {trace : List (World cap R P × Call)}
    (h : Run cap config start trace w)
    (hnew : ∀ t, Blank start t → t.config = config.coreConfig → I t)
    (hstep : ∀ {now scope t t'}, Step now scope t t' → t.Inv → I t → I t')
    (htimer : ∀ t timer, I t → I { t with timer }) : I w.tables := by
  have hkeeps : ∀ {now scope} {t t' : Tables cap}, Steps now scope t t' → t.Inv → I t → I t' := by
    intro now scope t t' hsteps hinv hI
    have hboth : t'.Inv ∧ I t' := by
      refine hsteps.keeps (I := fun u => u.Inv ∧ I u) ?_ ⟨hinv, hI⟩
      rintro k u u' - hu ⟨hinv, hI⟩
      exact ⟨hinv.step hu, hstep hu hinv hI⟩
    exact hboth.2
  induction h with
  | new h =>
    obtain ⟨hchecked, t, hblank, hconfig, hsteps, -⟩ := new_spec h
    exact hkeeps hsteps (hchecked.inv hblank hconfig) (hnew t hblank hconfig)
  | call call hw h ih =>
    have hS := hw.sound
    obtain ⟨scope, hsteps | hsteps⟩ := (called_of_run hS h).2.all
    · exact hkeeps hsteps hS.inv ih
    · exact hkeeps hsteps hS.recounted.inv (htimer _ _ ih)

theorem Run.settings {trace : List (World cap R P × Call)} (h : Run cap config start trace w) :
    w.core.coreConfig = config.coreConfig :=
  h.keeps (I := fun t => t.config = config.coreConfig) (fun _ _ h => h)
    (fun hstep _ h => hstep.config.trans h) fun _ _ h => h

theorem reachable_iff : Reachable cap config w ↔ ∃ start trace, Run cap config start trace w := by
  constructor
  · intro h
    induction h with
    | new h => exact ⟨_, _, .new h⟩
    | call call _ h ih =>
      obtain ⟨start, trace, hrun⟩ := ih
      exact ⟨start, _, .call call hrun h⟩
  · rintro ⟨start, trace, h⟩
    induction h with
    | new h => exact .new h
    | call call _ h ih => exact .call call ih h

theorem Reachable.sound (h : Reachable cap config w) : w.Sound := by
  obtain ⟨start, trace, hrun⟩ := reachable_iff.mp h
  exact hrun.sound

/-! ### Runs that can be evaluated -/

/-- Make some calls, the first one first. -/
def makeCalls : List Call → World cap R P → Option (World cap R P)
  | [], w => some w
  | call :: rest, w =>
    match call.run w with
    | .ok (_, w') => makeCalls rest w'
    | .error _ => none

/-- Build an engine and make some calls. -/
def replay (cap : Capacities) (config : Config) (rng : R) (relayPolicy : P) (start : Nat)
    (calls : List Call) : Option (World cap R P) :=
  match Core.new config rng relayPolicy start with
  | .ok (.ok w) => makeCalls calls w
  | _ => none

theorem run_of_makeCalls {trace : List (World cap R P × Call)} {calls : List Call}
    (hrun : Run cap config start trace w) (h : makeCalls calls w = some w') :
    ∃ later, Run cap config start (later ++ trace) w' ∧ later.map Prod.snd = calls.reverse := by
  induction calls generalizing w trace with
  | nil =>
    obtain rfl := Option.some.inj h
    exact ⟨[], hrun, rfl⟩
  | cons call rest ih =>
    rw [makeCalls] at h
    cases hcall : call.run w with
    | error e => simp [hcall] at h
    | ok r =>
      obtain ⟨⟨⟩, w1⟩ := r
      rw [hcall] at h
      obtain ⟨later, hlater, hcalls⟩ := ih (hrun.call call hcall) h
      exact ⟨later ++ [(w, call)], by simpa using hlater, by simp [hcalls]⟩

theorem run_of_replay {rng : R} {relayPolicy : P} {calls : List Call}
    (h : replay cap config rng relayPolicy start calls = some w) :
    ∃ trace, Run cap config start trace w ∧ trace.map Prod.snd = calls.reverse := by
  unfold replay at h
  cases hnew : (Core.new config rng relayPolicy start : Except Panic
    (Except Error (World cap R P))) with
  | error e => simp [hnew] at h
  | ok r =>
    cases r with
    | error e => simp [hnew] at h
    | ok w0 =>
      rw [hnew] at h
      obtain ⟨later, hlater, hcalls⟩ := run_of_makeCalls (Run.new hnew) h
      exact ⟨later, by simpa using hlater, hcalls⟩

/-- A test that an evaluation passes is passed by a world that a run reaches. -/
theorem reachable_of_replay {rng : R} {relayPolicy : P} {calls : List Call}
    {test : World cap R P → Bool}
    (h : (replay cap config rng relayPolicy start calls).any test = true) :
    ∃ w, Reachable cap config w ∧ test w = true := by
  cases hw : replay cap config rng relayPolicy start calls with
  | none => simp [hw] at h
  | some w =>
    obtain ⟨trace, hrun, -⟩ := run_of_replay hw
    rw [hw] at h
    exact ⟨w, reachable_iff.mpr ⟨start, trace, hrun⟩, h⟩

theorem last_of_replay {rng : R} {relayPolicy : P} {calls : List Call} {call : Call}
    {test : World cap R P → Bool}
    (h : (replay cap config rng relayPolicy start (calls ++ [call])).any test = true) :
    ∃ w w', Reachable cap config w ∧ call.run w = .ok ((), w') ∧ test w' = true := by
  cases hw : replay cap config rng relayPolicy start (calls ++ [call]) with
  | none => simp [hw] at h
  | some w' =>
    obtain ⟨trace, hrun, hcalls⟩ := run_of_replay hw
    rw [hw] at h
    rw [List.reverse_append, List.reverse_singleton, List.singleton_append] at hcalls
    cases hrun with
    | new => cases hcalls
    | @call trace w _ call' hrun hcall =>
      obtain ⟨rfl, -⟩ := List.cons.inj hcalls
      exact ⟨w, w', reachable_iff.mpr ⟨start, trace, hrun⟩, hcall, h⟩

/-! A small engine for such runs. Its private key is the first of those with a number, and the peers
are those with the next numbers. -/

namespace Sample

open Reference

/-- A policy by which everything may be forwarded. -/
structure Permit where
deriving DecidableEq, Repr

instance : RelayPolicy Permit where
  authorizeRelay policy _ _ := (true, policy)

def capacities : Capacities where
  backend := .inline
  maxPeers := 2
  maxSessions := 4
  replayWords := 1
  maxRoutes := 4

/-- The key of the engine, and of its peers. -/
def privateKey (n : Nat) : Key := keyOf (8 * n + 8)

def address (n : Nat) : BitVec 32 := 0x0a000001#32 + BitVec.ofNat 32 n

def cidr (n : Nat) : IpCidr := .v4 ⟨address n, 32, IpCidr.v4_full, by simp⟩

def endpoint (n : Nat) : SocketAddr := .v4 (0xc0000201#32 + BitVec.ofNat 32 n) 51820

/-- A peer that is configured. -/
def pinned (n : Nat) : PinnedPeer where
  publicKey := publicKey (privateKey n)
  endpoint := some (endpoint n)
  relay := none
  address := cidr n
  inboundPolicy := .allowAll
  persistentKeepalive := none

/-- An engine with number `n` and some configured peers. -/
def engine (n : Nat) (peers : List PinnedPeer) : Config where
  privateKey := privateKey n
  pinned := peers
  coreConfig := .default .inline

/-- The same peer in an answer of the resolver. -/
def resolvedPeer (n : Nat) : ResolvedPeer where
  publicKey := publicKey (privateKey n)
  endpoint := some (endpoint n)
  relay := none
  address := cidr n
  inboundPolicy := .allowAll
  persistentKeepalive := none

/-- A header without a payload. -/
def packet (source destination : Nat) : List UInt8 :=
  [0x45, 0, 0, 20, 0, 0, 0, 0, 64, 17, 0, 0] ++ toBeBytes 4 (address source).toNat ++
    toBeBytes 4 (address destination).toNat

/-- A sink that takes every lookup. -/
def sink : Sink where
  resolve _ _ := true

end Sample

end Microtun
