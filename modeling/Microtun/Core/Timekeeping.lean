import Microtun.Core.Runs

/-! The timers of every reachable engine: the cached bound is never late, and calls for the timers
come to an end. -/

namespace Microtun

open Hoare Tables

variable {cap : Capacities} {R P : Type} {w w' : World cap R P} {now : Nat}

/-! ### The cached bound -/

/-- What is waited for does not depend on the cached bound, nor on what the sink has taken. -/
theorem Core.Waits.of_fields {c c' : Core cap R P} {d : Nat} (h : c.Waits d)
    (hpeers : c'.peers = c.peers) (hslots : c'.slots = c.slots) (hpending : c'.pending = c.pending)
    (hlookups : c'.resolves.map InflightResolve.offered = c.resolves.map InflightResolve.offered)
    (howed : c'.pendingReconciles = c.pendingReconciles) : c'.Waits d := by
  have hpeer : ∀ p, c'.peer p = c.peer p := fun p => by rw [Core.peer, hpeers, Core.peer]
  have hslot : ∀ s, c'.slot s = c.slot s := fun s => by rw [Core.slot, hslots, Core.slot]
  cases h with
  | keepalive hp h => exact .keepalive ((hpeer _).trans hp) h
  | persistentKeepalive hp h => exact .persistentKeepalive ((hpeer _).trans hp) h
  | reply hp h => exact .reply ((hpeer _).trans hp) h
  | attempt hp h => exact .attempt ((hpeer _).trans hp) h
  | retry hs => exact .retry ((hslot _).trans hs)
  | expiry hs => exact .expiry ((hslot _).trans hs)
  | packet hq => exact .packet (hpending ▸ hq)
  | @lookup r hr =>
    have hmem : r.offered ∈ c'.resolves.map InflightResolve.offered :=
      hlookups ▸ List.mem_map_of_mem hr
    obtain ⟨x, hx, hoffered⟩ := List.mem_map.mp hmem
    have hoffered' : x.offered.deadline = r.offered.deadline := by rw [hoffered]
    have hdeadline : x.deadline = r.deadline := hoffered'
    rw [← hdeadline]
    exact .lookup hx
  | reconcile ho => exact .reconcile (howed ▸ ho)

theorem Flushed.waits [Crypto] (h : Flushed now w w') (d : Nat) : w'.core.Waits d ↔
    w.core.Waits d := by
  have hpeers : w'.core.peers = w.core.peers := by rw [h.core]
  have hslots : w'.core.slots = w.core.slots := by rw [h.core]
  have hpending : w'.core.pending = w.core.pending := by rw [h.core]
  have howed : w'.core.pendingReconciles = w.core.pendingReconciles := by rw [h.core]
  constructor
  · intro hd
    exact hd.of_fields hpeers.symm hslots.symm hpending.symm h.lookups.symm howed.symm
  · intro hd
    exact hd.of_fields hpeers hslots hpending h.lookups howed

theorem waits_recounted (d : Nat) : w.recounted.core.Waits d ↔ w.core.Waits d :=
  ⟨fun h => h.of_fields rfl rfl rfl rfl rfl, fun h => h.of_fields rfl rfl rfl rfl rfl⟩

section

variable [Crypto] [RngCore R]

theorem handleTimeout_false {sink : Sink} (hS : w.Sound)
    (h : handleTimeout now sink w = .ok (false, w')) :
    w.core.anyDue now = false ∧ Flushed now w.recounted w' := by
  obtain ⟨r, w'', hrun, hr, -, w1, hflush, -, hidle⟩ := handleTimeout_spec hS now sink
  rw [h] at hrun
  cases hrun
  exact ⟨hr.symm, hidle rfl ▸ hflush⟩

/-- The cached bound of a reachable engine is not later than any deadline.  After a call for the
timers that found nothing to do, every deadline lies ahead and the bound is the earliest of them,
unless a deadline is at the end of time. -/
theorem Reachable.polls_in_time [RelayPolicy P] {config : Config} (h : Reachable cap config w) :
    NotAfter w.core.pollAt w.core.scanDeadlines ∧
      ∀ now sink w', handleTimeout now sink w = .ok (false, w') →
        (∀ d, w.core.Waits d → d ≠ maxMillis) →
        (∀ d, w'.core.Waits d → now < d) ∧ Earliest w'.core.pollAt w'.core.Waits := by
  have hS := h.sound
  have hscan := scanDeadlines_spec hS.inv.links
  refine ⟨fun d hd => timely_iff.mp hS.timely d (hscan.2 d hd) d rfl, ?_⟩
  intro now sink w' hcall hsat
  obtain ⟨hdue, hflush⟩ := handleTimeout_false hS hcall
  have hwaits : ∀ d, w'.core.Waits d ↔ w.core.Waits d := fun d =>
    (hflush.waits d).trans (waits_recounted d)
  refine ⟨fun d hd => ?_, ?_⟩
  · have hd' := (hwaits d).mp hd
    exact lt_of_anyDue_false hS.inv.links hdue hd' (hsat d hd')
  · have hpoll : w'.core.pollAt = w.core.scanDeadlines := by
      rw [hflush.core]
      rfl
    rw [hpoll]
    exact hscan.congr fun d => (hwaits d).symm

end

section

open Reference Sample

/-- An engine that is to send a keepalive in 25 seconds. -/
theorem Reachable.polls_in_time_keepalive :
    ∃ (config : Config) (w w' : World capacities Draws Permit), Reachable capacities config w ∧
      w.core.pollAt = some 25000 ∧ handleTimeout 1 sink w = .ok (false, w') ∧
      NotAfter w.core.pollAt w.core.scanDeadlines ∧ (∀ d, w'.core.Waits d → 1 < d) ∧
      Earliest w'.core.pollAt w'.core.Waits := by
  have hrun : (replay capacities (engine 0 [{ pinned 1 with persistentKeepalive := some 25000 }])
      (⟨2⟩ : Draws) (⟨⟩ : Permit) 0 []).any (fun w => w.core.pollAt = some 25000 ∧
        w.core.anyDue 1 = false ∧ (∀ o ∈ w.core.peers.toList, ∀ e, o = some e →
          e.sessions = { PeerSessions.default with persistentKeepaliveDue := some 25000 }) ∧
        (∀ x ∈ w.core.slots.toList, x.isFree = true) ∧ w.core.pending.packets = [] ∧
        w.core.resolves = [] ∧ w.core.pendingReconciles = []) = true := by
    decide
  obtain ⟨w, hw, htest⟩ := reachable_of_replay hrun
  obtain ⟨hpoll, hidle, hpeers, hslots, hpackets, hlookups, howed⟩ := of_decide_eq_true htest
  have hS := hw.sound
  obtain ⟨r, w', hcall, rfl, -⟩ := handleTimeout_spec hS 1 sink
  rw [hidle] at hcall
  have hsat : ∀ d, w.core.Waits d → d ≠ maxMillis := by
    intro d hd
    rcases (waits_iff hS.inv.links d).mp hd with (⟨o, ho, e, he, hwait⟩ | ⟨x, hx, hwait⟩) | hjob
    · rw [PeerEntry.Waits, hpeers o ho e he] at hwait
      obtain rfl : 25000 = d := by simpa [PeerSessions.default] using hwait
      decide
    · cases x with
      | free => cases hwait
      | initiating i => cases hslots _ hx
      | established sess => cases hslots _ hx
    · simp [hpackets, hlookups, howed] at hjob
  obtain ⟨hbound, hafter⟩ := hw.polls_in_time
  exact ⟨_, w, w', hw, hpoll, hcall, hbound, hafter 1 sink w' hcall hsat⟩

end

/-! ### Calls for the timers -/

section

variable [Crypto] [RngCore R]

/-- Call for the timers, as long as there was something to do; says whether nothing is left. -/
def drain (now : Nat) : List Sink → CoreM cap R P Bool
  | [] => return false
  | sink :: rest => do
    if ← handleTimeout now sink then drain now rest else return true

theorem handleTimeout_due {sink : Sink} (hS : w.Sound) (hnow : now < maxMillis)
    (httl : w.core.coreConfig.negativeTtl ≠ 0) :
    wp (handleTimeout now sink : CoreM cap R P Bool) (fun r w' => w'.Sound ∧
      w'.core.coreConfig = w.core.coreConfig ∧
      (r = true → w'.tables.due now < w.tables.due now)) w := by
  refine wp_mono (handleTimeout_spec hS now sink) ?_
  rintro r w' ⟨-, hS', w1, hflush, hfired, hidle⟩
  have hconfig : w'.core.coreConfig = w1.core.coreConfig := by rw [hflush.core]
  cases r with
  | false =>
    refine ⟨hS', ?_, by rintro ⟨⟩⟩
    rw [hconfig, hidle rfl]
    rfl
  | true =>
    have hf := hfired rfl
    obtain ⟨answers, lapses, hsteps, -⟩ := hf.steps
    have hconfig1 : w1.core.coreConfig = w.core.coreConfig := hsteps.config
    refine ⟨hS', hconfig.trans hconfig1, fun _ => ?_⟩
    have hless : w1.tables.due now < w.tables.due now := hf.relieves hnow httl
    have httl1 : w1.core.coreConfig.negativeTtl ≠ 0 := hconfig1 ▸ httl
    have hafter : w'.tables.due now ≤ w1.tables.due now := (hflush.all.eased hnow httl1).due_le
    exact Nat.lt_of_le_of_lt hafter hless

/-- There are no more calls with something to do than there is due. -/
theorem drain_spec (hnow : now < maxMillis) (n : Nat) : ∀ {w : World cap R P} {sinks : List Sink},
    w.Sound → w.core.coreConfig.negativeTtl ≠ 0 → w.tables.due now ≤ n → n < sinks.length →
    wp (drain now sinks : CoreM cap R P Bool) (fun r _ => r = true) w := by
  induction n with
  | zero =>
    intro w sinks hS httl hdue hlen
    cases sinks with
    | nil => cases hlen
    | cons sink rest =>
      rw [drain]
      refine wp_seq (handleTimeout_due hS hnow httl) ?_
      rintro r w' ⟨-, -, hless⟩
      cases r with
      | false => exact wp_pure.mpr rfl
      | true => exact absurd (hless rfl) (by omega)
  | succ n ih =>
    intro w sinks hS httl hdue hlen
    cases sinks with
    | nil => cases hlen
    | cons sink rest =>
      rw [drain]
      refine wp_seq (handleTimeout_due hS hnow httl) ?_
      rintro r w' ⟨hS', hconfig, hless⟩
      cases r with
      | false => exact wp_pure.mpr rfl
      | true =>
        rw [if_pos rfl]
        have hlen' : n < rest.length := Nat.lt_of_succ_lt_succ hlen
        exact ih hS' (hconfig ▸ httl) (by have := hless rfl; omega) hlen'

/-- If negative answers last, then every reachable engine is done with its timers after finitely
many calls at one instant, whatever the sink takes. -/
theorem Reachable.timeouts_end [RelayPolicy P] {config : Config} (h : Reachable cap config w)
    (httl : config.coreConfig.negativeTtl ≠ 0) (hnow : now < maxMillis) :
    ∃ n, ∀ sinks : List Sink, n < sinks.length → ∃ w', drain now sinks w = .ok (true, w') := by
  obtain ⟨start, trace, hrun⟩ := reachable_iff.mp h
  refine ⟨w.tables.due now, fun sinks hlen => ?_⟩
  obtain ⟨r, w', hdrain, rfl⟩ := drain_spec hnow _ hrun.sound (hrun.settings ▸ httl) le_rfl hlen
  exact ⟨w', hdrain⟩

end

section

open Reference Sample

/-- An engine whose handshake is to be retried. -/
theorem Reachable.timeouts_end_retry :
    ∃ w : World capacities Draws Permit, Reachable capacities (engine 0 [pinned 1]) w ∧
      w.core.anyDue 6000 = true ∧
      ∃ n, ∀ sinks : List Sink, n < sinks.length → ∃ w', drain 6000 sinks w = .ok (true, w') := by
  have hrun : (replay capacities (engine 0 [pinned 1]) (⟨2⟩ : Draws) (⟨⟩ : Permit) 0
      [.setUnixTime 1 0 0, .sendInner 0 (packet 0 1) sink]).any
      (fun w => w.core.anyDue 6000) = true := by decide +kernel
  obtain ⟨w, hw, htest⟩ := reachable_of_replay hrun
  exact ⟨w, hw, htest, hw.timeouts_end (by decide) (by decide)⟩

end

section

variable [Crypto] [RngCore R]

/-- An obligation is due for a peer that is held, there is no room to ask for it, and it is put off
by no time at all. -/
structure Core.Stuck (now : Nat) (c : Core cap R P) : Prop where
  ttl : c.coreConfig.negativeTtl = 0
  packets : ∀ q ∈ c.pending.packets, now < q.deadline
  lookups : ∀ r ∈ c.resolves, now < r.deadline ∧ r.emitted = true ∧ r.kind ≠ .negative
  full : c.coreConfig.maxInflightResolves ≤ c.resolves.length
  single : c.pendingReconciles.length = 1
  owed : ∀ o ∈ c.pendingReconciles, o.due ≤ now ∧ (c.findPeer o.publicKey).isSome

namespace Core.Stuck

variable {c : Core cap R P}

omit [Crypto] [RngCore R]

instance (now : Nat) (c : Core cap R P) : Decidable (c.Stuck now) :=
  decidable_of_iff (c.coreConfig.negativeTtl = 0 ∧ (∀ q ∈ c.pending.packets, now < q.deadline) ∧
    (∀ r ∈ c.resolves, now < r.deadline ∧ r.emitted = true ∧ r.kind ≠ .negative) ∧
    c.coreConfig.maxInflightResolves ≤ c.resolves.length ∧ c.pendingReconciles.length = 1 ∧
    ∀ o ∈ c.pendingReconciles, o.due ≤ now ∧ (c.findPeer o.publicKey).isSome)
    ⟨fun ⟨h1, h2, h3, h4, h5, h6⟩ => ⟨h1, h2, h3, h4, h5, h6⟩,
      fun ⟨h1, h2, h3, h4, h5, h6⟩ => ⟨h1, h2, h3, h4, h5, h6⟩⟩

theorem defer (h : c.Stuck now) : (c.deferReconcile 0 now).Stuck now := by
  obtain ⟨o, howed⟩ := List.length_eq_one_iff.mp h.single
  have hafter : (c.deferReconcile 0 now).pendingReconciles =
      [{ o with due := saturatingAdd now 0 }] := by
    show c.pendingReconciles.modify 0 _ = _
    rw [howed, h.ttl]
    rfl
  have hfind : (c.findPeer o.publicKey).isSome := (h.owed o (by simp [howed])).2
  refine ⟨h.ttl, h.packets, h.lookups, h.full, by rw [hafter]; rfl, fun x hx => ?_⟩
  rw [hafter, List.mem_singleton] at hx
  rw [hx]
  exact ⟨Nat.min_le_left _ _, hfind⟩

theorem pushResolve (h : c.Stuck now) (entry : InflightResolve) :
    c.pushResolve entry = (.error .resolverBusy, c) := by
  have hnone : minPosition (fun r : InflightResolve => r.kind = .negative) (·.deadline) c.resolves =
      none := by
    cases hpos : minPosition (fun r : InflightResolve => r.kind = .negative) (·.deadline)
        c.resolves with
    | none => rfl
    | some i =>
      obtain ⟨r, hr, hneg⟩ := minPosition_spec hpos
      exact absurd (of_decide_eq_true hneg) (h.lookups r (List.mem_of_getElem? hr)).2.2
  rw [Core.pushResolve, tryPushResolve, if_pos h.full]
  simp only [hnone]

theorem promote (h : c.Stuck now) : ∃ c', c.promoteDueReconcile now = (true, c') ∧ c'.Stuck now ∧
      c'.pendingPeerEvictions = c.pendingPeerEvictions := by
  obtain ⟨o, howed⟩ := List.length_eq_one_iff.mp h.single
  obtain ⟨hdue, hfind⟩ := h.owed o (by simp [howed])
  have hpos : c.pendingReconciles.findIdx? (fun p => p.due ≤ now) = some 0 := by
    rw [howed]
    simp [hdue]
  have hget : c.pendingReconciles[0]? = some o := by rw [howed]; rfl
  have hsome : (c.findPeer o.publicKey).isNone = false := by
    rw [← Option.not_isSome, hfind]
    rfl
  rw [promoteDueReconcile, hpos]
  simp only [hget, hsome, Bool.false_eq_true, if_false]
  by_cases hsup : c.resolveSuppressed (.byPublicKey o.publicKey) now = true
  · rw [if_pos hsup]
    exact ⟨_, rfl, h.defer, rfl⟩
  · rw [if_neg hsup]
    have halloc : c.allocResolveId.2.Stuck now :=
      ⟨h.ttl, h.packets, h.lookups, h.full, h.single, h.owed⟩
    simp only [halloc.pushResolve]
    exact ⟨_, rfl, halloc.defer, rfl⟩

end Core.Stuck

omit [Crypto] [RngCore R] in
theorem flushSinkOutput_stuck (h : w.core.Stuck now) (sink : Sink) :
    wp (flushSinkOutput sink : CoreM cap R P Unit) (fun _ w' => w'.core.Stuck now) w := by
  unfold flushSinkOutput
  refine wp_seq flushEvictions_spec ?_
  rintro _ w1 ⟨hcore, -⟩
  have h1 : w1.core.Stuck now := by
    rw [hcore]
    exact ⟨h.ttl, h.packets, h.lookups, h.full, h.single, h.owed⟩
  rw [wp_bind, wp_getCore]
  cases w1.core.resolves.length with
  | zero => exact wp_pure.mpr h1
  | succ fuel =>
    have hnone : w1.core.resolves.findIdx? (fun r => !r.emitted) = none := by
      rw [List.findIdx?_eq_none_iff]
      intro r hr
      simp [(h1.lookups r hr).2.1]
    rw [flushResolves, wp_bind, wp_get, hnone]
    exact wp_pure.mpr h1

/-- An engine that is stuck has something to do, and is stuck when it has done it. -/
theorem handleTimeout_stuck (h : w.core.Stuck now) (sink : Sink) :
    wp (handleTimeout now sink : CoreM cap R P Bool) (fun r w' => r = true ∧ w'.core.Stuck now)
      w := by
  have hexpire : w.core.pending.expireOne now = (false, w.core.pending) := by
    rcases PendingPool.expireOne_packets (p := w.core.pending) now with ⟨hnone, -⟩ |
      ⟨q, -, hq, hperm⟩
    · exact hnone
    · have := h.packets q (hperm.mem_iff.mpr List.mem_cons_self)
      omega
  have hlookups : Core.expireOneResolve now w.core = (false, w.core) := by
    have hnone : w.core.resolves.findIdx? (fun r => r.deadline ≤ now) = none := by
      rw [List.findIdx?_eq_none_iff]
      intro r hr
      simp [(h.lookups r hr).1]
    rw [Core.expireOneResolve, hnone]
  obtain ⟨c', hpromote, hstuck, -⟩ := h.promote
  have htimeout : wp (timeout now : CoreM cap R P Bool)
      (fun r w' => r = true ∧ w'.core.Stuck now) w := by
    unfold timeout
    rw [wp_bind, wp_updateCore, hexpire]
    dsimp only
    rw [if_neg (by simp), wp_bind, wp_changeLookups]
    dsimp only
    rw [hlookups, if_neg (by simp), wp_bind, wp_updateCore]
    dsimp only
    rw [hpromote, if_pos rfl]
    exact wp_pure.mpr ⟨rfl, hstuck⟩
  unfold handleTimeout
  refine wp_seq htimeout ?_
  rintro _ w1 ⟨rfl, h1⟩
  rw [if_pos rfl, wp_bind, wp_modifyCore, wp_bind]
  have harmed : (w1.core.arm now).Stuck now :=
    ⟨h1.ttl, h1.packets, h1.lookups, h1.full, h1.single, h1.owed⟩
  refine wp_mono (flushSinkOutput_stuck (w := w1.withCore (w1.core.arm now)) harmed sink) ?_
  exact fun _ w' h' => wp_pure.mpr ⟨rfl, h'⟩

theorem drain_stuck (sinks : List Sink) : ∀ {w : World cap R P}, w.core.Stuck now →
    wp (drain now sinks : CoreM cap R P Bool) (fun r _ => r = false) w := by
  induction sinks with
  | nil => exact fun _ => wp_pure.mpr rfl
  | cons sink rest ih =>
    intro w h
    rw [drain]
    refine wp_seq (handleTimeout_stuck h sink) ?_
    rintro _ w' ⟨rfl, h'⟩
    rw [if_pos rfl]
    exact ih h'

end

section

open Reference Sample

/-- Settings with which negative answers do not last, and with room for one lookup. -/
def Sample.forgetful : Config :=
  { engine 0 [] with coreConfig := { CoreConfig.default .inline with
    negativeTtl := 0
    maxInflightResolves := 1 } }

/-- A peer is found, its record is to be asked for again, and another lookup takes the room. -/
theorem Reachable.timeouts_spin :
    ∃ w : World capacities Draws Permit, Reachable capacities forgetful w ∧
      ∀ sinks : List Sink, ∃ w', drain 0 sinks w = .ok (false, w') := by
  have hrun : (replay capacities forgetful (⟨2⟩ : Draws) (⟨⟩ : Permit) 0
      [.sendInner 0 (packet 0 1) sink,
        .resolverEventCompleted 0 (.resolved ⟨1, .found (resolvedPeer 1)⟩) sink,
        .resolverEventCompleted 0 (.peerUpdated ⟨publicKey (privateKey 1), .failed⟩) sink,
        .sendInner 0 (packet 0 2) sink]).any (fun w => w.core.Stuck 0) = true := by decide +kernel
  obtain ⟨w, hw, hstuck⟩ := reachable_of_replay hrun
  refine ⟨w, hw, fun sinks => ?_⟩
  obtain ⟨r, w', hdrain, rfl⟩ := drain_stuck sinks (of_decide_eq_true hstuck)
  exact ⟨w', hdrain⟩

end

end Microtun
