import Microtun.Core.Obligations

/-! What becomes of the answers of the resolver and of the packets that wait for them. A positive
answer is kept or released, and a packet that waits for a lookup has it. -/

namespace Microtun

open Hoare Tables

section

variable {cap : Capacities} {R P : Type} {w w' : World cap R P} {config : Config} {start : Nat}

/-! ### Answers -/

/-- The peers that were reported as released, latest first. -/
def reported (log : List Event) : List Key :=
  log.filterMap fun
    | .peerEvicted key => some key
    | _ => none

theorem reported_append (later earlier : List Event) :
    reported (later ++ earlier) = reported later ++ reported earlier := List.filterMap_append

theorem reported_peerEvicted (keys : List Key) : reported (keys.map Event.peerEvicted) = keys := by
  induction keys with
  | nil => rfl
  | cons key rest ih => exact congrArg (key :: ·) ih

theorem reported_filter (log : List Event) :
    reported (log.filter fun e => e.topic = .report) = reported log := by
  induction log with
  | nil => rfl
  | cons e rest ih =>
    cases e with
    | peerEvicted key => exact congrArg (key :: ·) ih
    | resolve request taken => cases taken <;> exact ih
    | authenticated consumed known => cases known <;> exact ih
    | _ => exact ih

theorem holds_tables (hI : w.tables.Registry) (key : Key) : w.core.holds key = true ↔
    w.tables.Holds key := by
  rw [holds_iff]
  constructor
  · rintro ⟨p, e, -, he, hkey, hpin⟩
    exact ⟨p, e.member, tables_peer he, hkey, hpin⟩
  · rintro ⟨p, m, hm, hkey, hpin⟩
    obtain ⟨e, he, rfl⟩ := Option.map_eq_some_iff.mp hm
    exact ⟨p, e, (hI.find key p).mpr ⟨_, hm, hkey⟩, he, hkey, hpin⟩

variable [Crypto]

theorem Flushed.reported {now : Nat} {w1 : World cap R P} (h : Flushed now w1 w') :
    reported w'.log = w1.core.pendingPeerEvictions ++ reported w1.log := by
  have hreports : w'.tables.reports = w1.core.pendingPeerEvictions.map Event.peerEvicted ++
      w1.tables.reports := h.steps.reports (by decide)
  calc Microtun.reported w'.log = Microtun.reported w'.tables.reports :=
    (reported_filter w'.log).symm
    _ = w1.core.pendingPeerEvictions ++ Microtun.reported w1.tables.reports := by
      rw [hreports, reported_append, reported_peerEvicted]
    _ = w1.core.pendingPeerEvictions ++ Microtun.reported w1.log := by
      rw [show w1.tables.reports = w1.log.filter fun e => e.topic = .report from rfl,
        reported_filter]

theorem Flushed.holds {now : Nat} {w1 : World cap R P} (h : Flushed now w1 w') (key : Key) :
    w'.core.holds key = w1.core.holds key := by
  rw [h.core]
  rfl

variable [RngCore R] [RelayPolicy P]

/-- A completion with a positive answer for a lookup that may install a peer ends with the peer
installed, or with its release reported, unless the answer stops at a peer that no secret can be
shared with: it passes the checks, there is a place for the peer, and it is not installed. -/
theorem Reachable.answers_settled (h : Reachable cap config w) {now : Nat}
    {response : ResolveResponse} {sink : Sink}
    (hcall : (Call.resolverEventCompleted now (.resolved response) sink).run w = .ok ((), w'))
    {r : InflightResolve} (hr : r ∈ w.core.resolves) (hid : r.id = response.id)
    {admission : PeerAdmission} (hadmission : r.kind.admission = some admission)
    {info : ResolvedPeer} (hfound : response.outcome = .found info) :
    (w'.core.holds info.publicKey = true ∨
      ∃ during, reported w'.log = during ++ reported w.log ∧ info.publicKey ∈ during) ↔
    ¬w.core.Stops r.query admission info now := by
  have hS := h.sound
  obtain ⟨-, hcalled⟩ := called_of_run hS hcall
  cases hcalled with
  | @resolved _ _ _ w1 _ hflush hdone =>
    obtain ⟨answers, hsteps, -⟩ := hdone.steps
    have hI1 := hsteps.inv hS.inv
    have hreports : w1.tables.reports = w.tables.reports := hsteps.reports (Nat.le_refl 5)
    -- What is reported during the call is what it released.
    have hnew : reported w'.log = w1.core.pendingPeerEvictions ++ reported w.log := by
      rw [hflush.reported, ← reported_filter w1.log, ← reported_filter w.log]
      exact congrArg (fun l => w1.core.pendingPeerEvictions ++ reported l) hreports
    rw [← hdone.settled r hr hid admission hadmission info hfound, hflush.holds,
      holds_tables hI1.registry]
    refine or_congr_right ⟨?_, fun hmem => ⟨_, hnew, hmem⟩⟩
    rintro ⟨during, hduring, hmem⟩
    rw [hnew] at hduring
    obtain rfl : w1.core.pendingPeerEvictions = during := List.append_cancel_right hduring
    exact hmem

/-! ### Packets that wait -/

/-- Every packet that waits for a lookup has it: one in flight for its destination. Every packet
that waits for a handshake waits for an installed peer. -/
def Core.PacketsServed (c : Core cap R P) : Prop :=
  ∀ q ∈ c.pending.packets,
    (∀ id, q.wait = .resolve id → ∃ r ∈ c.resolves, ∃ header, r.id = id ∧ r.kind = .outbound ∧
      Ip.parseHeader q.packet = some header ∧ r.query = .byDstAddress header.dst) ∧
    ∀ p, q.wait = .handshake p → ∃ e, c.peer p = some e

/-- Is the call a completion that keeps and releases nobody? -/
def Core.LapsesBy (c : Core cap R P) (call : Call) : Prop :=
  ∃ now response sink, call = .resolverEventCompleted now (.resolved response) sink ∧
    c.Lapses now response

omit [RngCore R] [RelayPolicy P] in
theorem Called.served {call : Call} (h : Called w call w') (hlapses : ¬w.core.LapsesBy call)
    (hw : ServedBut w.tables none) : ServedBut w'.tables none := by
  have hflush : ∀ {now : Nat} {w1 : World cap R P}, Flushed now w1 w' → ServedBut w1.tables none →
      ServedBut w'.tables none := fun hflushed hserved => hflushed.all.servedBut rfl hserved
  cases h with
  | sendInner hflushed h => exact hflush hflushed (h.servedBut rfl hw)
  | receiveOuter hflushed h _ => exact hflush hflushed (h.servedBut rfl hw)
  | fired hflushed h =>
    obtain ⟨answers, lapses, hsteps, -⟩ := h.steps
    exact hflush hflushed (hsteps.servedBut rfl hw)
  | idle hflushed _ => exact hflush hflushed hw
  | @resolved now response sink _ _ hflushed h =>
    exact hflush hflushed (h.served hw fun hl => hlapses ⟨now, response, sink, rfl, hl⟩).1
  | peerUpdated hflushed h _ _ => exact hflush hflushed (h.servedBut rfl hw)
  | setUnixTime h _ _ => exact h ▸ hw

theorem Run.served {trace : List (World cap R P × Call)} (h : Run cap config start trace w)
    (hlapses : ∀ before call, (before, call) ∈ trace → ¬before.core.LapsesBy call) :
    ServedBut w.tables none := by
  induction h with
  | new h =>
    obtain ⟨-, t, hblank, -, hsteps, -⟩ := new_spec h
    refine hsteps.servedBut rfl fun q hq => ?_
    rw [hblank.parked] at hq
    exact absurd hq (Multiset.notMem_zero q)
  | call call hw h ih =>
    have hbefore := ih fun before call hmem => hlapses before call (List.mem_cons_of_mem _ hmem)
    exact (called_of_run hw.sound h).2.served (hlapses _ call List.mem_cons_self) hbefore

/-- In every run in which every positive answer is kept or released, no packet is stranded: each one
that waits for a lookup has that of its destination, each one that waits for a handshake waits for
an installed peer, and no packet is left behind by the lookup of a completion. -/
theorem Run.packets_served {trace : List (World cap R P × Call)} (h : Run cap config start trace w)
    (hlapses : ∀ before call, (before, call) ∈ trace → ¬before.core.LapsesBy call) :
    w.core.PacketsServed ∧ ∀ before now response sink rest,
      trace = (before, .resolverEventCompleted now (.resolved response) sink) :: rest →
      ∀ r ∈ before.core.resolves, r.id = response.id → r.kind.admission ≠ none →
        ∀ q ∈ w.core.pending.packets, q.wait ≠ .resolve r.id := by
  have hI := h.sound.inv
  refine ⟨fun q hq => ⟨fun id hid => ?_, fun p hp => ?_⟩, ?_⟩
  · exact h.served hlapses q hq id hid (by rintro ⟨⟩)
  · obtain ⟨m, hm⟩ := Option.isSome_iff_exists.mp (hI.registry.waits q hq p hp)
    obtain ⟨e, he, -⟩ := Option.map_eq_some_iff.mp hm
    exact ⟨e, he⟩
  · rintro before now response sink rest rfl r hr hid hkind q hq
    obtain ⟨hbefore, -, hcalled⟩ := h.called
    have hserved := hbefore.served fun v call hmem => hlapses v call (List.mem_cons_of_mem _ hmem)
    cases hcalled with
    | @resolved _ _ _ w1 _ hflush hdone =>
      have hnot : ¬before.core.Lapses now response := fun hl =>
        hlapses _ _ List.mem_cons_self ⟨now, response, sink, rfl, hl⟩
      have hdrained := (hdone.served hserved hnot).2 r hr hid hkind
      refine hdrained q ?_
      have hpending : w.core.pending = w1.core.pending := by rw [hflush.core]
      rw [hpending] at hq
      exact hq

end

section

open Reference Sample

namespace Sample

/-- The lookup of an address is answered. -/
def completing (now id : Nat) (outcome : ResolveOutcome) : Call :=
  .resolverEventCompleted now (.resolved ⟨id, outcome⟩) sink

end Sample

/-- A peer is found at the address of a packet, and it is installed. -/
theorem Reachable.answers_settled_found :
    ∃ (w w' : World capacities Draws Permit), Reachable capacities roomy w ∧
      (completing 0 1 (.found (unreachable 1))).run w = .ok ((), w') ∧
      w'.core.holds (publicKey (privateKey 1)) = true ∧
      ∃ r ∈ w.core.resolves, ¬w.core.Stops r.query .lazyOutbound (unreachable 1) 0 := by
  have hrun : (replay capacities roomy (⟨4⟩ : Draws) (⟨⟩ : Permit) 0
    [.sendInner 0 (packet 0 1) sink]).any
      (fun w => (w.core.resolves.any fun r => r.id = 1 ∧ r.kind = .outbound) = true ∧
        ((completing 0 1 (.found (unreachable 1))).run w).toOption.any fun r =>
          r.2.core.holds (publicKey (privateKey 1))) = true := by decide +kernel
  obtain ⟨w, hw, htest⟩ := reachable_of_replay hrun
  obtain ⟨hlookup, htest⟩ := of_decide_eq_true htest
  obtain ⟨⟨⟨⟩, w'⟩, hcall, hholds⟩ := (Option.any_eq_true _ _).mp htest
  obtain ⟨r, hr, hkind⟩ := List.any_eq_true.mp hlookup
  obtain ⟨hid, hkind⟩ := of_decide_eq_true hkind
  have hcall' := eq_ok_of_toOption hcall
  refine ⟨w, w', hw, hcall', hholds, r, hr, ?_⟩
  exact (Reachable.answers_settled hw hcall' hr hid (by rw [hkind]; rfl) rfl).mp (Or.inl hholds)

/-- Two packets wait for lookups, and one of the lookups fails. -/
theorem Run.packets_served_failed :
    ∃ (trace : List (World capacities Draws Permit × Call)) (w : World capacities Draws Permit),
      Run capacities roomy 0 trace w ∧ w.core.pending.packets.length = 1 ∧
        w.core.PacketsServed := by
  have hrun : (replay capacities roomy (⟨4⟩ : Draws) (⟨⟩ : Permit) 0
      [.sendInner 0 (packet 0 1) sink, .sendInner 0 (packet 0 2) sink, completing 0 1 .failed]).any
      (fun w => w.core.pending.packets.length = 1) = true := by decide +kernel
  obtain ⟨w, hw, htest⟩ := (Option.any_eq_true _ _).mp hrun
  obtain ⟨trace, htrace, hcalls⟩ := run_of_replay hw
  refine ⟨trace, w, htrace, of_decide_eq_true htest, (htrace.packets_served ?_).1⟩
  rintro before call hmem ⟨now, response, sink', rfl, r, -, -, info, -, -, hfound, -⟩
  have hcall := List.mem_map_of_mem (f := Prod.snd) hmem
  rw [hcalls] at hcall
  simp [completing] at hcall
  rw [hcall.2.1] at hfound
  cases hfound

end

end Microtun
