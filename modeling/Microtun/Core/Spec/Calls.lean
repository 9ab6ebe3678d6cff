import Microtun.Core.Diary
import Microtun.Core.Spec.Deadlines
import Microtun.Core.Spec.Delivery

/-! What a public call does to the tables.  Every call ends by reporting what was released and by
offering the lookups that were not offered yet. -/

namespace Microtun

open Hoare Tables
open Function (update update_self update_of_ne)

variable {cap : Capacities} {R P : Type} [Crypto] {w : World cap R P} {now : Nat}

/-! ### The sink -/

/-- What was released is reported once. -/
def Tables.flushed (t : Tables cap) : Tables cap :=
  { t with
    released := []
    reports := t.released.map Event.peerEvicted ++ t.reports }

omit [Crypto] in
theorem flushEvictions_spec : wp (flushEvictions : CoreM cap R P Unit) (fun _ w' =>
    w'.core = { w.core with pendingPeerEvictions := [] } ∧ w'.tables = w.tables.flushed) w := by
  refine ⟨(), _, rfl, rfl, ?_⟩
  have hnone : ∀ (topic : Topic), topic ≠ .report → (w.core.pendingPeerEvictions.map
      Event.peerEvicted).filter (·.topic = topic) = [] := by
    intro topic htopic
    rw [List.filter_eq_nil_iff]
    intro e he
    obtain ⟨key, -, rfl⟩ := List.mem_map.mp he
    simp [Event.topic, htopic.symm]
  have hall : (w.core.pendingPeerEvictions.map Event.peerEvicted).filter (·.topic = .report) =
      w.core.pendingPeerEvictions.map Event.peerEvicted := by
    rw [List.filter_eq_self]
    intro e he
    obtain ⟨key, -, rfl⟩ := List.mem_map.mp he
    rfl
  simp only [World.tables, Tables.flushed, List.filter_append, hall]
  rw [hnone .session (by decide), hnone .lookup (by decide), hnone .attempt (by decide),
    hnone .room (by decide)]
  rfl

/-- The lookup as it is once the sink has taken it. -/
def InflightResolve.offered (r : InflightResolve) : InflightResolve := { r with emitted := true }

omit [Crypto] in
theorem modify_emitted {i : Nat} {r : InflightResolve} {l : List InflightResolve}
    (hget : l[i]? = some r) :
    l.modify i (fun r => { r with emitted := true }) = l.set i { r with emitted := true } := by
  rw [List.modify_eq_set_getElem?, hget]
  rfl

omit [Crypto] in
theorem map_offered_set {i : Nat} {r : InflightResolve} {l : List InflightResolve}
    (hget : l[i]? = some r) :
    (l.set i { r with emitted := true }).map InflightResolve.offered =
      l.map InflightResolve.offered := by
  obtain ⟨hi, rfl⟩ := List.getElem?_eq_some_iff.mp hget
  rw [List.map_set]
  refine List.ext_getElem (by simp) fun j hj _ => ?_
  rw [List.getElem_set]
  split
  · rename_i h
    subst h
    simp [InflightResolve.offered]
  · rfl

/-- The lookups that the sink takes are offered, one after the other. -/
theorem flushResolves_spec (now : Nat) (sink : Sink) (fuel : Nat) :
    ∀ w : World cap R P, wp (flushResolves sink fuel) (fun _ w' =>
      w'.core = { w.core with resolves := w'.core.resolves } ∧
      w'.core.resolves.map InflightResolve.offered = w.core.resolves.map InflightResolve.offered ∧
      Steps now (.atDesk .quiet) w.tables w'.tables) w := by
  induction fuel with
  | zero => exact fun w => wp_pure.mpr ⟨rfl, rfl, Steps.refl _⟩
  | succ fuel ih =>
    intro w
    rw [flushResolves]
    simp only [wp_bind, wp_get]
    cases hfind : w.core.resolves.findIdx? fun r => !r.emitted with
    | none => exact wp_pure.mpr ⟨rfl, rfl, Steps.refl _⟩
    | some pos =>
      obtain ⟨r, hget, hemit⟩ := findIdx?_some hfind
      simp only [hget, wp_bind, wp_emit]
      by_cases haccept : sink.resolve w.log ⟨r.id, r.query⟩ = true
      · rw [haccept, if_neg (by simp), wp_bind, wp_modifyCore, modify_emitted hget]
        refine wp_mono (ih _) ?_
        rintro _ w' ⟨hcore, hlookups, hsteps⟩
        refine ⟨hcore, hlookups.trans (map_offered_set hget), .trans ?_ hsteps⟩
        obtain ⟨rest, hperm, hset⟩ := set_perm_of_getElem? hget { r with emitted := true }
        have hlookups : w.tables.lookups = r ::ₘ (rest : Multiset InflightResolve) :=
          Multiset.coe_eq_coe.mpr hperm
        have hoffer := @Step.offer _ _ now _ _ _ hlookups (by simpa using hemit)
        refine Steps.trans hoffer.steps (Steps.of_eq ?_)
        have hafter : ((w.core.resolves.set pos { r with emitted := true } : List InflightResolve) :
            Multiset InflightResolve) = { r with emitted := true } ::ₘ (rest : Multiset _) :=
          Multiset.coe_eq_coe.mpr hset
        rw [Tables.enter, Tables.withLookups, ← hafter]
        rfl
      · rw [Bool.not_eq_true] at haccept
        rw [haccept, if_pos (by rfl), wp_pure]
        exact ⟨rfl, rfl, Steps.refl _⟩

/-- The tables of a world in which the sink was given everything. -/
structure Flushed (now : Nat) (w w' : World cap R P) : Prop where
  core : w'.core = { w.core with pendingPeerEvictions := [], resolves := w'.core.resolves }
  lookups : w'.core.resolves.map InflightResolve.offered =
    w.core.resolves.map InflightResolve.offered
  steps : Steps now (.atDesk .quiet) w.tables.flushed w'.tables

theorem flushSinkOutput_spec (now : Nat) (sink : Sink) :
    wp (flushSinkOutput sink : CoreM cap R P Unit) (fun _ w' => Flushed now w w') w := by
  unfold flushSinkOutput
  refine wp_seq flushEvictions_spec ?_
  rintro _ w1 ⟨hcore, htables⟩
  rw [wp_bind, wp_getCore]
  refine wp_mono (flushResolves_spec now sink _ w1) ?_
  rintro _ w2 ⟨hcore2, hlookups, hsteps⟩
  refine ⟨?_, ?_, htables ▸ hsteps⟩
  · rw [hcore2, hcore]
  · rw [hlookups, hcore]

/-! ### Calls -/

/-- What holds of an engine between two calls, whatever was called. -/
structure World.Sound (w : World cap R P) : Prop where
  inv : w.tables.Inv
  routed : ∀ q, ¬w.tables.Unrouted q
  released : w.tables.released = []
  timely : Timely w.tables
  candid : Candid w.tables
  capacity : cap.backend = .inline → 2 ≤ cap.maxPeers

theorem Flushed.all {w' : World cap R P} (h : Flushed now w w') :
    Steps now { rank := 6, desk := true } w.tables w'.tables :=
  ((Step.flush).steps.widen (by decide)).trans (h.steps.widen (by decide))

theorem Flushed.unrouted {w' : World cap R P} (h : Flushed now w w') {q : Nat}
    (hq : w'.tables.Unrouted q) : w.tables.Unrouted q := by
  have hq1 : w.tables.flushed.Unrouted q := h.steps.unrouted (by decide) hq
  exact hq1

theorem World.Sound.after {w1 w' : World cap R P} {scope : Scope} (hS : w.Sound)
    (h : Steps now scope w.tables w1.tables) (hrouted : ∀ q, ¬w1.tables.Unrouted q)
    (hflush : Flushed now w1 w') : w'.Sound := by
  have hI1 := h.inv hS.inv
  refine ⟨hflush.all.inv hI1, fun q hq => hrouted q (hflush.unrouted hq), ?_,
    hflush.all.timely (h.timely hS.timely), hflush.all.candid hI1 (h.candid hS.inv hS.candid),
    hS.capacity⟩
  show w'.core.pendingPeerEvictions = []
  rw [hflush.core]

/-- The world with another bound in the cache. -/
def World.recounted (w : World cap R P) : World cap R P :=
  w.withCore { w.core with timers := w.core.timers.setExact w.core.scanDeadlines }

theorem Tables.Inv.recount {t : Tables cap} (h : t.Inv) (timer : TimerCache) :
    Tables.Inv { t with timer } := by
  obtain ⟨hl, hr, hledger, hd, h1, h2⟩ := h
  refine ⟨⟨hl.index, hl.held, hl.linked, hl.distinct, hl.attempt, hl.role⟩,
    ⟨hr.find, hr.interval, hr.waits, hr.flows, hr.sound, hr.owner, hr.single⟩, ?_,
    ⟨hd.limit, hd.room, hd.ids, hd.live, hd.negative, hd.fits, hd.spent, hd.apart, hd.slots⟩, h1,
      h2⟩
  exact ⟨hledger.words, hledger.serial, hledger.distinct, hledger.fresh, hledger.seals,
    hledger.accepts, hledger.consecutive, hledger.timely, hledger.relayed, hledger.delivered,
    hledger.faultless⟩

theorem World.Sound.recounted (hS : w.Sound) : w.recounted.Sound := by
  refine ⟨hS.inv.recount _, hS.routed, hS.released, ?_, ⟨hS.candid.lookup, hS.candid.once⟩,
    hS.capacity⟩
  have hscan : Earliest w.core.scanDeadlines w.recounted.core.Waits :=
    scanDeadlines_spec (w := w.recounted) (hS.inv.recount _).links
  exact timely_iff.mpr hscan.1

theorem Fired.armed {w1 : World cap R P} (h : Fired now w w1) :
    Fired now w (w1.withCore (w1.core.arm now)) := by
  obtain ⟨⟨answers, lapses, hsteps, hwhy⟩, hrel, hkept⟩ := h
  refine ⟨⟨answers, lapses, hsteps.trans ((Step.arm now).steps.widen (Scope.quiet_le _)), hwhy⟩, ?_,
    ?_⟩
  · exact hrel
  · exact hkept

variable [RngCore R]

theorem handleTimeout_spec (hS : w.Sound) (now : Nat) (sink : Sink) :
    wp (handleTimeout now sink : CoreM cap R P Bool) (fun r w' => r = w.core.anyDue now ∧ w'.Sound ∧
      ∃ w1, Flushed now w1 w' ∧ (r = true → Fired now w w1) ∧
        (r = false → w1 = w.recounted)) w := by
  unfold handleTimeout
  refine wp_seq (timeout_spec hS.inv) ?_
  rintro r w1 ⟨hr, hidle, hfired⟩
  cases r with
  | true =>
    rw [if_pos rfl, wp_bind, wp_modifyCore, wp_bind]
    refine wp_mono (flushSinkOutput_spec now sink) ?_
    rintro _ w' hflush
    have harmed := (hfired rfl).armed
    obtain ⟨answers, lapses, h1, -⟩ := harmed.steps
    refine wp_pure.mpr ⟨hr, hS.after h1 (fun q hq => hS.routed q (h1.unrouted (Nat.le_succ_of_le
      (Nat.le_succ 2)) hq)) hflush, _, hflush, fun _ => harmed, by rintro ⟨⟩⟩
  | false =>
    obtain rfl := hidle rfl
    rw [if_neg (by simp), wp_bind, wp_modifyCore, wp_bind]
    refine wp_mono (flushSinkOutput_spec now sink) ?_
    rintro _ w' hflush
    refine wp_pure.mpr ⟨hr, hS.recounted.after (@Steps.refl _ _ .quiet _ _) hS.recounted.routed
      hflush, _, hflush, by rintro ⟨⟩, fun _ => rfl⟩

theorem sendInner_spec (hS : w.Sound) (now : Nat) (packet : List UInt8) (sink : Sink) :
    wp (sendInner now packet sink : CoreM cap R P _) (fun _ w' => w'.Sound ∧
      ∃ w1, Flushed now w1 w' ∧ Steps now (.atDesk .flow) w.tables w1.tables) w := by
  unfold sendInner
  refine wp_seq (outbound_spec hS.inv now packet) ?_
  rintro r w1 ⟨h1, -⟩
  rw [wp_bind]
  refine wp_mono (flushSinkOutput_spec now sink) ?_
  rintro _ w' hflush
  exact wp_pure.mpr ⟨hS.after h1 (fun q hq => hS.routed q (h1.unrouted (by decide) hq)) hflush, w1,
    hflush, h1⟩

theorem receiveOuter_spec [RelayPolicy P] (hS : w.Sound) (now : Nat) (source : SocketAddr)
    (data : List UInt8) (sink : Sink) :
    wp (receiveOuter now source data sink : CoreM cap R P _) (fun _ w' => w'.Sound ∧
      ∃ w1, Flushed now w1 w' ∧
        Steps now { rank := 3, desk := true, delivers := true } w.tables w1.tables ∧
        Delivered w w1 now data) w := by
  unfold receiveOuter
  have hrest : ∀ (r : Except Error Unit) (w1 : World cap R P),
      Steps now { rank := 3, desk := true, delivers := true } w.tables w1.tables ∧
        Delivered w w1 now data →
      wp (do flushSinkOutput sink; return r : CoreM cap R P _) (fun _ w' => w'.Sound ∧
        ∃ w1, Flushed now w1 w' ∧
          Steps now { rank := 3, desk := true, delivers := true } w.tables w1.tables ∧
          Delivered w w1 now data) w1 := by
    rintro r w1 ⟨h1, hdel⟩
    rw [wp_bind]
    refine wp_mono (flushSinkOutput_spec now sink) ?_
    rintro _ w' hflush
    exact wp_pure.mpr ⟨hS.after h1 (fun q hq => hS.routed q (h1.unrouted (by decide) hq)) hflush,
      w1, hflush, h1, hdel⟩
  dsimp only
  by_cases hlen : maxUdpSize < data.length
  · rw [if_pos hlen]
    refine wp_seq (wp_pure.mpr rfl : wp _ (fun _ w1 => w1 = w) w) ?_
    rintro r _ rfl
    exact hrest r _ ⟨Steps.refl _, Or.inl rfl⟩
  · rw [if_neg hlen]
    exact wp_seq (datagram_spec hS.inv _ data now) hrest

theorem resolvedCall_spec (hS : w.Sound) (now : Nat) (response : ResolveResponse) (sink : Sink) :
    wp (resolverEventCompleted now (.resolved response) sink : CoreM cap R P _) (fun _ w' =>
      w'.Sound ∧ ∃ w1, Flushed now w1 w' ∧ Completed now response w w1) w := by
  unfold resolverEventCompleted
  refine wp_seq (resolved_spec hS.inv hS.capacity hS.released hS.routed now response) ?_
  rintro r w1 h1
  rw [wp_bind]
  refine wp_mono (flushSinkOutput_spec now sink) ?_
  rintro _ w' hflush
  obtain ⟨answers, hdone, -⟩ := h1.steps
  exact wp_pure.mpr ⟨hS.after hdone (fun q hq => hS.routed q (h1.routed q hq)) hflush, w1, hflush,
    h1⟩

theorem updatedCall_spec (hS : w.Sound) (now : Nat) (update : PeerUpdate) (sink : Sink) :
    wp (resolverEventCompleted now (.peerUpdated update) sink : CoreM cap R P _) (fun _ w' =>
      w'.Sound ∧ ∃ w1, Flushed now w1 w' ∧
        (∃ strands, Steps now (.held update.publicKey strands) w.tables w1.tables ∧
          (strands = true → w.core.Strands update)) ∧
        (w.core.holds update.publicKey = true → Refused w now update.publicKey update.outcome →
          w.core.canOwe update.publicKey = true → OwedTo w1.tables update.publicKey)) w := by
  unfold resolverEventCompleted
  refine wp_seq (peerUpdated_spec hS.inv now update) ?_
  rintro r w1 ⟨⟨strands, h1, hstrands⟩, howed⟩
  rw [wp_bind]
  refine wp_mono (flushSinkOutput_spec now sink) ?_
  rintro _ w' hflush
  exact wp_pure.mpr ⟨hS.after h1 (fun q hq => hS.routed q (h1.unrouted (Nat.le_refl 4) hq)) hflush,
    w1, hflush, ⟨strands, h1, hstrands⟩, howed⟩

omit [Crypto] [RngCore R] in
theorem setUnixTime_spec (unixSecs nanos now : Nat) :
    wp (setUnixTime unixSecs nanos now : CoreM cap R P Unit) (fun _ w' =>
      w'.tables = w.tables ∧ w'.log = w.log ∧ w'.core = { w.core with wall := w'.core.wall })
        w := by
  unfold setUnixTime
  rw [wp_modifyCore]
  exact ⟨rfl, rfl, rfl⟩

end Microtun
