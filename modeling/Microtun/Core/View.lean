import Microtun.Core.Engine
import Microtun.Core.Pacing
import Microtun.Lib.Hoare

/-! The abstract engine that a concrete one stands for, and rules for the primitive programs. -/

namespace Microtun

open Hoare
open Function (update update_self update_of_ne)

variable {cap : Capacities} {R P α β : Type}

def PeerEntry.member (p : PeerEntry) : Member :=
  ⟨p.publicKey, p.isPinned, p.address, p.inboundPolicy, p.relay, p.persistentKeepalive, p.sessions,
    p.greatestTs, p.lastInitiationConsumption⟩

/-- The same run with another state of the engine. -/
abbrev World.withCore (w : World cap R P) (c : Core cap R P) : World cap R P :=
  ⟨c, w.log, w.established⟩

/-- The tables of an engine and of the log of its run. -/
def World.tables (w : World cap R P) : Tables cap where
  config := w.core.coreConfig
  peer p := (w.core.peer p).map PeerEntry.member
  find := w.core.findPeer
  slot s := (w.core.slot s).getD .free
  slotFor := w.core.slotForSessionIndex
  routes := w.core.routes
  firewall := w.core.firewall
  parked := w.core.pending.packets
  lookups := w.core.resolves
  owed := w.core.pendingReconciles
  initiations i := w.core.pendingInitiations[i]?.join
  released := w.core.pendingPeerEvictions
  budget := w.core.peerEvictions
  timer := w.core.timers
  established := w.established
  marks := w.log.filter (·.topic = .session)
  diary := w.log.filter (·.topic = .lookup)
  attempts := w.log.filter (·.topic = .attempt)
  reports := w.log.filter (·.topic = .report)
  rooms := w.log.filter (·.topic = .room)

/-! ### Reading the tables -/

section

variable {w : World cap R P} {c : Core cap R P}

theorem Core.lt_of_peer {p : Nat} {e : PeerEntry} (h : c.peer p = some e) : p < cap.maxPeers := by
  by_contra hge
  simp [Core.peer, Nat.le_of_not_lt hge] at h

theorem Core.lt_of_slot {s : Nat} {x : Slot cap.replayWords} (h : c.slot s = some x) :
    s < cap.maxSessions := by
  by_contra hge
  simp [Core.slot, Nat.le_of_not_lt hge] at h

theorem Core.slot_of_lt {s : Nat} (h : s < cap.maxSessions) : ∃ x, c.slot s = some x :=
  ⟨c.slots[s], by simp [Core.slot, h]⟩

theorem tables_peer {p : Nat} {e : PeerEntry} (h : w.core.peer p = some e) :
    w.tables.peer p = some e.member := by
  simp [World.tables, h]

theorem tables_peer_none {p : Nat} (h : w.core.peer p = none) : w.tables.peer p = none := by
  simp [World.tables, h]

theorem peer_of_tables {p : Nat} {m : Member} (h : w.tables.peer p = some m) :
    ∃ e, w.core.peer p = some e ∧ e.member = m :=
  Option.map_eq_some_iff.mp h

theorem peer_of_installed {p : Nat} (h : w.tables.Installed p) : ∃ e, w.core.peer p = some e := by
  obtain ⟨m, hm⟩ := Option.isSome_iff_exists.mp h
  obtain ⟨e, he, -⟩ := peer_of_tables hm
  exact ⟨e, he⟩

theorem installed_of_peer {p : Nat} {e : PeerEntry} (h : w.core.peer p = some e) :
    w.tables.Installed p := by
  simp [Tables.Installed, tables_peer h]

theorem tables_slot {s : Nat} {x : Slot cap.replayWords} (h : w.core.slot s = some x) :
    w.tables.slot s = x := by
  simp [World.tables, h]

theorem slot_of_tables {s : Nat} {x : Slot cap.replayWords} (h : w.tables.slot s = x)
    (hx : x ≠ .free) : w.core.slot s = some x := by
  cases hs : w.core.slot s with
  | none => simp [World.tables, hs] at h; exact absurd h.symm hx
  | some y => rw [tables_slot hs] at h; rw [h]

theorem session_tables {s : Nat} {sess : Session cap.replayWords} :
    w.core.session s = some sess ↔ w.tables.slot s = .established sess := by
  constructor
  · intro h
    simp only [Core.session] at h
    split at h
    · rename_i hs
      cases h
      exact tables_slot hs
    · cases h
  · intro h
    simp [Core.session, slot_of_tables h (by simp)]

end

/-! ### Writing the tables -/

section

variable {c : Core cap R P} {log : List Event} {n : Nat}

theorem peer_setPeer_of_ne {c : Core cap R P} {p q : Nat} {e : Option PeerEntry} (h : q ≠ p) :
    (c.setPeer p e).peer q = c.peer q := by
  simp [Core.peer, Core.setPeer, Ne.symm h]

theorem tables_setPeer {p : Nat} {e : PeerEntry} (hp : p < cap.maxPeers) :
    World.tables ⟨c.setPeer p (some e), log, n⟩ =
      (World.tables ⟨c, log, n⟩).setPeer p e.member := by
  have hpeer : ∀ q, (c.setPeer p (some e)).peer q = update c.peer p (some e) q := by
    intro q
    simp only [Core.peer, Core.setPeer, Vector.getElem?_setIfInBounds]
    by_cases hq : q = p
    · subst hq
      simp [hp]
    · simp [hq, Ne.symm hq, Core.peer]
  have : (fun q => ((c.setPeer p (some e)).peer q).map PeerEntry.member) =
      update (fun q => (c.peer q).map PeerEntry.member) p (some e.member) := by
    funext q
    rw [hpeer]
    by_cases hq : q = p
    · simp [hq]
    · simp [hq]
  simp only [World.tables, Tables.setPeer, this]
  rfl

theorem tables_setSlot {s : Nat} {x : Slot cap.replayWords} (hs : s < cap.maxSessions) :
    World.tables ⟨c.setSlot s x, log, n⟩ = (World.tables ⟨c, log, n⟩).setSlot s x := by
  have : (fun r => ((c.setSlot s x).slot r).getD .free) =
      update (fun r => (c.slot r).getD .free) s x := by
    funext r
    simp only [Core.slot, Core.setSlot, Vector.getElem?_setIfInBounds]
    by_cases hr : r = s
    · subst hr
      simp [hs]
    · simp [hr, Ne.symm hr]
  simp only [World.tables, Tables.setSlot, this]
  rfl

theorem tables_setPeer_same {p : Nat} {e e' : PeerEntry} (hp : c.peer p = some e)
    (h : e'.member = e.member) :
    World.tables ⟨c.setPeer p (some e'), log, n⟩ = World.tables ⟨c, log, n⟩ := by
  have hpeer : (World.tables ⟨c, log, n⟩).peer p = some e.member := tables_peer hp
  rw [tables_setPeer (Core.lt_of_peer hp), h, Tables.setPeer, ← hpeer, Function.update_eq_self]

theorem tables_modifyPeer_same {p : Nat} {f : PeerEntry → PeerEntry}
    (h : ∀ e, (f e).member = e.member) :
    World.tables ⟨c.modifyPeer p f, log, n⟩ = World.tables ⟨c, log, n⟩ := by
  unfold Core.modifyPeer
  split
  · exact tables_setPeer_same ‹_› (h _)
  · rfl

theorem tables_arm {d : Nat} :
    World.tables ⟨c.arm d, log, n⟩ = (World.tables ⟨c, log, n⟩).arm d := rfl

theorem tables_mark {e : Event} (h : e.topic = .session) :
    World.tables ⟨c, e :: log, n⟩ = (World.tables ⟨c, log, n⟩).mark e := by
  simp [World.tables, Tables.mark, h]

theorem tables_enter {e : Event} (h : e.topic = .lookup) :
    World.tables ⟨c, e :: log, n⟩ = (World.tables ⟨c, log, n⟩).enter e := by
  simp [World.tables, Tables.enter, h]

theorem tables_note {e : Event} (h : e.topic = .attempt) :
    World.tables ⟨c, e :: log, n⟩ = (World.tables ⟨c, log, n⟩).note e := by
  simp [World.tables, Tables.note, h]

theorem tables_silent {e : Event} (h : e.topic = .output) :
    World.tables ⟨c, e :: log, n⟩ = World.tables ⟨c, log, n⟩ := by
  simp [World.tables, h]

end

/-! ### Rules for the primitive programs -/

section

variable {w : World cap R P}

@[simp] theorem wp_getCore {Q : Core cap R P → World cap R P → Prop} :
    wp (getCore : CoreM cap R P _) Q w ↔ Q w.core w := by
  constructor
  · rintro ⟨a, s, h, hQ⟩
    cases h
    exact hQ
  · intro h
    exact ⟨_, _, rfl, h⟩

@[simp] theorem wp_updateCore {f : Core cap R P → α × Core cap R P}
    {Q : α → World cap R P → Prop} :
    wp (updateCore f : CoreM cap R P α) Q w ↔
      Q (f w.core).1 ⟨(f w.core).2, w.log, w.established⟩ := by
  constructor
  · rintro ⟨a, s, h, hQ⟩
    cases h
    exact hQ
  · intro h
    exact ⟨_, _, rfl, h⟩

@[simp] theorem wp_modifyCore {f : Core cap R P → Core cap R P} {Q : Unit → World cap R P → Prop} :
    wp (modifyCore f : CoreM cap R P Unit) Q w ↔ Q () ⟨f w.core, w.log, w.established⟩ :=
  wp_updateCore

@[simp] theorem wp_changeLookups {f : Core cap R P → α × Core cap R P}
    {Q : α → World cap R P → Prop} :
    wp (changeLookups f : CoreM cap R P α) Q w ↔ Q (f w.core).1 ⟨(f w.core).2,
      closings w.core.resolves (f w.core).2.resolves ++ w.log, w.established⟩ := by
  constructor
  · rintro ⟨a, s, h, hQ⟩
    cases h
    exact hQ
  · intro h
    exact ⟨_, _, rfl, h⟩

@[simp] theorem wp_withRng {f : R → α × R} {Q : α → World cap R P → Prop} :
    wp (withRng f : CoreM cap R P α) Q w ↔
      Q (f w.core.rng).1 ⟨{ w.core with rng := (f w.core.rng).2 }, w.log, w.established⟩ :=
  wp_updateCore

@[simp] theorem wp_newSerial {Q : Nat → World cap R P → Prop} :
    wp (newSerial : CoreM cap R P Nat) Q w ↔
      Q w.established ⟨w.core, w.log, w.established + 1⟩ := by
  constructor
  · rintro ⟨a, s, h, hQ⟩
    cases h
    exact hQ
  · intro h
    exact ⟨_, _, rfl, h⟩

@[simp] theorem wp_emit {e : Event} {Q : Unit → World cap R P → Prop} :
    wp (emit e : CoreM cap R P Unit) Q w ↔ Q () ⟨w.core, e :: w.log, w.established⟩ := by
  constructor
  · rintro ⟨a, s, h, hQ⟩
    cases h
    exact hQ
  · intro h
    exact ⟨_, _, rfl, h⟩

@[simp] theorem wpx_getCore {Q : Except Error (Core cap R P) → World cap R P → Prop} :
    wpx (getCore : CoreE cap R P _) Q w ↔ Q (.ok w.core) w := by
  constructor
  · rintro ⟨a, s, h, hQ⟩
    cases h
    exact hQ
  · intro h
    exact ⟨_, _, rfl, h⟩

@[simp] theorem wpx_updateCore {f : Core cap R P → α × Core cap R P}
    {Q : Except Error α → World cap R P → Prop} :
    wpx (updateCore f : CoreE cap R P α) Q w ↔
      Q (.ok (f w.core).1) ⟨(f w.core).2, w.log, w.established⟩ := by
  constructor
  · rintro ⟨a, s, h, hQ⟩
    cases h
    exact hQ
  · intro h
    exact ⟨_, _, rfl, h⟩

@[simp] theorem wpx_modifyCore {f : Core cap R P → Core cap R P}
    {Q : Except Error Unit → World cap R P → Prop} :
    wpx (modifyCore f : CoreE cap R P Unit) Q w ↔ Q (.ok ()) ⟨f w.core, w.log, w.established⟩ :=
  wpx_updateCore

@[simp] theorem wpx_changeLookups {f : Core cap R P → α × Core cap R P}
    {Q : Except Error α → World cap R P → Prop} :
    wpx (changeLookups f : CoreE cap R P α) Q w ↔ Q (.ok (f w.core).1) ⟨(f w.core).2,
      closings w.core.resolves (f w.core).2.resolves ++ w.log, w.established⟩ := by
  constructor
  · rintro ⟨a, s, h, hQ⟩
    cases h
    exact hQ
  · intro h
    exact ⟨_, _, rfl, h⟩

@[simp] theorem wpx_withRng {f : R → α × R} {Q : Except Error α → World cap R P → Prop} :
    wpx (withRng f : CoreE cap R P α) Q w ↔
      Q (.ok (f w.core.rng).1)
        ⟨{ w.core with rng := (f w.core.rng).2 }, w.log, w.established⟩ :=
  wpx_updateCore

@[simp] theorem wpx_newSerial {Q : Except Error Nat → World cap R P → Prop} :
    wpx (newSerial : CoreE cap R P Nat) Q w ↔
      Q (.ok w.established) ⟨w.core, w.log, w.established + 1⟩ := by
  constructor
  · rintro ⟨a, s, h, hQ⟩
    cases h
    exact hQ
  · intro h
    exact ⟨_, _, rfl, h⟩

@[simp] theorem wpx_emit {e : Event} {Q : Except Error Unit → World cap R P → Prop} :
    wpx (emit e : CoreE cap R P Unit) Q w ↔ Q (.ok ()) ⟨w.core, e :: w.log, w.established⟩ := by
  constructor
  · rintro ⟨a, s, h, hQ⟩
    cases h
    exact hQ
  · intro h
    exact ⟨_, _, rfl, h⟩

@[simp] theorem wpx_tryCore {f : Core cap R P → Except Error α × Core cap R P}
    {Q : Except Error α → World cap R P → Prop} :
    wpx (tryCore f) Q w ↔ Q (f w.core).1 ⟨(f w.core).2, w.log, w.established⟩ :=
  wp_updateCore

@[simp] theorem wpx_tryRng {f : R → Except Error α × R}
    {Q : Except Error α → World cap R P → Prop} :
    wpx (tryRng f : CoreE cap R P α) Q w ↔
      Q (f w.core.rng).1 ⟨{ w.core with rng := (f w.core.rng).2 }, w.log, w.established⟩ :=
  wp_withRng

@[simp] theorem wpx_liftExcept {r : Except Error α} {Q : Except Error α → World cap R P → Prop} :
    wpx (liftExcept r : CoreE cap R P α) Q w ↔ Q r w := wp_pure

@[simp] theorem wpx_attempt {prog : CoreE cap R P α}
    {Q : Except Error (Except Error α) → World cap R P → Prop} :
    wpx (attempt prog) Q w ↔ wpx prog (fun r => Q (.ok r)) w := by
  simp [attempt]

theorem wpx_attempt_seq {prog : CoreE cap R P α} {f : Except Error α → CoreE cap R P β}
    {Q₁ : Except Error α → World cap R P → Prop} {Q : Except Error β → World cap R P → Prop}
    (h : wpx prog Q₁ w) (hf : ∀ r w', Q₁ r w' → wpx (f r) Q w') : wpx (attempt prog >>= f) Q w := by
  rw [wpx_bind, wpx_attempt]
  exact wpx_mono h hf

theorem wpx_lift_seq {prog : CoreM cap R P α} {f : α → CoreE cap R P β}
    {Q₁ : α → World cap R P → Prop} {Q : Except Error β → World cap R P → Prop}
    (h : wp prog Q₁ w) (hf : ∀ a w', Q₁ a w' → wpx (f a) Q w') : wpx (liftM prog >>= f) Q w := by
  rw [wpx_bind, wpx_liftM]
  exact wp_mono h hf

@[simp] theorem wp_ignore {prog : CoreE cap R P α} {Q : Unit → World cap R P → Prop} :
    wp (ignore prog) Q w ↔ wpx prog (fun _ => Q ()) w := by
  simp [ignore]

theorem tryRng_spec (f : R → Except Error α × R) : wpx (tryRng f : CoreE cap R P α)
      (fun r w' => w'.tables = w.tables ∧ (f w.core.rng).1 = r) w :=
  wpx_tryRng.mpr ⟨rfl, rfl⟩

theorem withRng_spec (f : R → α × R) : wp (withRng f : CoreM cap R P α)
      (fun r w' => w'.tables = w.tables ∧ (f w.core.rng).1 = r) w :=
  wp_withRng.mpr ⟨rfl, rfl⟩

theorem wpx_withRng_spec (f : R → α × R) : wpx (withRng f : CoreE cap R P α)
      (fun r w' => w'.tables = w.tables ∧ r = .ok (f w.core.rng).1) w :=
  wpx_withRng.mpr ⟨rfl, rfl⟩

theorem liftExcept_spec (r : Except Error α) :
    wpx (liftExcept r : CoreE cap R P α) (fun r' w' => w = w' ∧ r = r') w :=
  wpx_liftExcept.mpr ⟨rfl, rfl⟩

theorem wpx_watch {site : Site} {prog : CoreE cap R P α} {Q : Except Error α → World cap R P → Prop}
    (h : wpx prog (fun r w' => r ≠ .error .internalInvariant ∧ Q r w') w) :
    wpx (watch site prog) Q w := by
  unfold watch
  rw [wpx_mk, wp_bind]
  refine wp_mono h fun r w' ⟨hne, hQ⟩ => ?_
  dsimp only
  split
  · exact absurd rfl hne
  · exact wp_pure.mpr hQ

theorem wp_withRoutes {f : RouteCache cap.maxRoutes → Except Panic (α × RouteCache cap.maxRoutes)}
    {Q : α → World cap R P → Prop} {a : α} {routes : RouteCache cap.maxRoutes}
    (hf : f w.core.routes = .ok (a, routes))
    (hQ : Q a ⟨{ w.core with routes }, w.log, w.established⟩) : wp (withRoutes f) Q w := by
  refine ⟨a, _, ?_, hQ⟩
  simp [withRoutes, hf]

theorem wpx_tryRoutes
    {f : RouteCache cap.maxRoutes → Except Panic (Except Error α × RouteCache cap.maxRoutes)}
    {Q : Except Error α → World cap R P → Prop} {a : Except Error α}
    {routes : RouteCache cap.maxRoutes} (hf : f w.core.routes = .ok (a, routes))
    (hQ : Q a ⟨{ w.core with routes }, w.log, w.established⟩) : wpx (tryRoutes f) Q w :=
  wp_withRoutes hf hQ

end

end Microtun
