import Microtun.Core.Promises
import Microtun.Core.Spec.Delivery

/-! What removing a peer does to the tables. -/

namespace Microtun

open Hoare
open Function (update update_self update_of_ne)

variable {cap : Capacities} {R P : Type} {w : World cap R P} {now : Nat}

namespace Tables

variable {t u : Tables cap}

/-- Free a slot and its index, whoever holds it. -/
def vacate (t : Tables cap) (s : Nat) : Tables cap :=
  { t with
    slot := update t.slot s .free
    slotFor := match (t.slot s).localIndex with
      | some i => update t.slotFor i none
      | none => t.slotFor }

/-- The slot is there, and its index leads to it. -/
def Indexed (t : Tables cap) (s : Nat) : Prop :=
  s < cap.maxSessions ∧ ∀ i, (t.slot s).localIndex = some i → t.slotFor i = some s

theorem Indexed.vacate {r s : Nat} (hs : t.Indexed s) (hr : t.Indexed r) :
    (t.vacate r).Indexed s := by
  refine ⟨hs.1, fun i hi => ?_⟩
  change (update t.slot r .free s).localIndex = some i at hi
  by_cases hsr : s = r
  · rw [hsr, update_self] at hi
    cases hi
  rw [update_of_ne hsr] at hi
  have hfor := hs.2 i hi
  show (match (t.slot r).localIndex with
    | some i => update t.slotFor i none
    | none => t.slotFor) i = some s
  cases hidx : (t.slot r).localIndex with
  | none => exact hfor
  | some j =>
    have hij : i ≠ j := by
      rintro rfl
      exact hsr (Option.some.inj (hfor.symm.trans (hr.2 i hidx)))
    show update t.slotFor j none i = some s
    rw [update_of_ne hij]
    exact hfor

/-- Freeing slots with and without their owners, the rest is the same. -/
theorem foldl_clear (slots : List Nat) (t : Tables cap) : slots.foldl clear t =
    { slots.foldl vacate t with peer := (slots.foldl clear t).peer } := by
  suffices h : ∀ (slots : List Nat) (t u : Tables cap), t = { u with peer := t.peer } →
      slots.foldl clear t = { slots.foldl vacate u with peer := (slots.foldl clear t).peer } from
    h slots t t rfl
  intro slots
  induction slots with
  | nil => exact fun t u h => h
  | cons s slots ih =>
    intro t u h
    refine ih (t.clear s) (u.vacate s) ?_
    have hslot : t.slot = u.slot := by rw [h]
    have hfor : t.slotFor = u.slotFor := by rw [h]
    have hclear : t.clear s = { t.vacate s with peer := (t.clear s).peer } := rfl
    rw [hclear]
    simp only [Tables.vacate, hslot, hfor]
    rw [h]

theorem foldl_vacate (slots : List Nat) (t : Tables cap) : slots.foldl vacate t =
    { t with
      slot := (slots.foldl vacate t).slot
      slotFor := (slots.foldl vacate t).slotFor } := by
  induction slots generalizing t with
  | nil => rfl
  | cons s slots ih => exact ih (t.vacate s)

theorem foldl_vacate_peers (slots : List Nat) (t : Tables cap) (peer : Nat → Option Member)
    (find : Key → Option Nat) : slots.foldl vacate { t with peer, find } =
      { slots.foldl vacate t with peer, find } := by
  induction slots generalizing t with
  | nil => rfl
  | cons s slots ih => exact ih (t.vacate s)

theorem foldl_clear_slot {slots : List Nat} {s : Nat} (hs : s ∈ slots ∨ t.slot s = .free) :
    (slots.foldl clear t).slot s = .free := by
  induction slots generalizing t with
  | nil => exact hs.resolve_left (by simp)
  | cons r slots ih =>
    refine ih ?_
    by_cases hsr : s = r
    · exact Or.inr (by rw [hsr]; exact clear_slot t r)
    · rcases hs with hs | hs
      · exact Or.inl ((List.mem_cons.mp hs).resolve_left hsr)
      · exact Or.inr (by show update t.slot r .free s = _; rw [update_of_ne hsr]; exact hs)

/-- Freeing slots that belong to one peer or to none leaves the others alone, and takes nothing from
the peer but its slots. -/
theorem foldl_clear_peer {slots : List Nat} {p : Nat} {m : Member}
    (howner : ∀ s ∈ slots, (t.slot s).owner = some p ∨ (t.slot s).owner = none)
    (hp : t.peer p = some m) : (∀ q, q ≠ p → (slots.foldl clear t).peer q = t.peer q) ∧
    ∃ m', (slots.foldl clear t).peer p = some m' ∧ m'.identity = m.identity ∧
      ∀ r k, m'.sessions.Lists r k → m.sessions.Lists r k := by
  induction slots generalizing t m with
  | nil => exact ⟨fun _ _ => rfl, m, hp, rfl, fun _ _ h => h⟩
  | cons s slots ih =>
    have hfirst := howner s List.mem_cons_self
    have hother : ∀ q, q ≠ p → (t.clear s).peer q = t.peer q := by
      intro q hq
      refine clear_peer_of_ne fun hown => ?_
      rcases hfirst with h | h
      · exact hq (Option.some.inj (hown.symm.trans h))
      · rw [h] at hown
        cases hown
    have hself : ∃ m₁, (t.clear s).peer p = some m₁ ∧ m₁.identity = m.identity ∧
        ∀ r k, m₁.sessions.Lists r k → m.sessions.Lists r k := by
      show ∃ m₁, (if (t.slot s).owner = some p then (t.peer p).map fun m => m.unlink s
        else t.peer p) = some m₁ ∧ _
      split
      · refine ⟨m.unlink s, by rw [hp]; rfl, rfl, fun r k h => ?_⟩
        exact ((lists_unlink m.sessions s r k).mp h).2
      · exact ⟨m, hp, rfl, fun _ _ h => h⟩
    obtain ⟨m₁, hm₁, hid₁, hlists₁⟩ := hself
    have howner₁ : ∀ r ∈ slots, ((t.clear s).slot r).owner = some p ∨
        ((t.clear s).slot r).owner = none := by
      intro r hr
      show (update t.slot s .free r).owner = some p ∨ (update t.slot s .free r).owner = none
      by_cases hrs : r = s
      · rw [hrs, update_self]
        exact Or.inr rfl
      · rw [update_of_ne hrs]
        exact howner r (List.mem_cons_of_mem _ hr)
    obtain ⟨hq, m', hm', hid', hlists'⟩ := ih howner₁ hm₁
    exact ⟨fun q hqp => (hq q hqp).trans (hother q hqp), m', hm', hid'.trans hid₁,
      fun r k h => hlists₁ r k (hlists' r k h)⟩

/-- The tables without a peer and what is kept for it. -/
def without (t : Tables cap) (p : Nat) (m : Member) (routes : RouteCache cap.maxRoutes) :
    Tables cap :=
  { m.sessions.slots.reduceOption.foldl vacate t with
    peer := update t.peer p none
    find := update t.find m.key none
    routes
    firewall := t.firewall.removePeer p
    parked := t.parked.filter fun q => q.wait ≠ .handshake p }

/-- One peer was removed, and noted as released. -/
structure Removed (t t' : Tables cap) (p : Nat) (m : Member) : Prop where
  peer : t'.peer = update t.peer p none
  find : t'.find = update t.find m.key none
  entry : ∀ j, t'.routes.entry j = (t.routes.entry j).filter fun e => e.peer ≠ p
  released : t'.released = (t.release m.key).released

theorem without_removed {p : Nat} {m : Member} {routes : RouteCache cap.maxRoutes}
    (hentry : ∀ j, routes.entry j = (t.routes.entry j).filter fun e => e.peer ≠ p) :
    Removed t ((t.without p m routes).release m.key) p m := by
  refine ⟨rfl, rfl, hentry, ?_⟩
  have hvacate := foldl_vacate m.sessions.slots.reduceOption t
  have hreleased : (t.without p m routes).released = t.released := by
    show (m.sessions.slots.reduceOption.foldl vacate t).released = t.released
    rw [hvacate]
  simp only [release, hreleased]

theorem mem_slots {ps : PeerSessions} {s : Nat} :
    s ∈ ps.slots.reduceOption ↔ ∃ k, ps.Lists s k := by
  rw [List.reduceOption_mem_iff]
  simp only [PeerSessions.slots, List.mem_cons, List.not_mem_nil, or_false]
  constructor
  · rintro (h | h | h | h)
    · exact ⟨.live, Or.inl h.symm⟩
    · exact ⟨.live, Or.inr h.symm⟩
    · exact ⟨.next, h.symm⟩
    · exact ⟨.handshake, h.symm⟩
  · rintro ⟨k, h⟩
    cases k with
    | handshake => exact Or.inr (Or.inr (Or.inr h.symm))
    | next => exact Or.inr (Or.inr (Or.inl h.symm))
    | live =>
      rcases h with h | h
      · exact Or.inl h.symm
      · exact Or.inr (Or.inl h.symm)

variable [Crypto]

theorem steps_clear (slots : List Nat) (t : Tables cap) :
    Steps now .quiet t (slots.foldl clear t) := by
  induction slots generalizing t with
  | nil => exact Steps.refl _
  | cons s slots ih => exact (Step.clear s).steps.trans (ih (t.clear s))

/-- Removing a peer takes steps: its slots are freed, then what is parked for it, its flows and its
routes go. -/
theorem steps_evict (hI : t.Inv) {p : Nat} {m : Member} {routes : RouteCache cap.maxRoutes}
    (hp : t.peer p = some m) (hpinned : m.pinned = false) (hsound : RoutesSound routes)
    (hentry : ∀ j, routes.entry j = (t.routes.entry j).filter fun e => e.peer ≠ p) :
    Steps now .admin t ((t.without p m routes).release m.key) := by
  have howner : ∀ s ∈ m.sessions.slots.reduceOption,
      (t.slot s).owner = some p ∨ (t.slot s).owner = none := by
    intro s hs
    obtain ⟨k, hk⟩ := mem_slots.mp hs
    exact Or.inl (holder_owner.mpr ⟨k, (hI.links.linked p m hp s k).mp hk⟩)
  obtain ⟨hothers, m', hm', hid, hlists⟩ := foldl_clear_peer howner hp
  have heq := foldl_clear m.sessions.slots.reduceOption t
  have hsteps : Steps now .quiet t (m.sessions.slots.reduceOption.foldl clear t) := steps_clear _ t
  have hfree : ∀ s ∈ m.sessions.slots.reduceOption,
      (m.sessions.slots.reduceOption.foldl clear t).slot s = .free :=
    fun s hs => foldl_clear_slot (Or.inl hs)
  generalize m.sessions.slots.reduceOption.foldl clear t = u at hothers hm' heq hsteps hfree
  have hIu := hsteps.inv hI
  have hframe := hsteps.frame (Nat.zero_le 1)
  have hslots : m'.sessions.slots = [none, none, none, none] := by
    have hnone : ∀ s k, ¬m'.sessions.Lists s k := fun s k hk =>
      hIu.links.not_lists_free hm' (hfree s (mem_slots.mpr ⟨k, hlists s k hk⟩)) k hk
    have hcurrent : m'.sessions.current = none :=
      Option.eq_none_iff_forall_ne_some.mpr fun s hs => hnone s .live (Or.inl hs)
    have hprevious : m'.sessions.previous = none :=
      Option.eq_none_iff_forall_ne_some.mpr fun s hs => hnone s .live (Or.inr hs)
    have hnext : m'.sessions.next = none :=
      Option.eq_none_iff_forall_ne_some.mpr fun s hs => hnone s .next hs
    have hhandshake : m'.sessions.handshake = none :=
      Option.eq_none_iff_forall_ne_some.mpr fun s hs => hnone s .handshake hs
    rw [PeerSessions.slots, hcurrent, hprevious, hnext, hhandshake]
  -- What is parked for the peer and its flows go before the peer does.
  have hdrop : Step now .quiet u (u.withParked (u.parked.filter fun q => q.wait ≠ .handshake p)) :=
    Step.dropParked (Multiset.filter_le _ _)
  have hwithin := hIu.registry.flows.removePeer p
  have hflows : Step now .flow (u.withParked (u.parked.filter fun q => q.wait ≠ .handshake p))
      { u.withParked (u.parked.filter fun q => q.wait ≠ .handshake p) with
        firewall := u.firewall.removePeer p } :=
    Step.flows (hwithin.mono fun _ hq => hq.1)
  have hroutes : ∀ j, routes.entry j = (u.routes.entry j).filter fun e => e.peer ≠ p := by
    rw [hframe.routes]
    exact hentry
  have hkey : m'.key = m.key := congrArg Identity.key hid
  have hpin : m'.pinned = m.pinned := congrArg Identity.pinned hid
  have hpeer : update u.peer p none = update t.peer p none := by
    funext q
    by_cases hq : q = p
    · rw [hq, update_self, update_self]
    · rw [update_of_ne hq, update_of_ne hq, hothers q hq]
  have hsame : t.without p m routes = { u with
      peer := update u.peer p none
      find := update u.find m'.key none
      routes
      firewall := u.firewall.removePeer p
      parked := u.parked.filter fun q => q.wait ≠ .handshake p } := by
    rw [hpeer, hkey, heq, foldl_vacate, without, foldl_vacate]
  have hgone : Step now .admin { u.withParked (u.parked.filter fun q => q.wait ≠ .handshake p) with
      firewall := u.firewall.removePeer p } ((t.without p m routes).release m.key) := by
    rw [hsame, ← hkey]
    exact Step.evict (t := { u.withParked (u.parked.filter fun q => q.wait ≠ .handshake p) with
      firewall := u.firewall.removePeer p }) hm' (hpin.trans hpinned) hslots
      (fun q hq => (Multiset.mem_filter.mp hq).2) hwithin hsound hroutes
  exact (hsteps.widen (by decide)).trans ((hdrop.steps.widen (by decide)).trans
    ((hflows.steps.widen (by decide)).trans hgone.steps))

end Tables

open Tables

/-! ### The code -/

theorem tables_unset {c : Core cap R P} {log : List Event} {n p : Nat} {key : Key}
    (hp : p < cap.maxPeers) :
    World.tables ⟨Core.setPeer { c with peersByPublicKey := c.peersByPublicKey.erase key } p none,
      log, n⟩ = { World.tables ⟨c, log, n⟩ with
        peer := update (World.tables ⟨c, log, n⟩).peer p none
        find := update (World.tables ⟨c, log, n⟩).find key none } := by
  have hpeer : (fun q =>
      ((Core.setPeer { c with peersByPublicKey := c.peersByPublicKey.erase key } p
      none).peer q).map PeerEntry.member) =
      update (fun q => (c.peer q).map PeerEntry.member) p none := by
    funext q
    by_cases hq : q = p
    · subst hq
      simp [Core.peer, Core.setPeer, hp]
    · rw [peer_setPeer_of_ne hq, update_of_ne hq]
      rfl
  have hfind : Core.findPeer (Core.setPeer { c with
      peersByPublicKey := c.peersByPublicKey.erase key } p none) = update c.findPeer key none := by
    funext k
    show (c.peersByPublicKey.erase key).lookup k = _
    by_cases hk : k = key
    · rw [hk, update_self]
      exact AList.lookup_erase _ _
    · rw [update_of_ne hk]
      exact AList.lookup_erase_ne hk
  simp only [World.tables, hpeer, hfind]
  rfl

theorem tables_vacate {c : Core cap R P} {log : List Event} {n s : Nat} {i : UInt32}
    (hs : s < cap.maxSessions) (hi : ((World.tables ⟨c, log, n⟩).slot s).localIndex = some i) :
    World.tables ⟨Core.setSlot { c with sessionIndices := c.sessionIndices.erase i } s .free, log,
      n⟩ =
      (World.tables ⟨c, log, n⟩).vacate s := by
  have hfor : (c.sessionIndices.erase i).slotFor = update c.sessionIndices.slotFor i none := by
    funext j
    rw [SessionIndexMap.slotFor_erase]
    by_cases hj : j = i <;> simp [hj]
  rw [tables_setSlot hs]
  show { World.tables ⟨c, log, n⟩ with
    slotFor := (c.sessionIndices.erase i).slotFor
    slot := update (World.tables ⟨c, log, n⟩).slot s .free } = _
  rw [hfor, Tables.vacate, hi]
  rfl

/-- Freeing the slots of a peer that was taken out of the table. -/
theorem releaseSlots_spec {slots : List Nat} (h : ∀ s ∈ slots, w.tables.Indexed s) :
    ∃ c, w.core.releaseSlots slots = (.ok (), c) ∧
      (w.withCore c).tables = slots.foldl vacate w.tables := by
  induction slots generalizing w with
  | nil => exact ⟨w.core, rfl, rfl⟩
  | cons s slots ih =>
    have hs := h s List.mem_cons_self
    obtain ⟨x, hx⟩ := Core.slot_of_lt (c := w.core) hs.1
    have hxt := tables_slot hx
    have hrest : ∀ r ∈ slots, (w.tables.vacate s).Indexed r :=
      fun r hr => (h r (List.mem_cons_of_mem _ hr)).vacate hs
    cases hidx : x.localIndex with
    | none =>
      have hset : (w.withCore (w.core.setSlot s .free)).tables = w.tables.vacate s := by
        rw [tables_setSlot hs.1, Tables.vacate, hxt, hidx]
        rfl
      obtain ⟨c, hrun, hc⟩ := ih (w := w.withCore (w.core.setSlot s .free)) (hset ▸ hrest)
      refine ⟨c, ?_, ?_⟩
      · simp only [Core.releaseSlots, hx, hidx]
        exact hrun
      · rw [List.foldl_cons, ← hset]
        exact hc
    | some i =>
      have hfor : w.core.sessionIndices.slotFor i = some s := hs.2 i (by rw [hxt, hidx])
      have hset : (w.withCore (Core.setSlot { w.core with
          sessionIndices := w.core.sessionIndices.erase i } s .free)).tables = w.tables.vacate s :=
        tables_vacate hs.1 (by
          rw [show World.tables ⟨w.core, w.log, w.established⟩ = w.tables from rfl, hxt, hidx])
      obtain ⟨c, hrun, hc⟩ := ih (w := w.withCore (Core.setSlot { w.core with
        sessionIndices := w.core.sessionIndices.erase i } s .free)) (hset ▸ hrest)
      refine ⟨c, ?_, ?_⟩
      · simp only [Core.releaseSlots, hx, hidx, SessionIndexMap.remove, hfor, ne_eq,
          not_true_eq_false, if_false]
        exact hrun
      · rw [List.foldl_cons, ← hset]
        exact hc

theorem tables_queuePeerEvicted {c : Core cap R P} {log : List Event} {n : Nat} (key : Key) :
    World.tables ⟨c.queuePeerEvicted key, log, n⟩ = (World.tables ⟨c, log, n⟩).release key := by
  unfold Core.queuePeerEvicted Tables.release
  show _ = { World.tables ⟨c, log, n⟩ with released :=
    if key ∈ c.pendingPeerEvictions then c.pendingPeerEvictions
    else if cap.backend = Backend.inline ∧ cap.maxPeers ≤ c.pendingPeerEvictions.length
      then c.pendingPeerEvictions
    else c.pendingPeerEvictions ++ [key] }
  split
  · rfl
  split
  · rfl
  · rfl

variable [Crypto]

theorem evictPeer_spec (hI : w.tables.Inv) {p : Nat} {e : PeerEntry} (he : w.core.peer p = some e)
    (hpinned : e.isPinned = false) (now : Nat) :
    wpx (evictPeer p : CoreE cap R P Unit) (fun r w' => r = .ok () ∧
      Steps now .admin w.tables w'.tables ∧ w'.log = w.log ∧
      Removed w.tables w'.tables p e.member) w := by
  have hm := tables_peer he
  have hlt := Core.lt_of_peer he
  have hholder : ∀ s ∈ e.sessions.slots.reduceOption, ∃ k,
      (w.tables.slot s).holder = some (p, k) := by
    intro s hs
    obtain ⟨k, hk⟩ := mem_slots.mp hs
    exact ⟨k, (hI.links.linked p _ hm s k).mp hk⟩
  have hslot : ∀ s ∈ e.sessions.slots.reduceOption, ∃ x, w.core.slot s = some x ∧
      w.tables.slot s = x ∧ x.owner = some p := by
    intro s hs
    obtain ⟨k, hk⟩ := hholder s hs
    have hne : w.tables.slot s ≠ .free := by
      intro hfree
      simp [hfree, Slot.holder] at hk
    exact ⟨_, slot_of_tables rfl hne, rfl, holder_owner.mpr ⟨k, hk⟩⟩
  have hindexed : ∀ s ∈ e.sessions.slots.reduceOption, w.tables.Indexed s := by
    intro s hs
    obtain ⟨x, hx, -, -⟩ := hslot s hs
    exact ⟨Core.lt_of_slot hx, fun i hi => (hI.links.index i s).mpr hi⟩
  have howns : w.core.ownsSlots p e.sessions.slots.reduceOption = true := by
    refine List.all_eq_true.mpr fun s hs => ?_
    obtain ⟨x, hx, hxt, hown⟩ := hslot s hs
    simp only [hx, hown, decide_eq_true_eq, true_and]
    cases hidx : x.localIndex with
    | none => rfl
    | some i =>
      have hfor : w.core.sessionIndices.slotFor i = some s :=
        (hindexed s hs).2 i (by rw [hxt, hidx])
      simp [hfor]
  obtain ⟨routes, hremove, hsound, hentry⟩ := hI.registry.sound.removePeer p
  refine wpx_watch ?_
  simp only [wpx_bind, wpx_getCore, then_ok, he, howns, Bool.not_true, Bool.false_eq_true, if_false,
    wpx_tryCore]
  have hfind : w.core.findPeer e.publicKey = some p := (hI.registry.find _ p).mpr ⟨_, hm, rfl⟩
  have htake : Core.takePeer p w.core = (.ok (some e), Core.setPeer { w.core with
      peersByPublicKey := w.core.peersByPublicKey.erase e.publicKey } p none) := by
    simp only [Core.takePeer, if_neg (Nat.not_le.mpr hlt), he, hfind, ne_eq, not_true_eq_false,
      if_false]
  have htaken := @tables_unset _ _ _ w.core w.log w.established _ e.publicKey
    hlt
  rw [htake]
  generalize hc : Core.setPeer { w.core with
    peersByPublicKey := w.core.peersByPublicKey.erase e.publicKey } p none = c at htaken
  obtain ⟨c₁, hrelease, hreleased⟩ := @releaseSlots_spec _ _ _ (w.withCore c)
    e.sessions.slots.reduceOption (by rw [htaken]; exact hindexed)
  have hroutes₁ : c₁.routes = w.core.routes := by
    have := congrArg Tables.routes hreleased
    rw [foldl_vacate, htaken] at this
    exact this
  simp only [then_ok, wpx_bind, wpx_tryCore]
  rw [show Core.releaseSlots e.sessions.slots.reduceOption c = _ from hrelease]
  simp only [then_ok, wpx_bind]
  refine wpx_tryRoutes (show _ = Except.ok (Except.ok (), routes) from ?_) ?_
  · rw [show (⟨c₁, w.log, w.established⟩ : World cap R P).core.routes = _ from hroutes₁]
    exact hremove
  simp only [then_ok, wpx_bind, wpx_modifyCore, hpinned, Bool.not_false, if_true]
  have hkept : (⟨{ c₁ with
      routes
      firewall := c₁.firewall.removePeer p
      pending := c₁.pending.dropIf fun q => q.wait = .handshake p }, w.log, w.established⟩ :
        World cap R P).tables = w.tables.without p e.member routes := by
    have hdrop : ((c₁.pending.dropIf fun q => q.wait = .handshake p).packets :
      Multiset PendingPacket) =
        (c₁.pending.packets : Multiset PendingPacket).filter fun q => q.wait ≠ .handshake p := by
      rw [PendingPool.dropIf_packets, Multiset.filter_coe]
      congr 1
      refine List.filter_congr fun q _ => ?_
      simp
    have hfields : (w.withCore c₁).tables =
      { e.sessions.slots.reduceOption.foldl vacate w.tables with
        peer := update w.tables.peer p none
        find := update w.tables.find e.publicKey none } := by
      rw [hreleased, htaken, foldl_vacate_peers]
    have hafter : (⟨{ c₁ with
        routes
        firewall := c₁.firewall.removePeer p
        pending := c₁.pending.dropIf fun q => q.wait = .handshake p }, w.log, w.established⟩ :
          World cap R P).tables = { (w.withCore c₁).tables with
            routes
            firewall := (w.withCore c₁).tables.firewall.removePeer p
            parked := (w.withCore c₁).tables.parked.filter fun q => q.wait ≠ .handshake p } := by
      simp only [World.tables, hdrop]
      rfl
    have hvacate := foldl_vacate e.sessions.slots.reduceOption w.tables
    rw [hafter, hfields, without, show e.member.sessions = e.sessions from rfl]
    generalize e.sessions.slots.reduceOption.foldl vacate w.tables = v at hvacate
    rw [hvacate]
    rfl
  have hsteps := @steps_evict _ now _ _ hI _ _ _ hm hpinned hsound hentry
  refine ⟨by simp, trivial, ?_, trivial, ?_⟩
  · rw [tables_queuePeerEvicted, hkept]
    exact hsteps
  · rw [tables_queuePeerEvicted, hkept]
    exact without_removed hentry

end Microtun
