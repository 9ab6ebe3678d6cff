import Microtun.Core.Runs

/-! The tables of every reachable engine agree with each other: the wire-index map, the slots, the
peers and their generations; the keys, the routes, the flows and the parked packets. -/

namespace Microtun

open Hoare Tables

variable {cap : Capacities} {R P : Type} {w : World cap R P}

/-! ### Sessions -/

/-- The wire-index map, the slot pool, the peer table and the generations of each peer agree. -/
structure Core.SlotsAgree (c : Core cap R P) : Prop where
  index : ∀ i s, c.slotForSessionIndex i = some s ↔ ∃ x, c.slot s = some x ∧ x.localIndex = some i
  /-- A slot in use is listed once by its owner: as its handshake if it is an attempt of ours, as
  its next session if it is one that we answered and that is not confirmed. -/
  owned : ∀ s x, c.slot s = some x → x ≠ .free → ∃ p e, x.owner = some p ∧ c.peer p = some e ∧
    e.sessions.slots.count (some s) = 1 ∧
    (e.sessions.handshake = some s ↔ ∃ h, x = .initiating h) ∧
    (e.sessions.next = some s ↔
      ∃ sess, x = .established sess ∧ sess.role = .responder ∧ sess.confirmed = false)
  listed : ∀ p e, c.peer p = some e → ∀ s, some s ∈ e.sessions.slots →
    ∃ x, c.slot s = some x ∧ x ≠ .free ∧ x.owner = some p
  attempt : ∀ p e, c.peer p = some e →
    (e.sessions.attemptDeadline.isSome ↔ e.sessions.handshake.isSome)

theorem mem_slots_iff {ps : PeerSessions} {s : Nat} : some s ∈ ps.slots ↔ ∃ k, ps.Lists s k := by
  constructor
  · intro h
    simp only [PeerSessions.slots, List.mem_cons, List.not_mem_nil, or_false] at h
    rcases h with h | h | h | h
    · exact ⟨.live, Or.inl h.symm⟩
    · exact ⟨.live, Or.inr h.symm⟩
    · exact ⟨.next, h.symm⟩
    · exact ⟨.handshake, h.symm⟩
  · rintro ⟨k, h⟩
    cases k with
    | handshake => simp [PeerSessions.slots, show ps.handshake = some s from h]
    | next => simp [PeerSessions.slots, show ps.next = some s from h]
    | live =>
      rcases h with h | h
      · simp [PeerSessions.slots, h]
      · simp [PeerSessions.slots, h]

theorem count_slots {ps : PeerSessions} {s : Nat} {k : Stage} (hk : ∀ l, ps.Lists s l ↔ l = k)
    (hdistinct : ps.current = some s → ps.previous ≠ some s) : ps.slots.count (some s) = 1 := by
  have hhand := hk .handshake
  have hnext := hk .next
  have hlive := hk .live
  simp only [PeerSessions.Lists] at hhand hnext hlive
  simp only [PeerSessions.slots, List.count_cons, List.count_nil, beq_iff_eq]
  cases k <;> by_cases hc : ps.current = some s <;> by_cases hp : ps.previous = some s <;>
    simp_all

theorem tables_slot_ne {s p : Nat} {k : Stage} (h : (w.tables.slot s).holder = some (p, k)) :
    ∃ x, w.core.slot s = some x ∧ x ≠ .free ∧ x.holder = some (p, k) := by
  have hne : w.tables.slot s ≠ .free := by
    intro hfree
    rw [hfree] at h
    cases h
  exact ⟨_, slot_of_tables rfl hne, hne, h⟩

theorem handshake_stage {n p : Nat} {x : Slot n} {k : Stage} (h : x.holder = some (p, k)) :
    Stage.handshake = k ↔ ∃ i, x = .initiating i := by
  cases x with
  | free => cases h
  | initiating i =>
    obtain ⟨-, rfl⟩ : i.peer = p ∧ Stage.handshake = k := by simpa [Slot.holder] using h
    exact ⟨fun _ => ⟨i, rfl⟩, fun _ => rfl⟩
  | established sess =>
    obtain ⟨-, rfl⟩ : sess.peer = p ∧ (if sess.confirmed then Stage.live else .next) = k := by
      simpa [Slot.holder] using h
    cases sess.confirmed <;> simp

/-- The slots that are held as next sessions are those that we answered and that are not confirmed.
-/
theorem next_stage {n p : Nat} {x : Slot n} {k : Stage} (h : x.holder = some (p, k))
    (hrole : ∀ sess, x = .established sess → sess.confirmed = false → sess.role = .responder) :
    Stage.next = k ↔ ∃ sess, x = .established sess ∧ sess.role = .responder ∧
      sess.confirmed = false := by
  cases x with
  | free => cases h
  | initiating i =>
    obtain ⟨-, rfl⟩ : i.peer = p ∧ Stage.handshake = k := by simpa [Slot.holder] using h
    simp
  | established sess =>
    obtain ⟨-, rfl⟩ : sess.peer = p ∧ (if sess.confirmed then Stage.live else .next) = k := by
      simpa [Slot.holder] using h
    cases hconf : sess.confirmed with
    | true => simp [hconf]
    | false => simp [hconf, hrole sess rfl hconf]

theorem Tables.Links.slotsAgree (h : Links w.tables) : w.core.SlotsAgree := by
  refine ⟨fun i s => ?_, fun s x hx hfree => ?_, fun p e he s hs => ?_, fun p e he => ?_⟩
  · have hindex := h.index i s
    constructor
    · intro hfor
      have hlocal := hindex.mp hfor
      have hne : w.tables.slot s ≠ .free := by
        intro hfree
        rw [hfree] at hlocal
        cases hlocal
      exact ⟨_, slot_of_tables rfl hne, hlocal⟩
    · rintro ⟨x, hx, hlocal⟩
      exact hindex.mpr (by rw [tables_slot hx, hlocal])
  · obtain ⟨p, hp⟩ := Option.ne_none_iff_exists'.mp fun hnone => hfree (holder_none hnone)
    obtain ⟨k, hk⟩ := holder_owner.mp hp
    have hslot : w.tables.slot s = x := tables_slot hx
    obtain ⟨e, he⟩ := peer_of_installed (h.held s p k (by rw [hslot, hk]))
    have hlists : ∀ l, e.sessions.Lists s l ↔ l = k := by
      intro l
      show e.member.sessions.Lists s l ↔ l = k
      rw [h.linked p e.member (tables_peer he) s l, hslot, hk]
      simp [eq_comm]
    refine ⟨p, e, hp, he, count_slots hlists (h.distinct p e.member (tables_peer he) s), ?_, ?_⟩
    · exact (hlists .handshake).trans (handshake_stage hk)
    · exact (hlists .next).trans (next_stage hk fun sess hsess => h.role s sess (hslot.trans hsess))
  · obtain ⟨k, hk⟩ := mem_slots_iff.mp hs
    obtain ⟨x, hx, hne, hholder⟩ :=
      tables_slot_ne ((h.linked p e.member (tables_peer he) s k).mp hk)
    exact ⟨x, hx, hne, holder_owner.mpr ⟨k, hholder⟩⟩
  · exact h.attempt p e.member (tables_peer he)

/-- In every reachable engine the tables of the sessions agree, and none of the functions that check
this has ever reported the opposite. -/
theorem Reachable.slots_agree [Crypto] [RngCore R] [RelayPolicy P] {config : Config}
    (h : Reachable cap config w) : w.core.SlotsAgree ∧ ∀ site, .fault site ∉ w.log := by
  have hinv := h.sound.inv
  refine ⟨hinv.links.slotsAgree, fun site hsite => hinv.ledger.faultless site ?_⟩
  exact List.mem_filter.mpr ⟨hsite, rfl⟩

section

open Reference Sample

/-- An engine that has begun a handshake. -/
theorem Reachable.slots_agree_initiating :
    ∃ w : World capacities Draws Permit, Reachable capacities (engine 0 [pinned 1]) w ∧
      w.core.slotForSessionIndex 3 = some 0 ∧ w.core.SlotsAgree ∧ ∀ site, .fault site ∉ w.log := by
  have hrun : (replay capacities (engine 0 [pinned 1]) (⟨2⟩ : Draws) (⟨⟩ : Permit) 0
      [.setUnixTime 1 0 0, .sendInner 0 (packet 0 1) sink]).any
      (fun w => w.core.slotForSessionIndex 3 = some 0) = true := by decide +kernel
  obtain ⟨w, hw, htest⟩ := reachable_of_replay hrun
  exact ⟨w, hw, of_decide_eq_true htest, hw.slots_agree⟩

end

/-! ### Peers -/

/-- The keys, the routes, the flows and the parked packets agree with the table of peers. -/
structure Core.PeersAgree (c : Core cap R P) : Prop where
  keys : ∀ key p, c.findPeer key = some p ↔ ∃ e, c.peer p = some e ∧ e.publicKey = key
  /-- A peer has one route, for its address. -/
  route : ∀ p e, c.peer p = some e → ∃ i x, c.routes.entry i = some x ∧ x.peer = p ∧
    x.cidr = e.address ∧ x.pinned = e.isPinned ∧
    ∀ j y, c.routes.entry j = some y → y.peer = p → j = i
  /-- Nothing is left at an index without a peer. -/
  vacant : ∀ p, c.peer p = none → (∀ s x, c.slot s = some x → x.owner ≠ some p) ∧
    (∀ i x, c.routes.entry i = some x → x.peer ≠ p) ∧ (∀ x ∈ c.firewall.entries, x.peer ≠ p) ∧
    c.firewall.peerCount p = 0 ∧ ∀ x ∈ c.pending.packets, x.wait ≠ .handshake p

/-- Nothing is kept for an index without a peer. -/
theorem Tables.Registry.vacant (h : Registry w.tables) (hlinks : Links w.tables) {p : Nat}
    (hp : w.core.peer p = none) : (∀ s x, w.core.slot s = some x → x.owner ≠ some p) ∧
      (∀ i x, w.core.routes.entry i = some x → x.peer ≠ p) ∧
      (∀ x ∈ w.core.firewall.entries, x.peer ≠ p) ∧
      w.core.firewall.peerCount p = 0 ∧ ∀ x ∈ w.core.pending.packets, x.wait ≠ .handshake p := by
  have hnone : ¬w.tables.Installed p := by
    intro hinst
    obtain ⟨e, he⟩ := peer_of_installed hinst
    rw [hp] at he
    cases he
  refine ⟨fun s x hx howner => ?_, fun i x hx hpeer => ?_, fun x hx hpeer => ?_,
    h.flows.2 p hnone, fun x hx hwait => ?_⟩
  · obtain ⟨k, hk⟩ := holder_owner.mp howner
    exact hnone (hlinks.held s p k (by rw [tables_slot hx, hk]))
  · obtain ⟨m, hm, -⟩ := h.owner i x hx
    rw [hpeer] at hm
    exact hnone (by simp [Tables.Installed, hm])
  · exact hnone (hpeer ▸ h.flows.1 x hx)
  · exact hnone (h.waits x hx p hwait)

/-- In every reachable engine the keys, the routes, the flows and the parked packets agree with the
table of peers. -/
theorem Reachable.peers_agree [Crypto] [RngCore R] [RelayPolicy P] {config : Config}
    (h : Reachable cap config w) : w.core.PeersAgree := by
  have hinv := h.sound.inv
  refine ⟨fun key p => ?_, fun p e he => ?_, fun p hp => hinv.registry.vacant hinv.links hp⟩
  · refine (hinv.registry.find key p).trans ?_
    constructor
    · rintro ⟨m, hm, hkey⟩
      obtain ⟨e, he, rfl⟩ := peer_of_tables hm
      exact ⟨e, he, hkey⟩
    · rintro ⟨e, he, hkey⟩
      exact ⟨e.member, tables_peer he, hkey⟩
  · -- A peer without a route is only there in the middle of a call.
    have hroute : ∃ i x, w.core.routes.entry i = some x ∧ x.peer = p := by
      by_contra hno
      push Not at hno
      exact h.sound.routed p ⟨installed_of_peer he, hno⟩
    obtain ⟨i, x, hx, hxp⟩ := hroute
    obtain ⟨m, hm, hcidr, hpinned⟩ := hinv.registry.owner i x hx
    rw [hxp, tables_peer he] at hm
    obtain rfl := Option.some.inj hm
    exact ⟨i, x, hx, hxp, hcidr.symm, hpinned.symm, fun j y hy hyp =>
      hinv.registry.single j i y x hy hx (hyp.trans hxp.symm)⟩

section

open Reference Sample

/-- An engine with one peer. -/
theorem Reachable.peers_agree_pinned :
    ∃ w : World capacities Draws Permit, Reachable capacities (engine 0 [pinned 1]) w ∧
      w.core.findPeer (publicKey (privateKey 1)) = some 0 ∧ w.core.peer 1 = none ∧
      w.core.PeersAgree := by
  have hrun : (replay capacities (engine 0 [pinned 1]) (⟨2⟩ : Draws) (⟨⟩ : Permit) 0
      [.setUnixTime 1 0 0, .sendInner 0 (packet 0 1) sink]).any
      (fun w => w.core.findPeer (publicKey (privateKey 1)) = some 0 ∧ w.core.peer 1 = none) =
        true := by
    decide +kernel
  obtain ⟨w, hw, htest⟩ := reachable_of_replay hrun
  obtain ⟨hfind, hvacant⟩ := of_decide_eq_true htest
  exact ⟨w, hw, hfind, hvacant, hw.peers_agree⟩

end

end Microtun
