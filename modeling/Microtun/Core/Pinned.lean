import Microtun.Core.Obligations

/-! Pinned peers. Whatever happens, a pinned peer stays as it was configured, and its prefix stays
its own. -/

namespace Microtun

open Tables
open Function (update update_self update_of_ne)

section

variable {cap : Capacities}

namespace Tables

variable {t t' : Tables cap} {now : Nat} {scope : Scope} [Crypto]

/-- A step leaves a pinned peer as it is, apart from its sessions. -/
theorem Step.pinned (hstep : Step now scope t t') {p : Nat} {id : Identity}
    (hpinned : id.pinned = true) (hp : (t.peer p).map Member.identity = some id) :
    (t'.peer p).map Member.identity = some id := by
  obtain ⟨m, hm, rfl⟩ := Option.map_eq_some_iff.mp hp
  change m.pinned = true at hpinned
  have hstays : ∀ {q : Nat} {x : Option Member}, (q = p → x.map Member.identity = some m.identity) →
      (update t.peer q x p).map Member.identity = some m.identity := by
    intro q x hx
    by_cases hpq : p = q
    · subst hpq
      rw [update_self]
      exact hx rfl
    · rw [update_of_ne hpq]
      exact hp
  -- What is done to a peer that is not pinned, or to a free place, is not done to this one.
  have hother : ∀ {q : Nat} {mq : Member} {x : Option Member}, t.peer q = some mq →
    mq.pinned = false →
      (update t.peer q x p).map Member.identity = some m.identity := by
    intro q mq x hq hdynamic
    refine hstays fun hqp => ?_
    rw [hqp, hm] at hq
    rw [Option.some.inj hq] at hpinned
    rw [hpinned] at hdynamic
    cases hdynamic
  by_cases hroutine : scope.Routine
  · exact ((hstep.frame hroutine).identity p).trans hp
  · cases hstep with
    | flows _ => exact hp
    | use _ _ => exact hp
    | refresh hq hdynamic _ _ _ => exact hother hq hdynamic
    | @route _ q i mq e routes hq _ _ _ _ _ hfixed =>
      refine hstays fun hqp => ?_
      rw [hqp, hm] at hq
      obtain rfl := Option.some.inj hq
      rw [hfixed hpinned]
      rfl
    | evict hq hdynamic _ _ _ _ _ => exact hother hq hdynamic
    | @install _ q mq hfree _ _ _ _ _ =>
      refine hstays fun hqp => ?_
      rw [hqp, hm] at hfree
      cases hfree
    | release | refuse | displace | flush => exact hp
    | _ => exact absurd (by simp [Scope.Routine]) hroutine

theorem Steps.pinned (h : Steps now scope t t') {p : Nat} {id : Identity}
    (hpinned : id.pinned = true) (hp : (t.peer p).map Member.identity = some id) :
    (t'.peer p).map Member.identity = some id :=
  h.keeps (I := fun u => (u.peer p).map Member.identity = some id)
    (fun _ _ _ _ hstep hu => hstep.pinned hpinned hu) hp

omit [Crypto] in
/-- The prefix of a pinned peer has its route, and the route is the incumbent of the prefix. -/
theorem lookup_pinned (hI : t.Registry) {p : Nat} {m : Member} (hm : t.peer p = some m)
    (hpinned : m.pinned = true) (hrouted : ¬t.Unrouted p) {address : IpAddr}
    (haddr : m.address.contains address = true)
    (hlongest : ∀ j e, t.routes.entry j = some e → e.cidr.contains address = true →
      e.cidr ≠ m.address → e.cidr.networkLength < m.address.networkLength) (now : Nat) :
    ∃ routes, t.routes.lookup address now = .ok (some p, routes) := by
  have hentry : ∃ i e, t.routes.entry i = some e ∧ e.peer = p := by
    by_contra hno
    push Not at hno
    exact hrouted ⟨by rw [Installed, hm]; rfl, fun i e he => hno i e he⟩
  obtain ⟨i, e, he, hep⟩ := hentry
  obtain ⟨m', hm', hcidr, hepin⟩ := hI.owner i e he
  rw [hep, hm] at hm'
  obtain rfl := Option.some.inj hm'
  obtain ⟨map, hcon, hincumbent⟩ := hI.sound
  have hown := hincumbent i e he (hepin ▸ hpinned)
  rcases RouteCache.lookup_spec hcon address now with ⟨-, -, hnone⟩ |
    ⟨j, x, hj, hx, hcontains, hmax, hlookup, -⟩
  · rw [hcidr, hnone i e he] at haddr
    cases haddr
  · -- The longest prefix is the one of the peer, and so is the incumbent.
    have hle := hmax i e he (hcidr ▸ haddr)
    have hsame : x.cidr = m.address := by
      by_contra hne
      have hlt := hlongest j x hx hcontains hne
      rw [← hcidr] at hle
      omega
    rw [hsame, hcidr, hown] at hj
    obtain rfl := Option.some.inj hj
    obtain rfl := Option.some.inj (he.symm.trans hx)
    exact ⟨_, hep ▸ hlookup⟩

end Tables

variable {R P : Type} [Crypto] [RngCore R] [RelayPolicy P] {w : World cap R P} {config : Config}
  {start : Nat}

theorem Run.identity {trace : List (World cap R P × Call)} (h : Run cap config start trace w)
    {p : Nat} {x : PinnedPeer} (hx : config.pinned[p]? = some x) :
    (w.tables.peer p).map Member.identity = some x.identity := by
  induction h with
  | new h =>
    obtain ⟨-, t, -, -, -, -, -, hpeers⟩ := new_spec h
    rw [hpeers p, hx]
    rfl
  | call call hw h ih =>
    obtain ⟨scope, hsteps | hsteps⟩ := (called_of_run hw.sound h).2.all
    · exact hsteps.pinned rfl ih
    · exact hsteps.pinned rfl ih

/-- In every run a pinned peer stays in its place with the key, the relay, the address, the inbound
policy and the keepalive that it was configured with. It is found by its key, and it is the one to
which an address is routed if every other prefix that contains the address is shorter than its own,
whoever else claims its own. -/
theorem Run.pinned_kept {trace : List (World cap R P × Call)} (h : Run cap config start trace w)
    {p : Nat} {x : PinnedPeer} (hx : config.pinned[p]? = some x) :
    (∃ e, w.core.peer p = some e ∧ e.kind = .pinned ∧ e.publicKey = x.publicKey ∧
      e.relay = x.relay ∧ e.address = x.address ∧ e.inboundPolicy = x.inboundPolicy ∧
      e.persistentKeepalive = x.persistentKeepalive.filter (· ≠ 0)) ∧
    w.core.findPeer x.publicKey = some p ∧ ∀ address now, x.address.contains address = true →
      (∀ j e, w.core.routes.entry j = some e → e.cidr.contains address = true → e.cidr ≠ x.address →
        e.cidr.networkLength < x.address.networkLength) →
      ∃ routes, w.core.routes.lookup address now = .ok (some p, routes) := by
  have hS := h.sound
  obtain ⟨m, hm, hid⟩ := Option.map_eq_some_iff.mp (h.identity hx)
  have hpinned : m.pinned = true := congrArg Identity.pinned hid
  have haddr : m.address = x.address := congrArg Identity.address hid
  have hkey : m.key = x.publicKey := congrArg Identity.key hid
  refine ⟨?_, (hS.inv.registry.find x.publicKey p).mpr ⟨m, hm, hkey⟩,
    fun address now hcontains hlongest => ?_⟩
  · obtain ⟨e, he, rfl⟩ := Option.map_eq_some_iff.mp hm
    refine ⟨e, he, ?_, hkey, congrArg Identity.relay hid, haddr, congrArg Identity.policy hid,
      congrArg Identity.interval hid⟩
    have hkind : e.isPinned = true := hpinned
    simpa [PeerEntry.isPinned] using hkind
  · exact lookup_pinned hS.inv.registry hm hpinned (hS.routed p) (haddr ▸ hcontains)
      (haddr ▸ hlongest) now

end

section

open Reference Sample

/-- The resolver says that a pinned peer is gone, and the peer stays. -/
theorem Run.pinned_kept_gone :
    ∃ (trace : List (World capacities Draws Permit × Call)) (w : World capacities Draws Permit),
      Run capacities (engine 0 [pinned 1]) 0 trace w ∧
      trace.map Prod.snd = [.resolverEventCompleted 0
        (.peerUpdated ⟨publicKey (privateKey 1), .notFound⟩) sink] ∧
      w.core.findPeer (publicKey (privateKey 1)) = some 0 := by
  have hrun : (replay capacities (engine 0 [pinned 1]) (⟨2⟩ : Draws) (⟨⟩ : Permit) 0
      [.resolverEventCompleted 0 (.peerUpdated ⟨publicKey (privateKey 1), .notFound⟩) sink]).isSome
        =
      true := by decide +kernel
  obtain ⟨w, hw⟩ := Option.isSome_iff_exists.mp hrun
  obtain ⟨trace, htrace, hcalls⟩ := run_of_replay hw
  exact ⟨trace, w, htrace, hcalls, (htrace.pinned_kept (p := 0) (x := pinned 1) rfl).2.1⟩

end

end Microtun
