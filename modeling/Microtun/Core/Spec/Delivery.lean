import Microtun.Core.Spec.Data

/-! What a datagram that carries data does to the tables, and when it is delivered. -/

namespace Microtun

open Hoare Tables Messages

/-! ### Deliveries in the log -/

def Event.isDelivery : Event → Bool
  | innerPacket .. => true
  | _ => false

/-- The deliveries of a log, latest first. -/
def packets (log : List Event) : List Event := log.filter Event.isDelivery

theorem deliveries_packets (log : List Event) : deliveries (packets log) = deliveries log := by
  induction log with
  | nil => rfl
  | cons e log ih =>
    cases e with
    | innerPacket serial counter key endpoint packet =>
      show (serial, counter) :: deliveries (packets log) = (serial, counter) :: deliveries log
      rw [ih]
    | _ => exact ih

theorem deliveries_eq {log log' : List Event} (h : packets log' = packets log) :
    deliveries log' = deliveries log := by
  rw [← deliveries_packets, h, deliveries_packets]

theorem acceptsOf_subset {serial counter : Nat} {log log' : List Event} (h : log <:+ log')
    (hmem : counter ∈ acceptsOf serial log) : counter ∈ acceptsOf serial log' := by
  obtain ⟨e, he, hc⟩ := List.mem_filterMap.mp hmem
  exact List.mem_filterMap.mpr ⟨e, h.subset he, hc⟩

namespace Tables

variable {cap : Capacities} {t t' : Tables cap} {now : Nat} {scope : Scope} [Crypto]

theorem Step.marks (hstep : Step now scope t t') : t.marks <:+ t'.marks := by
  cases hstep with
  | sealed => exact List.suffix_cons ..
  | accept => exact List.suffix_cons ..
  | deliver => exact List.suffix_cons ..
  | relayFailed => exact List.suffix_cons ..
  | _ => exact List.suffix_refl _

theorem Steps.marks (h : Steps now scope t t') : t.marks <:+ t'.marks :=
  h.keeps (I := fun u => t.marks <:+ u.marks) (fun _ _ _ _ hs hu => hu.trans hs.marks)
    (List.suffix_refl _)

theorem Step.packets (hstep : Step now scope t t') (hk : scope.delivers = false) :
    Microtun.packets t'.marks = Microtun.packets t.marks := by
  cases hstep with
  | deliver => cases hk
  | _ => rfl

theorem Steps.packets (h : Steps now scope t t') (hk : scope.delivers = false) :
    Microtun.packets t'.marks = Microtun.packets t.marks := by
  refine h.keeps (I := fun u => Microtun.packets u.marks = Microtun.packets t.marks) ?_ rfl
  intro k u u' hle hstep hu
  refine (hstep.packets ?_).trans hu
  cases hd : k.delivers with
  | false => rfl
  | true =>
    have := hle.2.2.2.2.2.2 hd
    rw [hk] at this
    cases this

end Tables

variable {cap : Capacities} {R P : Type} {w : World cap R P} {now : Nat}

theorem packets_log (w : World cap R P) : packets w.log = packets w.tables.marks := by
  show _ = packets (w.log.filter fun e => e.topic = .session)
  unfold packets
  rw [List.filter_filter]
  congr 1
  funext e
  cases e <;> rfl

theorem acceptsOf_log (serial : Nat) (w : World cap R P) :
    acceptsOf serial w.log = acceptsOf serial w.tables.marks := by
  show _ = acceptsOf serial (w.log.filter fun e => e.topic = .session)
  unfold acceptsOf
  rw [List.filterMap_filter]
  congr 1
  funext e
  cases e with
  | resolve request taken => cases taken <;> rfl
  | authenticated consumed known => cases known <;> rfl
  | _ => rfl

variable [Crypto] [RngCore R]

/-! ### Relaying -/

omit [RngCore R] in
theorem rxRelay_spec [RelayPolicy P] (hI : w.tables.Inv) (p : Nat) (plaintext : List UInt8)
    (now : Nat) : wp (rxRelay p plaintext now : CoreM cap R P Unit) (fun _ w' =>
      Steps now (.atDesk .quiet) w.tables w'.tables) w := by
  unfold rxRelay
  rw [wp_bind, wp_getCore]
  cases w.core.peer p with
  | none => exact wp_pure.mpr (Steps.refl _)
  | some submitter =>
    cases Relay.parse plaintext with
    | none => exact wp_pure.mpr (Steps.refl _)
    | some envelope =>
      simp only [wp_bind, wp_updateCore]
      split
      · exact wp_pure.mpr (Steps.refl _)
      cases w.core.findPeer envelope.destination with
      | none =>
        rw [wp_modifyCore]
        exact requestRelayPeerInstall_steps (w := w.withCore { w.core with
          relayPolicy := (RelayPolicy.authorizeRelay w.core.relayPolicy submitter.publicKey
            envelope.destination).2 }) hI p envelope.destination now
      | some q =>
        dsimp only
        cases w.core.peer q with
        | none => exact wp_pure.mpr (Steps.refl _)
        | some destination =>
          dsimp only
          by_cases hrelay : destination.relay.isSome = true
          · rw [if_pos hrelay]
            exact wp_pure.mpr (Steps.refl _)
          rw [if_neg hrelay]
          cases destination.endpoint with
          | none => exact wp_pure.mpr (Steps.refl _)
          | some endpoint =>
            rw [wp_emit, tables_silent rfl]
            exact Steps.refl _

/-! ### Delivery -/

/-- The peer has the longest prefix that contains the address. -/
def Core.LongestOwner (c : Core cap R P) (ip : IpAddr) (p : Nat) : Prop :=
  ∃ i e, c.routes.entry i = some e ∧ e.peer = p ∧ e.cidr.contains ip = true ∧
    ∀ j e', c.routes.entry j = some e' → e'.cidr.contains ip = true →
      e'.cidr.networkLength ≤ e.cidr.networkLength

omit [Crypto] [RngCore R] in
theorem longestOwner_of_lookup (h : RoutesSound w.core.routes) {ip : IpAddr} {p : Nat}
    (hp : w.core.routes.lookupReadonly ip = .ok (some p)) : w.core.LongestOwner ip p := by
  obtain ⟨m, hm, -⟩ := h
  rcases RouteCache.lookup_spec hm ip 0 with ⟨-, hnone, -⟩ | ⟨i, e, -, he, hcontains, hmax, -,
    hread⟩
  · rw [hnone] at hp
    cases hp
  · rw [hread] at hp
    exact ⟨i, e, he, Option.some.inj (Except.ok.inj hp), hcontains, hmax⟩

/-- The datagram is the reason for the delivery: it is authenticated under a session of a peer, it
is no replay, its source belongs to the peer, and the policy for the peer admits it. Everything is
said of the engine before the datagram. -/
structure Delivery (w : World cap R P) (now : Nat) (data : List UInt8) (serial counter : Nat)
    (key : Key) (packet : List UInt8) : Prop where
  type : data.head? = some msgData
  opened : ∃ receiver sidx sess peer ciphertext plaintext header,
    (slice data Data.receiver).bind readU32Le = some receiver ∧
    (slice data Data.counter).bind readU64Le = some counter ∧
    slice data ⟨Data.packetStart, data.length⟩ = some ciphertext ∧
    w.core.slotForSessionIndex receiver = some sidx ∧
    w.core.slot sidx = some (.established sess) ∧ sess.serial = serial ∧
    aeadOpen sess.tRecv counter ciphertext [] = .ok plaintext ∧
    saturatingSince now sess.created < rejectAfterTime ∧
    w.core.peer sess.peer = some peer ∧ peer.publicKey = key ∧
    Ip.parseHeader plaintext = some header ∧ packet = plaintext.take header.totalLen ∧
    w.core.routes.lookupReadonly header.src = .ok (some sess.peer) ∧
    w.core.LongestOwner header.src sess.peer ∧
    (peer.inboundPolicy = .establishedOnly →
      (w.core.firewall.allowsInbound sess.peer packet now).1 = true)
  limit : counter < rejectAfterMessages
  fresh : counter ∉ acceptsOf serial w.log

omit [RngCore R] in
theorem routeOwner_spec (hI : w.tables.Inv) (src : IpAddr) :
    wp (routeOwner src : CoreM cap R P _) (fun o w' => w' = w ∧
      w.core.routes.lookupReadonly src = .ok o) w := by
  obtain ⟨m, hm, -⟩ := hI.registry.sound
  have hread : ∃ o, w.core.routes.lookupReadonly src = .ok o := by
    rcases RouteCache.lookup_spec hm src 0 with ⟨-, hread, -⟩ | ⟨i, e, -, -, -, -, -, hread⟩
    · exact ⟨none, hread⟩
    · exact ⟨some e.peer, hread⟩
  obtain ⟨o, hread⟩ := hread
  refine wp_withRoutes (a := o) ?_ ⟨rfl, hread⟩
  simp only [hread]
  rfl

omit [RngCore R] in
theorem admitInbound_spec (hI : w.tables.Inv) {p : Nat} {e : PeerEntry}
    (he : w.core.peer p = some e) (packet : List UInt8) (now : Nat) :
    wp (admitInbound p packet now : CoreM cap R P Bool) (fun ok w' =>
      Steps now .flow w.tables w'.tables ∧ w'.core.peer p = some e ∧ w'.log = w.log ∧
      (ok = true → e.inboundPolicy = .establishedOnly →
        (w.core.firewall.allowsInbound p packet now).1 = true)) w := by
  unfold admitInbound
  rw [wp_updateCore]
  simp only [he]
  by_cases hpolicy : e.inboundPolicy = .establishedOnly
  · have hany : (some e).any (fun p => decide (p.inboundPolicy = .establishedOnly)) = true := by
      simp [hpolicy]
    rw [if_pos hany]
    refine ⟨(Step.flows ?_).steps, he, trivial, fun hok _ => hok⟩
    exact hI.registry.flows.allowsInbound p packet now
  · have hany : ¬(some e).any (fun p => decide (p.inboundPolicy = .establishedOnly)) = true := by
      simp [hpolicy]
    rw [if_neg hany]
    exact ⟨Steps.refl _, he, trivial, fun _ h => absurd h hpolicy⟩

omit [RngCore R] in
theorem deliver_spec (hI : w.tables.Inv) {p serial counter : Nat} {e : PeerEntry}
    (he : w.core.peer p = some e) (hnot : (serial, counter) ∉ deliveries w.tables.marks)
    (hacc : counter ∈ acceptsOf serial w.tables.marks) (src : SocketAddr) (inner : List UInt8)
    (now : Nat) :
    wp (deliver p serial counter src inner now : CoreM cap R P Unit) (fun _ w' =>
      Steps now { rank := 2, delivers := true } w.tables w'.tables ∧
      (packets w'.tables.marks = packets w.tables.marks ∨
        ∃ header endpoint packet, Ip.parseHeader inner = some header ∧
          packet = inner.take header.totalLen ∧
          w.core.routes.lookupReadonly header.src = .ok (some p) ∧
          (e.inboundPolicy = .establishedOnly →
            (w.core.firewall.allowsInbound p packet now).1 = true) ∧
          packets w'.tables.marks =
            .innerPacket serial counter e.publicKey endpoint packet :: packets w.tables.marks))
              w := by
  unfold deliver
  cases hparse : Ip.parseHeader inner with
  | none => exact wp_pure.mpr ⟨Steps.refl _, Or.inl rfl⟩
  | some header =>
    refine wp_seq (routeOwner_spec hI header.src) ?_
    rintro o w0 ⟨hsame, hread⟩
    subst w0
    by_cases howner : o = some p
    · rw [if_neg (not_not.mpr howner)]
      subst howner
      refine wp_seq (admitInbound_spec hI he (inner.take header.totalLen) now) ?_
      rintro ok w1 ⟨h1, he1, hlog, hpolicy⟩
      have hmarks : w1.tables.marks = w.tables.marks := by
        show w1.log.filter _ = w.log.filter _
        rw [hlog]
      cases ok with
      | false => exact wp_pure.mpr ⟨h1.widen (by decide), Or.inl (by rw [hmarks])⟩
      | true =>
        simp only [Bool.not_true, Bool.false_eq_true, if_false, wp_bind, wp_getCore, he1, wp_emit]
        rw [tables_mark rfl]
        refine ⟨(h1.widen (by decide)).trans ?_, Or.inr ⟨header,
          if e.relay.isNone then some src else none, _, rfl, rfl, hread, hpolicy rfl, ?_⟩⟩
        · refine (Step.deliver ?_ ?_).steps.widen (by decide)
          · rw [hmarks]
            exact hnot
          · rw [hmarks]
            exact hacc
        · show _ :: packets w1.tables.marks = _
          rw [hmarks]
    · rw [if_pos howner]
      exact wp_pure.mpr ⟨Steps.refl _, Or.inl rfl⟩

/-- What a datagram with data did to the deliveries of the run. -/
def Delivered (w w' : World cap R P) (now : Nat) (data : List UInt8) : Prop :=
  packets w'.tables.marks = packets w.tables.marks ∨
    ∃ serial counter key endpoint packet, Delivery w now data serial counter key packet ∧
      packets w'.tables.marks =
        .innerPacket serial counter key endpoint packet :: packets w.tables.marks

theorem rxData_spec [RelayPolicy P] (hI : w.tables.Inv) {isRelay : Bool} {data : List UInt8}
    (htype : isRelay = false → data.head? = some msgData) (src : SocketAddr) (now : Nat) :
    wp (rxData now src data isRelay : CoreM cap R P Unit) (fun _ w' =>
      Steps now { rank := 2, desk := true, delivers := true } w.tables w'.tables ∧
      Delivered w w' now data) w := by
  unfold rxData
  rw [wp_bind, wp_getCore]
  cases hopen : w.core.openData isRelay now data with
  | none => exact wp_pure.mpr ⟨Steps.refl _, Or.inl rfl⟩
  | some x =>
    obtain ⟨s, sess, counter, plaintext⟩ := x
    obtain ⟨hsess, hlimit, hage, ⟨receiver, hreceiver, hfor⟩, hcounter, ciphertext, hcipher,
      haead⟩ :=
      openData_some hopen
    have hslot : w.tables.slot s = .established sess := session_tables.mp hsess
    have hcore : w.core.slot s = some (.established sess) := slot_of_tables hslot (by simp)
    have hlt : s < cap.maxSessions := Core.lt_of_slot hcore
    simp only [wp_bind, wp_modifyCore]
    generalize hcheck : sess.replay.checkAndUpdate counter = x
    obtain ⟨fresh, replay⟩ := x
    have hset := @tables_setSlot _ _ _ w.core w.log w.established _
      (.established { sess with replay }) hlt
    cases fresh with
    | false =>
      refine wp_pure.mpr ⟨?_, Or.inl (by rw [hset]; rfl)⟩
      rw [hset]
      exact (Step.reject hslot hcheck).steps.widen (by decide)
    | true =>
      -- The window says that the counter was not accepted before, so it was not delivered either.
      have hfresh : counter ∉ acceptsOf sess.serial w.tables.marks := by
        have hadmits := ((hI.ledger.accepts s sess hslot).step hI.ledger.words counter).1.mp
          (by rw [hcheck])
        exact hadmits.1
      have hnot : (sess.serial, counter) ∉ deliveries w.tables.marks :=
        fun hmem => hfresh (hI.ledger.delivered.2 _ hmem)
      simp only [Bool.not_true, Bool.false_eq_true, if_false, wp_bind, wp_emit]
      generalize hw1 : (⟨w.core.setSlot s (.established { sess with replay }),
        .accepted sess.serial counter :: w.log, w.established⟩ : World cap R P) = w1
      have h1 : w1.tables = (w.tables.setSlot s (.established { sess with replay })).mark
          (.accepted sess.serial counter) := by
        rw [← hw1, tables_mark rfl, hset]
      have hstep : Steps now .traffic w.tables w1.tables := by
        rw [h1]
        exact (Step.accept hslot hcheck).steps
      have hslot1 : w1.tables.slot s = .established { sess with replay } := by
        rw [h1]
        exact Function.update_self ..
      refine wp_mono (acceptData_spec (hstep.inv hI) hslot1 rfl src data.length plaintext.isEmpty
        now) ?_
      rintro _ w2 ⟨rfl, h2⟩
      have h2' := hstep.trans h2
      have hpackets : packets w2.tables.marks = packets w.tables.marks := h2'.packets rfl
      simp only [Bool.not_true, Bool.false_eq_true, if_false]
      by_cases hempty : plaintext.isEmpty = true
      · rw [if_pos hempty]
        exact wp_pure.mpr ⟨h2'.widen (by decide), Or.inl hpackets⟩
      rw [if_neg hempty]
      cases isRelay with
      | true =>
        refine wp_mono (rxRelay_spec (h2'.inv hI) sess.peer plaintext now) fun _ w3 h3 => ⟨?_, ?_⟩
        · exact (h2'.widen (by decide)).trans (h3.widen (by decide))
        · exact Or.inl ((h3.packets rfl).trans hpackets)
      | false =>
        have hframe := h2'.frame le_rfl
        obtain ⟨m, hm⟩ := Option.isSome_iff_exists.mp (hI.links.held s sess.peer _ (by
          rw [hslot]
          rfl))
        obtain ⟨e, he, rfl⟩ := peer_of_tables hm
        obtain ⟨m', hm', hid⟩ := hframe.peer hm
        obtain ⟨e', he', rfl⟩ := peer_of_tables hm'
        have hacc : counter ∈ acceptsOf sess.serial w2.tables.marks := by
          refine acceptsOf_subset h2.marks ?_
          rw [h1]
          show counter ∈ acceptsOf sess.serial (.accepted sess.serial counter :: w.tables.marks)
          rw [acceptsOf_cons_accepted, if_pos rfl]
          exact List.mem_cons_self
        refine wp_mono (deliver_spec (h2'.inv hI) he' (deliveries_eq hpackets ▸ hnot) hacc src
          plaintext now) ?_
        rintro _ w3 ⟨h3, hd⟩
        refine ⟨(h2'.widen (by decide)).trans (h3.widen (by decide)), ?_⟩
        rcases hd with hd | ⟨header, endpoint, packet, hparse, hpacket, hroute, hpolicy, hd⟩
        · exact Or.inl (hd.trans hpackets)
        · have hkey : e'.publicKey = e.publicKey := congrArg Identity.key hid
          have hpol : e'.inboundPolicy = e.inboundPolicy := congrArg Identity.policy hid
          have hroutes : w2.core.routes = w.core.routes := hframe.routes
          have hfirewall : w2.core.firewall = w.core.firewall := hframe.firewall
          rw [hroutes] at hroute
          rw [hpol, hfirewall] at hpolicy
          refine Or.inr ⟨sess.serial, counter, e'.publicKey, endpoint, packet,
            ⟨htype rfl, ?_, hlimit, ?_⟩, by rw [hd, hpackets]⟩
          · exact ⟨receiver, s, sess, e, ciphertext, plaintext, header, hreceiver, hcounter,
              hcipher, hfor, hcore, rfl, haead, hage, he, hkey.symm, hparse, hpacket, hroute,
              longestOwner_of_lookup hI.registry.sound hroute, hpolicy⟩
          · rw [acceptsOf_log]
            exact hfresh

theorem datagram_spec [RelayPolicy P] (hI : w.tables.Inv) (src : SocketAddr) (data : List UInt8)
    (now : Nat) :
    wpx (datagram now src data : CoreE cap R P Unit) (fun _ w' =>
      Steps now { rank := 3, desk := true, delivers := true } w.tables w'.tables ∧
      Delivered w w' now data) w := by
  unfold datagram
  have hsilent : ∀ {w' : World cap R P}, Steps now (.atDesk .establish) w.tables w'.tables →
      Steps now { rank := 3, desk := true, delivers := true } w.tables w'.tables ∧
        Delivered w w' now data :=
    fun h => ⟨h.widen (by decide), Or.inl (h.packets rfl)⟩
  cases hclass : classify data with
  | none => exact wpx_pure.mpr (hsilent (Steps.refl _))
  | some kind =>
    cases kind with
    | initiation => exact wpx_mono (rxInitiation_spec hI now src data) fun _ _ h => hsilent h
    | response =>
      refine wpx_liftM.mpr (wp_mono (rxResponse_spec hI now src data) fun _ _ h => ?_)
      exact hsilent (h.widen (by decide))
    | cookieReply =>
      refine wpx_liftM.mpr (wp_mono (rxCookieReply_spec now data) fun _ _ h => ?_)
      exact hsilent (Steps.of_eq h)
    | data =>
      have htype := head_of_classify_data hclass
      refine wpx_liftM.mpr (wp_mono (rxData_spec hI (fun _ => htype) src now) fun _ _ h => ?_)
      exact ⟨h.1.widen (by decide), h.2⟩
    | relayData =>
      refine wpx_liftM.mpr (wp_mono (rxData_spec hI (by rintro ⟨⟩) src now) fun _ _ h => ?_)
      exact ⟨h.1.widen (by decide), h.2⟩

end Microtun
