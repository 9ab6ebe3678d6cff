import Microtun.Firewall.Table

/-! What the firewall admits.  A packet is admitted only for a flow that the engine opened, and only
while the packets of that flow follow each other closely enough. -/

namespace Microtun

/-- The flow in the other direction. -/
def FlowKey.reverse (key : FlowKey) : FlowKey :=
  ⟨key.dst, key.src, key.protocol, key.dstPort, key.srcPort⟩

theorem FlowKey.isReverseOf_iff {key other : FlowKey} :
    key.isReverseOf other = true ↔ key = other.reverse := by
  cases key
  cases other
  simp [isReverseOf, reverse]
  tauto

theorem FlowKey.reverse_injective {key other : FlowKey} (h : key.reverse = other.reverse) :
    key = other := by
  cases key
  cases other
  simp only [reverse, mk.injEq] at h
  obtain ⟨rfl, rfl, rfl, rfl, rfl⟩ := h
  rfl

namespace Firewall

variable {maxPeers : Nat}

/-! ### Packets of a flow -/

/-- The packet may open the flow: a datagram, an echo request, or a `SYN` without an `ACK`. -/
def Opens (packet : List UInt8) (key : FlowKey) : Prop :=
  ∃ parsed, parseFlow packet = some parsed ∧ parsed.key = key ∧
    (parsed.kind = .udp ∨ parsed.kind = .echoRequest ∨
      ∃ flags, parsed.kind = .tcp flags ∧ flags &&& tcpSyn ≠ 0 ∧ flags &&& tcpAck = 0)

/-- The packet is of the exact reverse of the flow, and no attempt to open one. -/
def Answers (packet : List UInt8) (key : FlowKey) : Prop :=
  ∃ parsed, parseFlow packet = some parsed ∧ parsed.key = key.reverse ∧ parsed.kind ≠ .error ∧
    parsed.kind ≠ .echoRequest ∧
    ∀ flags, parsed.kind = .tcp flags → ¬(flags &&& tcpSyn ≠ 0 ∧ flags &&& tcpAck = 0)

/-- The packet is an error message of one family that is addressed to the source of the flow and
quotes a packet of it. -/
def Quotes (packet : List UInt8) (key : FlowKey) : Prop :=
  ∃ header icmp icmpType quoted, ∃ v4 : Bool, Ip.parseHeader packet = some header ∧
    v4 = (header.src matches .v4 _) ∧
    header.protocol = (if v4 then ipprotoIcmp else ipprotoIcmpv6) ∧
    slice packet ⟨header.headerLen, header.headerLen + icmpHeaderLen⟩ = some icmp ∧
    icmp.head? = some icmpType ∧
    (if v4 then icmpType ∈ [3, 11, 12] else icmpType ∈ [1, 2, 3, 4]) ∧
    slice packet ⟨header.headerLen + icmpHeaderLen, header.totalLen⟩ = some quoted ∧
    parseQuoted quoted v4 = some key ∧ header.dst = key.src

/-- The branches of `parseIcmp`, for one family: an echo, or an error that quotes a flow. -/
theorem icmp_branch {icmp packet : List UInt8} {icmpType request reply protocol : UInt8}
    {errors : List UInt8} {range : Range} {src dst : IpAddr} {v4 : Bool} {parsed : Parsed}
    (h : (if icmpType = request ∨ icmpType = reply then
        (Ip.readU16Be icmp 4).bind fun ident => some
          ⟨{ src, dst, protocol, srcPort := ident, dstPort := ident },
            if icmpType = request then .echoRequest else .echoReply⟩
      else if icmpType ∈ errors then
        (slice packet range).bind fun quoted => (parseQuoted quoted v4).bind fun key =>
          if key.src ≠ dst then none else some ⟨key, .error⟩
      else none) = some parsed) :
    (∃ ident, Ip.readU16Be icmp 4 = some ident ∧ parsed =
      ⟨⟨src, dst, protocol, ident, ident⟩, if icmpType = request then .echoRequest else .echoReply⟩)
        ∨
    parsed.kind = .error ∧ icmpType ∈ errors ∧ ∃ quoted, slice packet range = some quoted ∧
      parseQuoted quoted v4 = some parsed.key ∧ dst = parsed.key.src := by
  split at h
  · obtain ⟨ident, hident, h⟩ := Option.bind_eq_some_iff.mp h
    exact .inl ⟨ident, hident, (Option.some.inj h).symm⟩
  split at h
  · rename_i hmem
    obtain ⟨quoted, hquoted, h⟩ := Option.bind_eq_some_iff.mp h
    obtain ⟨key, hkey, h⟩ := Option.bind_eq_some_iff.mp h
    split at h
    · cases h
    · rename_i hdst
      cases h
      exact .inr ⟨rfl, hmem, quoted, hquoted, hkey, (not_not.mp hdst).symm⟩
  · cases h

theorem icmp_error {request icmpType : UInt8} {key : FlowKey} {parsed : Parsed}
    (h : parsed = ⟨key, if icmpType = request then .echoRequest else .echoReply⟩) :
    parsed.kind ≠ .error := by
  subst h
  dsimp only
  split <;> simp

theorem parseIcmp_error {packet : List UInt8} {totalLen offset : Nat} {src dst : IpAddr} {v4 : Bool}
    {parsed : Parsed} (h : parseIcmp packet totalLen offset src dst v4 = some parsed)
    (herr : parsed.kind = .error) :
    ∃ icmp icmpType quoted, slice packet ⟨offset, offset + icmpHeaderLen⟩ = some icmp ∧
      icmp.head? = some icmpType ∧
      (if v4 then icmpType ∈ [3, 11, 12] else icmpType ∈ [1, 2, 3, 4]) ∧
      slice packet ⟨offset + icmpHeaderLen, totalLen⟩ = some quoted ∧
      parseQuoted quoted v4 = some parsed.key ∧ dst = parsed.key.src := by
  unfold parseIcmp at h
  by_cases hlen : totalLen < offset + icmpHeaderLen
  · rw [if_pos hlen] at h
    cases h
  rw [if_neg hlen] at h
  cases v4 with
  | true =>
    simp only [Option.pure_def, Option.bind_eq_bind, Option.bind_eq_some_iff, if_true] at h ⊢
    obtain ⟨icmp, hicmp, icmpType, htype, h⟩ := h
    rcases icmp_branch h with ⟨_, _, hecho⟩ | ⟨-, hmem, quoted, hquoted, hkey, hdst⟩
    · exact absurd herr (icmp_error hecho)
    · exact ⟨icmp, icmpType, quoted, hicmp, htype, hmem, hquoted, hkey, hdst⟩
  | false =>
    simp only [Option.pure_def, Option.bind_eq_bind, Option.bind_eq_some_iff, Bool.false_eq_true,
      if_false] at h ⊢
    obtain ⟨icmp, hicmp, icmpType, htype, h⟩ := h
    rcases icmp_branch h with ⟨_, _, hecho⟩ | ⟨-, hmem, quoted, hquoted, hkey, hdst⟩
    · exact absurd herr (icmp_error hecho)
    · exact ⟨icmp, icmpType, quoted, hicmp, htype, hmem, hquoted, hkey, hdst⟩

/-- The ports of a segment or a datagram are its first four bytes, and it is no error. -/
theorem parseTransport_ports {packet : List UInt8} {totalLen offset : Nat} {src dst : IpAddr}
    {protocol : UInt8} {parsed : Parsed}
    (h : parseTransport packet totalLen offset src dst protocol = some parsed) :
    ∃ ports srcPort dstPort, slice packet ⟨offset, offset + 4⟩ = some ports ∧
      Ip.readU16Be ports 0 = some srcPort ∧ Ip.readU16Be ports 2 = some dstPort ∧
      parsed.key = { src, dst, protocol, srcPort, dstPort } ∧ parsed.kind ≠ .error := by
  have hbody : ∀ minimum : Nat, 4 ≤ minimum → (do
      if totalLen < offset + minimum then none
      let transport ← slice packet ⟨offset, offset + minimum⟩
      let srcPort ← Ip.readU16Be transport 0
      let dstPort ← Ip.readU16Be transport 2
      let key : FlowKey := { src, dst, protocol, srcPort, dstPort }
      if protocol = ipprotoTcp then
        let flags ← transport[13]?
        if plausibleTcpFlags flags then return ⟨key, .tcp flags⟩ else none
      else return ⟨key, .udp⟩ : Option Parsed) = some parsed →
      ∃ ports srcPort dstPort, slice packet ⟨offset, offset + 4⟩ = some ports ∧
        Ip.readU16Be ports 0 = some srcPort ∧ Ip.readU16Be ports 2 = some dstPort ∧
        parsed.key = { src, dst, protocol, srcPort, dstPort } ∧ parsed.kind ≠ .error := by
    intro minimum hmin h
    by_cases hlen : totalLen < offset + minimum
    · rw [if_pos hlen] at h
      cases h
    rw [if_neg hlen] at h
    simp only [Option.pure_def, Option.bind_eq_bind, Option.bind_eq_some_iff] at h
    obtain ⟨transport, htransport, srcPort, hsrc, dstPort, hdst, h⟩ := h
    have hfront := slice_front htransport (Nat.le_add_right offset 4) (by omega)
    rw [Nat.add_sub_cancel_left] at hfront
    refine ⟨transport.take 4, srcPort, dstPort, hfront, ?_, ?_, ?_⟩
    · rw [readU16Be_take (by omega), hsrc]
    · rw [readU16Be_take (by omega), hdst]
    · split at h
      · obtain ⟨flags, -, h⟩ := Option.bind_eq_some_iff.mp h
        split at h
        · cases h
          exact ⟨rfl, by simp⟩
        · cases h
      · cases h
        exact ⟨rfl, by simp⟩
  unfold parseTransport at h
  by_cases htcp : protocol = ipprotoTcp
  · rw [if_pos htcp] at h
    exact hbody 20 (by omega) h
  rw [if_neg htcp] at h
  by_cases hudp : protocol = ipprotoUdp
  · rw [if_pos hudp] at h
    exact hbody 8 (by omega) h
  · rw [if_neg hudp] at h
    cases h

theorem quotes_of_parseFlow {packet : List UInt8} {parsed : Parsed}
    (h : parseFlow packet = some parsed) (herr : parsed.kind = .error) :
    Quotes packet parsed.key := by
  unfold parseFlow at h
  obtain ⟨header, hheader, h⟩ := Option.bind_eq_some_iff.mp h
  by_cases hfrag : Ip.isV4Fragment packet = true
  · rw [if_pos hfrag] at h
    cases h
  rw [if_neg hfrag] at h
  dsimp only at h
  by_cases htransport : header.protocol = ipprotoTcp ∨ header.protocol = ipprotoUdp
  · rw [if_pos htransport] at h
    obtain ⟨_, _, _, _, _, _, _, hkind⟩ := parseTransport_ports h
    exact absurd herr hkind
  rw [if_neg htransport] at h
  cases hsrc : header.src with
  | v4 a =>
    simp only [hsrc, and_true, Bool.not_true, Bool.false_eq_true, and_false, if_false] at h
    split at h
    · rename_i hprotocol
      obtain ⟨icmp, icmpType, quoted, hicmp, htype, hmem, hquoted, hkey, hdst⟩ :=
        parseIcmp_error h herr
      exact ⟨header, icmp, icmpType, quoted, true,
        hheader, by rw [hsrc], hprotocol, hicmp, htype, hmem, hquoted, hkey, hdst⟩
    · cases h
  | v6 a =>
    simp only [hsrc, Bool.false_eq_true, and_false, if_false, Bool.not_false, and_true] at h
    split at h
    · rename_i hprotocol
      obtain ⟨icmp, icmpType, quoted, hicmp, htype, hmem, hquoted, hkey, hdst⟩ :=
        parseIcmp_error h herr
      exact ⟨header, icmp, icmpType, quoted, false,
        hheader, by rw [hsrc], hprotocol, hicmp, htype, hmem, hquoted, hkey, hdst⟩
    · cases h

/-! ### The packets of a flow in a run -/

/-- When a call is made.  Forgetting a peer has no time. -/
def Op.time : Op → Option Nat
  | observeOutbound _ _ now => some now
  | allowsInbound _ _ now => some now
  | removePeer _ => none

/-- No call is earlier than one before it. -/
def Nondecreasing (ops : List Op) : Prop := (ops.filterMap Op.time).Pairwise (· ≤ ·)

instance (ops : List Op) : Decidable (Nondecreasing ops) :=
  inferInstanceAs (Decidable (List.Pairwise _ _))

/-- The packet of a flow that a call observes or admits: when it comes, and whether it closes the
flow. -/
def Op.touch (f : Firewall maxPeers) (peer : Nat) (key : FlowKey) : Op → Option (Nat × Bool)
  | observeOutbound p packet now =>
    (parseFlow packet).bind fun parsed =>
      if p = peer ∧ parsed.kind ≠ .error ∧ parsed.key = key then some (now, parsed.isClosing)
        else none
  | allowsInbound p packet now =>
    (parseFlow packet).bind fun parsed =>
      if p = peer ∧ (f.allowsInbound p packet now).1 ∧ parsed.kind ≠ .error ∧
          parsed.key = key.reverse then some (now, parsed.isClosing) else none
  | removePeer _ => none

/-- The packets of a flow that the calls observe or admit. -/
def touches (f : Firewall maxPeers) (peer : Nat) (key : FlowKey) : List Op → List (Nat × Bool)
  | [] => []
  | op :: ops => (op.touch f peer key).toList ++ touches (op.run f).2 peer key ops

/-- How long a flow stays after a packet. -/
def timeout (f : Firewall maxPeers) (key : FlowKey) (closing : Bool) : Nat :=
  if key.protocol = ipprotoUdp then f.udpTimeout
  else if key.protocol = ipprotoIcmp ∨ key.protocol = ipprotoIcmpv6 then f.icmpTimeout
  else if closing then f.tcpClosingTimeout
  else f.tcpTimeout

/-- From the instant `last` to the instant `now`, the packets follow each other within the timeout
that the flow then has. -/
def Gapless (timeout : Bool → Nat) : (last : Nat) →
    (closing : Bool) → List (Nat × Bool) → Nat → Prop
  | last, closing, [], now => now < last + timeout closing
  | last, closing, (t, fin) :: rest, now =>
    t < last + timeout closing ∧ Gapless timeout t (closing || fin) rest now

theorem gapless_concat {timeout : Bool → Nat} {last : Nat} {closing : Bool} {l : List (Nat × Bool)}
    {t : Nat} {fin : Bool} {now : Nat} : Gapless timeout last closing (l ++ [(t, fin)]) now ↔
      Gapless timeout last closing l t ∧ now < t + timeout (closing || l.any (·.2) || fin) := by
  induction l generalizing last closing with
  | nil => simp [Gapless]
  | cons x l ih =>
    obtain ⟨t', fin'⟩ := x
    simp only [List.cons_append, Gapless, ih, List.any_cons, and_assoc, Bool.or_assoc]

theorem touches_concat (f : Firewall maxPeers) (peer : Nat) (key : FlowKey) (ops : List Op)
    (op : Op) : f.touches peer key (ops ++ [op]) =
      f.touches peer key ops ++ (op.touch (f.after ops) peer key).toList := by
  induction ops generalizing f with
  | nil => simp [touches]
  | cons x ops ih => simp [touches, ih]

/-! ### Where a flow comes from -/

variable {f : Firewall maxPeers}

/-- The entry was made for a packet that opens its flow, its peer was not forgotten since, and at
every instant from the last call on at which it is live the packets of the flow leave no gap. -/
def Origin (f : Firewall maxPeers) (ops : List Op) (e : Entry) : Prop :=
  ∃ before q t₀ later, ops = before ++ .observeOutbound e.peer q t₀ :: later ∧
    .removePeer e.peer ∉ later ∧ Opens q e.flow ∧
    ∀ now, (∀ t ∈ ops.filterMap Op.time, t ≤ now) → e.Live now →
      let packets := (f.after (before ++ [.observeOutbound e.peer q t₀])).touches e.peer e.flow
        later
      e.closing = packets.any (·.2) ∧ Gapless (f.timeout e.flow) t₀ false packets now

theorem effectiveTimeout_eq {g : Firewall maxPeers} (h : f.SameSettings g) (e : Entry) :
    g.effectiveTimeout e = f.timeout e.flow e.closing := by
  unfold SameSettings at h
  rw [h]
  rfl

theorem after_origin {ops before later : List Op} {op : Op} (h : ops = before ++ op :: later) :
    (f.after (before ++ [op])).after later = f.after ops := by
  rw [h, ← after_append, List.append_assoc, List.singleton_append]

/-- A call that is not about the flow of an entry, or comes after it expired. -/
theorem Origin.untouched {ops : List Op} {e : Entry} {op : Op} (h : Origin f ops e)
    (htouch : op.touch (f.after ops) e.peer e.flow = none ∨ ∃ t, op.time = some t ∧ ¬e.Live t)
    (hop : op ≠ .removePeer e.peer) : Origin f (ops ++ [op]) e := by
  obtain ⟨before, q, t₀, later, hops, hkept, hopens, hlive⟩ := h
  refine ⟨before, q, t₀, later ++ [op], by rw [hops]; simp, ?_, hopens, fun now hnow hlive' => ?_⟩
  · intro hmem
    rcases List.mem_append.mp hmem with hmem | hmem
    · exact hkept hmem
    · exact hop (List.mem_singleton.mp hmem).symm
  · rw [List.filterMap_append, List.forall_mem_append] at hnow
    rcases htouch with hnone | ⟨t, ht, hdead⟩
    · rw [touches_concat, after_origin hops, hnone, Option.toList_none, List.append_nil]
      exact hlive now hnow.1 hlive'
    · have hle : t ≤ now := hnow.2 t (by simp [ht])
      exact absurd (Nat.lt_of_le_of_lt hle hlive') hdead

theorem Origin.refreshed {ops : List Op} {e : Entry} {op : Op} {parsed : Parsed} {t : Nat}
    (h : Origin f ops e) (htimes : ∀ s ∈ ops.filterMap Op.time, s ≤ t) (hlive : e.Live t)
    (htouch : op.touch (f.after ops) e.peer e.flow = some (t, parsed.isClosing))
    (hop : op ≠ .removePeer e.peer) :
    Origin f (ops ++ [op]) ((f.after ops).refreshed e parsed t) := by
  obtain ⟨before, q, t₀, later, hops, hkept, hopens, hgap⟩ := h
  obtain ⟨hclosing, hgapless⟩ := hgap t htimes hlive
  refine ⟨before, q, t₀, later ++ [op], by rw [hops]; simp [Firewall.refreshed], ?_, hopens,
    fun now hnow hlive' => ?_⟩
  · intro hmem
    rcases List.mem_append.mp hmem with hmem | hmem
    · exact hkept hmem
    · exact hop (List.mem_singleton.mp hmem).symm
  · have hexp : ((f.after ops).refreshed e parsed t).expires =
        saturatingAdd t (f.timeout e.flow (e.closing || parsed.isClosing)) := by
      show saturatingAdd t ((f.after ops).effectiveTimeout _) = _
      rw [effectiveTimeout_eq (sameSettings_after ops)]
    have hlt : now < t + f.timeout e.flow (e.closing || parsed.isClosing) := by
      have : now < _ := hlive'
      rw [hexp, saturatingAdd] at this
      omega
    show (e.closing || parsed.isClosing) = (touches (f.after (before ++
      [.observeOutbound e.peer q t₀])) e.peer e.flow (later ++ [op])).any _ ∧
      Gapless (f.timeout e.flow) t₀ false (touches (f.after (before ++
        [.observeOutbound e.peer q t₀])) e.peer e.flow (later ++ [op])) now
    rw [touches_concat, after_origin hops, htouch, Option.toList_some]
    refine ⟨?_, gapless_concat.mpr ⟨hgapless, ?_⟩⟩
    · rw [List.any_append, hclosing]
      simp
    · rw [Bool.false_or, ← hclosing]
      exact hlt

theorem origin_new {ops : List Op} {g : Firewall maxPeers} (hg : f.SameSettings g) {peer now : Nat}
    {packet : List UInt8} {key : FlowKey} (hopens : Opens packet key) :
    Origin f (ops ++ [.observeOutbound peer packet now]) (g.newEntry peer key now) := by
  refine ⟨ops, packet, now, [], rfl, List.not_mem_nil, hopens, fun now' _ hlive => ⟨rfl, ?_⟩⟩
  have hexp : (g.newEntry peer key now).expires = saturatingAdd now (f.timeout key false) := by
    show saturatingAdd now (g.effectiveTimeout _) = _
    rw [effectiveTimeout_eq hg]
  have : now' < (g.newEntry peer key now).expires := hlive
  rw [hexp, saturatingAdd] at this
  show now' < now + f.timeout key false
  omega

/-! ### Runs -/

/-- An entry of a table with one of them replaced is the new one, or one of another flow. -/
theorem mem_set_cases (h : f.Apart) {pos : Nat} {old e x : Entry}
    (hold : f.entries[pos]? = some old) (hx : x ∈ f.entries.set pos e) :
    x = e ∨ x ∈ f.entries ∧ (x.peer, x.flow) ≠ (old.peer, old.flow) := by
  obtain ⟨hlt, rfl⟩ := List.getElem?_eq_some_iff.mp hold
  have hperm := (List.getElem_cons_eraseIdx_perm hlt).map fun e : Entry => (e.peer, e.flow)
  have hcons := hperm.nodup_iff.mpr h.flows
  rw [List.map_cons, List.nodup_cons] at hcons
  rcases List.mem_cons.mp ((List.set_perm_cons_eraseIdx hlt e).mem_iff.mp hx) with rfl | hx
  · exact Or.inl rfl
  · refine Or.inr ⟨List.mem_of_mem_eraseIdx hx, fun heq => hcons.1 ?_⟩
    exact List.mem_map.mpr ⟨x, hx, heq⟩

theorem mem_track {peer now : Nat} {key : FlowKey} {x : Entry}
    (hx : x ∈ (f.track peer key now).entries) : x ∈ f.entries ∨ x = f.newEntry peer key now := by
  rcases track_cases f peer key now with heq | ⟨-, -, heq⟩ | ⟨pos, old, hold, -, heq⟩
  · rw [heq] at hx
    exact Or.inl hx
  · rw [heq] at hx
    have hx : x ∈ f.entries ++ [f.newEntry peer key now] := hx
    simpa using hx
  · rw [heq, replace_entries hold] at hx
    exact List.mem_or_eq_of_mem_set hx

theorem opens_of_opensNewFlow {packet : List UInt8} {parsed : Parsed}
    (h : parseFlow packet = some parsed) (hopens : parsed.opensNewFlow = true) :
    Opens packet parsed.key := by
  refine ⟨parsed, h, rfl, ?_⟩
  unfold Parsed.opensNewFlow at hopens
  split at hopens
  · exact Or.inl ‹_›
  · exact Or.inr (Or.inl ‹_›)
  · rename_i flags hkind
    exact Or.inr (Or.inr ⟨flags, hkind, by simpa [Parsed.isBareSyn] using hopens⟩)
  · cases hopens
  · cases hopens

theorem origin_run {ops : List Op} {op : Op} (hapart : (f.after ops).Apart)
    (horigin : ∀ e ∈ (f.after ops).entries, Origin f ops e)
    (htimes : ∀ t, op.time = some t → ∀ s ∈ ops.filterMap Op.time, s ≤ t) :
    ∀ e ∈ (op.run (f.after ops)).2.entries, Origin f (ops ++ [op]) e := by
  intro x hx
  cases op with
  | observeOutbound peer packet now =>
    change x ∈ ((f.after ops).observeOutbound peer packet now).entries at hx
    rcases observeOutbound_cases (f.after ops) peer packet now with ⟨heq, hdead⟩ |
      ⟨pos, e, parsed, hparse, hkind, he, rfl, hlive, hflow, heq⟩ |
      ⟨parsed, hpeer, hparse, hopens, hdead, heq⟩
    · -- Nothing happens: the packet is not of the flow, or the flow has expired.
      rw [heq] at hx
      refine (horigin x hx).untouched ?_ (by simp)
      cases htouch : Op.touch (f.after ops) x.peer x.flow (.observeOutbound peer packet now) with
      | none => exact Or.inl rfl
      | some t =>
        obtain ⟨parsed, hparse, hif⟩ := Option.bind_eq_some_iff.mp htouch
        split at hif
        · rename_i hmatch
          obtain ⟨rfl, hkind, hkey⟩ := hmatch
          exact Or.inr ⟨now, rfl, hdead parsed (hapart.owners x hx) hparse hkind x hx rfl hkey.symm⟩
        · cases hif
    · rw [heq] at hx
      rcases mem_set_cases hapart he hx with rfl | ⟨hx, hne⟩
      · refine (horigin e (List.mem_of_getElem? he)).refreshed (htimes now rfl) hlive ?_ (by simp)
        simp [Op.touch, hparse, hkind, hflow]
      · refine (horigin x hx).untouched (Or.inl ?_) (by simp)
        simp only [Op.touch, hparse, Option.bind_some]
        refine if_neg ?_
        rintro ⟨hp, -, hkey⟩
        exact hne (by rw [← hp, ← hkey, hflow])
    · rw [heq] at hx
      rcases mem_track hx with hx | rfl
      · obtain ⟨peerCounts, hcollect, -⟩ := collectExpired_eq (f.after ops) now
        rw [hcollect] at hx
        obtain ⟨hx, hlive⟩ := List.mem_filter.mp hx
        refine (horigin x hx).untouched (Or.inl ?_) (by simp)
        simp only [Op.touch, hparse, Option.bind_some]
        refine if_neg ?_
        rintro ⟨hp, -, hkey⟩
        exact hdead x hx hp.symm hkey.symm (show now < x.expires by simpa using hlive)
      · exact origin_new ((sameSettings_after ops).trans (sameSettings_collectExpired now))
          (opens_of_opensNewFlow hparse hopens)
  | allowsInbound peer packet now =>
    change x ∈ ((f.after ops).allowsInbound peer packet now).2.entries at hx
    rcases allowsInbound_cases (f.after ops) peer packet now with heq |
      ⟨parsed, _, hparse, hkind, -, -, -, -, heq⟩ |
      ⟨pos, e, parsed, hparse, hkind, -, -, he, rfl, hlive, hflow, heq⟩
    · rw [heq] at hx
      refine (horigin x hx).untouched (Or.inl ?_) (by simp)
      simp only [Op.touch, heq]
      cases parseFlow packet with
      | none => rfl
      | some parsed => simp
    · rw [heq] at hx
      refine (horigin x hx).untouched (Or.inl ?_) (by simp)
      simp [Op.touch, hparse, hkind]
    · rw [heq] at hx
      have hkey := FlowKey.isReverseOf_iff.mp hflow
      rcases mem_set_cases hapart he hx with rfl | ⟨hx, hne⟩
      · refine (horigin e (List.mem_of_getElem? he)).refreshed (htimes now rfl) hlive ?_ (by simp)
        simp [Op.touch, hparse, hkind, heq, hkey]
      · refine (horigin x hx).untouched (Or.inl ?_) (by simp)
        simp only [Op.touch, hparse, Option.bind_some]
        refine if_neg ?_
        rintro ⟨hp, -, -, hkey'⟩
        have hsame := FlowKey.reverse_injective (hkey.symm.trans hkey')
        exact hne (by rw [← hp, hsame])
  | removePeer peer =>
    obtain ⟨hx, hne⟩ := List.mem_filter.mp hx
    refine (horigin x hx).untouched (Or.inl rfl) ?_
    intro heq
    have : peer = x.peer := Op.removePeer.inj heq
    simp [this] at hne

theorem origin_after (hf : f.Apart) (hempty : f.entries = []) {ops : List Op}
    (htimes : Nondecreasing ops) : ∀ e ∈ (f.after ops).entries, Origin f ops e := by
  induction ops using List.reverseRecOn with
  | nil =>
    intro e he
    rw [after_nil, hempty] at he
    cases he
  | append_singleton ops op ih =>
    unfold Nondecreasing at htimes
    rw [List.filterMap_append, List.pairwise_append] at htimes
    obtain ⟨hops, -, hlast⟩ := htimes
    rw [after_append]
    refine origin_run (hf.after ops) (ih hops) fun t ht s hs => hlast s hs t ?_
    simp [ht]

/-- An inbound packet is admitted only if the engine opened its flow and did not forget the peer
since. The packet is the reverse of the flow or an error about it, and from the opening to now the
packets of the flow that were observed or admitted leave no gap as long as its timeout. Errors
change nothing. -/
theorem admits_open_flows (maxPeers maxFlows maxEntries maxEntriesPerPeer udpTimeout icmpTimeout
    tcpTimeout tcpClosingTimeout : Nat) :
    (∀ (g : Firewall maxPeers) p packet now parsed, parseFlow packet = some parsed →
      parsed.kind = .error →
      (g.allowsInbound p packet now).2 = g ∧ g.observeOutbound p packet now = g) ∧
    let f := withLimitsAndTimeouts maxPeers maxFlows maxEntries maxEntriesPerPeer udpTimeout
      icmpTimeout
      tcpTimeout tcpClosingTimeout
    ∀ ops p packet now, Nondecreasing (ops ++ [.allowsInbound p packet now]) →
      ((f.after ops).allowsInbound p packet now).1 = true →
      ∃ before q t₀ later key, ops = before ++ .observeOutbound p q t₀ :: later ∧
        .removePeer p ∉ later ∧ Opens q key ∧ (Answers packet key ∨ Quotes packet key) ∧
        Gapless (f.timeout key) t₀ false
          ((f.after (before ++ [.observeOutbound p q t₀])).touches p key later) now := by
  refine ⟨fun g p packet now parsed hparse herr => ?_, ?_⟩
  · constructor
    · simp [allowsInbound, hparse, herr]
    · unfold observeOutbound
      split
      · rfl
      · simp [hparse, herr]
  · intro f ops p packet now htimes hallowed
    have hapart : f.Apart := ⟨by simp [f, withLimitsAndTimeouts], List.nodup_nil⟩
    unfold Nondecreasing at htimes
    rw [List.filterMap_append, List.pairwise_append] at htimes
    obtain ⟨hops, -, hlast⟩ := htimes
    have horigin := origin_after hapart rfl hops
    have hnow : ∀ t ∈ ops.filterMap Op.time, t ≤ now :=
      fun t ht => hlast t ht now (by simp [Op.time])
    rcases allowsInbound_cases (f.after ops) p packet now with heq |
      ⟨parsed, e, hparse, herr, he, rfl, hlive, hflow, -⟩ |
      ⟨pos, e, parsed, hparse, hkind, hecho, hsyn, he, rfl, hlive, hflow, -⟩
    · rw [heq] at hallowed
      cases hallowed
    · obtain ⟨before, q, t₀, later, hsplit, hkept, hopens, hgap⟩ := horigin e he
      refine ⟨before, q, t₀, later, e.flow, hsplit, hkept, hopens, Or.inr ?_,
        (hgap now hnow hlive).2⟩
      rw [hflow]
      exact quotes_of_parseFlow hparse herr
    · obtain ⟨before, q, t₀, later, hsplit, hkept, hopens, hgap⟩ :=
        horigin e (List.mem_of_getElem? he)
      refine ⟨before, q, t₀, later, e.flow, hsplit, hkept, hopens, Or.inl ?_,
        (hgap now hnow hlive).2⟩
      refine ⟨parsed, hparse, FlowKey.isReverseOf_iff.mp hflow, hkind, hecho, fun flags hf hbare =>
        ?_⟩
      exact hsyn flags hf (by simpa [Parsed.isBareSyn] using hbare)

/-- The answer to `udpDatagram`. -/
def udpAnswer (srcPort dstPort : UInt8) : List UInt8 :=
  [0x45, 0, 0, 28, 0, 0, 0, 0, 64, 17, 0, 0, 10, 0, 0, 2, 10, 0, 0, 1,
    0, dstPort, 0, srcPort, 0, 8, 0, 0]

/-- A flow that is kept open by an answer in time. -/
theorem admits_open_flows_answer :
    let f := withLimitsAndTimeouts 4 8 8 8 60000 30000 1800000 30000
    let ops := [Op.observeOutbound 1 (udpDatagram 7 53) 0, .allowsInbound 1 (udpAnswer 7 53) 50000]
    ((f.after ops).allowsInbound 1 (udpAnswer 7 53) 100000).1 = true ∧
      ∃ before q t₀ later key, ops = before ++ .observeOutbound 1 q t₀ :: later ∧
        .removePeer 1 ∉ later ∧ Opens q key ∧
        (Answers (udpAnswer 7 53) key ∨ Quotes (udpAnswer 7 53) key) ∧
        Gapless (f.timeout key) t₀ false
          ((f.after (before ++ [.observeOutbound 1 q t₀])).touches 1 key later) 100000 := by
  intro f ops
  have hallowed : ((f.after ops).allowsInbound 1 (udpAnswer 7 53) 100000).1 = true := by decide
  exact ⟨hallowed, (admits_open_flows 4 8 8 8 60000 30000 1800000 30000).2 ops 1
    (udpAnswer 7 53) 100000
    (by decide) hallowed⟩

end Firewall

end Microtun
