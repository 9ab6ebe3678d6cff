import Microtun.Firewall.Flows

/-! Errors about a flow. The parser of quoted packets reads less than the full one, and where the
full one finds a flow they agree on it. -/

namespace Microtun.Firewall

variable {packet quoted : List UInt8} {header : IpHeader} {n : Nat}

/-! ### The front of a packet -/

theorem head?_of_take {bytes bytes' : List UInt8} (hn : 0 < n)
    (hagree : bytes'.take n = bytes.take n) : bytes'.head? = bytes.head? := by
  have hhead : ∀ l : List UInt8, l.head? = (l.take n).head? := by
    intro l
    rw [List.head?_take, if_neg (by omega)]
  rw [hhead bytes, hhead bytes', hagree]

theorem slice_of_slice {bytes part : List UInt8} {stop : Nat} {r : Range}
    (h : slice bytes ⟨0, stop⟩ = some part) (hr : r.stop ≤ stop) : slice part r =
      slice bytes r := by
  obtain ⟨-, hlen, rfl⟩ := slice_eq_some.mp h
  dsimp only at hlen
  simp only [slice, List.drop_zero, List.length_take, Nat.min_eq_left hlen]
  by_cases hstart : r.start ≤ r.stop
  · rw [if_pos ⟨hstart, hr⟩, if_pos ⟨hstart, by omega⟩, ← List.drop_take, ← List.drop_take,
      List.take_take, Nat.min_eq_left (by omega)]
  · rw [if_neg (fun h => hstart h.1), if_neg (fun h => hstart h.1)]

/-- The header of a quoted IPv4 packet is the one that the full parser reads. -/
theorem parseQuotedHeader_v4 (h : Ip.parseV4Header packet = some header)
    (hfrag : Ip.isV4Fragment packet = false) (hn : header.headerLen ≤ n)
    (hagree : quoted.take n = packet.take n) : 0 < n ∧ parseQuotedHeader quoted true =
      some (header.src, header.dst, header.protocol, header.headerLen) := by
  simp only [Ip.parseV4Header, Option.bind_eq_bind, Option.bind_none, Option.bind_eq_some_iff,
    Option.ite_none_left_eq_some, Option.pure_def, Option.some.injEq] at h
  obtain ⟨first, hfirst, hlen, hhead, total, -, -, src, hsrc, dst, hdst, protocol, hprotocol,
    rfl⟩ := h
  dsimp only at hn ⊢
  refine ⟨by omega, ?_⟩
  have hfront : slice packet ⟨0, 20⟩ = some (packet.take 20) :=
    slice_eq_some.mpr ⟨Nat.zero_le _, by dsimp only; omega, rfl⟩
  have hquoted : slice quoted ⟨0, 20⟩ = some (packet.take 20) :=
    slice_of_take hfront (by dsimp only; omega) hagree
  -- An unfragmented packet has no fragment offset.
  have hoffset : ∃ word, Ip.readU16Be (packet.take 20) 6 = some word ∧ word % 0x2000 = 0 := by
    have h6 : 6 < packet.length := by omega
    have h7 : 7 < packet.length := by omega
    have hversion : first >>> 4 = 4 := by
      by_contra hne
      exact hlen (Or.inr hne)
    rw [readU16Be_take (by omega)]
    unfold Ip.isV4Fragment at hfrag
    simp only [hfirst, List.getElem?_eq_getElem h6, List.getElem?_eq_getElem h7, hversion,
      decide_eq_false_iff_not, not_and, not_not] at hfrag
    refine ⟨_, by simp only [Ip.readU16Be, List.getElem?_eq_getElem h6,
      List.getElem?_eq_getElem h7]; rfl, ?_⟩
    have := hfrag (by omega) trivial
    omega
  obtain ⟨word, hword, hzero⟩ := hoffset
  have hhead0 : (packet.take 20).head? =
      some first := by rw [List.head?_take, if_neg (by omega), hfirst]
  have h9 : (packet.take 20)[9]? = some protocol := by
    rw [List.getElem?_take_of_lt (by omega), hprotocol]
  have hsrc' : slice (packet.take 20) ⟨12, 16⟩ = some src := by
    rw [slice_of_slice hfront (by decide), hsrc]
  have hdst' : slice (packet.take 20) ⟨16, 20⟩ = some dst := by
    rw [slice_of_slice hfront (by decide), hdst]
  unfold parseQuotedHeader
  simp only [if_true, hquoted, hhead0, hword, h9, hsrc', hdst', hzero, Option.bind_eq_bind,
    Option.bind_some, ne_eq, not_true_eq_false, if_false]
  rw [if_neg (by omega)]
  rfl

theorem parseQuotedHeader_v6 (h : Ip.parseV6Header packet = some header) (hn : header.headerLen ≤ n)
    (hagree : quoted.take n = packet.take n) : 0 < n ∧ parseQuotedHeader quoted false =
      some (header.src, header.dst, header.protocol, header.headerLen) := by
  simp only [Ip.parseV6Header, Option.bind_eq_bind, Option.bind_none, Option.bind_eq_some_iff,
    Option.ite_none_left_eq_some, Option.pure_def, Option.some.injEq] at h
  obtain ⟨first, hfirst, hlen, total, -, -, src, hsrc, dst, hdst, protocol, hprotocol, rfl⟩ := h
  dsimp only at hn ⊢
  refine ⟨by omega, ?_⟩
  have hfront : slice packet ⟨0, 40⟩ = some (packet.take 40) :=
    slice_eq_some.mpr ⟨Nat.zero_le _, by dsimp only; omega, rfl⟩
  have hquoted : slice quoted ⟨0, 40⟩ = some (packet.take 40) :=
    slice_of_take hfront (by dsimp only; omega) hagree
  have h6 : (packet.take 40)[6]? = some protocol := by
    rw [List.getElem?_take_of_lt (by omega), hprotocol]
  have hsrc' : slice (packet.take 40) ⟨8, 24⟩ = some src := by
    rw [slice_of_slice hfront (by decide), hsrc]
  have hdst' : slice (packet.take 40) ⟨24, 40⟩ = some dst := by
    rw [slice_of_slice hfront (by decide), hdst]
  unfold parseQuotedHeader
  simp only [Bool.false_eq_true, if_false, hquoted, h6, hsrc', hdst', Option.bind_eq_bind,
    Option.bind_some]
  rfl

/-- Is the packet an IPv4 packet? -/
def isV4 (header : IpHeader) : Bool := header.src matches .v4 _

/-- Where the full parser reads a header, the parser of quotes reads the same one. -/
theorem parseQuoted_of_header (h : Ip.parseHeader packet = some header)
    (hfrag : Ip.isV4Fragment packet = false) (hn : header.headerLen ≤ n)
    (hagree : quoted.take n = packet.take n) :
    (∃ first, quoted.head? = some first ∧ first >>> 4 = if isV4 header then 4 else 6) ∧
      parseQuotedHeader quoted (isV4 header) =
        some (header.src, header.dst, header.protocol, header.headerLen) := by
  simp only [Ip.parseHeader, Option.bind_eq_bind, Option.bind_eq_some_iff] at h
  obtain ⟨first, hfirst, h⟩ := h
  by_cases h4 : first >>> 4 = 4
  · rw [if_pos h4] at h
    obtain ⟨hpos, hquoted⟩ := parseQuotedHeader_v4 h hfrag hn hagree
    have hv4 : isV4 header = true := by
      simp only [Ip.parseV4Header, Option.bind_eq_bind, Option.bind_none, Option.bind_eq_some_iff,
        Option.ite_none_left_eq_some, Option.pure_def, Option.some.injEq] at h
      obtain ⟨_, -, -, -, _, -, -, _, -, _, -, _, -, rfl⟩ := h
      rfl
    rw [hv4]
    exact ⟨⟨first, by rw [head?_of_take hpos hagree, hfirst], h4⟩, hquoted⟩
  · rw [if_neg h4] at h
    by_cases h6 : first >>> 4 = 6
    · rw [if_pos h6] at h
      obtain ⟨hpos, hquoted⟩ := parseQuotedHeader_v6 h hn hagree
      have hv4 : isV4 header = false := by
        simp only [Ip.parseV6Header, Option.bind_eq_bind, Option.bind_none, Option.bind_eq_some_iff,
          Option.ite_none_left_eq_some, Option.pure_def, Option.some.injEq] at h
        obtain ⟨_, -, -, _, -, -, _, -, _, -, _, -, rfl⟩ := h
        rfl
      rw [hv4]
      exact ⟨⟨first, by rw [head?_of_take hpos hagree, hfirst], h6⟩, hquoted⟩
    · rw [if_neg h6] at h
      cases h

/-! ### The flow of a packet -/

variable {totalLen offset : Nat} {src dst : IpAddr} {protocol : UInt8} {parsed : Parsed}

/-- The packet is a segment, a datagram or an echo request. -/
def Parsed.Sent (parsed : Parsed) : Prop :=
  (∃ flags, parsed.kind = .tcp flags) ∨ parsed.kind = .udp ∨ parsed.kind = .echoRequest

/-- What was sent is an echo request if it is not a segment or a datagram. -/
theorem Parsed.Sent.request {request icmpType : UInt8} {key : FlowKey} (hsent : parsed.Sent)
    (h : parsed = ⟨key, if icmpType = request then .echoRequest else .echoReply⟩) :
    icmpType = request := by
  subst h
  by_cases hrequest : icmpType = request
  · exact hrequest
  · simp [Parsed.Sent, hrequest] at hsent

theorem Parsed.Sent.not_error (hsent : parsed.Sent) : parsed.kind ≠ .error := by
  rcases hsent with ⟨flags, h⟩ | h | h <;> simp [h]

theorem parseIcmp_echo {v4 : Bool} (h : parseIcmp packet totalLen offset src dst v4 = some parsed)
    (hsent : parsed.Sent) :
    ∃ echo ident, slice packet ⟨offset, offset + 6⟩ = some echo ∧
      echo.head? = some (if v4 then 8 else 128) ∧ Ip.readU16Be echo 4 = some ident ∧
      parsed.key = ⟨src, dst, if v4 then ipprotoIcmp else ipprotoIcmpv6, ident, ident⟩ := by
  unfold parseIcmp at h
  by_cases hlen : totalLen < offset + icmpHeaderLen
  · rw [if_pos hlen] at h
    cases h
  rw [if_neg hlen] at h
  simp only [Option.pure_def, Option.bind_eq_bind, Option.bind_eq_some_iff] at h
  obtain ⟨icmp, hicmp, icmpType, htype, h⟩ := h
  have hfront := slice_front hicmp (Nat.le_add_right offset 6)
    (Nat.add_le_add_left (by decide) offset)
  rw [Nat.add_sub_cancel_left] at hfront
  have hhead : (icmp.take 6).head? =
      some icmpType := by rw [List.head?_take, if_neg (by omega), htype]
  cases v4 with
  | true =>
    simp only [if_true] at h ⊢
    rcases icmp_branch h with ⟨ident, hident, hecho⟩ | ⟨herr, -⟩
    · rw [hsent.request hecho] at hhead
      exact ⟨icmp.take 6, ident, hfront, hhead, by rw [readU16Be_take (by omega), hident],
        congrArg Parsed.key hecho⟩
    · exact absurd herr hsent.not_error
  | false =>
    simp only [Bool.false_eq_true, if_false] at h ⊢
    rcases icmp_branch h with ⟨ident, hident, hecho⟩ | ⟨herr, -⟩
    · rw [hsent.request hecho] at hhead
      exact ⟨icmp.take 6, ident, hfront, hhead, by rw [readU16Be_take (by omega), hident],
        congrArg Parsed.key hecho⟩
    · exact absurd herr hsent.not_error

/-- A quote with the header of the packet and eight bytes after it is of the flow of the packet. -/
theorem parseQuoted_of_parseFlow (h : parseFlow packet = some parsed) (hsent : parsed.Sent)
    (hheader : Ip.parseHeader packet = some header) (hn : header.headerLen + icmpHeaderLen ≤ n)
    (hagree : quoted.take n = packet.take n) :
    parseQuoted quoted (isV4 header) = some parsed.key ∧ parsed.key.src = header.src := by
  unfold parseFlow at h
  rw [hheader] at h
  simp only [Option.bind_eq_bind, Option.bind_some] at h
  by_cases hfrag : Ip.isV4Fragment packet = true
  · rw [if_pos hfrag] at h
    cases h
  rw [if_neg hfrag] at h
  have h8 : icmpHeaderLen = 8 := rfl
  obtain ⟨⟨first, hfirst, hversion⟩, hquoted⟩ :=
    parseQuoted_of_header hheader (Bool.eq_false_of_not_eq_true hfrag) (by omega) hagree
  unfold parseQuoted
  simp only [hfirst, hversion, hquoted, Option.bind_eq_bind, Option.bind_some, ne_eq,
    not_true_eq_false, if_false]
  by_cases htransport : header.protocol = ipprotoTcp ∨ header.protocol = ipprotoUdp
  · rw [if_pos htransport] at h ⊢
    obtain ⟨ports, srcPort, dstPort, hports, hsrc, hdst, hkey, -⟩ := parseTransport_ports h
    have hports' := slice_of_take hports (by dsimp only; omega) hagree
    simp only [hports', hsrc, hdst, Option.bind_some, hkey]
    exact ⟨rfl, trivial⟩
  rw [if_neg htransport] at h ⊢
  cases hsrc : header.src with
  | v4 a =>
    simp only [hsrc, and_true, Bool.not_true, Bool.false_eq_true, and_false, if_false] at h
    split at h
    · rename_i hprotocol
      obtain ⟨echo, ident, hecho, htype, hident, hkey⟩ := parseIcmp_echo h hsent
      have hecho' := slice_of_take hecho (by dsimp only; omega) hagree
      simp only [hprotocol, true_or, if_true, hecho', htype, hident, Option.bind_some, true_and,
        hkey]
      exact ⟨rfl, trivial⟩
    · cases h
  | v6 a =>
    simp only [hsrc, Bool.false_eq_true, and_false, if_false, Bool.not_false, and_true] at h
    split at h
    · rename_i hprotocol
      obtain ⟨echo, ident, hecho, htype, hident, hkey⟩ := parseIcmp_echo h hsent
      have hecho' := slice_of_take hecho (by dsimp only; omega) hagree
      simp only [hprotocol, or_true, if_true, hecho', htype, hident, Option.bind_some, true_and,
        hkey]
      exact ⟨rfl, trivial⟩
    · cases h

/-! ### Messages about a packet -/

/-- An ICMP error message of one family, whole and addressed to `target`, and what it quotes. -/
structure ErrorMessage (message : List UInt8) (v4 : Bool) (target : IpAddr) (quoted : List UInt8) :
    Prop where
  whole : Ip.isV4Fragment message = false
  header : ∃ header icmpType, Ip.parseHeader message = some header ∧ isV4 header = v4 ∧
    header.protocol = (if v4 then ipprotoIcmp else ipprotoIcmpv6) ∧ header.dst = target ∧
    message[header.headerLen]? = some icmpType ∧
    (if v4 then icmpType ∈ [3, 11, 12] else icmpType ∈ [1, 2, 3, 4]) ∧
    slice message ⟨header.headerLen + icmpHeaderLen, header.totalLen⟩ = some quoted

theorem ErrorMessage.parse {message : List UInt8} {v4 : Bool} {target : IpAddr} {key : FlowKey}
    (h : ErrorMessage message v4 target quoted) (hquoted : parseQuoted quoted v4 = some key)
    (hsrc : key.src = target) : parseFlow message = some ⟨key, .error⟩ := by
  obtain ⟨hwhole, header, icmpType, hheader, hv4, hprotocol, hdst, htype, hmem, hslice⟩ := h
  obtain ⟨hle, hlen, -⟩ := slice_eq_some.mp hslice
  dsimp only at hle hlen
  have hicmp : slice message ⟨header.headerLen, header.headerLen + icmpHeaderLen⟩ =
      some ((message.take (header.headerLen + icmpHeaderLen)).drop header.headerLen) :=
    slice_eq_some.mpr ⟨Nat.le_add_right _ _, by dsimp only; omega, rfl⟩
  have hhead : ((message.take (header.headerLen + icmpHeaderLen)).drop header.headerLen).head? =
      some icmpType := by
    have h8 : icmpHeaderLen = 8 := rfl
    rw [List.head?_drop, List.getElem?_take_of_lt (by omega), htype]
  have hkey : ¬ key.src ≠ header.dst := by rw [hsrc, hdst, not_not]
  unfold parseFlow
  simp only [hheader, hwhole, Option.bind_eq_bind, Option.bind_some, Bool.false_eq_true, if_false]
  have hicmp' : parseIcmp message header.totalLen header.headerLen header.src header.dst v4 =
      some ⟨key, .error⟩ := by
    unfold parseIcmp
    rw [if_neg (by omega)]
    simp only [hicmp, hhead, Option.bind_eq_bind, Option.bind_some]
    cases v4 with
    | true =>
      simp only [if_true] at hmem ⊢
      have hecho : ¬ (icmpType = 8 ∨ icmpType = 0) := by
        rintro (rfl | rfl) <;> simp at hmem
      rw [if_neg hecho, if_pos hmem, hslice, Option.bind_some, hquoted, Option.bind_some,
        if_neg hkey]
      rfl
    | false =>
      simp only [Bool.false_eq_true, if_false] at hmem ⊢
      have hecho : ¬ (icmpType = 128 ∨ icmpType = 129) := by
        rintro (rfl | rfl) <;> simp at hmem
      rw [if_neg hecho, if_pos hmem, hslice, Option.bind_some, hquoted, Option.bind_some,
        if_neg hkey]
      rfl
  cases hfamily : header.src with
  | v4 a =>
    obtain rfl : v4 = true := by rw [← hv4, isV4, hfamily]
    rw [hfamily] at hicmp'
    rw [if_pos rfl] at hprotocol
    simp only [hprotocol, hicmp']
    rfl
  | v6 a =>
    obtain rfl : v4 = false := by rw [← hv4, isV4, hfamily]
    rw [hfamily] at hicmp'
    rw [if_neg (by decide)] at hprotocol
    simp only [hprotocol, hicmp']
    rfl

/-- An error message about a packet with a flow, which quotes the header of the packet and at least
eight bytes after it, is parsed as an error of that flow, and admitted while the flow is live. -/
theorem related_error_admitted {message quote further : List UInt8}
    (hpacket : parseFlow packet = some parsed)
    (hsent : (∃ flags, parsed.kind = .tcp flags) ∨ parsed.kind = .udp ∨ parsed.kind = .echoRequest)
    (hheader : Ip.parseHeader packet = some header) (hquote : quote <+: packet)
    (hlen : header.headerLen + 8 ≤ quote.length)
    (hmessage : ErrorMessage message (isV4 header) header.src (quote ++ further)) :
    parseFlow message = some ⟨parsed.key, .error⟩ ∧
      ∀ {maxPeers : Nat} (f : Firewall maxPeers) (peer now : Nat),
        (∃ e ∈ f.entries, e.peer = peer ∧ now < e.expires ∧ e.flow = parsed.key) →
        f.allowsInbound peer message now = (true, f) := by
  have hagree : (quote ++ further).take quote.length = packet.take quote.length := by
    rw [List.take_left' rfl]
    exact List.prefix_iff_eq_take.mp hquote
  obtain ⟨hquoted, hsrc⟩ := parseQuoted_of_parseFlow hpacket hsent hheader hlen hagree
  have hparse := hmessage.parse hquoted hsrc
  refine ⟨hparse, fun f peer now hlive => ?_⟩
  obtain ⟨e, he, hpeer, hexpires, hflow⟩ := hlive
  have hany : (f.entries.any fun e => e.peer = peer ∧ now < e.expires ∧ e.flow = parsed.key) =
      true :=
    List.any_eq_true.mpr ⟨e, he, by simp [hpeer, hexpires, hflow]⟩
  unfold allowsInbound
  simp only [hparse, if_true, hany]

/-- A datagram from 10.0.0.1 to 10.0.0.2, and a message that its port is unreachable, with the
shortest quote and one byte more. -/
theorem related_error_admitted_udp :
    let datagram : List UInt8 :=
      [0x45, 0, 0, 30, 0, 0, 0, 0, 64, 17, 0, 0, 10, 0, 0, 1, 10, 0, 0, 2,
      0x04, 0xd2, 0, 53, 0, 10, 0, 0, 7, 7]
    let message : List UInt8 := [0x45, 0, 0, 57, 0, 0, 0, 0, 64, 1, 0, 0, 10, 0, 0, 9, 10, 0, 0, 1,
      3, 3, 0, 0, 0, 0, 0, 0] ++ (datagram.take 28 ++ [9])
    let key : FlowKey := ⟨.v4 0x0a000001, .v4 0x0a000002, 17, 1234, 53⟩
    let f : Firewall 1 := { withLimitsAndTimeouts 1 8 8 8 1000 1000 1000 1000 with
      entries := [⟨0, key, 1000, 0, false⟩] }
    parseFlow message = some ⟨key, .error⟩ ∧ f.allowsInbound 0 message 999 = (true, f) := by
  intro datagram message key f
  have hpacket : parseFlow datagram = some ⟨key, .udp⟩ := by decide
  have hheader : Ip.parseHeader datagram = some ⟨.v4 0x0a000001, .v4 0x0a000002, 17, 20, 30⟩ := by
    decide
  have hmessage : ErrorMessage message true (.v4 0x0a000001) (datagram.take 28 ++ [9]) :=
    ⟨by decide, ⟨.v4 0x0a000009, .v4 0x0a000001, 1, 20, 57⟩, 3, by decide, rfl, rfl, rfl,
      by decide, by decide, by decide⟩
  obtain ⟨hparse, hadmit⟩ := related_error_admitted hpacket (Or.inr (Or.inl rfl)) hheader
    (List.take_prefix 28 datagram) (by decide) hmessage
  exact ⟨hparse, hadmit f 0 999 ⟨⟨0, key, 1000, 0, false⟩, List.mem_cons_self, rfl, by decide, rfl⟩⟩

end Microtun.Firewall
