import Microtun.Dhcp.Server
import Mathlib.Data.List.Basic

/-! What the server does with a packet: whom it is from, what it is answered, and what becomes of
the leases. -/

namespace Microtun.Dhcp

/-! ### Identities -/

/-- The options of a packet. -/
def optionsOf : List UInt8 → List (UInt8 × List UInt8)
  | [] => []
  | code :: rest =>
    if code = optionPad then optionsOf rest
    else if code = optionEnd then []
    else
      match rest with
      | [] => []
      | optionLen :: rest =>
        if rest.length < optionLen.toNat then []
        else (code, rest.take optionLen.toNat) :: optionsOf (rest.drop optionLen.toNat)
termination_by bytes => bytes.length
decreasing_by
  · simp
  · simp only [List.length_drop, List.length_cons]
    omega

/-- An identity after an option. -/
def identify (identity : List UInt8) (option : UInt8 × List UInt8) : List UInt8 :=
  if option.1 = optionClientIdentifier ∧ option.2 ≠ [] then option.2 else identity

/-- Whom a packet is from: the value of the client identifier, or else the hardware address. -/
def identityOf (packet : List UInt8) : List UInt8 :=
  (optionsOf (packet.drop dhcpFixedHeaderLen)).foldl identify
    ((packet.drop 28).take ((packet.drop 2).headD 0).toNat)

theorem optionsOf_cons (code : UInt8) (rest : List UInt8) : optionsOf (code :: rest) =
    if code = optionPad then optionsOf rest
    else if code = optionEnd then []
    else
      match rest with
      | [] => []
      | optionLen :: rest =>
        if rest.length < optionLen.toNat then []
        else (code, rest.take optionLen.toNat) :: optionsOf (rest.drop optionLen.toNat) := by
  rw [optionsOf.eq_def]

theorem parseOptions_eq (packet : List UInt8) (offset : Nat) (options : Options) :
    parseOptions packet offset options = .ok ((optionsOf (packet.drop offset)).foldl
        (fun options option => options.set option.1 option.2) options) := by
  fun_induction parseOptions packet offset options with
  | case1 offset options hlt ih1 ih2 =>
    have hdrop : packet.drop offset = packet[offset] :: packet.drop (offset + 1) :=
      List.drop_eq_getElem_cons hlt
    rw [byteAt_ok hlt, ok_bind, hdrop, optionsOf_cons]
    by_cases hpad : packet[offset] = optionPad
    · rw [if_pos hpad, if_pos hpad, ih1]
    · rw [if_neg hpad, if_neg hpad]
      by_cases hend : packet[offset] = optionEnd
      · rw [if_pos hend, if_pos hend]
        rfl
      · rw [if_neg hend, if_neg hend]
        cases hlen : packet[offset + 1]? with
        | none =>
          rw [List.drop_of_length_le (List.getElem?_eq_none_iff.mp hlen)]
          rfl
        | some optionLen =>
          obtain ⟨hlt', hget⟩ := List.getElem?_eq_some_iff.mp hlen
          have hdrop' : packet.drop (offset + 1) = optionLen :: packet.drop (offset + 2) := by
            rw [List.drop_eq_getElem_cons hlt', hget]
          rw [hdrop']
          simp only
          cases hvalue : slice packet ⟨offset + 2, offset + 2 + optionLen.toNat⟩ with
          | none =>
            have hshort : (packet.drop (offset + 2)).length < optionLen.toNat := by
              rw [List.length_drop]
              by_contra hlong
              rw [slice, if_pos ⟨Nat.le_add_right _ _, by simp only; omega⟩] at hvalue
              cases hvalue
            rw [if_pos hshort]
            rfl
          | some value =>
            obtain ⟨-, hstop, hvalue⟩ := slice_eq_some.mp hvalue
            simp only at hstop hvalue
            rw [List.drop_take, Nat.add_sub_cancel_left] at hvalue
            have hlong : ¬(packet.drop (offset + 2)).length < optionLen.toNat := by
              rw [List.length_drop]
              omega
            rw [if_neg hlong, List.foldl_cons, List.drop_drop, ← hvalue]
            exact ih2 _ _ _
  | case2 offset options hlt =>
    rw [List.drop_of_length_le (Nat.not_lt.mp hlt), optionsOf]
    rfl

theorem set_client (options : Options) (code : UInt8) (value identity : List UInt8)
    (h : options.client = .fromSlice identity) :
    (options.set code value).client = .fromSlice (identify identity (code, value)) := by
  rw [Options.set, identify]
  by_cases hclient : code = optionClientIdentifier ∧ value ≠ []
  · have hcode := hclient.1
    have htype : ¬(code = optionMessageType ∧ value.length = 1) := by
      rw [hcode]
      exact fun h => absurd h.1 (by decide)
    have hip : ¬(code = optionRequestedIp ∧ value.length = 4) := by
      rw [hcode]
      exact fun h => absurd h.1 (by decide)
    have hserver : ¬(code = optionServerIdentifier ∧ value.length = 4) := by
      rw [hcode]
      exact fun h => absurd h.1 (by decide)
    rw [if_neg htype, if_neg hip, if_neg hserver, if_pos hclient, if_pos hclient]
  · rw [if_neg hclient, if_neg hclient, ← h]
    split
    · rfl
    · split
      · rfl
      · split
        · rfl
        · rfl

theorem foldl_client (list : List (UInt8 × List UInt8)) (options : Options) (identity : List UInt8)
    (h : options.client = .fromSlice identity) :
    (list.foldl (fun options option => options.set option.1 option.2) options).client =
      .fromSlice (list.foldl identify identity) := by
  induction list generalizing options identity with
  | nil => exact h
  | cons option list ih => exact ih _ _ (set_client options option.1 option.2 identity h)

theorem foldl_identify_ne_nil (list : List (UInt8 × List UInt8)) {identity : List UInt8}
    (h : identity ≠ []) : list.foldl identify identity ≠ [] := by
  induction list generalizing identity with
  | nil => exact h
  | cons option list ih =>
    refine ih ?_
    rw [identify]
    split
    next hvalue => exact hvalue.2
    next => exact h

theorem toList_ofList {n : Nat} {bytes : List UInt8} (h : n ≤ bytes.length) :
    (Bytes.ofList n bytes).toList = bytes.take n := by
  show (bytes.rightpad n 0).take n = _
  rw [List.rightpad, Nat.sub_eq_zero_of_le h, List.replicate_zero, List.append_nil]

/-- A request that is read has the key of the identity of the packet. -/
theorem parseRequest_spec (packet : List UInt8) : ∃ request, parseRequest packet = .ok request ∧
      ∀ r, request = some r → r.client = .fromSlice (identityOf packet) ∧ identityOf packet ≠
        [] := by
  rw [parseRequest]
  by_cases hshort : packet.length < dhcpFixedHeaderLen
  · exact ⟨none, if_pos hshort, nofun⟩
  · have hlen : 240 ≤ packet.length := Nat.not_lt.mp hshort
    rw [if_neg hshort, byteAt_ok (by omega), ok_bind, byteAt_ok (by omega), ok_bind,
      byteAt_ok (by omega), ok_bind, arrayAt_ok (by omega), ok_bind]
    split
    · exact ⟨none, rfl, nofun⟩
    next hchecks =>
      simp only [not_or] at hchecks
      obtain ⟨-, -, hzero, hhlen, -⟩ := hchecks
      have hhlen16 : packet[2].toNat ≤ 16 := Nat.not_lt.mp hhlen
      have hpos : 0 < packet[2].toNat := by
        refine Nat.pos_of_ne_zero fun h => hzero ?_
        exact UInt8.toNat_inj.mp h
      have hroom : packet[2].toNat ≤ (packet.drop 28).length := by
        rw [List.length_drop]
        omega
      have hhead : (packet.drop 2).headD 0 = packet[2] := by
        rw [List.drop_eq_getElem_cons (by omega)]
        rfl
      have hhardware : (packet.drop 28).take packet[2].toNat ≠ [] := by
        refine List.ne_nil_of_length_pos ?_
        rw [List.length_take]
        omega
      rw [arrayAt_ok (by omega), ok_bind, arrayAt_ok (by omega), ok_bind, parseOptions_eq, ok_bind,
        arrayAt_ok (by omega), ok_bind, arrayAt_ok (by omega), ok_bind, arrayAt_ok (by omega),
          ok_bind, arrayAt_ok (by omega), ok_bind]
      refine ⟨_, rfl, fun r hr => ?_⟩
      obtain ⟨messageType, -, rfl⟩ := Option.map_eq_some_iff.mp hr
      rw [identityOf, hhead]
      refine ⟨foldl_client _ _ _ ?_, foldl_identify_ne_nil _ hhardware⟩
      simp only
      rw [toList_ofList hroom]

/-! ### Replies -/

variable {α : Type} {Q : Except Panic α → Prop} {buffer : List UInt8}

theorem pushOption_rule {k : List UInt8 × Nat → Except Panic α} {offset : Nat} {code : UInt8}
    {value : List UInt8} (h : offset + 2 + value.length ≤ buffer.length)
    (hk : ∀ after, after.length = buffer.length → field after ⟨offset, offset + 1⟩ = [code] →
      field after ⟨offset + 2, offset + 2 + value.length⟩ = value →
      (∀ r : Range, r.stop ≤ offset → field after r = field buffer r) →
      Q (k (after, offset + (value.length + 2)))) :
        Q (pushOption buffer offset code value >>= k) := by
  rw [pushOption, bind_assoc]
  refine copyAt_rule (by rw [List.length_singleton]; omega) fun b₁ h₁ w₁ k₁ => ?_
  rw [bind_assoc]
  refine copyAt_rule (by rw [List.length_singleton]; omega) fun b₂ h₂ w₂ k₂ => ?_
  rw [bind_assoc]
  refine copyAt_rule (by omega) fun b₃ h₃ w₃ k₃ => ?_
  refine hk b₃ (by omega) ?_ w₃ fun r hr => ?_
  · rw [k₃ _ (.inl (by simp only; omega)), k₂ _ (.inl (by simp only; omega))]
    exact w₁
  · rw [k₃ r (.inl (by omega)), k₂ r (.inl (by omega)), k₁ r (.inl hr)]

/-- A reply that was built has the address and the type where a client reads them. -/
def Built (messageType : UInt8) (yiaddr : Ipv4) (result : Except Panic (List UInt8 × Nat)) : Prop :=
  ∃ reply replyLen, result = .ok (reply, replyLen) ∧ dhcpMinReplyLen ≤ replyLen ∧
    field reply ⟨16, 20⟩ = yiaddr.toList ∧ field reply ⟨242, 243⟩ = [messageType]

theorem copyCiaddr_rule {k : List UInt8 → Except Panic α} {request : Request} {messageType : UInt8}
    (h : 16 ≤ buffer.length) (hk : ∀ after, after.length = buffer.length → Q (k after)) :
    Q (copyCiaddr request buffer messageType >>= k) := by
  rw [copyCiaddr]
  split
  · exact copyAt_rule (by rw [Vector.length_toList]; omega) fun after hafter _ _ => hk after hafter
  · exact hk buffer rfl

theorem pushLease_rule {k : List UInt8 × Nat → Except Panic α} {offset : Nat} {messageType : UInt8}
    (h : offset + 18 ≤ buffer.length)
    (hk : ∀ after offset', after.length = buffer.length → offset ≤ offset' → offset' ≤ offset + 18 →
      (∀ r : Range, r.stop ≤ offset → field after r = field buffer r) → Q (k (after, offset'))) :
    Q (pushLease buffer offset messageType >>= k) := by
  have hmask : (prefixMask fallbackIpv4PrefixLen).length = 4 := by decide
  have htime : (toBeBytes 4 dhcpLeaseSeconds).length = 4 := by decide
  rw [pushLease]
  split
  · rw [bind_assoc]
    refine pushOption_rule (by rw [htime]; omega) fun b₁ h₁ _ _ k₁ => ?_
    rw [htime, bind_assoc]
    refine pushOption_rule (by rw [hmask]; omega) fun b₂ h₂ _ _ k₂ => ?_
    rw [hmask]
    refine pushOption_rule (by simp only [List.length_cons, List.length_nil]; omega)
      fun b₃ h₃ _ _ k₃ => ?_
    refine hk b₃ _ (by omega) (by omega) (by simp only [List.length_cons, List.length_nil]; omega)
      fun r hr => ?_
    rw [k₃ r (by omega), k₂ r (by omega), k₁ r hr]
  · exact hk buffer offset rfl (Nat.le_refl _) (Nat.le_add_right _ _) fun _ _ => rfl

theorem buildReply_spec (request : Request) (messageType : UInt8) (yiaddr : Ipv4)
    (h : buffer.length = dhcpPacketBuffer) :
    Built messageType yiaddr (buildReply request buffer messageType yiaddr) := by
  have h600 : buffer.length = 600 := h
  have hzero : (List.replicate buffer.length (0 : UInt8)).length =
      600 := by rw [List.length_replicate, h600]
  rw [buildReply]
  refine copyAt_rule (by rw [hzero]; decide) fun b₁ h₁ _ _ => ?_
  refine copyAt_rule (by rw [List.length_singleton]; omega) fun b₂ h₂ _ _ => ?_
  refine copyAt_rule (by rw [List.length_singleton]; omega) fun b₃ h₃ _ _ => ?_
  refine copyAt_rule (by rw [Vector.length_toList]; omega) fun b₄ h₄ _ _ => ?_
  refine copyAt_rule (by rw [Vector.length_toList]; omega) fun b₅ h₅ _ _ => ?_
  refine copyCiaddr_rule (by omega) fun b₆ h₆ => ?_
  refine copyAt_rule (by rw [Vector.length_toList]; omega) fun b₇ h₇ w₇ _ => ?_
  rw [Vector.length_toList] at w₇
  refine copyAt_rule (by rw [Vector.length_toList]; omega) fun b₈ h₈ _ k₈ => ?_
  refine copyAt_rule (by rw [Vector.length_toList]; omega) fun b₉ h₉ _ k₉ => ?_
  refine copyAt_rule (by rw [Vector.length_toList]; omega) fun b₁₀ h₁₀ _ k₁₀ => ?_
  have hyiaddr : field b₁₀ ⟨16, 20⟩ = yiaddr.toList := by
    rw [k₁₀ _ (.inl (by decide)), k₉ _ (.inl (by decide)), k₈ _ (.inl (by decide))]
    exact w₇
  refine pushOption_rule (by rw [List.length_singleton, dhcpFixedHeaderLen]; omega)
    fun b₁₁ h₁₁ _ w₁₁ k₁₁ => ?_
  refine pushOption_rule
    (by rw [List.length_singleton, Vector.length_toList, dhcpFixedHeaderLen]; omega)
    fun b₁₂ h₁₂ _ _ k₁₂ => ?_
  have hyiaddr' : field b₁₂ ⟨16, 20⟩ = yiaddr.toList := by
    rw [k₁₂ _ (by rw [List.length_singleton]; decide), k₁₁ _ (by decide), hyiaddr]
  have htype : field b₁₂ ⟨242, 243⟩ = [messageType] := by
    rw [k₁₂ _ (by rw [List.length_singleton]; decide)]
    exact w₁₁
  rw [List.length_singleton, Vector.length_toList]
  refine pushLease_rule (by rw [dhcpFixedHeaderLen]; omega) fun b₁₃ offset h₁₃ hlow hhigh k₁₃ => ?_
  rw [dhcpFixedHeaderLen] at hlow hhigh
  refine copyAt_rule (by rw [List.length_singleton]; omega) fun b₁₄ _ _ k₁₄ => ?_
  refine ⟨b₁₄, _, rfl, Nat.le_max_right _ _, ?_, ?_⟩
  · rw [k₁₄ _ (.inl (by simp only; omega)), k₁₃ _ (by decide), hyiaddr']
  · rw [k₁₄ _ (.inl (by simp only; omega)), k₁₃ _ (by decide), htype]

/-! ### Steps -/

/-- What a packet was about, as those see it who follow the packets and the replies. -/
inductive Event where
  | handed (ip : Ipv4) (identity : List UInt8)
  | released (identity : List UInt8)
  | declined (identity : List UInt8)
  | other
deriving DecidableEq

/-- An offer or an acknowledgement hands out an address; a release or a decline is served without a
reply. -/
def event (packet : List UInt8) (sent : Option Datagram) : Event :=
  match sent with
  | some datagram =>
    if field datagram.bytes ⟨242, 243⟩ = [dhcpOffer] ∨ field datagram.bytes ⟨242, 243⟩ =
      [dhcpAck] then
      .handed (Bytes.ofList 4 (field datagram.bytes ⟨16, 20⟩)) (identityOf packet)
    else .other
  | none =>
    match parseRequest packet with
    | .ok (some request) =>
      if request.Served then
        if request.messageType = dhcpRelease then .released (identityOf packet)
        else if request.messageType = dhcpDecline then .declined (identityOf packet)
        else .other
      else .other
    | _ => .other

/-- What a step does to the leases. -/
inductive Step (leases : List Lease) (identity : List UInt8) : Event → List Lease → Prop where
  | other : Step leases identity .other leases
  | found {slot : Nat} (hidentity : identity ≠ [])
    (hfound : findClientLease leases (.fromSlice identity) = some slot) :
    Step leases identity (.handed (leaseIp slot) identity) leases
  | allocated {slot : Nat} {lease : Lease} (hidentity : identity ≠ [])
    (hnone : findClientLease leases (.fromSlice identity) = none)
      (hlease : leases[slot]? = some lease)
    (hfree : lease.inUse = false) :
    Step leases identity (.handed (leaseIp slot) identity)
      (leases.set slot ⟨true, .fromSlice identity⟩)
  | assigned {slot : Nat} {lease : Lease} (hidentity : identity ≠ [])
    (hlease : leases[slot]? = some lease)
    (hfree : lease.inUse = false ∨ lease.client.matchesKey (.fromSlice identity) = true) :
    Step leases identity (.handed (leaseIp slot) identity)
      (assignLease leases slot (.fromSlice identity))
  | released (hidentity : identity ≠ []) :
    Step leases identity (.released identity) (releaseLease leases (.fromSlice identity))
  | declined (hidentity : identity ≠ []) :
    Step leases identity (.declined identity) (declineLease leases (.fromSlice identity))

theorem leaseSlot_eq_some {ip : Ipv4} {slot : Nat} (h : leaseSlot ip = some slot) :
    slot < dhcpLeaseCapacity ∧ leaseIp slot = ip := by
  have hlast : ∀ x : UInt8, ¬x < 2 → ¬20 < x → (x - 2).toNat < 19 ∧ 2 + UInt8.ofNat (x - 2).toNat =
      x := by
    intro x hlow hhigh
    rw [UInt8.ofNat_toNat]
    have hlow' : 2 ≤ x.toNat := Nat.not_lt.mp hlow
    have hhigh' : x.toNat ≤ 20 := Nat.not_lt.mp hhigh
    have hsub : (x - 2).toNat = x.toNat - 2 := UInt8.toNat_sub_of_le _ _ (UInt8.not_lt.mp hlow)
    refine ⟨by omega, ?_⟩
    rw [UInt8.add_comm, UInt8.sub_add_cancel]
  rw [leaseSlot] at h
  split at h
  · cases h
  next hrange =>
    simp only [not_or, Decidable.not_not] at hrange
    obtain ⟨h0, h1, h2, hlow, hhigh⟩ := hrange
    obtain ⟨hlt, heq⟩ := hlast ip[3] hlow hhigh
    obtain rfl := Option.some.inj h
    refine ⟨hlt, ?_⟩
    apply Vector.ext
    intro i hi
    rcases i with _ | _ | _ | _ | i
    · exact h0.symm
    · exact h1.symm
    · exact h2.symm
    · exact heq
    · omega

theorem sendReply_spec (request : Request) (hpacket : packet.length ≤ dhcpPacketBuffer)
    (messageType : UInt8) (yiaddr : Ipv4) : ∃ sent, sendReply request packet messageType yiaddr =
    .ok sent ∧
      field sent.bytes ⟨242, 243⟩ = [messageType] ∧ Bytes.ofList 4 (field sent.bytes ⟨16, 20⟩) =
        yiaddr := by
  have hbuffer : (packet ++ List.replicate (dhcpPacketBuffer - packet.length) 0).length =
      dhcpPacketBuffer := by
    rw [List.length_append, List.length_replicate]
    omega
  obtain ⟨reply, replyLen, hreply, hlong, hyiaddr, htype⟩ :=
    buildReply_spec request messageType yiaddr hbuffer
  have htake (r : Range) (hr : r.stop ≤ 300) : field (reply.take replyLen) r = field reply r := by
    refine field_eq_of_getElem? fun i _ hi => ?_
    rw [List.getElem?_take_of_lt]
    exact Nat.lt_of_lt_of_le hi (Nat.le_trans hr hlong)
  refine ⟨⟨reply.take replyLen, replyDestination request messageType⟩, ?_, ?_, ?_⟩
  · rw [sendReply, hreply]
    rfl
  · rw [htake _ (by decide), htype]
  · rw [htake _ (by decide), hyiaddr, Bytes.ofList_toList]

theorem event_sent {sent : Datagram} {messageType : UInt8} {yiaddr : Ipv4}
    (htype : field sent.bytes ⟨242, 243⟩ = [messageType])
    (hyiaddr : Bytes.ofList 4 (field sent.bytes ⟨16, 20⟩) = yiaddr) :
    event packet (some sent) =
      if messageType = dhcpOffer ∨ messageType = dhcpAck then .handed yiaddr (identityOf packet)
        else .other := by
  rw [event, htype, hyiaddr]
  simp only [List.cons.injEq, and_true]

theorem findClientLease_eq_some {leases : List Lease} {key : ClientKey} {slot : Nat}
    (h : findClientLease leases key = some slot) :
    ∃ lease, leases[slot]? = some lease ∧ lease.inUse = true ∧ lease.client.matchesKey key =
      true := by
  obtain ⟨hlt, hmatch, -⟩ := List.findIdx?_eq_some_iff_getElem.mp h
  exact ⟨leases[slot], List.getElem?_eq_getElem hlt, Bool.and_eq_true_iff.mp hmatch⟩

theorem findClientLease_eq_none {leases : List Lease} {key : ClientKey}
    (h : findClientLease leases key = none) {slot : Nat} {lease : Lease}
    (hlease : leases[slot]? = some lease) (huse : lease.inUse = true) :
    lease.client.matchesKey key = false := by
  have := List.findIdx?_eq_none_iff.mp h lease (List.mem_of_getElem? hlease)
  rwa [huse, Bool.true_and] at this

/-- A request for an address is acknowledged only if the address is free or leased to the client. -/
theorem answerRequest_spec {leases : List Lease} (hleases : leases.length = dhcpLeaseCapacity)
    (request : Request) (ip : Ipv4) : answerRequest leases request ip = .ok (leases, dhcpNak) ∨
      ∃ slot lease, leases[slot]? = some lease ∧ leaseIp slot = ip ∧
        (lease.inUse = false ∨ lease.client.matchesKey request.client = true) ∧
        answerRequest leases request ip =
          .ok (assignLease leases slot request.client, dhcpAck) := by
  rw [answerRequest]
  match hslot : leaseSlot ip with
  | none => exact .inl rfl
  | some slot =>
    obtain ⟨hlt, hip⟩ := leaseSlot_eq_some hslot
    have hlease : leases[slot]? = some leases[slot] := List.getElem?_eq_getElem (hleases ▸ hlt)
    simp only [hlease]
    split
    next hfree =>
      refine .inr ⟨slot, _, hlease, hip, ?_, rfl⟩
      rwa [Bool.or_eq_true, Bool.not_eq_true'] at hfree
    next => exact .inl rfl

/-- A packet is read as a request. -/
def isRequest (packet : List UInt8) : Bool :=
  match parseRequest packet with
  | .ok (some _) => true
  | _ => false

theorem isRequest_of_event {sent : Option Datagram} {leases leases' : List Lease}
    (hserve : serve leases packet = .ok (leases', sent)) (h : event packet sent ≠ .other) :
    isRequest packet = true := by
  obtain ⟨request, hparse, -⟩ := parseRequest_spec packet
  rw [isRequest, hparse]
  match request with
  | some _ => rfl
  | none =>
    rw [serve, hparse] at hserve
    obtain ⟨-, rfl⟩ := Prod.mk.inj (Except.ok.inj hserve)
    rw [event, hparse] at h
    exact absurd rfl h

/-- A packet is served without a panic, and does to the leases what a step may do. -/
theorem serve_spec {leases : List Lease} (hleases : leases.length = dhcpLeaseCapacity)
    (hpacket : packet.length ≤ dhcpPacketBuffer) :
    ∃ leases' sent, serve leases packet = .ok (leases', sent) ∧
      Step leases (identityOf packet) (event packet sent) leases' := by
  obtain ⟨request, hparse, hclient⟩ := parseRequest_spec packet
  rw [serve, hparse, ok_bind]
  match request with
  | none =>
    refine ⟨leases, none, rfl, ?_⟩
    rw [event, hparse]
    exact .other
  | some request =>
    obtain ⟨hclient, hne⟩ := hclient request rfl
    have hquiet (h : ¬request.Served) : Step leases (identityOf packet)
        (event packet none) leases := by
      rw [event, hparse]
      simp only [if_neg h]
      exact .other
    simp only
    by_cases hgiaddr : request.giaddr = #v[0, 0, 0, 0]
    swap
    · rw [if_pos hgiaddr]
      exact ⟨leases, none, rfl, hquiet fun h => hgiaddr h.1⟩
    rw [if_neg (fun h => h hgiaddr)]
    by_cases hserver : request.serverIdentifier.any (· ≠ fallbackDeviceIpv4) = true
    · rw [if_pos hserver]
      exact ⟨leases, none, rfl, hquiet fun h => h.2 hserver⟩
    rw [if_neg hserver]
    have hserved : request.Served := ⟨hgiaddr, hserver⟩
    have hevent : event packet none =
        if request.messageType = dhcpRelease then .released (identityOf packet)
        else if request.messageType = dhcpDecline then .declined (identityOf packet)
        else .other := by
      rw [event, hparse]
      exact if_pos hserved
    by_cases hdiscover : request.messageType = dhcpDiscover
    · rw [hdiscover, if_neg (by decide), if_neg (by decide)] at hevent
      rw [if_pos hdiscover, existingOrAllocateLease, hclient]
      match hfind : findClientLease leases (.fromSlice (identityOf packet)) with
      | some slot =>
        obtain ⟨sent, hsent, htype, hyiaddr⟩ :=
          sendReply_spec request hpacket dhcpOffer (leaseIp slot)
        refine ⟨leases, some sent, ?_, ?_⟩
        · simp only [hsent]
          rfl
        · rw [event_sent htype hyiaddr, if_pos (.inl rfl)]
          exact .found hne hfind
      | none =>
        match hfree : leases.findIdx? fun lease => !lease.inUse with
        | none =>
          simp only [hfree]
          exact ⟨leases, none, rfl, hevent ▸ .other⟩
        | some slot =>
          obtain ⟨hlt, hunused, -⟩ := List.findIdx?_eq_some_iff_getElem.mp hfree
          obtain ⟨sent, hsent, htype, hyiaddr⟩ :=
            sendReply_spec request hpacket dhcpOffer (leaseIp slot)
          refine ⟨leases.set slot ⟨true, .fromSlice (identityOf packet)⟩, some sent, ?_, ?_⟩
          · simp only [hfree, Option.map_some, hsent]
            rfl
          · rw [event_sent htype hyiaddr, if_pos (.inl rfl)]
            refine .allocated hne hfind (List.getElem?_eq_getElem hlt) ?_
            rwa [Bool.not_eq_true'] at hunused
    rw [if_neg hdiscover]
    by_cases hrequest : request.messageType = dhcpRequest
    · rw [hrequest, if_neg (by decide), if_neg (by decide)] at hevent
      rw [if_pos hrequest]
      match request.requestedIp <|> nonzeroIpv4 request.ciaddr <|>
        (findClientLease leases request.client).map leaseIp with
      | none => exact ⟨leases, none, rfl, hevent ▸ .other⟩
      | some ip =>
        rcases answerRequest_spec hleases request ip with hanswer | ⟨slot, lease, hlease, hip,
          hfree, hanswer⟩
        · obtain ⟨sent, hsent, htype, hyiaddr⟩ :=
            sendReply_spec request hpacket dhcpNak #v[0, 0, 0, 0]
          refine ⟨leases, some sent, ?_, ?_⟩
          · simp only [hanswer, ok_bind]
            rw [if_neg (by decide), hsent]
            rfl
          · rw [event_sent htype hyiaddr, if_neg (by decide)]
            exact .other
        · obtain ⟨sent, hsent, htype, hyiaddr⟩ := sendReply_spec request hpacket dhcpAck ip
          refine ⟨assignLease leases slot request.client, some sent, ?_, ?_⟩
          · simp only [hanswer, ok_bind, if_true, hsent]
            rfl
          · rw [event_sent htype hyiaddr, if_pos (.inr rfl), ← hip, hclient]
            exact .assigned hne hlease (hclient ▸ hfree)
    rw [if_neg hrequest]
    by_cases hrelease : request.messageType = dhcpRelease
    · rw [if_pos hrelease, hclient]
      refine ⟨_, none, rfl, ?_⟩
      rw [hevent, if_pos hrelease]
      exact .released hne
    rw [if_neg hrelease] at hevent ⊢
    by_cases hdecline : request.messageType = dhcpDecline
    · rw [if_pos hdecline, hclient]
      refine ⟨_, none, rfl, ?_⟩
      rw [hevent, if_pos hdecline]
      exact .declined hne
    · rw [if_neg hdecline] at hevent ⊢
      exact ⟨leases, none, rfl, hevent ▸ .other⟩

end Microtun.Dhcp
