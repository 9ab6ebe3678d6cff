import Microtun.Cookie
import Microtun.Crypto.Reference

/-! What one side of the cookie layer writes, the other side accepts. -/

namespace Microtun.Cookie

open Messages

variable {msg bytes : List UInt8} {alpha mac1 beta mac2 r : Range}

/-! ### The layout of handshake messages -/

/-- A complete initiation or response. -/
def Handshake (msg : List UInt8) : Prop :=
  (msg.head? = some msgInitiation ∧ msg.length = initiationLen) ∨
    (msg.head? = some msgResponse ∧ msg.length = responseLen)

/-- Both codes lie inside the message and do not overlap, and each comes after what it covers. -/
structure Layout (msg : List UInt8) (alpha mac1 beta mac2 : Range) : Prop where
  ranges : macRanges msg = some ((alpha, mac1), (beta, mac2))
  alpha : alpha.start ≤ alpha.stop ∧ alpha.stop ≤ mac1.start
  mac1 : 0 < mac1.start ∧ mac1.stop = mac1.start + 16 ∧ mac1.stop ≤ mac2.start
  beta : beta.start ≤ beta.stop ∧ beta.stop ≤ mac2.start
  mac2 : mac2.stop = mac2.start + 16 ∧ mac2.stop ≤ msg.length

theorem Handshake.layout (h : Handshake msg) :
    ∃ alpha mac1 beta mac2, Layout msg alpha mac1 beta mac2 := by
  rcases h with ⟨hhead, hlen⟩ | ⟨hhead, hlen⟩
  · refine ⟨Init.alpha, Init.mac1, Init.beta, Init.mac2, ?_, by decide, by decide, by decide, ?_⟩
    · rw [macRanges, if_pos ⟨hhead, hlen⟩]
    · rw [hlen]
      decide
  · refine ⟨Resp.alpha, Resp.mac1, Resp.beta, Resp.mac2, ?_, by decide, by decide, by decide, ?_⟩
    · rw [macRanges, if_neg, if_pos ⟨hhead, hlen⟩]
      rintro ⟨hother, -⟩
      rw [hhead] at hother
      exact absurd hother (by decide)
    · rw [hlen]
      decide

theorem head?_setField (hstart : 0 < r.start) (hlen : r.start ≤ msg.length) :
    (setField msg r bytes).head? = msg.head? := by
  cases msg with
  | nil =>
    simp only [List.length_nil] at hlen
    omega
  | cons b rest =>
    rw [setField, List.take_cons hstart]
    rfl

theorem Layout.setField (h : Layout msg alpha mac1 beta mac2) (hr : r = mac1 ∨ r = mac2)
    (hbytes : bytes.length = 16) : Layout (setField msg r bytes) alpha mac1 beta mac2 := by
  obtain ⟨hranges, halpha, ⟨hpos, hmac1, hbefore⟩, hbeta, hmac2, hend⟩ := h
  have hspan : 0 < r.start ∧ r.stop = r.start + 16 ∧ r.stop ≤ msg.length := by
    rcases hr with rfl | rfl <;> omega
  obtain ⟨hstart, hstop, hfits⟩ := hspan
  have hlength : (Microtun.setField msg r bytes).length = msg.length :=
    length_setField (by omega) hfits (by omega)
  refine ⟨?_, halpha, ⟨hpos, hmac1, hbefore⟩, hbeta, hmac2, by omega⟩
  rw [← hranges, macRanges, macRanges, head?_setField hstart (by omega), hlength]

theorem slice_eq_field (hr : r.start ≤ r.stop) (hstop : r.stop ≤ msg.length) :
    slice msg r = some (field msg r) := if_pos ⟨hr, hstop⟩

/-! ### Sources -/

/-- Two spellings of one source. -/
def SameSource (src src' : SocketAddr) : Prop :=
  Ip.unmapIp src.ip = Ip.unmapIp src'.ip ∧ src.port = src'.port

theorem sameSource_mapped (address : BitVec 32) (port : BitVec 16) (flowinfo scopeId : BitVec 32) :
    SameSource (.v4 address port) (.v6 (Ip.mapped address) port flowinfo scopeId) :=
  ⟨(Ip.unmapIp_mapped address).symm, rfl⟩

theorem ip_unmapSocketAddr (src : SocketAddr) :
    (Ip.unmapSocketAddr src).ip = Ip.unmapIp src.ip := by
  cases src with
  | v4 address port => rfl
  | v6 address port flowinfo scopeId =>
    by_cases h : address >>> 32 = 0xffff
    · simp only [Ip.unmapSocketAddr, SocketAddr.ip, Ip.unmapIp, h, if_true]
    · simp only [Ip.unmapSocketAddr, SocketAddr.ip, Ip.unmapIp, h, if_false]

theorem addrBytes_eq {src src' : SocketAddr} (h : SameSource src src') :
    addrBytes src = addrBytes src' := by
  simp only [addrBytes, ip_unmapSocketAddr, h.1, h.2]

/-! ### Codes -/

section

variable [Crypto] {R : Type} [RngCore R] {peerPub : Key} {cookie : Option (Bytes 16 × Nat)}
  {sent : List UInt8} {m₁ : Bytes 16} {now : Nat}

/-- The message carries the first code for a responder. -/
structure Maced (sent : List UInt8) (alpha mac1 beta mac2 : Range) (peerPub : Key) (m₁ : Bytes 16) :
    Prop where
  layout : Layout sent alpha mac1 beta mac2
  code : mac16 (mac1Key peerPub).toList [field sent alpha] = .ok m₁
  carried : field sent mac1 = m₁.toList

theorem Maced.setField (h : Maced sent alpha mac1 beta mac2 peerPub m₁)
    (hbytes : bytes.length = 16) :
    Maced (setField sent mac2 bytes) alpha mac1 beta mac2 peerPub m₁ := by
  obtain ⟨hlayout, hcode, hcarried⟩ := h
  obtain ⟨-, halpha, ⟨-, hmac1, hbefore⟩, -, hmac2, hend⟩ := id hlayout
  refine ⟨hlayout.setField (Or.inr rfl) hbytes, ?_, ?_⟩
  · rw [field_setField_of_disjoint (by omega) hend (by omega) (Or.inl (by omega)), hcode]
  · rw [field_setField_of_disjoint (by omega) hend (by omega) (Or.inl hbefore), hcarried]

theorem maced_of_handshake (hmacs : Crypto.Macs) (hmsg : Handshake msg) (peerPub : Key) :
    ∃ alpha mac1 beta mac2 m₁, macRanges msg = some ((alpha, mac1), (beta, mac2)) ∧
      mac16 (mac1Key peerPub).toList [field msg alpha] = .ok m₁ ∧
      Maced (setField msg mac1 m₁.toList) alpha mac1 beta mac2 peerPub m₁ := by
  obtain ⟨alpha, mac1, beta, mac2, hlayout⟩ := hmsg.layout
  obtain ⟨hranges, halpha, ⟨hpos, hmac1, hbefore⟩, -, hmac2, hend⟩ := id hlayout
  have hkey : (mac1Key peerPub).toList.length ≤ 32 := Nat.le_of_eq Vector.length_toList
  obtain ⟨m₁, hcode⟩ := mac16_ok hmacs hkey [field msg alpha]
  have hm₁ : m₁.toList.length = mac1.stop - mac1.start := by
    rw [Vector.length_toList]
    omega
  refine ⟨alpha, mac1, beta, mac2, m₁, hranges, hcode,
    hlayout.setField (Or.inl rfl) Vector.length_toList, ?_, ?_⟩
  · rw [field_setField_of_disjoint (by omega) (by omega) hm₁ (Or.inl halpha.2), hcode]
  · exact field_setField (by omega) (by omega) hm₁

theorem applyMacs_spec (hmacs : Crypto.Macs) (hmsg : Handshake msg) (peerPub : Key)
    (cookie : Option (Bytes 16 × Nat)) (now : Nat) :
    ∃ m₁ sent alpha mac1 beta mac2, applyMacs msg peerPub cookie now = .ok (m₁, sent) ∧
      Maced sent alpha mac1 beta mac2 peerPub m₁ ∧
      ∀ c received, cookie = some (c, received) → saturatingSince now received < cookieRefreshTime →
        ∃ m₂, mac16 c.toList [field sent beta] = .ok m₂ ∧ field sent mac2 = m₂.toList := by
  obtain ⟨alpha, mac1, beta, mac2, m₁, hranges, hcode, hmaced⟩ :=
    maced_of_handshake hmacs hmsg peerPub
  have hzeros : (List.replicate 16 (0 : UInt8)).length = 16 := List.length_replicate
  cases cookie with
  | none =>
    refine ⟨m₁, _, alpha, mac1, beta, mac2, ?_, hmaced.setField hzeros, by rintro _ _ ⟨⟩⟩
    simp only [applyMacs, hranges, hcode, bind, Except.bind, pure, Except.pure]
  | some x =>
    obtain ⟨c, received⟩ := x
    by_cases hfresh : saturatingSince now received < cookieRefreshTime
    · have hkey : c.toList.length ≤ 32 := by
        rw [Vector.length_toList]
        omega
      obtain ⟨m₂, hcode₂⟩ := mac16_ok hmacs hkey [field (setField msg mac1 m₁.toList) beta]
      have hm₂ : m₂.toList.length = 16 := Vector.length_toList
      refine ⟨m₁, _, alpha, mac1, beta, mac2, ?_, hmaced.setField hm₂, ?_⟩
      · simp only [applyMacs, hranges, hcode, hfresh, hcode₂, if_true, bind, Except.bind, pure,
          Except.pure]
      · rintro _ _ ⟨⟩ -
        obtain ⟨-, -, -, hbeta, hmac2, hend⟩ := hmaced.layout
        refine ⟨m₂, ?_, field_setField (by omega) hend (by omega)⟩
        rw [field_setField_of_disjoint (by omega) hend (by omega) (Or.inl hbeta.2), hcode₂]
    · refine ⟨m₁, _, alpha, mac1, beta, mac2, ?_, hmaced.setField hzeros, ?_⟩
      · simp only [applyMacs, hranges, hcode, hfresh, if_false, bind, Except.bind, pure,
          Except.pure]
      · rintro _ _ ⟨⟩ hlt
        exact absurd hlt hfresh

theorem verifyMac1_of_maced (h : Maced sent alpha mac1 beta mac2 peerPub m₁) :
    verifyMac1 sent (mac1Key peerPub) = some m₁ := by
  obtain ⟨⟨hranges, halpha, ⟨-, hmac1, hbefore⟩, -, hmac2, hend⟩, hcode, hcarried⟩ := h
  have hslice : slice sent alpha = some (field sent alpha) := slice_eq_field halpha.1 (by omega)
  have hslice₁ : slice sent mac1 = some m₁.toList := by
    rw [slice_eq_field (by omega) (by omega), hcarried]
  simp only [verifyMac1, hranges, hslice, hcode, hslice₁, Except.toOption, macEq,
    Option.bind_eq_bind, Option.bind_some, decide_true, if_true, Bytes.ofList_toList]
  rfl

/-- A responder whose secret is the one behind the cookie accepts a fresh second code. -/
theorem verifyMac2_of_maced {secret : CookieSecret} {src : SocketAddr} {c m₂ : Bytes 16}
    (h : Maced sent alpha mac1 beta mac2 peerPub m₁) (hcookie : secret.cookieFor src = .ok c)
    (hcode : mac16 c.toList [field sent beta] = .ok m₂) (hcarried : field sent mac2 = m₂.toList) :
    secret.verifyMac2 sent src = true := by
  obtain ⟨hranges, -, -, hbeta, hmac2, hend⟩ := h.layout
  have hslice : slice sent beta = some (field sent beta) := slice_eq_field hbeta.1 (by omega)
  have hslice₂ : slice sent mac2 = some m₂.toList := by
    rw [slice_eq_field (by omega) hend, hcarried]
  unfold CookieSecret.cookieFor at hcookie
  simp only [CookieSecret.verifyMac2, hranges, hcookie, hslice, hcode, hslice₂, Option.any_some,
    macEq, decide_true]

/-! ### Replies -/

/-- The cipher of replies takes a cookie; it only refuses inputs beyond its block counter. -/
def SealsCookies : Prop :=
  ∀ key nonce ad plaintext, ad.length = 16 → plaintext.length = 16 →
    (Crypto.xencrypt key nonce ad plaintext).isSome

theorem cookieFor_ok (hmacs : Crypto.Macs) (secret : CookieSecret) (src : SocketAddr) :
    ∃ tau, secret.cookieFor src = .ok tau :=
  mac16_ok hmacs (Nat.le_of_eq Vector.length_toList) [addrBytes src]

theorem cookieFor_eq {secret secret' : CookieSecret} {src src' : SocketAddr}
    (hsecret : secret'.current = secret.current) (hsrc : SameSource src src') :
    secret'.cookieFor src' = secret.cookieFor src := by
  simp only [CookieSecret.cookieFor, hsecret, addrBytes_eq hsrc]

/-- A reply gives the sender of the message the cookie of the secret. -/
theorem consume_createCookieReply (hseals : SealsCookies) (hopens : Crypto.XOpensSealed) {rng : R}
    {secret : CookieSecret} {responder : Key} {receiver : UInt32} {src : SocketAddr}
    {provokingMac1 tau : Bytes 16} {buf : List UInt8} (hbuf : buf.length = cookieReplyLen)
    (htau : secret.cookieFor src = .ok tau) :
    ∃ reply, (createCookieReply rng secret (cookieKey responder) receiver src provokingMac1 buf).1 =
      .ok reply ∧ consumeCookieReply responder provokingMac1 reply = .ok tau := by
  have h64 : cookieReplyLen = 64 := rfl
  obtain ⟨nonce, rng', hnonce⟩ : ∃ nonce rng', RngCore.fillBytes rng 24 = (nonce, rng') :=
    ⟨_, _, rfl⟩
  have htype : ([msgCookieReply, 0, 0, 0] : List UInt8).length = 4 := rfl
  have hwrite : writeType buf msgCookieReply =
      .ok (setField buf ⟨0, 4⟩ [msgCookieReply, 0, 0, 0]) := if_neg (by omega)
  generalize hb₁ : setField buf ⟨0, 4⟩ [msgCookieReply, 0, 0, 0] = b₁ at hwrite
  have hl₁ : b₁.length = 64 := by
    rw [← hb₁, length_setField (by decide) (by dsimp only; omega) htype, hbuf, h64]
  generalize hb₂ : setField b₁ CookieReply.receiver (toLeBytes 4 receiver.toNat) = b₂
  have hl₂ : b₂.length = 64 := by
    rw [← hb₂, length_setField (by decide) (by rw [hl₁]; decide) (length_toLeBytes 4 _), hl₁]
  have hnonceLen : nonce.toList.length = CookieReply.nonce.stop - CookieReply.nonce.start :=
    Vector.length_toList
  generalize hb₃ : setField b₂ CookieReply.nonce nonce.toList = b₃
  have hl₃ : b₃.length = 64 := by
    rw [← hb₃, length_setField (by decide) (by rw [hl₂]; decide) hnonceLen, hl₂]
  have hfield₃ : field b₃ CookieReply.nonce = nonce.toList := by
    rw [← hb₃]
    exact field_setField (by decide) (by rw [hl₂]; decide) hnonceLen
  -- The cookie and room for the tag.
  generalize hout : tau.toList ++ (field b₃ CookieReply.cookie).drop 16 = out
  have htauLen : tau.toList.length = 16 := Vector.length_toList
  have hroom : (field b₃ CookieReply.cookie).length = 32 := by
    simp only [field, CookieReply.cookie, List.length_take, List.length_drop, hl₃]
    omega
  have houtLen : out.length = 16 + tagLen := by
    rw [← hout, List.length_append, htauLen, List.length_drop, hroom]
    rfl
  have htake : out.take 16 = tau.toList := by
    rw [← hout]
    exact List.take_left' htauLen
  obtain ⟨sealed, hseal, hsealedLen⟩ : ∃ sealed,
      xaeadSeal (cookieKey responder) nonce out 16 provokingMac1.toList = .ok sealed ∧
        sealed.length = 32 := by
    obtain ⟨⟨ciphertext, tag⟩, henc⟩ := Option.isSome_iff_exists.mp
      (hseals (cookieKey responder) nonce provokingMac1.toList (out.take 16) Vector.length_toList
        (by rw [htake, htauLen]))
    have hrest : out.drop (16 + tagLen) = [] := List.drop_of_length_le (Nat.le_of_eq houtLen)
    refine ⟨ciphertext.toList ++ tag.toList ++ out.drop (16 + tagLen), ?_, ?_⟩
    · simp only [xaeadSeal, houtLen, Nat.lt_irrefl, if_false, henc]
    · rw [hrest, List.append_nil, List.length_append, Vector.length_toList, Vector.length_toList,
        htake, htauLen]
  have hopen := xaeadOpen_xaeadSeal hopens houtLen hseal
  rw [htake] at hopen
  have hcookieLen : sealed.length = CookieReply.cookie.stop - CookieReply.cookie.start := hsealedLen
  have hfits : CookieReply.cookie.stop ≤ b₃.length := by
    rw [hl₃]
    decide
  refine ⟨setField b₃ CookieReply.cookie sealed, ?_, ?_⟩
  · simp only [createCookieReply, hbuf, ne_eq, not_true_eq_false, if_false, hnonce, hwrite, hb₂,
      hb₃, htau, hout, hseal, bind, Except.bind, pure, Except.pure]
  · have hlen : (setField b₃ CookieReply.cookie sealed).length = cookieReplyLen := by
      rw [length_setField (by decide) hfits hcookieLen, hl₃, h64]
    have hcookie : field (setField b₃ CookieReply.cookie sealed) CookieReply.cookie = sealed :=
      field_setField (by decide) hfits hcookieLen
    have hkept : field (setField b₃ CookieReply.cookie sealed) CookieReply.nonce =
        nonce.toList := by
      rw [field_setField_of_disjoint (by decide) hfits hcookieLen (Or.inl (by decide)), hfield₃]
    simp only [consumeCookieReply, hlen, ne_eq, not_true_eq_false, if_false, hcookie, hkept,
      Bytes.ofList_toList, hopen, bind, Except.bind, pure, Except.pure]

/-- A message that `applyMacs` prepared is accepted by its responder, whose reply gives the sender
the cookie of its source. With that cookie, while it is fresh and the secret behind it is in use,
the messages of the sender are accepted under load too. -/
theorem cookie_round_trip (hmacs : Crypto.Macs) (hseals : SealsCookies)
    (hopens : Crypto.XOpensSealed) (hmsg : Handshake msg) (responder : Key)
    (cookie : Option (Bytes 16 × Nat)) (now : Nat) (rng : R)
    (secret : CookieSecret) (receiver : UInt32) (src : SocketAddr) {buf : List UInt8}
    (hbuf : buf.length = cookieReplyLen) :
    ∃ m₁ sent tau reply, applyMacs msg responder cookie now = .ok (m₁, sent) ∧
      verifyMac1 sent (mac1Key responder) = some m₁ ∧ secret.cookieFor src = .ok tau ∧
      (createCookieReply rng secret (cookieKey responder) receiver src m₁ buf).1 = .ok reply ∧
      consumeCookieReply responder m₁ reply = .ok tau ∧
      ∀ (next : List UInt8) (received later : Nat) (secret' : CookieSecret) (src' : SocketAddr),
        Handshake next → saturatingSince later received < cookieRefreshTime →
        secret'.current = secret.current → SameSource src src' →
        ∃ m₁' sent', applyMacs next responder (some (tau, received)) later = .ok (m₁', sent') ∧
          verifyMac1 sent' (mac1Key responder) = some m₁' ∧ secret'.verifyMac2 sent' src' =
            true := by
  obtain ⟨m₁, sent, alpha, mac1, beta, mac2, happly, hmaced, -⟩ :=
    applyMacs_spec hmacs hmsg responder cookie now
  obtain ⟨tau, htau⟩ := cookieFor_ok hmacs secret src
  obtain ⟨reply, hreply, hconsume⟩ : ∃ reply,
      (createCookieReply rng secret (cookieKey responder) receiver src m₁ buf).1 = .ok reply ∧
        consumeCookieReply responder m₁ reply = .ok tau :=
    consume_createCookieReply hseals hopens hbuf htau
  refine ⟨m₁, sent, tau, reply, happly, verifyMac1_of_maced hmaced, htau, hreply, hconsume, ?_⟩
  intro next received later secret' src' hnext hfresh hsecret hsrc
  obtain ⟨m₁', sent', alpha', mac1', beta', mac2', happly', hmaced', hsecond⟩ :=
    applyMacs_spec hmacs hnext responder (some (tau, received)) later
  obtain ⟨m₂, hcode, hcarried⟩ := hsecond tau received rfl hfresh
  have htau' : secret'.cookieFor src' = .ok tau := by rw [cookieFor_eq hsecret hsrc, htau]
  exact ⟨m₁', sent', happly', verifyMac1_of_maced hmaced',
    verifyMac2_of_maced hmaced' htau' hcode hcarried⟩

end

open Reference in
/-- An initiation, and a response that follows with the cookie, from the mapped spelling of the
source. -/
theorem cookie_round_trip_initiation :
    let initiation : List UInt8 := [1, 0, 0, 0] ++ List.replicate 144 7
    let response : List UInt8 := [2, 0, 0, 0] ++ List.replicate 88 7
    let secret : CookieSecret := ⟨keyOf 5, 0⟩
    ∃ m₁ sent tau reply, applyMacs initiation (keyOf 9) none 0 = .ok (m₁, sent) ∧
      verifyMac1 sent (mac1Key (keyOf 9)) = some m₁ ∧
      (createCookieReply (⟨0⟩ : Draws) secret (cookieKey (keyOf 9)) 3 (.v4 1 80) m₁
        (List.replicate 64 0)).1 = .ok reply ∧
      consumeCookieReply (keyOf 9) m₁ reply = .ok tau ∧
      ∃ m₁' sent', applyMacs response (keyOf 9) (some (tau, 10)) 120009 = .ok (m₁', sent') ∧
        secret.verifyMac2 sent' (.v6 (Ip.mapped 1) 80 0 0) = true := by
  intro initiation response secret
  have hseals : SealsCookies := fun _ _ _ _ _ _ => rfl
  obtain ⟨m₁, sent, tau, reply, happly, hverify, -, hreply, hconsume, hnext⟩ :=
    cookie_round_trip macs hseals xOpensSealed
      (show Handshake initiation from Or.inl (by decide +kernel))
      (keyOf 9) none 0 (⟨0⟩ : Draws) secret 3 (.v4 1 80)
      (show (List.replicate 64 (0 : UInt8)).length = cookieReplyLen from rfl)
  obtain ⟨m₁', sent', happly', -, haccept⟩ := hnext response 10 120009 secret
    (.v6 (Ip.mapped 1) 80 0 0) (Or.inr (by decide)) (by decide) rfl (sameSource_mapped 1 80 0 0)
  exact ⟨m₁, sent, tau, reply, happly, hverify, hreply, hconsume, m₁', sent', happly', haccept⟩

end Microtun.Cookie
