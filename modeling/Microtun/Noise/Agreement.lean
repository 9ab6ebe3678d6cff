import Microtun.Crypto.Reference
import Microtun.Noise
import Microtun.Relay

/-! The two sides of the handshake agree: on the transcript, on who sent it, and on the transport
keys. -/

namespace Microtun.Noise

open Messages

section

variable [Crypto] {R : Type} [RngCore R]

/-- Sealing into a field of a message that is large enough, and opening it again. -/
theorem seal_field (hseals : Crypto.SealsDatagrams) (hopens : Crypto.OpensSealed) (key : Key)
    (plaintext room ad : List UInt8) (hroom : room.length = tagLen) (had : ad.length = 32)
    (hpt : plaintext.length ≤ maxUdpSize) :
    ∃ sealed, aeadSeal key 0 (plaintext ++ room) plaintext.length ad = .ok sealed ∧
      sealed.length = plaintext.length + tagLen ∧ aeadOpen key 0 sealed ad = .ok plaintext := by
  have hbuf : (plaintext ++ room).length = plaintext.length + tagLen := by
    rw [List.length_append, hroom]
  obtain ⟨sealed, hseal, hlen⟩ :=
    aeadSeal_fits hseals key 0 hbuf (Nat.le_trans (Nat.le_of_eq had) (by decide)) hpt
  refine ⟨sealed, hseal, hlen, ?_⟩
  rw [aeadOpen_aeadSeal hopens hbuf hseal, List.take_left]

/-- The hash before the ephemeral key of an initiation to `sPubR`, and after it. -/
def initiationHash (sPubR ePub : Key) : Key :=
  hash [(hash [prologue.2.toList, sPubR.toList]).toList, ePub.toList]

/-- The chain of keys of an initiation. -/
structure InitiationKeys where
  chain₁ : Key
  chain₂ : Key
  key₂ : Key
  chain₃ : Key
  key₃ : Key

/-- What an initiation to `sPubR` carries, for the secrets `es` and `ss` of its two exchanges. -/
structure Initiation (sPubI sPubR ePub es ss : Key) (sender : UInt32) (timestamp : Bytes 12)
    (msg : List UInt8) (keys : InitiationKeys) : Prop where
  length : msg.length = initiationLen
  sender : field msg Init.sender = toLeBytes 4 sender.toNat
  ephemeral : field msg Init.ephemeral = ePub.toList
  first : kdf1 prologue.1 ePub.toList = .ok keys.chain₁
  second : kdf2 keys.chain₁ es.toList = .ok (keys.chain₂, keys.key₂)
  static : aeadOpen keys.key₂ 0 (field msg Init.static) (initiationHash sPubR ePub).toList =
    .ok sPubI.toList
  third : kdf2 keys.chain₂ ss.toList = .ok (keys.chain₃, keys.key₃)
  timestamp : aeadOpen keys.key₃ 0 (field msg Init.timestamp)
    (hash [(initiationHash sPubR ePub).toList, field msg Init.static]).toList = .ok timestamp.toList

/-- The hash after an initiation. -/
def finalHash (sPubR ePub : Key) (msg : List UInt8) : Key :=
  hash [(hash [(initiationHash sPubR ePub).toList, field msg Init.static]).toList,
    field msg Init.timestamp]

/-- A message with a field overwritten: the field, the other fields, and the length. -/
structure Overwritten (msg : List UInt8) (r : Range) (bytes msg' : List UInt8) : Prop where
  length : msg'.length = msg.length
  this : field msg' r = bytes
  other : ∀ r' : Range, r'.stop ≤ r.start ∨ r.stop ≤ r'.start → field msg' r' = field msg r'

omit [Crypto] in
theorem overwritten (msg : List UInt8) (r : Range) (bytes : List UInt8) (hr : r.start ≤ r.stop)
    (hstop : r.stop ≤ msg.length) (hb : bytes.length = r.stop - r.start) :
    Overwritten msg r bytes (setField msg r bytes) :=
  ⟨length_setField hr hstop hb, field_setField hr hstop hb,
    fun _ h => field_setField_of_disjoint hr hstop hb h⟩

omit [Crypto] in
theorem length_field {msg : List UInt8} {r : Range} (hstop : r.stop ≤ msg.length) :
    (field msg r).length = r.stop - r.start := by
  rw [field, List.length_take, List.length_drop]
  omega

theorem initiationOf_ok {ePriv sPrivI sPubR es ss : Key} {buf : List UInt8} (ePub sPubI : Key)
    (sender : UInt32) (timestamp : Bytes 12) (hhash : Crypto.Hashes)
    (hseals : Crypto.SealsDatagrams) (hopens : Crypto.OpensSealed) (hes : dh ePriv sPubR = .ok es)
    (hss : dh sPrivI sPubR = .ok ss) (hbuf : buf.length = initiationLen) :
    ∃ keys msg, initiationOf ePriv ePub sPrivI sPubI sPubR sender timestamp buf =
        .ok (⟨keys.chain₃, finalHash sPubR ePub msg, ePriv⟩, msg) ∧
      Initiation sPubI sPubR ePub es ss sender timestamp msg keys := by
  obtain ⟨c₁, h₁⟩ := kdf1_ok hhash prologue.1 ePub.toList
  obtain ⟨c₂, k₂, h₂⟩ := kdf2_ok hhash c₁ es.toList
  obtain ⟨c₃, k₃, h₃⟩ := kdf2_ok hhash c₂ ss.toList
  have hwrite : writeType buf msgInitiation = .ok (setField buf ⟨0, 4⟩ [msgInitiation, 0, 0, 0]) :=
    if_neg (by rw [hbuf]; decide)
  -- The message, field by field.
  have w₁ := overwritten buf ⟨0, 4⟩ [msgInitiation, 0, 0, 0] (by decide) (by rw [hbuf]; decide) rfl
  generalize setField buf ⟨0, 4⟩ [msgInitiation, 0, 0, 0] = m₁ at hwrite w₁
  have l₁ : m₁.length = initiationLen := w₁.length.trans hbuf
  have w₂ := overwritten m₁ Init.sender (toLeBytes 4 sender.toNat) (by decide) (by rw [l₁]; decide)
    (length_toLeBytes ..)
  generalize hm₂ : setField m₁ Init.sender (toLeBytes 4 sender.toNat) = m₂ at w₂
  have l₂ : m₂.length = initiationLen := w₂.length.trans l₁
  have w₃ := overwritten m₂ Init.ephemeral ePub.toList (by decide) (by rw [l₂]; decide)
    Vector.length_toList
  generalize hm₃ : setField m₂ Init.ephemeral ePub.toList = m₃ at w₃
  have l₃ : m₃.length = initiationLen := w₃.length.trans l₂
  have hroom : ((field m₃ Init.static).drop 32).length = tagLen := by
    rw [List.length_drop, length_field (by rw [l₃]; decide)]
    rfl
  obtain ⟨static, hstatic, hslen, hsopen⟩ := seal_field hseals hopens k₂ sPubI.toList
    ((field m₃ Init.static).drop 32) (initiationHash sPubR ePub).toList hroom Vector.length_toList
    (by rw [Vector.length_toList]; decide)
  rw [Vector.length_toList] at hstatic hslen
  have w₄ := overwritten m₃ Init.static static (by decide) (by rw [l₃]; decide) hslen
  generalize hm₄ : setField m₃ Init.static static = m₄ at w₄
  have l₄ : m₄.length = initiationLen := w₄.length.trans l₃
  have hroom' : ((field m₄ Init.timestamp).drop timestampLen).length = tagLen := by
    rw [List.length_drop, length_field (by rw [l₄]; decide)]
    rfl
  obtain ⟨stamp, hstamp, htlen, htopen⟩ := seal_field hseals hopens k₃ timestamp.toList
    ((field m₄ Init.timestamp).drop timestampLen)
    (hash [(initiationHash sPubR ePub).toList, static]).toList hroom' Vector.length_toList
    (by rw [Vector.length_toList]; decide)
  rw [show timestamp.toList.length = timestampLen from Vector.length_toList] at hstamp htlen
  have w₅ := overwritten m₄ Init.timestamp stamp (by decide) (by rw [l₄]; decide) htlen
  generalize hm₅ : setField m₄ Init.timestamp stamp = m₅ at w₅
  have l₅ : m₅.length = initiationLen := w₅.length.trans l₄
  have w₆ := overwritten m₅ Init.mac1 (List.replicate 16 0) (by decide) (by rw [l₅]; decide) rfl
  generalize hm₆ : setField m₅ Init.mac1 (List.replicate 16 0) = m₆ at w₆
  have l₆ : m₆.length = initiationLen := w₆.length.trans l₅
  have w₇ := overwritten m₆ Init.mac2 (List.replicate 16 0) (by decide) (by rw [l₆]; decide) rfl
  generalize hm₇ : setField m₆ Init.mac2 (List.replicate 16 0) = m₇ at w₇
  have fstatic : field m₇ Init.static = static := by
    rw [w₇.other _ (by decide), w₆.other _ (by decide), w₅.other _ (by decide), w₄.this]
  have fstamp : field m₇ Init.timestamp = stamp := by
    rw [w₇.other _ (by decide), w₆.other _ (by decide), w₅.this]
  have fephemeral : field m₇ Init.ephemeral = ePub.toList := by
    rw [w₇.other _ (by decide), w₆.other _ (by decide), w₅.other _ (by decide),
      w₄.other _ (by decide), w₃.this]
  have fsender : field m₇ Init.sender = toLeBytes 4 sender.toNat := by
    rw [w₇.other _ (by decide), w₆.other _ (by decide), w₅.other _ (by decide),
      w₄.other _ (by decide), w₃.other _ (by decide), w₂.this]
  refine ⟨⟨c₁, c₂, k₂, c₃, k₃⟩, m₇, ?_, w₇.length.trans l₆, fsender, fephemeral, h₁, h₂, ?_, h₃, ?_⟩
  · have hfold : hash [(hash [prologue.2.toList, sPubR.toList]).toList, ePub.toList] =
        initiationHash sPubR ePub := rfl
    simp only [initiationOf, h₁, hwrite, hes, h₂, hss, hm₂, hm₃, hfold, hstatic, hm₄, w₄.this, h₃,
      hstamp, hm₅, w₅.this, hm₆, hm₇, finalHash, fstatic, fstamp, bind, Except.bind, pure,
      Except.pure]
  · rw [fstatic]
    exact hsopen
  · rw [fstatic, fstamp]
    exact htopen

theorem identifyInitiation_ok {sPrivR sPubI sPubR ePub es ss : Key} {sender : UInt32}
    {timestamp : Bytes 12} {msg : List UInt8} {keys : InitiationKeys}
    (h : Initiation sPubI sPubR ePub es ss sender timestamp msg keys)
    (hes : dh sPrivR ePub = .ok es) (hss : dh sPrivR sPubI = .ok ss) :
    ∃ identified, identifyInitiation sPrivR sPubR msg = .ok identified ∧
      authenticateIdentifiedInitiation sPrivR identified =
        .ok ⟨keys.chain₃, finalHash sPubR ePub msg, ePub, sPubI, timestamp, sender⟩ ∧
      authenticateIdentifiedWithSharedSecret identified ss =
        .ok ⟨keys.chain₃, finalHash sPubR ePub msg, ePub, sPubI, timestamp, sender⟩ := by
  have hfold : hash [(hash [prologue.2.toList, sPubR.toList]).toList, ePub.toList] =
      initiationHash sPubR ePub := rfl
  have hstamp : (Bytes.ofList 28 (field msg Init.timestamp)).toList = field msg Init.timestamp :=
    Bytes.toList_ofList (length_field (by rw [h.length]; decide))
  have hindex : UInt32.ofNat (ofLeBytes (toLeBytes 4 sender.toNat)) = sender :=
    ofNat_ofLeBytes sender
  have hshared : authenticateIdentifiedWithSharedSecret ⟨keys.chain₂,
      hash [(initiationHash sPubR ePub).toList, field msg Init.static], ePub, sPubI,
      .ofList 28 (field msg Init.timestamp), sender⟩ ss =
        .ok ⟨keys.chain₃, finalHash sPubR ePub msg, ePub, sPubI, timestamp, sender⟩ := by
    simp only [authenticateIdentifiedWithSharedSecret, h.third, hstamp, h.timestamp, finalHash,
      bind, Except.bind, pure, Except.pure, Bytes.ofList_toList]
  refine ⟨_, ?_, ?_, hshared⟩
  · simp only [identifyInitiation, h.length, h.ephemeral, h.sender, Bytes.ofList_toList, h.first,
      hes, h.second, hfold, h.static, hindex, bind, Except.bind, pure, Except.pure, ne_eq,
      not_true_eq_false,
      if_false]
  · simp only [authenticateIdentifiedInitiation, hss, hshared, bind, Except.bind]

/-- What a response to an initiation carries: the keys of the chain, and the two sides of the
session. -/
theorem response_agreement {ePrivR ee se : Key} {buf : List UInt8} (ePubR : Key)
    (consumed : ConsumedInitiation) (sender : UInt32) (hhash : Crypto.Hashes)
    (hseals : Crypto.SealsDatagrams) (hopens : Crypto.OpensSealed)
    (hee : dh ePrivR consumed.ePubI = .ok ee) (hse : dh ePrivR consumed.sPubI = .ok se)
    (hbuf : buf.length = responseLen) :
    ∃ t₁ t₂ msg, responseOf ePrivR ePubR consumed sender buf = .ok (⟨t₂, t₁⟩, msg) ∧
      ∀ (state : InitiatorState) (sPrivI : Key), state.chain = consumed.chain →
        state.hash = consumed.hash → dh state.ePriv ePubR = .ok ee → dh sPrivI ePubR = .ok se →
        consumeResponse state sPrivI msg = .ok (⟨t₁, t₂⟩, sender) := by
  obtain ⟨c₁, h₁⟩ := kdf1_ok hhash consumed.chain ePubR.toList
  obtain ⟨c₂, h₂⟩ := kdf1_ok hhash c₁ ee.toList
  obtain ⟨c₃, h₃⟩ := kdf1_ok hhash c₂ se.toList
  obtain ⟨c₄, tau, k, h₄⟩ := kdf3_ok hhash c₃ pskQ.toList
  obtain ⟨t₁, t₂, h₅⟩ := kdf2_ok hhash c₄ []
  have hwrite : writeType buf msgResponse = .ok (setField buf ⟨0, 4⟩ [msgResponse, 0, 0, 0]) :=
    if_neg (by rw [hbuf]; decide)
  have w₁ := overwritten buf ⟨0, 4⟩ [msgResponse, 0, 0, 0] (by decide) (by rw [hbuf]; decide) rfl
  generalize setField buf ⟨0, 4⟩ [msgResponse, 0, 0, 0] = m₁ at hwrite w₁
  have l₁ : m₁.length = responseLen := w₁.length.trans hbuf
  have w₂ := overwritten m₁ Resp.sender (toLeBytes 4 sender.toNat) (by decide) (by rw [l₁]; decide)
    (length_toLeBytes ..)
  generalize hm₂ : setField m₁ Resp.sender (toLeBytes 4 sender.toNat) = m₂ at w₂
  have l₂ : m₂.length = responseLen := w₂.length.trans l₁
  have w₃ := overwritten m₂ Resp.receiver (toLeBytes 4 consumed.sender.toNat) (by decide)
    (by rw [l₂]; decide) (length_toLeBytes ..)
  generalize hm₃ : setField m₂ Resp.receiver (toLeBytes 4 consumed.sender.toNat) = m₃ at w₃
  have l₃ : m₃.length = responseLen := w₃.length.trans l₂
  have w₄ := overwritten m₃ Resp.ephemeral ePubR.toList (by decide) (by rw [l₃]; decide)
    Vector.length_toList
  generalize hm₄ : setField m₃ Resp.ephemeral ePubR.toList = m₄ at w₄
  have l₄ : m₄.length = responseLen := w₄.length.trans l₃
  -- The payload is empty, so its field holds nothing but the tag.
  obtain ⟨empty, hempty, helen, heopen⟩ := seal_field hseals hopens k [] (field m₄ Resp.empty)
    (hash [(hash [consumed.hash.toList, ePubR.toList]).toList, tau.toList]).toList
    (length_field (by rw [l₄]; decide)) Vector.length_toList (by decide)
  rw [List.nil_append, List.length_nil] at hempty
  have w₅ := overwritten m₄ Resp.empty empty (by decide) (by rw [l₄]; decide) helen
  generalize hm₅ : setField m₄ Resp.empty empty = m₅ at w₅
  have l₅ : m₅.length = responseLen := w₅.length.trans l₄
  have w₆ := overwritten m₅ Resp.mac1 (List.replicate 16 0) (by decide) (by rw [l₅]; decide) rfl
  generalize hm₆ : setField m₅ Resp.mac1 (List.replicate 16 0) = m₆ at w₆
  have l₆ : m₆.length = responseLen := w₆.length.trans l₅
  have w₇ := overwritten m₆ Resp.mac2 (List.replicate 16 0) (by decide) (by rw [l₆]; decide) rfl
  generalize hm₇ : setField m₆ Resp.mac2 (List.replicate 16 0) = m₇ at w₇
  have l₇ : m₇.length = responseLen := w₇.length.trans l₆
  have fempty : field m₇ Resp.empty = empty := by
    rw [w₇.other _ (by decide), w₆.other _ (by decide), w₅.this]
  have fephemeral : field m₇ Resp.ephemeral = ePubR.toList := by
    rw [w₇.other _ (by decide), w₆.other _ (by decide), w₅.other _ (by decide), w₄.this]
  have fsender : field m₇ Resp.sender = toLeBytes 4 sender.toNat := by
    rw [w₇.other _ (by decide), w₆.other _ (by decide), w₅.other _ (by decide),
      w₄.other _ (by decide), w₃.other _ (by decide), w₂.this]
  refine ⟨t₁, t₂, m₇, ?_, fun state sPrivI hchain hhash' hee' hse' => ?_⟩
  · simp only [responseOf, h₁, hwrite, hm₂, hm₃, hm₄, hee, h₂, hse, h₃, h₄, hempty, hm₅, hm₆, hm₇,
      h₅, bind, Except.bind, pure, Except.pure]
  · simp only [consumeResponse, l₇, fephemeral, Bytes.ofList_toList, hchain, hhash', h₁, hee', h₂,
      hse', h₃, h₄, fempty, heopen, h₅, fsender, ofNat_ofLeBytes, bind, Except.bind, pure,
      Except.pure, ne_eq,
      not_true_eq_false, if_false]

/-- The handshake agrees. The responder recovers who sent the initiation, in either of two ways;
both sides then hold mirrored keys, and each knows the index of the other. -/
theorem handshake_agreement (hdh : Crypto.Agrees) (hhash : Crypto.Hashes)
    (hseals : Crypto.SealsDatagrams) (hopens : Crypto.OpensSealed) (rngI rngR : R)
    (sPrivI sPrivR : Key) (senderI senderR : UInt32) (timestamp : Bytes 12) (bufI bufR : List UInt8)
    (hbufI : bufI.length = initiationLen) (hbufR : bufR.length = responseLen) :
    ∃ state msg rngI' identified shared consumed keysR response rngR' keysI,
      createInitiation rngI sPrivI (Crypto.publicKey sPrivI)
        (Crypto.publicKey sPrivR) senderI timestamp bufI = (.ok (state, msg), rngI') ∧
      identifyInitiation sPrivR (Crypto.publicKey sPrivR) msg = .ok identified ∧
      dh sPrivR (Crypto.publicKey sPrivI) = .ok shared ∧
      authenticateIdentifiedInitiation sPrivR identified = .ok consumed ∧
      authenticateIdentifiedWithSharedSecret identified shared = .ok consumed ∧
      consumed.sPubI = Crypto.publicKey sPrivI ∧ consumed.timestamp = timestamp ∧
      consumed.sender = senderI ∧
      createResponse rngR consumed senderR bufR = (.ok (keysR, response), rngR') ∧
      consumeResponse state sPrivI response = .ok (keysI, senderR) ∧
      keysI.send = keysR.recv ∧ keysI.recv = keysR.send := by
  obtain ⟨ePrivI, rngI', hdrawI⟩ : ∃ ePriv rng', dhGenerate rngI =
      ((ePriv, Crypto.publicKey ePriv), rng') := ⟨_, _, rfl⟩
  obtain ⟨ePrivR, rngR', hdrawR⟩ : ∃ ePriv rng', dhGenerate rngR =
      ((ePriv, Crypto.publicKey ePriv), rng') := ⟨_, _, rfl⟩
  obtain ⟨es, hes, hes'⟩ := dh_publicKey hdh ePrivI sPrivR
  obtain ⟨ss, hss, hss'⟩ := dh_publicKey hdh sPrivI sPrivR
  obtain ⟨ee, hee, hee'⟩ := dh_publicKey hdh ePrivR ePrivI
  obtain ⟨se, hse, hse'⟩ := dh_publicKey hdh ePrivR sPrivI
  obtain ⟨keys, msg, hmsg, hinit⟩ :=
    initiationOf_ok (Crypto.publicKey ePrivI) (Crypto.publicKey sPrivI)
    senderI timestamp hhash hseals hopens hes hss hbufI
  obtain ⟨identified, hident, hauth, hshared⟩ := identifyInitiation_ok hinit hes' hss'
  obtain ⟨t₁, t₂, response, hresponse, hconsume⟩ := response_agreement (Crypto.publicKey ePrivR)
    ⟨keys.chain₃, finalHash (Crypto.publicKey sPrivR) (Crypto.publicKey ePrivI) msg,
      Crypto.publicKey ePrivI, Crypto.publicKey sPrivI, timestamp, senderI⟩ senderR hhash hseals
        hopens
    hee hse hbufR
  refine ⟨⟨keys.chain₃, finalHash (Crypto.publicKey sPrivR) (Crypto.publicKey ePrivI) msg, ePrivI⟩,
    msg, rngI', identified, ss, _, ⟨t₂, t₁⟩, response, rngR', ⟨t₁, t₂⟩, ?_, hident, hss', hauth,
    hshared, rfl, rfl, rfl, ?_, hconsume _ sPrivI rfl rfl hee' hse', rfl, rfl⟩
  · rw [createInitiation, if_neg (not_not_intro hbufI), hdrawI]
    exact congrArg (·, rngI') hmsg
  · rw [createResponse, if_neg (not_not_intro hbufR), hdrawR]
    exact congrArg (·, rngR') hresponse

end

open Reference in
/-- A handshake of two keys, in clean buffers. -/
theorem handshake_agreement_sample :
    ∃ state msg rngI' identified shared consumed keysR response rngR' keysI,
      createInitiation (⟨2⟩ : Draws) (keyOf 8) (Crypto.publicKey (keyOf 8))
        (Crypto.publicKey (keyOf 16)) 3 (.zero 12) (List.replicate initiationLen 0) =
        (.ok (state, msg), rngI') ∧
      identifyInitiation (keyOf 16) (Crypto.publicKey (keyOf 16)) msg = .ok identified ∧
      dh (keyOf 16) (Crypto.publicKey (keyOf 8)) = .ok shared ∧
      authenticateIdentifiedInitiation (keyOf 16) identified = .ok consumed ∧
      authenticateIdentifiedWithSharedSecret identified shared = .ok consumed ∧
      consumed.sPubI = Crypto.publicKey (keyOf 8) ∧ consumed.timestamp = .zero 12 ∧
      consumed.sender = 3 ∧ createResponse (⟨4⟩ : Draws) consumed 5 (List.replicate responseLen 0) =
        (.ok (keysR, response), rngR') ∧ consumeResponse state (keyOf 8) response = .ok (keysI, 5) ∧
      keysI.send = keysR.recv ∧ keysI.recv = keysR.send :=
  handshake_agreement agrees hashes sealsDatagrams opensSealed (⟨2⟩ : Draws) (⟨4⟩ : Draws) (keyOf 8)
    (keyOf 16) 3 5 (.zero 12) (List.replicate initiationLen 0) (List.replicate responseLen 0)
    List.length_replicate List.length_replicate

end Microtun.Noise
