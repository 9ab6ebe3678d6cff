import Microtun.Core.Runs
import Microtun.Relay.Grammar
import Microtun.Crypto.Reference

/-! The relay envelopes that an engine seals are those that it reads. -/

namespace Microtun

open Hoare Messages

variable {cap : Capacities} {R P : Type} [Crypto]

theorem sealedDatagram_parts {sess : Session cap.replayWords} {messageType : UInt8}
    {payload data : List UInt8} (h : sealedDatagram sess messageType payload = .ok data) :
    ∃ ad ciphertext, transportAd messageType = .ok ad ∧
      aeadSeal sess.tSend sess.nSend (payload ++ List.replicate
        (padded payload.length - payload.length + tagLen) 0) (padded payload.length) ad =
          .ok ciphertext ∧ data = [messageType, 0, 0, 0] ++ toLeBytes 4 sess.remoteIndex.toNat ++
        toLeBytes 8 sess.nSend ++ ciphertext := by
  unfold sealedDatagram at h
  cases had : transportAd messageType with
  | error e =>
    rw [had] at h
    cases h
  | ok ad =>
    rw [had] at h
    dsimp only [bind, Except.bind] at h
    split at h
    · cases h
    · rename_i ciphertext hseal
      exact ⟨ad, ciphertext, rfl, hseal, (Except.ok.inj h).symm⟩

omit [Crypto] in
theorem length_header (messageType : UInt8) (index : UInt32) (counter : Nat) :
    ([messageType, 0, 0, 0] ++ toLeBytes 4 index.toNat ++ toLeBytes 8 counter).length =
      Data.packetStart := by
  simp only [List.length_append, length_toLeBytes]
  rfl

theorem standard_sealed {sess : Session cap.replayWords} {payload inner : List UInt8}
    (h : sealedDatagram sess msgData payload = .ok inner) : Relay.Standard inner := by
  obtain ⟨ad, ciphertext, -, hseal, rfl⟩ := sealedDatagram_parts h
  have hpad := le_padded payload.length
  have hbuf : (payload ++ List.replicate (padded payload.length - payload.length + tagLen)
      (0 : UInt8)).length = padded payload.length + tagLen := by
    rw [List.length_append, List.length_replicate]
    omega
  have hcipher : ciphertext.length = padded payload.length + tagLen := by
    simp only [aeadSeal, hbuf, Nat.lt_irrefl, if_false] at hseal
    split at hseal
    · rename_i c tag _
      obtain rfl := Except.ok.inj hseal
      simp only [List.length_append, Vector.length_toList, List.length_take, List.length_drop, hbuf]
      have htag : tagLen = 16 := rfl
      omega
    · cases hseal
  have hlen : ([msgData, 0, 0, 0] ++ toLeBytes 4 sess.remoteIndex.toNat ++ toLeBytes 8 sess.nSend ++
      ciphertext).length = 16 + (padded payload.length + 16) := by
    rw [List.length_append, length_header, hcipher]
    rfl
  refine Or.inr (Or.inr (Or.inr ⟨?_, ?_⟩))
  · have hmin : dataMinLen ≤ ([msgData, 0, 0, 0] ++ toLeBytes 4 sess.remoteIndex.toNat ++
        toLeBytes 8 sess.nSend ++ ciphertext).length := by
      rw [hlen]
      have : dataMinLen = 32 := rfl
      omega
    change classify (msgData :: 0 :: 0 :: 0 :: (toLeBytes 4 sess.remoteIndex.toNat ++
      toLeBytes 8 sess.nSend ++ ciphertext)) = some .data
    unfold classify
    simp only
    rw [if_neg (by simp [msgData, msgInitiation]), if_neg (by simp [msgData, msgResponse]),
      if_neg (by simp [msgData, msgCookieReply]), if_pos ⟨trivial, hmin⟩]
  · rw [hlen]
    simp only [padded, floor16]
    omega

theorem wrapAndSeal_sealed [RngCore R] {destination : Key} {inner header : List UInt8}
    (hheader : Relay.writeHeader destination inner.length = some header) (rpidx rsidx now : Nat)
    (w : World cap R P) : wpx (wrapAndSeal rpidx rsidx destination inner now) (fun r _ =>
      ∀ datagram rekey, r = .ok (datagram, rekey) →
        datagram.length ≤ maxUdpSize ∧ ∃ sess ciphertext tag, w.core.session rsidx = some sess ∧
          (Crypto.encrypt sess.tSend (counterNonce sess.nSend) relayAeadAd
            (Relay.fill (header ++ inner))).map (fun r => (r.1.toList, r.2.toList)) =
              some (ciphertext, tag) ∧
          datagram = [msgRelay, 0, 0, 0] ++ toLeBytes 4 sess.remoteIndex.toNat ++
            toLeBytes 8 sess.nSend ++ (ciphertext ++ tag)) w := by
  unfold wrapAndSeal
  rw [hheader]
  unfold sealTransport
  dsimp only
  split
  · refine wpx_throw.mpr ?_
    rintro datagram rekey ⟨⟩
  rename_i htotal
  simp only [wpx_bind, wpx_getCore, then_ok]
  split
  · rename_i peer sess _ hsess
    split
    · refine wpx_throw.mpr ?_
      rintro datagram rekey ⟨⟩
    · simp only [wpx_bind, wpx_liftExcept]
      cases hseal : sealedDatagram sess msgRelay (header ++ inner) with
      | error e =>
        rintro datagram rekey ⟨⟩
      | ok data =>
        simp only [then_ok, wpx_bind, wpx_modifyCore, wpx_emit, wpx_pure]
        intro datagram rekey hr
        obtain ⟨rfl, -⟩ := Prod.mk.inj (Except.ok.inj hr)
        obtain ⟨ad, c, had, hcipher, hparts⟩ := sealedDatagram_parts hseal
        obtain rfl : relayAeadAd = ad := Except.ok.inj had
        have hpad := le_padded (header ++ inner).length
        have hbuf : (header ++ inner ++ List.replicate
            (padded (header ++ inner).length - (header ++ inner).length + tagLen)
              (0 : UInt8)).length =
              padded (header ++ inner).length + tagLen := by
          rw [List.length_append, List.length_replicate]
          omega
        have htake : (header ++ inner ++ List.replicate
            (padded (header ++ inner).length - (header ++ inner).length + tagLen) (0 : UInt8)).take
              (padded (header ++ inner).length) = Relay.fill (header ++ inner) := by
          rw [Relay.fill, List.take_append, List.take_of_length_le hpad, List.take_replicate]
          congr 2
          omega
        have hdrop : (header ++ inner ++ List.replicate
            (padded (header ++ inner).length - (header ++ inner).length + tagLen) (0 : UInt8)).drop
              (padded (header ++ inner).length + tagLen) = [] :=
          List.drop_of_length_le (Nat.le_of_eq hbuf)
        simp only [aeadSeal, hbuf, Nat.lt_irrefl, if_false] at hcipher
        split at hcipher
        · rename_i ciphertext tag henc
          rw [hdrop, List.append_nil] at hcipher
          obtain rfl := Except.ok.inj hcipher
          have hmap : (Crypto.encrypt _ _ _ _).map (fun r => (r.1.toList, r.2.toList)) =
              some (ciphertext.toList, tag.toList) := congrArg (Option.map _) henc
          have hclen : ciphertext.toList.length = padded (header ++ inner).length := by
            rw [Vector.length_toList, htake, Relay.length_fill]
          generalize ciphertext.toList = bytes at hmap hclen hparts
          rw [htake] at hmap
          refine ⟨?_, sess, bytes, tag.toList, hsess, hmap, hparts⟩
          rw [hparts, List.length_append, length_header, List.length_append, hclen,
            Vector.length_toList]
          have htotal := Nat.le_of_not_lt htotal
          have hstart : Data.packetStart = dataHeaderLen := rfl
          have htag : tagLen = 16 := rfl
          omega
        · cases hcipher
  · refine wpx_throw.mpr ?_
    rintro datagram rekey ⟨⟩

/-- The relay reads an envelope out of a plaintext if and only if the plaintext spells it.  What a
sender stages for an initiation, a response or a transport datagram is such a plaintext once it is
filled, it gives back the destination and the datagram, and the message that seals it fits. -/
theorem relay_envelope [RngCore R] : (∀ plaintext e, Relay.parse plaintext = some e ↔
      Relay.Spells plaintext e ∧ Relay.Standard e.inner) ∧
    ∀ (destination : Key) (inner : List UInt8),
      (classify inner = some .initiation ∨ classify inner = some .response ∨
        ∃ (cap : Capacities) (sess : Session cap.replayWords) (payload : List UInt8),
          sealedDatagram sess msgData payload = .ok inner) →
      inner.length ≤ Relay.maxRelayInnerSize →
      ∃ header, Relay.writeHeader destination inner.length = some header ∧
        Relay.parse (Relay.fill (header ++ inner)) = some ⟨destination, inner⟩ ∧
        dataHeaderLen + (Relay.fill (header ++ inner)).length + tagLen ≤ maxUdpSize ∧
        ∀ (rpidx rsidx now : Nat) (w : World cap R P),
          wpx (wrapAndSeal rpidx rsidx destination inner now) (fun r _ =>
            ∀ datagram rekey, r = .ok (datagram, rekey) →
              datagram.length ≤ maxUdpSize ∧ ∃ sess ciphertext tag,
                w.core.session rsidx = some sess ∧
                (Crypto.encrypt sess.tSend (counterNonce sess.nSend) relayAeadAd
                  (Relay.fill (header ++ inner))).map (fun r => (r.1.toList, r.2.toList)) =
                    some (ciphertext, tag) ∧
                datagram = [msgRelay, 0, 0, 0] ++ toLeBytes 4 sess.remoteIndex.toNat ++
                  toLeBytes 8 sess.nSend ++ (ciphertext ++ tag)) w := by
  refine ⟨fun plaintext e => Relay.parse_iff, fun destination inner hinner hsize => ?_⟩
  have hmax : Relay.maxRelayInnerSize = 1408 := rfl
  have hheader : Relay.writeHeader destination inner.length =
      some (destination.toList ++ toLeBytes 4 inner.length) := if_pos (by omega)
  have hstandard : Relay.Standard inner := by
    rcases hinner with h | h | ⟨cap, sess, payload, h⟩
    · exact Or.inl h
    · exact Or.inr (Or.inl h)
    · exact standard_sealed h
  refine ⟨_, hheader, ?_, ?_, fun rpidx rsidx now w => wrapAndSeal_sealed hheader rpidx rsidx now w⟩
  · exact Relay.parse_writeHeader hheader (Relay.innerPlausible_iff.mpr hstandard)
  · have hlen := Relay.writeHeader_length hheader
    rw [Relay.length_fill, List.length_append, hlen]
    have hudp : maxUdpSize = 1500 := rfl
    have h36 : Relay.envelopeHeaderLen = 36 := rfl
    have h16 : dataHeaderLen = 16 := rfl
    have htag : tagLen = 16 := rfl
    simp only [padded, floor16]
    omega

open Reference in
/-- An initiation that is staged for a relay. -/
theorem relay_envelope_initiation :
    let inner : List UInt8 := [1, 0, 0, 0] ++ List.replicate 144 7
    ∃ header, Relay.writeHeader (.zero 32) 148 = some header ∧
      Relay.parse (Relay.fill (header ++ inner)) = some ⟨.zero 32, inner⟩ := by
  obtain ⟨header, hheader, hparse, -⟩ :=
    (@relay_envelope Sample.capacities Draws Sample.Permit _ _).2 (.zero 32)
      ([1, 0, 0, 0] ++ List.replicate 144 7) (Or.inl (by decide +kernel)) (by decide +kernel)
  exact ⟨header, hheader, hparse⟩

end Microtun
