import Microtun.Firmware.Record
import Mathlib.Data.List.Basic

/-! Both encoders write the same record, which decodes to what was encoded, and a record that
decodes has the header that an encoder writes. -/

namespace Microtun.Firmware

theorem ofNat_toNat_of_le {n : Nat} (h : n ≤ maxTomlLen) : (UInt32.ofNat n).toNat = n := by
  rw [UInt32.toNat_ofNat']
  exact Nat.mod_eq_of_lt (Nat.lt_of_le_of_lt h (by decide))

theorem copyAt_after {front rest bytes : List UInt8} {n : Nat} (hn : front.length = n)
    (h : bytes.length ≤ rest.length) :
    copyAt (front ++ rest) n bytes = .ok (front ++ bytes ++ rest.drop bytes.length) := by
  subst hn
  have hroom : front.length + bytes.length ≤ (front ++ rest).length := by
    rw [List.length_append]
    omega
  rw [copyAt, if_pos hroom, List.take_left, List.drop_append,
    List.drop_of_length_le (Nat.le_add_right _ _), Nat.add_sub_cancel_left, List.nil_append]
  rfl

/-- The header of a record. -/
def header (payloadLen crc : UInt32) : List UInt8 :=
  recordMagic ++ toLeBytes 2 recordFormatVersion ++ toLeBytes 2 headerLen ++
    toLeBytes 4 payloadLen.toNat ++ toLeBytes 4 crc.toNat

@[simp] theorem length_header (payloadLen crc : UInt32) :
    (header payloadLen crc).length = headerLen := by
  simp only [header, List.length_append, length_toLeBytes]
  rfl

theorem writeHeader_eq {record : List UInt8} (payloadLen crc : UInt32)
    (h : headerLen ≤ record.length) :
    writeHeader record payloadLen crc = .ok (header payloadLen crc ++ record.drop headerLen) := by
  have hlen : 16 ≤ record.length := h
  have hmagic : copyAt record 0 recordMagic = .ok (recordMagic ++ record.drop 4) :=
    copyAt_after (List.length_nil (α := UInt8))
      (by simp only [recordMagic, List.length_cons, List.length_nil]; omega)
  rw [writeHeader, hmagic, ok_bind, copyAt_after (n := 4) rfl (by simp; omega), ok_bind,
    copyAt_after (n := 6) (by simp [recordMagic]) (by simp; omega), ok_bind,
    copyAt_after (n := 8) (by simp [recordMagic]) (by simp; omega), ok_bind,
    copyAt_after (n := 12) (by simp [recordMagic]) (by simp; omega)]
  simp only [length_toLeBytes, List.drop_drop]
  rfl

variable {ε κ : Type} (crc32 : List UInt8 → UInt32) (decodeToml : List UInt8 → Except ε κ)

/-- The header for a payload. -/
def headerFor (payload : List UInt8) : List UInt8 :=
  header (.ofNat payload.length) (recordCrc32 crc32 (.ofNat payload.length) payload)

/-- The record for a payload. -/
def image (payload : List UInt8) : List UInt8 :=
  headerFor crc32 payload ++ payload ++ List.replicate (maxTomlLen - payload.length) 0xff

variable {crc32 decodeToml} {toml record : List UInt8} {config : κ}

@[simp] theorem length_headerFor (payload : List UInt8) :
    (headerFor crc32 payload).length = headerLen :=
  length_header _ _

theorem length_image (h : toml.length ≤ maxTomlLen) : (image crc32 toml).length = recordSize := by
  simp only [image, List.length_append, length_headerFor, List.length_replicate]
  have : headerLen + maxTomlLen = recordSize := rfl
  omega

theorem encodeRecord_ok (hroom : recordSize ≤ record.length) (hlen : toml.length ≤ maxTomlLen)
    (hdecode : decodeToml toml = .ok config) : encodeRecord crc32 decodeToml toml record =
      .ok (.ok (), image crc32 toml ++ record.drop recordSize) := by
  have hfill : fillAt record 0 recordSize 0xff =
      .ok (List.replicate recordSize 0xff ++ record.drop recordSize) :=
        if_pos ⟨Nat.zero_le _, hroom⟩
  have hheader : headerLen ≤
      (List.replicate recordSize (0xff : UInt8) ++ record.drop recordSize).length := by
    rw [List.length_append, List.length_replicate]
    exact Nat.le_add_right_of_le (by decide)
  have hdrop : (List.replicate recordSize (0xff : UInt8) ++ record.drop recordSize).drop headerLen =
      List.replicate maxTomlLen 0xff ++ record.drop recordSize := by
    rw [List.drop_append_of_le_length (by rw [List.length_replicate]; decide), List.drop_replicate]
    rfl
  rw [encodeRecord, if_neg (Nat.not_lt.mpr hroom), if_neg (Nat.not_lt.mpr hlen), hdecode]
  simp only [hfill, ok_bind, writeHeader_eq _ _ hheader, hdrop]
  rw [copyAt_after (length_header _ _) (by rw [List.length_append, List.length_replicate]; omega),
    List.drop_append_of_le_length (by rw [List.length_replicate]; exact hlen), List.drop_replicate,
    ← List.append_assoc]
  rfl

theorem encodeRecordInPlace_ok (hsize : record.length = recordSize)
    (hlen : toml.length ≤ maxTomlLen) (hplaced : slice record ⟨headerLen, headerLen + toml.length⟩ =
    some toml) (hdecode : decodeToml toml = .ok config) :
    encodeRecordInPlace crc32 decodeToml record toml.length = .ok (.ok (), image crc32 toml) := by
  obtain ⟨-, hstop, hpayload⟩ := slice_eq_some.mp hplaced
  simp only at hstop hpayload
  have hrest : record.length - (headerLen + toml.length) = maxTomlLen - toml.length := by
    have : headerLen + maxTomlLen = recordSize := rfl
    omega
  have hfill : fillAt record (headerLen + toml.length) record.length 0xff =
      .ok (record.take (headerLen + toml.length) ++ List.replicate (maxTomlLen - toml.length)
        0xff) := by
    rw [fillAt, if_pos ⟨hstop, Nat.le_refl _⟩, List.drop_length, List.append_nil, hrest]
    rfl
  have hlength : (record.take (headerLen + toml.length)).length = headerLen + toml.length :=
    List.length_take_of_le hstop
  rw [encodeRecordInPlace, if_neg (Nat.not_lt.mpr hlen), hplaced]
  simp only [hdecode, hfill, ok_bind]
  rw [writeHeader_eq _ _ (by rw [List.length_append, hlength]; omega),
    List.drop_append_of_le_length (by rw [hlength]; omega), ← hpayload, ← List.append_assoc]
  rfl

theorem field_middle {front part rest : List UInt8} {r : Range} (hstart : front.length = r.start)
    (hstop : front.length + part.length = r.stop) : field (front ++ (part ++ rest)) r = part := by
  rw [field, ← hstart, ← hstop, List.drop_left, Nat.add_sub_cancel_left, List.take_left]

theorem field_header (payloadLen crc : UInt32) (rest : List UInt8) :
    field (header payloadLen crc ++ rest) ⟨0, 4⟩ = recordMagic ∧
    field (header payloadLen crc ++ rest) ⟨4, 6⟩ = toLeBytes 2 recordFormatVersion ∧
    field (header payloadLen crc ++ rest) ⟨6, 8⟩ = toLeBytes 2 headerLen ∧
    field (header payloadLen crc ++ rest) ⟨8, 12⟩ = toLeBytes 4 payloadLen.toNat ∧
    field (header payloadLen crc ++ rest) ⟨12, 16⟩ = toLeBytes 4 crc.toNat := by
  simp only [header, List.append_assoc]
  refine ⟨rfl, field_middle rfl rfl, ?_, ?_, ?_⟩
  · rw [← List.append_assoc]
    exact field_middle rfl rfl
  · rw [← List.append_assoc, ← List.append_assoc]
    exact field_middle rfl (by simp [recordMagic])
  · rw [← List.append_assoc, ← List.append_assoc, ← List.append_assoc]
    exact field_middle (by simp [recordMagic]) (by simp [recordMagic])

theorem toNat_field {bytes : List UInt8} {a : Nat} (h : a + 4 ≤ bytes.length) :
    (UInt32.ofNat (ofLeBytes (field bytes ⟨a, a + 4⟩))).toNat = ofLeBytes
    (field bytes ⟨a, a + 4⟩) := by
  have hlt := ofLeBytes_lt (field bytes ⟨a, a + 4⟩)
  rw [length_field h, Nat.add_sub_cancel_left] at hlt
  exact UInt32.toNat_ofNat_of_lt' hlt

/-- The first bytes of a record are the header of the numbers that are read from them. -/
theorem take_header (hlen : headerLen ≤ record.length) (hmagic : field record ⟨0, 4⟩ = recordMagic)
    (hversion : ofLeBytes (field record ⟨4, 6⟩) = recordFormatVersion)
    (hheader : ofLeBytes (field record ⟨6, 8⟩) = headerLen) :
    record.take headerLen = header (.ofNat (ofLeBytes (field record ⟨8, 12⟩)))
      (.ofNat (ofLeBytes (field record ⟨12, 16⟩))) := by
  have hlen16 : 16 ≤ record.length := hlen
  have h4 : toLeBytes 2 recordFormatVersion = field record ⟨4, 6⟩ :=
    hversion ▸ toLeBytes_field (a := 4) (b := 6) (by omega)
  have h6 : toLeBytes 2 headerLen = field record ⟨6, 8⟩ :=
    hheader ▸ toLeBytes_field (a := 6) (b := 8) (by omega)
  have h8 : toLeBytes 4 (ofLeBytes (field record ⟨8, 12⟩)) = field record ⟨8, 12⟩ :=
    toLeBytes_field (a := 8) (b := 12) (by omega)
  have h12 : toLeBytes 4 (ofLeBytes (field record ⟨12, 16⟩)) = field record ⟨12, 16⟩ :=
    toLeBytes_field (a := 12) (b := 16) (by omega)
  have hzero : record.take 4 = field record ⟨0, 4⟩ := rfl
  rw [header, toNat_field (a := 8) (by omega), toNat_field (a := 12) (by omega), h4, h6, h8, h12,
    ← hmagic, ← hzero, ← take_field record (by decide), ← take_field record (by decide),
    ← take_field record (by decide),
    ← take_field record (by decide)]
  rfl

theorem payloadLen_headerFor {payload rest : List UInt8} (hlen : payload.length ≤ maxTomlLen) :
    ofLeBytes (field (headerFor crc32 payload ++ (payload ++ rest)) ⟨8, 12⟩) = payload.length := by
  rw [headerFor, (field_header _ _ _).2.2.2.1, ofNat_toNat_of_le hlen, ofLeBytes_toLeBytes]
  exact Nat.mod_eq_of_lt (Nat.lt_of_le_of_lt hlen (by decide))

theorem payload_headerFor (payload rest : List UInt8) :
    field (headerFor crc32 payload ++ (payload ++ rest)) ⟨headerLen, headerLen + payload.length⟩ =
      payload :=
  field_middle (length_headerFor payload) (by rw [length_headerFor])

/-- A record decodes exactly if it begins with the header for its payload, and the payload decodes.
-/
theorem decodeRecord_iff : decodeRecord crc32 decodeToml record = some config ↔
    ∃ payload rest, record = headerFor crc32 payload ++ payload ++ rest ∧
      payload.length ≤ maxTomlLen ∧
      recordSize ≤ record.length ∧ decodeToml payload = .ok config := by
  have hsizes : headerLen + maxTomlLen = recordSize := rfl
  constructor
  · intro h
    rw [decodeRecord] at h
    split at h
    · cases h
    next hchecks =>
      simp only [Bool.or_eq_true, decide_eq_true_eq, not_or, Nat.not_lt,
        Decidable.not_not] at hchecks
      obtain ⟨⟨⟨hsize, hmagic⟩, hversion⟩, hheader⟩ := hchecks
      have htake := take_header (by omega) hmagic hversion hheader
      generalize hn : ofLeBytes (field record ⟨8, 12⟩) = n at h htake
      simp only at h
      split at h
      · cases h
      next hlen =>
        split at h
        · cases h
        next hcrc =>
          have hpayload : (field record ⟨headerLen, headerLen + n⟩).length = n := by
            rw [length_field (by omega), Nat.add_sub_cancel_left]
          refine ⟨field record ⟨headerLen, headerLen + n⟩, record.drop (headerLen + n), ?_, ?_,
            hsize, ?_⟩
          · rw [headerFor, hpayload, Decidable.not_not.mp hcrc, ← htake,
              ← take_field record (Nat.le_add_right _ _), List.take_append_drop]
          · rw [hpayload]
            exact Nat.not_lt.mp hlen
          · match hdecode : decodeToml (field record ⟨headerLen, headerLen + n⟩) with
            | .error _ => rw [hdecode] at h; cases h
            | .ok _ => rw [hdecode] at h; cases h; rfl
  · rintro ⟨payload, rest, rfl, hlen, hsize, hdecode⟩
    rw [List.append_assoc] at hsize ⊢
    obtain ⟨hmagic, hversion, hheader, -, hcrc⟩ :=
      field_header (.ofNat payload.length) (recordCrc32 crc32 (.ofNat payload.length) payload)
        (payload ++ rest)
    rw [← headerFor] at hmagic hversion hheader hcrc
    have hstored (crc : UInt32) : UInt32.ofNat (ofLeBytes (toLeBytes 4 crc.toNat)) = crc := by
      have hlt : crc.toNat < 256 ^ 4 := crc.toNat_lt
      rw [ofLeBytes_toLeBytes, Nat.mod_eq_of_lt hlt, UInt32.ofNat_toNat]
    rw [decodeRecord, hmagic, hversion, hheader, payloadLen_headerFor hlen, hcrc, hstored, if_neg,
      if_neg (Nat.not_lt.mpr hlen)]
    · simp only [payload_headerFor, ne_eq, not_true_eq_false, if_false, hdecode]
      rfl
    · simp only [Bool.or_eq_true, decide_eq_true_eq, not_or, Nat.not_lt, Decidable.not_not]
      exact ⟨⟨⟨hsize, trivial⟩, rfl⟩, rfl⟩

theorem decodeRecord_image {rest : List UInt8} (hlen : toml.length ≤ maxTomlLen)
    (hdecode : decodeToml toml = .ok config) :
    decodeRecord crc32 decodeToml (image crc32 toml ++ rest) = some config := by
  refine decodeRecord_iff.mpr
    ⟨toml, List.replicate (maxTomlLen - toml.length) 0xff ++ rest, ?_, hlen, ?_, hdecode⟩
  · rw [image, List.append_assoc]
  · rw [List.length_append, length_image hlen]
    exact Nat.le_add_right _ _

/-! ### What is not encoded -/

/-- A text that the encoders accept. -/
def Accepted (decodeToml : List UInt8 → Except ε κ) (toml : List UInt8) (config : κ) : Prop :=
  toml.length ≤ maxTomlLen ∧ decodeToml toml = .ok config

variable (crc32) in
theorem encodeRecord_refused (h : ∀ config, ¬Accepted decodeToml toml config) :
    ∃ e, encodeRecord crc32 decodeToml toml record = .ok (.error e, record) := by
  rw [encodeRecord]
  split
  · exact ⟨_, rfl⟩
  · split
    · exact ⟨_, rfl⟩
    next hlen =>
      match hdecode : decodeToml toml with
      | .error _ => exact ⟨_, rfl⟩
      | .ok config => exact absurd ⟨Nat.not_lt.mp hlen, hdecode⟩ (h config)

theorem encodeRecordInPlace_refused
    (hplaced : toml.length ≤ maxTomlLen → slice record ⟨headerLen, headerLen + toml.length⟩ =
      some toml) (h : ∀ config, ¬Accepted decodeToml toml config) :
    ∃ e, encodeRecordInPlace crc32 decodeToml record toml.length = .ok (.error e, record) := by
  rw [encodeRecordInPlace]
  split
  · exact ⟨_, rfl⟩
  next hlen =>
    rw [hplaced (Nat.not_lt.mp hlen)]
    simp only
    match hdecode : decodeToml toml with
    | .error _ => exact ⟨_, rfl⟩
    | .ok config => exact absurd ⟨Nat.not_lt.mp hlen, hdecode⟩ (h config)

theorem encodeRecord_unchanged {e : EncodeRecordError} {after : List UInt8}
    (h : encodeRecord crc32 decodeToml toml record = .ok (.error e, after)) : after = record := by
  by_cases hroom : recordSize ≤ record.length
  · by_cases haccepted : ∃ config, Accepted decodeToml toml config
    · obtain ⟨config, hlen, hdecode⟩ := haccepted
      rw [encodeRecord_ok hroom hlen hdecode] at h
      cases h
    · obtain ⟨_, hrefused⟩ := encodeRecord_refused crc32 (not_exists.mp haccepted)
      rw [hrefused] at h
      cases h
      rfl
  · rw [encodeRecord, if_pos (Nat.not_le.mp hroom)] at h
    cases h
    rfl

/-! ### The buffer of a transfer -/

/-- Where a text is received. -/
def recordPayloadBuffer (record : List UInt8) : List UInt8 := record.drop headerLen

theorem slice_recordPayloadBuffer (hsize : record.length = recordSize)
    (hlen : toml.length ≤ maxTomlLen) (hplaced : (recordPayloadBuffer record).take toml.length =
    toml) : slice record ⟨headerLen, headerLen + toml.length⟩ = some toml := by
  have hsizes : headerLen + maxTomlLen = recordSize := rfl
  refine slice_eq_some.mpr ⟨Nat.le_add_right _ _, ?_, ?_⟩
  · simp only
    omega
  · rw [List.drop_take, Nat.add_sub_cancel_left]
    exact hplaced.symm

/-! ### Flash -/

variable {σ ε' : Type} {F : NorFlash σ ε'} {flash : σ}

theorem storeConfig_refused (h : decodeRecord crc32 decodeToml record = none) :
    storeConfig crc32 decodeToml F flash record = ⟨.error "invalid config", record, flash, []⟩ := by
  rw [storeConfig, h]

theorem storeConfig_ok (h : (storeConfig crc32 decodeToml F flash record).result = .ok ()) :
    ∃ back config, (storeConfig crc32 decodeToml F flash record).calls =
        [.erase 0 (UInt32.ofNat (F.capacity flash)).toNat, .write 0 record, .read 0 back] ∧
      (storeConfig crc32 decodeToml F flash record).record = back ∧
      decodeRecord crc32 decodeToml back = some config := by
  revert h
  rw [storeConfig]
  split
  · exact nofun
  · simp only
    split
    · exact nofun
    · split
      · exact nofun
      · split
        · exact nofun
        next back _ _ =>
          split
          · exact nofun
          next config hback => exact fun _ => ⟨back, config, rfl, rfl, hback⟩

/-- Both encoders accept the same texts and write the same record, whatever the record held, and it
decodes to what the text decodes to; an encoder that fails leaves the record as it was. A record
that decodes has the header and the payload that the encoder writes. A flash is erased only for a
record that decodes, and the result is `Ok` only if what was read back from it decodes. -/
theorem record_codec (crc32 : List UInt8 → UInt32) (decodeToml : List UInt8 → Except ε κ) :
    (∀ toml record placed : List UInt8, recordSize ≤ record.length → placed.length = recordSize →
      (toml.length ≤ maxTomlLen → (recordPayloadBuffer placed).take toml.length = toml) →
      (∀ config, Accepted decodeToml toml config → ∃ encoded, encoded.length = recordSize ∧
        encodeRecord crc32 decodeToml toml record =
          .ok (.ok (), encoded ++ record.drop recordSize) ∧
        encodeRecordInPlace crc32 decodeToml placed toml.length = .ok (.ok (), encoded) ∧
        decodeRecord crc32 decodeToml encoded = some config ∧
        decodeRecord crc32 decodeToml (encoded ++ record.drop recordSize) = some config) ∧
      ((∀ config, ¬Accepted decodeToml toml config) →
        (∃ e, encodeRecord crc32 decodeToml toml record = .ok (.error e, record)) ∧
        ∃ e, encodeRecordInPlace crc32 decodeToml placed toml.length = .ok (.error e, placed))) ∧
    (∀ toml record e after, encodeRecord crc32 decodeToml toml record = .ok (.error e, after) →
      after = record) ∧
    (∀ record config, decodeRecord crc32 decodeToml record = some config →
      let payload := field record ⟨headerLen, headerLen + ofLeBytes (field record ⟨8, 12⟩)⟩
      Accepted decodeToml payload config ∧
      ∀ buffer, recordSize ≤ buffer.length → ∃ encoded,
        encodeRecord crc32 decodeToml payload buffer = .ok (.ok (), encoded) ∧
        record.take (headerLen + payload.length) = encoded.take (headerLen + payload.length)) ∧
    ∀ (σ ε' : Type) (F : NorFlash σ ε') (flash : σ) (record : List UInt8),
      let stored := storeConfig crc32 decodeToml F flash record
      (stored.calls ≠ [] → ∃ config, decodeRecord crc32 decodeToml record = some config) ∧
      (stored.result = .ok () → ∃ start stop back config,
        stored.calls = [.erase start stop, .write 0 record, .read 0 back] ∧
        decodeRecord crc32 decodeToml back = some config) := by
  refine ⟨fun toml record placed hroom hsize hplaced => ⟨?_, ?_⟩,
    fun toml record e after => encodeRecord_unchanged, fun record config h => ?_,
    fun σ ε' F flash record => ⟨?_, ?_⟩⟩
  · rintro config ⟨hlen, hdecode⟩
    refine ⟨image crc32 toml, length_image hlen, encodeRecord_ok hroom hlen hdecode,
      encodeRecordInPlace_ok hsize hlen (slice_recordPayloadBuffer hsize hlen (hplaced hlen))
        hdecode, ?_, decodeRecord_image hlen hdecode⟩
    rw [← List.append_nil (image crc32 toml)]
    exact decodeRecord_image hlen hdecode
  · intro hrefused
    exact ⟨encodeRecord_refused crc32 hrefused, encodeRecordInPlace_refused
      (fun hlen => slice_recordPayloadBuffer hsize hlen (hplaced hlen)) hrefused⟩
  · obtain ⟨payload, rest, rfl, hlen, hsize, hdecode⟩ := decodeRecord_iff.mp h
    rw [List.append_assoc]
    simp only [payloadLen_headerFor hlen, payload_headerFor]
    refine ⟨⟨hlen, hdecode⟩, fun buffer hbuffer => ⟨_, encodeRecord_ok hbuffer hlen hdecode, ?_⟩⟩
    have htake (tail : List UInt8) : (headerFor crc32 payload ++ payload ++ tail).take
      (headerLen + payload.length) =
        headerFor crc32 payload ++ payload :=
          List.take_left' (by rw [List.length_append, length_headerFor])
    rw [← List.append_assoc, htake, image, List.append_assoc _ _ (buffer.drop recordSize), htake]
  · intro hcalls
    match hdecode : decodeRecord crc32 decodeToml record with
    | none => exact absurd (by rw [storeConfig_refused hdecode]) hcalls
    | some config => exact ⟨config, rfl⟩
  · intro hok
    obtain ⟨back, config, hcalls, -, hback⟩ := storeConfig_ok hok
    exact ⟨_, _, back, config, hcalls, hback⟩

/-- CRC-32/ISO-HDLC, without a table. -/
def crc32IsoHdlc (bytes : List UInt8) : UInt32 :=
  let shift (crc : UInt32) : UInt32 := if crc &&& 1 = 1 then (crc >>> 1) ^^^ 0xedb88320
    else crc >>> 1
  bytes.foldl (fun crc byte => Nat.repeat shift 8 (crc ^^^ byte.toUInt32)) 0xffffffff ^^^ 0xffffffff

example : crc32IsoHdlc "123456789".toUTF8.toList = 0xcbf43926 := by decide +kernel

theorem record_codec_word : let decodeToml (toml : List UInt8) : Except Unit Nat :=
      if toml = [0x77, 0x67] then .ok 1280 else .error ()
    let record := List.replicate recordSize 7
    let placed := List.replicate headerLen 9 ++ [0x77, 0x67] ++ List.replicate 4078 5
    ∃ encoded, encoded.length = recordSize ∧
      encodeRecord crc32IsoHdlc decodeToml [0x77, 0x67] record =
        .ok (.ok (), encoded ++ record.drop recordSize) ∧
      encodeRecordInPlace crc32IsoHdlc decodeToml placed 2 = .ok (.ok (), encoded) ∧
      decodeRecord crc32IsoHdlc decodeToml encoded = some 1280 ∧
      decodeRecord crc32IsoHdlc decodeToml (encoded ++ record.drop recordSize) = some 1280 := by
  intro decodeToml record placed
  have hplaced : placed.length = recordSize := by
    simp only [placed, List.length_append, List.length_replicate]
    rfl
  exact ((record_codec crc32IsoHdlc decodeToml).1 [0x77, 0x67] record placed
    (by rw [List.length_replicate]) hplaced
    (fun _ => rfl)).1 1280 ⟨by decide, rfl⟩

end Microtun.Firmware
