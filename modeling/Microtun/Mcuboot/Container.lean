import Microtun.Mcuboot.Entries
import Microtun.Mcuboot.Stream

/-! Which containers the verifier accepts: exactly those that are made of the parts of an image,
with the entries that the policy asks for. -/

namespace Microtun.Mcuboot

/-- The parts of a container. -/
structure Image where
  headerBytes : List UInt8
  header : ImageHeader
  payload : List UInt8
  protectedTlvs : List Tlv
  regularTlvs : List Tlv
  padding : List UInt8
deriving DecidableEq

namespace Image

/-- The protected area.  A header without one leaves it out. -/
def protectedBytes (i : Image) : List UInt8 :=
  if i.header.protectedTlvSize = 0 then [] else encodeArea tlvProtectedInfoMagic i.protectedTlvs

/-- The bytes that the digest is about. -/
def signed (i : Image) : List UInt8 := i.headerBytes ++ i.payload ++ i.protectedBytes

def container (i : Image) : List UInt8 :=
  i.signed ++ encodeArea tlvInfoMagic i.regularTlvs ++ i.padding

def ofType (entries : List Tlv) (type : Nat) : List Tlv := entries.filter (·.type == type)

/-- The parts fit together. -/
structure Framed (policy : Policy) (i : Image) : Prop where
  header_length : i.headerBytes.length = imageHeaderSize
  header : ImageHeader.parse i.headerBytes = .ok i.header
  payload_length : i.payload.length = i.header.imageSize
  payload_size : i.header.imageSize ≤ policy.maxImageSize
  protected_length : i.protectedBytes.length = i.header.protectedTlvSize
  protected_size : i.header.protectedTlvSize ≤ maxProtectedTlvSize
  protected_absent : i.header.protectedTlvSize = 0 → i.protectedTlvs = []
  regular_size : (encodeArea tlvInfoMagic i.regularTlvs).length < 65536
  protected_wide : TlvArea.Wide i.protectedTlvs
  regular_wide : TlvArea.Wide i.regularTlvs
  padding : ∀ byte ∈ i.padding, byte = 0x1a

variable [ImageCrypto]

open ImageCrypto

/-- The parts, their entries and the policy agree. -/
structure Described (publicKey : Bytes 32) (policy : Policy) (i : Image) : Prop where
  framed : i.Framed policy
  digest : ofType i.regularTlvs tlvSha256 = [⟨tlvSha256, (sha256 i.signed).toList⟩]
  keyHash : ofType i.regularTlvs tlvKeyhash =
    [⟨tlvKeyhash, (sha256 (ed25519SpkiPrefix ++ publicKey.toList)).toList⟩]
  signature : ∃ signature : Bytes 64,
    ofType i.regularTlvs tlvEd25519 = [⟨tlvEd25519, signature.toList⟩] ∧
      verifyStrict publicKey (sha256 i.signed) signature = true
  noPure : ofType i.regularTlvs tlvSigPure = []
  cid : ofType i.protectedTlvs tlvUuidCid = [⟨tlvUuidCid, policy.expectedCid.toList⟩]
  vid : ∀ vid, policy.expectedVid = some vid →
    ofType i.protectedTlvs tlvUuidVid = [⟨tlvUuidVid, vid.toList⟩]
  version : i.header.version.semverIsOlderThan policy.minVersion = false

/-- Besides, a vendor id that the policy does not ask for is well formed, and no identifier in the
regular area, where it means nothing, is too long. -/
structure Valid (publicKey : Bytes 32) (policy : Policy) (i : Image) : Prop
    extends i.Described publicKey policy where
  vidOnce : policy.expectedVid = none → ofType i.protectedTlvs tlvUuidVid = [] ∨
    ∃ vid : Bytes 16, ofType i.protectedTlvs tlvUuidVid = [⟨tlvUuidVid, vid.toList⟩]
  ids : ∀ e ∈ i.regularTlvs, e.type = tlvUuidVid ∨ e.type = tlvUuidCid → e.value.length ≤ 64

end Image

namespace StreamingVerifier

open ImageCrypto TlvArea Image

variable [ImageCrypto] {publicKey : Bytes 32} {policy : Policy} {v : StreamingVerifier}

/-- The verifier behind the payload. -/
def afterPayload (publicKey : Bytes 32) (policy : Policy) (headerBytes payload : List UInt8)
    (header : ImageHeader) : StreamingVerifier :=
  { start publicKey policy with
    headerBytes
    hasher := headerBytes ++ payload
    payloadOffset := payload.length
    containerPosition := advance imageHeaderSize payload.length
    protectedArea :=
      if header.protectedTlvSize ≠ 0 then
        some (TlvArea.new .protectedArea tlvProtectedInfoMagic (some header.protectedTlvSize))
      else none
    header := some header }

theorem run_afterPayload {headerBytes payload : List UInt8} {header : ImageHeader}
    (hlen : headerBytes.length = imageHeaderSize)
    (hparse : ImageHeader.parse headerBytes = .ok header)
    (hpayload : payload.length = header.imageSize) (hsize : header.imageSize ≤ policy.maxImageSize)
    (harea : header.protectedTlvSize ≤ maxProtectedTlvSize) (rest : List UInt8) :
    (headerBytes ++ payload ++ rest).foldlM step (start publicKey policy) =
      rest.foldlM step (afterPayload publicKey policy headerBytes payload header) := by
  have hne : headerBytes ≠ [] := List.ne_nil_of_length_pos (by rw [hlen]; decide)
  have hstart := feedHeader_start publicKey policy hlen
  have hrun := run_header (v := start publicKey policy) rfl hne (by simp [start]; omega)
  simp only [hparse] at hstart
  rw [if_neg (by omega), if_neg (by omega)] at hstart
  rw [List.append_assoc, List.foldlM_append, hrun, hstart]
  simp only [bind, Except.bind]
  rw [List.foldlM_append, run_payload rfl hlen rfl (by simp [start]; omega)]
  have hpos : payload.isEmpty = false := by
    obtain ⟨hnonzero, -⟩ := parse_ok hparse
    simpa using List.ne_nil_of_length_pos (l := payload) (by omega)
  rw [hpos]
  simp only [bind, Except.bind]
  congr 1
  simp [feedPayload, afterPayload, start]

/-- A verifier that has read all of an image. -/
structure Read (publicKey : Bytes 32) (policy : Policy) (i : Image) (v : StreamingVerifier) :
    Prop where
  framed : i.Framed policy
  absorbed : ∃ found, i.protectedTlvs.foldlM (absorb .protectedArea) {} = .ok found ∧
    i.regularTlvs.foldlM (absorb .regularArea) found = .ok v.found
  complete : v.complete = true
  header_eq : v.header = some i.header
  hasher_eq : v.hasher = i.signed
  publicKey_eq : v.publicKey = publicKey
  keyHash_eq : v.expectedKeyHash = sha256 (ed25519SpkiPrefix ++ publicKey.toList)
  policy_eq : v.policy = policy

/-- A verifier that has only the regular area and the padding before it. -/
structure AtRegular (header : ImageHeader) (v : StreamingVerifier) : Prop where
  complete : v.complete = false
  full : v.headerBytes.length = imageHeaderSize
  header_eq : v.header = some header
  payload : ¬v.payloadOffset < header.imageSize
  protectedArea : v.protectedArea.filter (fun area => !area.isComplete) = none
  regular : v.regular = TlvArea.new .regularArea tlvInfoMagic none

omit [ImageCrypto] in
theorem feedRegular_run (h : v.regular.Steady) (xs : List UInt8) :
    v.feedRegular xs = (do
      let (regular, found, n) ← TlvArea.run (v.regular, v.found) xs
      if n = 0 then .error .invalidTlvAreaSize else .ok (v.withRegular regular found n, n)) := by
  unfold feedRegular
  rw [TlvArea.feed_eq h]
  rfl

omit [ImageCrypto] in
theorem AtRegular.of_run {header : ImageHeader} {xs : List UInt8} {v' : StreamingVerifier}
    (h : AtRegular header v) (hrun : xs.foldlM step v = .ok v') (hc : v'.complete = true) :
    ∃ entries padding area found n, xs = encodeArea tlvInfoMagic entries ++ padding ∧
      Area .regularArea tlvInfoMagic none v.found (encodeArea tlvInfoMagic entries) entries found ∧
      (∀ byte ∈ padding, byte = 0x1a) ∧ v' = v.withRegular area found n ∧
        area.isComplete = true := by
  have hsteady : v.regular.Steady := h.regular ▸ steady_new _ _ _
  have hopen : v.regular.isComplete = false := h.regular ▸ rfl
  have hne : xs ≠ [] := by
    rintro rfl
    obtain rfl := Except.ok.inj hrun
    exact absurd hc (by simp [h.complete])
  rw [run_regular h.complete h.full h.header_eq h.payload h.protectedArea hsteady hopen hne,
    feedRegular_run hsteady] at hrun
  cases hr : TlvArea.run (v.regular, v.found) xs with
  | error e => simp [hr, bind, Except.bind] at hrun
  | ok r =>
    obtain ⟨area, found, n⟩ := r
    simp only [hr, bind, Except.bind] at hrun
    by_cases hz : n = 0
    · simp [if_pos hz] at hrun
    rw [if_neg hz] at hrun
    simp only at hrun
    have hran := run_spec hsteady hr
    cases harea : area.isComplete with
    | false =>
      -- the area ends before it is complete
      have hall : n = xs.length := by
        by_contra hlt
        have := hran.ended (by have := hran.le; omega)
        simp [harea] at this
      rw [hall, List.drop_length] at hrun
      obtain rfl := Except.ok.inj hrun
      exact absurd hc (by simp [withRegular, harea])
    | true =>
      have hcomplete : (v.withRegular area found n).complete = true := harea
      rw [run_complete hcomplete] at hrun
      by_cases hpad : (xs.drop n).any (fun byte => byte != 0x1a) = true
      · rw [if_pos hpad] at hrun
        cases hrun
      rw [if_neg hpad] at hrun
      have htake := run_take hr
      have hlen : (xs.take n).length = n := by
        have := hran.le
        simp
        omega
      have hexact : TlvArea.run (TlvArea.new .regularArea tlvInfoMagic none, v.found) (xs.take n) =
          .ok (area, found, (xs.take n).length) := by
        rw [hlen, ← h.regular]
        exact htake
      obtain ⟨entries, hentries⟩ := area_of_run hexact harea
      have hlayout := hentries.layout
      refine ⟨entries, xs.drop n, area, found, n, ?_, hlayout ▸ hentries, ?_,
        (Except.ok.inj hrun).symm, harea⟩
      · rw [← hlayout, List.take_append_drop]
      · intro byte hbyte
        by_contra hb
        exact hpad (List.any_eq_true.mpr ⟨byte, hbyte, by simpa using hb⟩)

omit [ImageCrypto] in
theorem AtRegular.run {header : ImageHeader} {entries : List Tlv} {padding : List UInt8}
    {found : FoundTlvs} (h : AtRegular header v)
    (harea : Area .regularArea tlvInfoMagic none v.found (encodeArea tlvInfoMagic entries) entries
      found) (hpad : ∀ byte ∈ padding, byte = 0x1a) :
    ∃ area n, (encodeArea tlvInfoMagic entries ++ padding).foldlM step v =
      .ok (v.withRegular area found n) ∧ area.isComplete = true := by
  have hsteady : v.regular.Steady := h.regular ▸ steady_new _ _ _
  have hopen : v.regular.isComplete = false := h.regular ▸ rfl
  obtain ⟨area, hrun, hc⟩ := harea.run (by decide)
  have hpos : 0 < (encodeArea tlvInfoMagic entries).length := by
    rw [length_encodeArea]
    omega
  have hne : encodeArea tlvInfoMagic entries ++ padding ≠ [] :=
    List.ne_nil_of_length_pos (by rw [List.length_append]; omega)
  have hall := run_extend hrun hc padding
  rw [← h.regular] at hall
  refine ⟨area, (encodeArea tlvInfoMagic entries).length, ?_, hc⟩
  rw [run_regular h.complete h.full h.header_eq h.payload h.protectedArea hsteady hopen hne,
    feedRegular_run hsteady, hall]
  simp only [bind, Except.bind]
  rw [if_neg (by omega)]
  simp only
  have hcomplete : (v.withRegular area found (encodeArea tlvInfoMagic entries).length).complete =
      true := hc
  rw [List.drop_left, run_complete hcomplete, if_neg]
  intro hany
  obtain ⟨byte, hbyte, hb⟩ := List.any_eq_true.mp hany
  simp [hpad byte hbyte] at hb

/-- The protected area of a container, or its absence. -/
def Guarded (header : ImageHeader) (bytes : List UInt8) (entries : List Tlv) (found : FoundTlvs) :
    Prop :=
  (header.protectedTlvSize = 0 ∧ bytes = [] ∧ entries = [] ∧ found = {}) ∨
    (header.protectedTlvSize ≠ 0 ∧
      Area .protectedArea tlvProtectedInfoMagic (some header.protectedTlvSize)
        {} bytes entries found)

/-- A verifier behind the protected area. -/
structure Behind (publicKey : Bytes 32) (policy : Policy) (header : ImageHeader)
    (signed : List UInt8) (found : FoundTlvs) (v : StreamingVerifier) : Prop where
  atRegular : AtRegular header v
  hasher_eq : v.hasher = signed
  found_eq : v.found = found
  publicKey_eq : v.publicKey = publicKey
  keyHash_eq : v.expectedKeyHash = sha256 (ed25519SpkiPrefix ++ publicKey.toList)
  policy_eq : v.policy = policy

section Protected

variable {headerBytes payload : List UInt8} {header : ImageHeader}
  (hlen : headerBytes.length = imageHeaderSize) (hpayload : payload.length = header.imageSize)

include hlen hpayload

theorem behind_absent (hzero : header.protectedTlvSize = 0) :
    Behind publicKey policy header (headerBytes ++ payload) {}
      (afterPayload publicKey policy headerBytes payload header) := by
  refine ⟨⟨rfl, hlen, rfl, ?_, ?_, rfl⟩, rfl, rfl, rfl, rfl, rfl⟩
  · simp [afterPayload, hpayload]
  · simp [afterPayload, hzero]

theorem behind_complete {area : TlvArea} {found : FoundTlvs} {bytes : List UInt8}
    (hc : area.isComplete = true) :
    Behind publicKey policy header (headerBytes ++ payload ++ bytes) found
      ((afterPayload publicKey policy headerBytes payload header).withProtected area found
        bytes) := by
  refine ⟨⟨rfl, hlen, rfl, ?_, ?_, rfl⟩, rfl, rfl, rfl, rfl, rfl⟩
  · simp [withProtected, afterPayload, hpayload]
  · simp [withProtected, hc]

theorem run_behind {bytes : List UInt8} {entries : List Tlv} {found : FoundTlvs}
    (hfour : header.protectedTlvSize = 0 ∨ 4 ≤ header.protectedTlvSize)
    (h : Guarded header bytes entries found) :
    ∃ v, Behind publicKey policy header (headerBytes ++ payload ++ bytes) found v ∧
      ∀ rest, (bytes ++ rest).foldlM step
        (afterPayload publicKey policy headerBytes payload header) = rest.foldlM step v := by
  obtain ⟨hzero, rfl, rfl, rfl⟩ | ⟨hnonzero, harea⟩ := h
  · refine ⟨_, by simpa using behind_absent hlen hpayload hzero, fun rest => rfl⟩
  · obtain ⟨area, hrun, hc⟩ := harea.run (by decide)
    have hbytes := harea.expected _ rfl
    have hne : bytes ≠ [] := List.ne_nil_of_length_pos (by omega)
    have hsome : (afterPayload publicKey policy headerBytes payload header).protectedArea =
        some (TlvArea.new .protectedArea tlvProtectedInfoMagic (some header.protectedTlvSize)) := by
      simp [afterPayload, hnonzero]
    have hend : ¬(afterPayload publicKey policy headerBytes payload header).payloadOffset <
        header.imageSize := by simp [afterPayload, hpayload]
    refine ⟨_, behind_complete hlen hpayload hc, fun rest => ?_⟩
    rw [List.foldlM_append, run_protected rfl hlen rfl hend hsome (steady_new _ _ _) rfl
      (by omega) hne
      (by simp [TlvArea.new, hbytes]), feedProtected_eq (steady_new _ _ _)]
    show (do
      let v ← (do
        let (area, found, _) ← TlvArea.run (TlvArea.new .protectedArea tlvProtectedInfoMagic
          (some header.protectedTlvSize), {}) bytes
        _)
      _) = _
    rw [hrun]
    rfl

theorem behind_of_run {xs : List UInt8} {v' : StreamingVerifier}
    (hfour : header.protectedTlvSize = 0 ∨ 4 ≤ header.protectedTlvSize)
    (hrun : xs.foldlM step (afterPayload publicKey policy headerBytes payload header) = .ok v')
    (hc : v'.complete = true) :
    ∃ bytes rest entries found v, xs = bytes ++ rest ∧ Guarded header bytes entries found ∧
      Behind publicKey policy header (headerBytes ++ payload ++ bytes) found v ∧
      rest.foldlM step v = .ok v' := by
  by_cases hzero : header.protectedTlvSize = 0
  · exact ⟨[], xs, [], {}, _, rfl, .inl ⟨hzero, rfl, rfl, rfl⟩,
      by simpa using behind_absent hlen hpayload hzero, hrun⟩
  have hsome : (afterPayload publicKey policy headerBytes payload header).protectedArea =
      some (TlvArea.new .protectedArea tlvProtectedInfoMagic (some header.protectedTlvSize)) := by
    simp [afterPayload, hzero]
  have hend : ¬(afterPayload publicKey policy headerBytes payload header).payloadOffset <
      header.imageSize := by simp [afterPayload, hpayload]
  have hall : ∀ ys : List UInt8, ys ≠ [] → ys.length ≤ header.protectedTlvSize →
      ys.foldlM step (afterPayload publicKey policy headerBytes payload header) = (do
        let (area, found, _) ← TlvArea.run (TlvArea.new .protectedArea tlvProtectedInfoMagic
          (some header.protectedTlvSize), {}) ys
        .ok ((afterPayload publicKey policy headerBytes payload header).withProtected area found
          ys)) := by
    intro ys hne hle
    rw [run_protected rfl hlen rfl hend hsome (steady_new _ _ _) rfl (by omega) hne
      (by simpa [TlvArea.new] using hle), feedProtected_eq (steady_new _ _ _)]
    rfl
  have hne : xs ≠ [] := by
    rintro rfl
    obtain rfl := Except.ok.inj hrun
    cases hc
  by_cases hshort : xs.length < header.protectedTlvSize
  · -- the protected area is cut off
    exfalso
    rw [hall xs hne (by omega)] at hrun
    cases hr : TlvArea.run (TlvArea.new .protectedArea tlvProtectedInfoMagic
        (some header.protectedTlvSize), {}) xs with
    | error e => simp [hr, bind, Except.bind] at hrun
    | ok r =>
      simp only [hr, bind, Except.bind, Except.ok.injEq] at hrun
      rw [← hrun] at hc
      cases hc
  · generalize hn : header.protectedTlvSize = n at hshort
    have hxs : (xs.take n).length = n := by simp; omega
    have htake := hall (xs.take n) (List.ne_nil_of_length_pos (by omega)) (by omega)
    rw [← List.take_append_drop n xs, List.foldlM_append, htake] at hrun
    cases hr : TlvArea.run (TlvArea.new .protectedArea tlvProtectedInfoMagic
        (some header.protectedTlvSize), {}) (xs.take n) with
    | error e => simp [hr, bind, Except.bind] at hrun
    | ok r =>
      obtain ⟨area, found, m⟩ := r
      simp only [hr, bind, Except.bind] at hrun
      -- the area is complete, since it has taken all the bytes it has
      have hran := run_spec (steady_new _ _ _) hr
      have hlt := hran.steady.consumed_lt (hran.same.expectedTotal.trans rfl) (by omega)
      have hm : m = (xs.take n).length := by
        by_contra hcontra
        have hdone := hran.ended (by have := hran.le; omega)
        have hconsumed := hran.consumed
        have := hlt.not.mpr (by simp [hdone])
        simp [TlvArea.new] at hconsumed
        have := hran.le
        omega
      have hdone : area.isComplete = true := by
        have hconsumed := hran.consumed
        simp [TlvArea.new] at hconsumed
        have := hlt.not.mp (by omega)
        simpa using this
      rw [hm] at hr
      obtain ⟨entries, hentries⟩ := area_of_run hr hdone
      exact ⟨xs.take n, xs.drop n, entries, found, _, (List.take_append_drop n xs).symm,
        .inr ⟨hzero, hentries⟩, behind_complete hlen hpayload hdone, hrun⟩

end Protected

theorem Behind.read {header : ImageHeader} {signed : List UInt8} {found found' : FoundTlvs}
    {area : TlvArea} {n : Nat} {i : Image} (h : Behind publicKey policy header signed found v)
    (hframed : i.Framed policy) (hheader : i.header = header) (hsigned : i.signed = signed)
    (hprotected : i.protectedTlvs.foldlM (absorb .protectedArea) {} = .ok found)
    (hregular : i.regularTlvs.foldlM (absorb .regularArea) found = .ok found')
    (hc : area.isComplete = true) : Read publicKey policy i (v.withRegular area found' n) :=
  ⟨hframed, ⟨found, hprotected, hregular⟩, hc, hheader ▸ h.atRegular.header_eq,
    hsigned ▸ h.hasher_eq, h.publicKey_eq, h.keyHash_eq, h.policy_eq⟩

/-- A container that the verifier reads to its end is made of the parts of an image. -/
theorem read_of_run {container : List UInt8}
    (hrun : container.foldlM step (start publicKey policy) = .ok v) (hc : v.complete = true) :
    ∃ i : Image, i.container = container ∧ Read publicKey policy i v := by
  -- the header
  by_cases hlen : container.length < imageHeaderSize
  · exfalso
    by_cases hempty : container = []
    · subst hempty
      obtain rfl := Except.ok.inj hrun
      cases hc
    · have hrun' := run_header (v := start publicKey policy) rfl hempty (by simp [start]; omega)
      rw [hrun, feedHeader_short (by simpa [start] using hlen)] at hrun'
      obtain rfl := Except.ok.inj hrun'
      cases hc
  have hfull : (container.take imageHeaderSize).length = imageHeaderSize := by simp; omega
  have hne : container.take imageHeaderSize ≠ [] :=
    List.ne_nil_of_length_pos (by rw [hfull]; decide)
  have hhead := run_header (v := start publicKey policy) rfl hne
    (by rw [hfull]; exact Nat.le_of_eq (Nat.zero_add _))
  have hrun' := hrun
  rw [← List.take_append_drop imageHeaderSize container, List.foldlM_append, hhead] at hrun'
  cases hf : (start publicKey policy).feedHeader (container.take imageHeaderSize) with
  | error e => simp [hf, bind, Except.bind] at hrun'
  | ok v1 =>
    obtain ⟨header, hparse, hsize, harea, hv1⟩ := feedHeader_ok hf (by simpa [start] using hfull)
    rw [show (start publicKey policy).headerBytes ++ container.take imageHeaderSize =
      container.take imageHeaderSize from rfl] at hparse
    have hsize : header.imageSize ≤ policy.maxImageSize := hsize
    obtain ⟨-, hfour⟩ := parse_ok hparse
    simp only [hf, bind, Except.bind] at hrun'
    -- the payload
    generalize hrest : container.drop imageHeaderSize = rest at hrun'
    by_cases hshort : rest.length < header.imageSize
    · exfalso
      have hpay := @run_payload v1 header rest (by rw [hv1]; rfl)
        (by rw [hv1]; simpa [start] using hfull) (by rw [hv1])
        (by rw [hv1]; simp [start]; omega)
      rw [hrun'] at hpay
      have hopen : v1.complete = false := by rw [hv1]; rfl
      rw [Except.ok.inj hpay] at hc
      by_cases hempty : rest.isEmpty = true
      · rw [if_pos hempty, hopen] at hc
        cases hc
      · rw [if_neg hempty] at hc
        exact absurd hc (by simp [feedPayload, hopen])
    have hpayload : (rest.take header.imageSize).length = header.imageSize := by simp; omega
    have hsplit : container = container.take imageHeaderSize ++ rest.take header.imageSize ++
        rest.drop header.imageSize := by
      rw [List.append_assoc, List.take_append_drop, ← hrest, List.take_append_drop]
    rw [hsplit, run_afterPayload hfull hparse hpayload hsize harea] at hrun
    -- the TLV areas
    obtain ⟨bytes, tail, protectedTlvs, found, v2, htail, hguarded, hbehind, hrun2⟩ :=
      behind_of_run hfull hpayload hfour hrun hc
    obtain ⟨regularTlvs, padding, area, found', n, htail', hregular, hpadding, rfl, hdone⟩ :=
      hbehind.atRegular.of_run hrun2 hc
    let i : Image :=
      { headerBytes := container.take imageHeaderSize, header,
        payload := rest.take header.imageSize, protectedTlvs, regularTlvs, padding }
    have hbytes : i.protectedBytes = bytes ∧ bytes.length = header.protectedTlvSize ∧
        (header.protectedTlvSize = 0 → protectedTlvs = []) ∧ Wide protectedTlvs ∧
        protectedTlvs.foldlM (absorb .protectedArea) {} = .ok found := by
      obtain ⟨hzero, rfl, rfl, rfl⟩ | ⟨hnonzero, hp⟩ := hguarded
      · exact ⟨if_pos hzero, hzero.symm, fun _ => rfl, by simp [Wide], rfl⟩
      · exact ⟨(if_neg hnonzero).trans hp.layout.symm, hp.expected _ rfl,
          fun h0 => absurd h0 hnonzero, hp.wide, hp.absorbed⟩
    obtain ⟨hbytes, hplen, habsent, hpwide, hpabsorbed⟩ := hbytes
    refine ⟨i, ?_, ?_⟩
    · unfold Image.container Image.signed
      rw [hbytes]
      refine Eq.trans ?_ hsplit.symm
      rw [htail, htail']
      simp [i]
    · refine hbehind.read ⟨hfull, hparse, hpayload, hsize, ?_, harea, habsent, hregular.small,
        hpwide, hregular.wide, hpadding⟩ rfl ?_ hpabsorbed ?_ hdone
      · rw [hbytes]
        exact hplen
      · unfold Image.signed
        rw [hbytes]
      · rw [← hbehind.found_eq]
        exact hregular.absorbed

/-- The parts of an image are read to the end, if their entries are. -/
theorem run_of_framed {i : Image} (h : i.Framed policy) {found found' : FoundTlvs}
    (hprotected : i.protectedTlvs.foldlM (absorb .protectedArea) {} = .ok found)
    (hregular : i.regularTlvs.foldlM (absorb .regularArea) found = .ok found') :
    ∃ v, i.container.foldlM step (start publicKey policy) = .ok v ∧ Read publicKey policy i v ∧
      v.found = found' := by
  obtain ⟨-, hfour⟩ := parse_ok h.header
  have hguarded : Guarded i.header i.protectedBytes i.protectedTlvs found := by
    by_cases hzero : i.header.protectedTlvSize = 0
    · refine .inl ⟨hzero, if_pos hzero, h.protected_absent hzero, ?_⟩
      rw [h.protected_absent hzero] at hprotected
      exact (Except.ok.inj hprotected).symm
    · have hbytes : i.protectedBytes = encodeArea tlvProtectedInfoMagic i.protectedTlvs :=
        if_neg hzero
      have hlen := h.protected_length
      have hsize := h.protected_size
      refine .inr ⟨hzero, hbytes, ?_, h.protected_wide, ?_, hprotected⟩
      · rw [← hbytes, hlen]
        exact Nat.lt_of_le_of_lt hsize (by decide)
      · intro e he
        exact hlen.trans (Option.some.inj he)
  obtain ⟨v2, hbehind, hrun2⟩ := @run_behind _ publicKey policy _ _ _
    h.header_length h.payload_length _ _ _ hfour hguarded
  have harea : Area .regularArea tlvInfoMagic none v2.found
      (encodeArea tlvInfoMagic i.regularTlvs) i.regularTlvs found' :=
    ⟨rfl, h.regular_size, h.regular_wide, fun e he => absurd he (by simp),
      hbehind.found_eq ▸ hregular⟩
  obtain ⟨area, n, hrun3, hdone⟩ := hbehind.atRegular.run harea h.padding
  refine ⟨v2.withRegular area found' n, ?_,
    hbehind.read h rfl rfl hprotected hregular hdone, rfl⟩
  rw [← hrun3, ← hrun2, ← run_afterPayload h.header_length h.header h.payload_length h.payload_size
    h.protected_size]
  simp [Image.container, Image.signed]

omit [ImageCrypto] in
theorem checkVid_iff : v.checkVid = .ok () ↔
    ∀ vid, v.policy.expectedVid = some vid → v.found.vid = some vid := by
  unfold checkVid
  cases v.policy.expectedVid with
  | none => simp
  | some expected =>
    cases v.found.vid with
    | none => simp [bind, Except.bind]
    | some vid =>
      by_cases h : vid = expected
      · simp [bind, Except.bind, h]
      · simp [bind, Except.bind, h]

theorem finish_iff (hc : v.complete = true) {header : ImageHeader}
    (hheader : v.header = some header) : (∃ image, v.finish = .ok image) ↔
      v.found.pureSignature = false ∧ v.found.sha256 = some (sha256 v.hasher) ∧
        v.found.keyHash = some v.expectedKeyHash ∧
        (∃ signature, v.found.signature = some signature ∧
          verifyStrict v.publicKey (sha256 v.hasher) signature = true) ∧
        (∀ vid, v.policy.expectedVid = some vid → v.found.vid = some vid) ∧
        v.found.cid = some v.policy.expectedCid ∧
        header.version.semverIsOlderThan v.policy.minVersion = false := by
  unfold finish
  rw [hc, hheader]
  simp only [Bool.not_true, Bool.false_eq_true, if_false]
  cases hp : v.found.pureSignature with
  | true => simp
  | false =>
    simp only [Bool.false_eq_true, if_false, true_and]
    cases hs : v.found.sha256 with
    | none => simp [bind, Except.bind]
    | some digest =>
      cases hk : v.found.keyHash with
      | none => simp [bind, Except.bind]
      | some keyHash =>
        cases hsig : v.found.signature with
        | none => simp [bind, Except.bind]
        | some signature =>
          simp only [Option.elim_some, bind, Except.bind, Option.some.injEq, exists_eq_left']
          by_cases hkey : keyHash = v.expectedKeyHash
          · by_cases hdigest : sha256 v.hasher = digest
            · cases hverify : verifyStrict v.publicKey (sha256 v.hasher) signature with
              | false => simp [hkey, hdigest]
              | true =>
                have hvid := checkVid_iff (v := v)
                cases hcheck : v.checkVid with
                | error e =>
                  rw [hcheck] at hvid
                  simp only [reduceCtorEq, false_iff] at hvid
                  simp [hkey, hdigest, hvid]
                | ok u =>
                  rw [hcheck] at hvid
                  simp only [true_iff] at hvid
                  cases hcid : v.found.cid with
                  | none => simp [hkey, hdigest]
                  | some cid =>
                    by_cases hc : cid = v.policy.expectedCid
                    · cases hold : header.version.semverIsOlderThan v.policy.minVersion with
                      | true => simp [hkey, hdigest, hc]
                      | false => simpa [hkey, hdigest, hc] using hvid
                    · simp [hkey, hdigest, hc]
            · simp [hkey, hdigest, Ne.symm hdigest]
          · simp [hkey]

omit [ImageCrypto] in
/-- A slot that was empty holds what the only entry of its type says. -/
theorem held_iff {entries : List Tlv} {type n : Nat} {after : Option (Bytes n)}
    (h : Held entries type none after) (value : Bytes n) :
    after = some value ↔ ofType entries type = [⟨type, value.toList⟩] := by
  unfold ofType
  obtain ⟨hnone, rfl⟩ | ⟨-, value', hone, rfl⟩ := h
  · simp [hnone]
  · rw [hone]
    simp [Vector.toList_inj]

omit [ImageCrypto] in
theorem record_protected_keeps {type : Nat} {value : List UInt8} {found found' : FoundTlvs}
    (h : record .protectedArea type value found = .ok found') :
    found'.keyHash = found.keyHash ∧ found'.sha256 = found.sha256 ∧
      found'.signature = found.signature ∧ found'.pureSignature = found.pureSignature := by
  cases record_protected.mp h <;> exact ⟨rfl, rfl, rfl, rfl⟩

omit [ImageCrypto] in
theorem record_regular_keeps {type : Nat} {value : List UInt8} {found found' : FoundTlvs}
    (h : record .regularArea type value found = .ok found') :
    found'.vid = found.vid ∧ found'.cid = found.cid := by
  cases record_regular.mp h <;> exact ⟨rfl, rfl⟩

/-- What the verifier has found says what the entries of the image are. -/
structure Found (i : Image) (found : FoundTlvs) : Prop where
  keyHash : Held i.regularTlvs tlvKeyhash none found.keyHash
  sha256 : Held i.regularTlvs tlvSha256 none found.sha256
  signature : Held i.regularTlvs tlvEd25519 none found.signature
  vid : Held i.protectedTlvs tlvUuidVid none found.vid
  cid : Held i.protectedTlvs tlvUuidCid none found.cid
  pure : found.pureSignature = i.regularTlvs.any (·.type == tlvSigPure)

omit [ImageCrypto] in
theorem protected_keeps {entries : List Tlv} {found : FoundTlvs}
    (h : entries.foldlM (absorb .protectedArea) {} = .ok found) : found.keyHash = none ∧
      found.sha256 = none ∧ found.signature = none ∧ found.pureSignature = false :=
  ⟨absorb_keeps (fun _ _ _ _ h => (record_protected_keeps h).1) h,
    absorb_keeps (fun _ _ _ _ h => (record_protected_keeps h).2.1) h,
    absorb_keeps (fun _ _ _ _ h => (record_protected_keeps h).2.2.1) h,
    absorb_keeps (fun _ _ _ _ h => (record_protected_keeps h).2.2.2) h⟩

omit [ImageCrypto] in
theorem found_of_absorbed {i : Image} {found found' : FoundTlvs}
    (hprotected : i.protectedTlvs.foldlM (absorb .protectedArea) {} = .ok found)
    (hregular : i.regularTlvs.foldlM (absorb .regularArea) found = .ok found') :
      Found i found' := by
  obtain ⟨hk, hs, hsig, hp⟩ := protected_keeps hprotected
  have hv : found'.vid = found.vid :=
    absorb_keeps (fun _ _ _ _ h => (record_regular_keeps h).1) hregular
  have hc : found'.cid = found.cid :=
    absorb_keeps (fun _ _ _ _ h => (record_regular_keeps h).2) hregular
  refine ⟨hk ▸ slot_keyHash.held hregular, hs ▸ slot_sha256.held hregular,
    hsig ▸ slot_signature.held hregular, hv ▸ slot_vid.held hprotected,
    hc ▸ slot_cid.held hprotected, ?_⟩
  rw [pureSignature_eq hregular, hp, Bool.false_or]

/-- An image that has been read is accepted exactly if it is as the policy wants it. -/
theorem Read.finish_iff {i : Image} (h : Read publicKey policy i v) :
    (∃ image, v.finish = .ok image) ↔ i.Valid publicKey policy := by
  obtain ⟨found, hprotected, hregular⟩ := h.absorbed
  have hfound := found_of_absorbed hprotected hregular
  have hpure : v.found.pureSignature = false ↔ ofType i.regularTlvs tlvSigPure = [] := by
    rw [hfound.pure]
    simp [ofType]
  rw [StreamingVerifier.finish_iff h.complete h.header_eq, h.hasher_eq, h.publicKey_eq, h.policy_eq,
    h.keyHash_eq, hpure, held_iff hfound.sha256, held_iff hfound.keyHash, held_iff hfound.cid]
  simp only [held_iff hfound.signature, held_iff hfound.vid]
  constructor
  · rintro ⟨hpure, hdigest, hkey, hsignature, hvid, hcid, hversion⟩
    refine ⟨⟨h.framed, hdigest, hkey, hsignature, hpure, hcid, hvid, hversion⟩, ?_, ?_⟩
    · intro _
      obtain ⟨hnone, -⟩ | ⟨-, vid, hone, -⟩ := hfound.vid
      · exact .inl hnone
      · exact .inr ⟨vid, hone⟩
    · intro e he htype
      refine absorbed_fits hregular e he ?_
      obtain htype | htype := htype <;> rw [htype] <;> rfl
  · intro hvalid
    exact ⟨hvalid.noPure, hvalid.digest, hvalid.keyHash, hvalid.signature, hvalid.vid, hvalid.cid,
      hvalid.version⟩

omit [ImageCrypto] in
theorem free_of_one {entries : List Tlv} {type n : Nat} (value : Bytes n)
    (h : ofType entries type = [⟨type, value.toList⟩]) :
    Free entries type (none : Option (Bytes n)) := .inr ⟨rfl, value, h⟩

omit [ImageCrypto] in
theorem length_of_one {entries : List Tlv} {type n : Nat} {value : Bytes n}
    (h : ofType entries type = [⟨type, value.toList⟩]) {e : Tlv} (he : e ∈ entries)
    (ht : e.type = type) : e.value.length = n := by
  have hin : e ∈ ofType entries type := List.mem_filter.mpr ⟨he, by simpa using ht⟩
  rw [h, List.mem_singleton] at hin
  rw [hin]
  simp

omit [ImageCrypto] in
theorem length_le_flatMap {entries : List Tlv} {e : Tlv} (he : e ∈ entries) :
    4 + e.value.length ≤ (entries.flatMap Tlv.encode).length := by
  induction entries with
  | nil => cases he
  | cons head rest ih =>
    rw [List.flatMap_cons, List.length_append, Tlv.length_encode]
    cases he with
    | head => omega
    | tail _ he =>
      have := ih he
      omega

theorem Valid.absorbed {i : Image} (h : i.Valid publicKey policy) :
    ∃ found found', i.protectedTlvs.foldlM (absorb .protectedArea) {} = .ok found ∧
      i.regularTlvs.foldlM (absorb .regularArea) found = .ok found' := by
  obtain ⟨signature, hsignature, -⟩ := h.signature
  have hvid : Free i.protectedTlvs tlvUuidVid (none : Option (Bytes 16)) := by
    cases hv : policy.expectedVid with
    | some vid => exact free_of_one vid (h.vid vid hv)
    | none =>
      obtain hnone | ⟨vid, hone⟩ := h.vidOnce hv
      · exact .inl hnone
      · exact free_of_one vid hone
  have hpfits : ∀ e ∈ i.protectedTlvs, collects e.type = true → e.value.length ≤ 64 := by
    intro e he _
    by_cases hzero : i.header.protectedTlvSize = 0
    · rw [h.framed.protected_absent hzero] at he
      cases he
    · have hlen := h.framed.protected_length
      have hsize := h.framed.protected_size
      rw [show i.protectedBytes = encodeArea tlvProtectedInfoMagic i.protectedTlvs from if_neg
        hzero, length_encodeArea] at hlen
      have hentry := length_le_flatMap he
      unfold maxProtectedTlvSize at hsize
      omega
  have hrfits : ∀ e ∈ i.regularTlvs, collects e.type = true → e.value.length ≤ 64 := by
    intro e he hcollects
    unfold collects at hcollects
    simp only [Bool.or_eq_true, beq_iff_eq] at hcollects
    rcases hcollects with ((((ht | ht) | ht) | ht) | ht) | ht
    · rw [length_of_one h.keyHash he ht]
      decide
    · rw [length_of_one h.digest he ht]
      decide
    · exact Nat.le_of_eq (length_of_one hsignature he ht)
    · have hin : e ∈ ofType i.regularTlvs tlvSigPure := List.mem_filter.mpr ⟨he, by simpa using ht⟩
      rw [h.noPure] at hin
      cases hin
    · exact h.ids e he (.inl ht)
    · exact h.ids e he (.inr ht)
  obtain ⟨found, hprotected⟩ := @protected_ok {} _ hpfits hvid (free_of_one _ h.cid)
  obtain ⟨hk, hs, hsig, -⟩ := protected_keeps hprotected
  obtain ⟨found', hregular⟩ := regular_ok hrfits
    (hk ▸ free_of_one _ h.keyHash) (hs ▸ free_of_one _ h.digest) (hsig ▸ free_of_one _ hsignature)
  exact ⟨found, found', hprotected, hregular⟩

/-- The verifier accepts a container, in whatever chunks it arrives, exactly if it is made of the
parts of a valid image. -/
theorem accepts_iff (chunks : List (List UInt8)) :
    (∃ image, (verify publicKey policy chunks (Recorder.mk [])).1 = .ok image) ↔
      ∃ i : Image, i.Valid publicKey policy ∧ i.container = chunks.flatten := by
  have hfed := (feedAll_fed (steady_start publicKey policy) chunks ⟨[]⟩).outcome
  unfold verify
  cases hall : (start publicKey policy).feedAll chunks (Recorder.mk []) with
  | mk r sink =>
    rw [hall] at hfed
    simp only at hfed
    constructor
    · rintro ⟨image, himage⟩
      cases hrun : chunks.flatten.foldlM step (start publicKey policy) with
      | error e =>
        rw [hrun] at hfed
        subst hfed
        cases himage
      | ok v =>
        rw [hrun] at hfed
        subst hfed
        have hfinish : ∃ image, v.finish = .ok image := by
          cases hf : v.finish with
          | error e => simp [Except.mapError, hf] at himage
          | ok image => exact ⟨image, rfl⟩
        have hc : v.complete = true := by
          by_contra hopen
          have hopen : v.complete = false := by simpa using hopen
          obtain ⟨image, hf⟩ := hfinish
          simp [finish, hopen] at hf
        obtain ⟨i, hcontainer, hread⟩ := read_of_run hrun hc
        exact ⟨i, hread.finish_iff.mp hfinish, hcontainer⟩
    · rintro ⟨i, hvalid, hcontainer⟩
      obtain ⟨found, found', hprotected, hregular⟩ := Valid.absorbed hvalid
      obtain ⟨v, hrun, hread, -⟩ := run_of_framed hvalid.framed hprotected hregular
      rw [hcontainer] at hrun
      rw [hrun] at hfed
      subst hfed
      obtain ⟨image, hf⟩ := hread.finish_iff.mpr hvalid
      exact ⟨image, by simp [Except.mapError, hf]⟩

end StreamingVerifier

/-! Two signed images under a policy that asks for no vendor: the protected area of one names two of
them, that of the other none. -/

namespace Sample

def publicKey : Bytes 32 := .ofList 32
  [215, 90, 152, 1, 130, 177, 10, 183, 213, 75, 254, 211, 201, 100, 7, 58, 14, 225, 114, 243,
  218, 166, 35, 37, 175, 2, 26, 104, 247, 7, 81, 26]

def headerBytes : List UInt8 :=
  [61, 184, 243, 150, 0, 0, 0, 0, 32, 0, 64, 0, 1, 0, 0, 0, 0, 0, 0, 0, 1, 0, 0, 0, 0, 0, 0, 0,
  0, 0, 0, 0]

def digest : Bytes 32 := .ofList 32
  [100, 149, 63, 13, 230, 187, 73, 7, 23, 129, 228, 207, 21, 153, 160, 1, 210, 172, 185, 177,
  35, 130, 34, 218, 191, 46, 156, 254, 189, 18, 223, 222]

def keyHash : Bytes 32 := .ofList 32
  [6, 227, 253, 143, 218, 41, 187, 96, 171, 89, 85, 125, 230, 30, 219, 10, 236, 219, 35, 17, 52,
  190, 48, 231, 91, 69, 95, 142, 27, 121, 47, 169]

def signature : Bytes 64 := .ofList 64
  [196, 238, 244, 135, 141, 215, 183, 184, 4, 67, 79, 118, 252, 201, 201, 45, 189, 94, 123, 77,
  143, 40, 240, 248, 5, 82, 171, 103, 195, 181, 12, 54, 113, 22, 96, 135, 148, 108, 252, 146,
  92, 12, 57, 124, 208, 228, 204, 144, 44, 246, 135, 4, 226, 5, 108, 131, 94, 238, 147, 218, 12,
  181, 247, 9]

def header : ImageHeader :=
  { loadAddress := 0, headerSize := 32, protectedTlvSize := 64, imageSize := 1, flags := 0
    version := { major := 1, minor := 0, revision := 0, build := 0 } }

def classId : Bytes 16 := .ofList 16 (List.replicate 16 3)

def image : Image :=
  { headerBytes
    header
    payload := [0x7f]
    protectedTlvs :=
      [⟨tlvUuidVid, List.replicate 16 1⟩, ⟨tlvUuidVid, List.replicate 16 2⟩,
        ⟨tlvUuidCid, List.replicate 16 3⟩]
    regularTlvs :=
      [⟨tlvSha256, digest.toList⟩, ⟨tlvKeyhash, keyHash.toList⟩, ⟨tlvEd25519, signature.toList⟩]
    padding := [] }

def policy : Policy :=
  { expectedVid := none, expectedCid := classId, maxImageSize := 1
    minVersion := { major := 1, minor := 0, revision := 0, build := 0 } }

/-- The digest of the image with the class only. -/
def plainDigest : Bytes 32 := .ofList 32
  [99, 21, 130, 69, 222, 45, 106, 227, 45, 144, 12, 236, 249, 59, 101, 217, 246, 136, 147, 205,
  22, 89, 251, 68, 220, 165, 117, 73, 111, 246, 231, 71]

def plainSignature : Bytes 64 := .ofList 64
  [74, 121, 235, 33, 197, 101, 112, 26, 253, 194, 3, 136, 89, 221, 112, 236, 35, 37, 66, 130, 117,
  36, 110, 85, 74, 97, 2, 186, 69, 158, 200, 78, 192, 160, 39, 0, 121, 165, 92, 201, 152, 88, 89,
  228, 240, 64, 2, 79, 90, 49, 182, 222, 49, 227, 20, 134, 26, 59, 247, 64, 83, 71, 229, 15]

/-- The image with the class only. -/
def plain : Image :=
  { image with
    headerBytes := headerBytes.set 10 24
    header := { header with protectedTlvSize := 24 }
    protectedTlvs := [⟨tlvUuidCid, List.replicate 16 3⟩]
    regularTlvs :=
      [⟨tlvSha256, plainDigest.toList⟩, ⟨tlvKeyhash, keyHash.toList⟩,
        ⟨tlvEd25519, plainSignature.toList⟩] }

/-- The hash and the signature check at the inputs of these images. -/
scoped instance crypto : ImageCrypto where
  sha256 bytes :=
    if bytes = image.signed then digest
    else if bytes = plain.signed then plainDigest
    else if bytes = ed25519SpkiPrefix ++ publicKey.toList then keyHash
    else Bytes.zero 32
  verifyingKey key := key = publicKey
  verifyStrict key hash sig := key = publicKey &&
    (hash = digest && sig = signature || hash = plainDigest && sig = plainSignature)

example : (StreamingVerifier.verify publicKey policy [plain.container]
    (Recorder.mk [])).1.toOption.isSome = true := by decide +kernel

theorem framed_image : image.Framed policy where
  header_length := by decide
  header := by decide
  payload_length := by decide
  payload_size := by decide
  protected_length := by decide
  protected_size := by decide
  protected_absent h := absurd h (by decide)
  regular_size := by decide +kernel
  protected_wide := by decide
  regular_wide := by decide
  padding byte h := absurd h (by simp [image])

/-- The second vendor id is refused, though the policy asks for none. -/
theorem accepts_iff_vendors : image.Described publicKey policy ∧
      ¬∃ verified, (StreamingVerifier.verify publicKey policy [image.container]
        (Recorder.mk [])).1 = .ok verified := by
  constructor
  · exact ⟨framed_image, by decide, by decide,
      ⟨signature, by decide, by decide⟩, by decide, by decide,
      by simp [policy], by decide⟩
  · have hrefused : (StreamingVerifier.verify publicKey policy [image.container]
        (Recorder.mk [])).1.toOption.isNone = true := by decide +kernel
    rintro ⟨verified, hverified⟩
    rw [hverified] at hrefused
    cases hrefused

end Sample

end Microtun.Mcuboot
