import Microtun.Mcuboot.Area
import Mathlib.Data.Prod.Lex

/-! The verifier byte by byte: however a container is cut into chunks, the verifier comes to the
same result, and the sink receives the payload alone, in order and without a gap. -/

namespace Microtun.Mcuboot

/-! ### The header -/

namespace ImageHeader

/-- The header in the image format, up to its padding. -/
def encode (h : ImageHeader) : List UInt8 :=
  toLeBytes 4 imageMagic ++ toLeBytes 4 h.loadAddress ++ toLeBytes 2 h.headerSize ++
    toLeBytes 2 h.protectedTlvSize ++ toLeBytes 4 h.imageSize ++ toLeBytes 4 h.flags ++
    toLeBytes 1 h.version.major ++ toLeBytes 1 h.version.minor ++ toLeBytes 2 h.version.revision ++
    toLeBytes 4 h.version.build

/-- The headers that are accepted. -/
structure Accepted (h : ImageHeader) : Prop where
  headerSize : h.headerSize = imageHeaderSize
  loadAddress : h.loadAddress = 0
  flags : h.flags = 0
  imageSize : h.imageSize ≠ 0
  protectedTlvSize : h.protectedTlvSize = 0 ∨ 4 ≤ h.protectedTlvSize

variable {h : ImageHeader} {bytes : List UInt8}

/-- What is parsed is accepted, and has the fields that the bytes spell. -/
theorem accepted_of_parse (hlen : 28 ≤ bytes.length) (hparse : parse bytes = .ok h) :
    h.Accepted ∧ bytes.take 28 = h.encode := by
  unfold parse at hparse
  split at hparse
  · cases hparse
  rename_i hmagic
  dsimp only at hparse
  split at hparse
  · cases hparse
  rename_i hsize
  split at hparse
  · cases hparse
  rename_i hload
  split at hparse
  · cases hparse
  rename_i hflags
  split at hparse
  · cases hparse
  rename_i himage
  split at hparse
  · cases hparse
  rename_i hprotected
  obtain rfl := Except.ok.inj hparse
  refine ⟨⟨not_not.mp hsize, not_not.mp hload, not_not.mp hflags, himage,
    (Nat.eq_zero_or_pos _).imp_right fun hpos =>
      Nat.not_lt.mp fun hlt => hprotected ⟨Nat.ne_of_gt hpos, hlt⟩⟩, ?_⟩
  have hfield (a b : Nat) (hb : b ≤ 28) :
      toLeBytes (b - a) (ofLeBytes (field bytes ⟨a, b⟩)) = field bytes ⟨a, b⟩ :=
    toLeBytes_field (hb.trans hlen)
  have hmagic' := hfield 0 4 (by decide)
  rw [not_not.mp hmagic] at hmagic'
  rw [encode, hmagic', hfield 4 8 (by decide), hfield 8 10 (by decide), hfield 10 12 (by decide),
    hfield 12 16 (by decide), hfield 16 20 (by decide), hfield 20 21 (by decide),
    hfield 21 22 (by decide), hfield 22 24 (by decide), hfield 24 28 (by decide)]
  rw [take_field bytes (show 24 ≤ 28 by decide), take_field bytes (show 22 ≤ 24 by decide),
    take_field bytes (show 21 ≤ 22 by decide), take_field bytes (show 20 ≤ 21 by decide),
    take_field bytes (show 16 ≤ 20 by decide), take_field bytes (show 12 ≤ 16 by decide),
    take_field bytes (show 10 ≤ 12 by decide), take_field bytes (show 8 ≤ 10 by decide),
    take_field bytes (show 4 ≤ 8 by decide)]
  rfl

theorem field_encode (rest : List UInt8) :
    field (h.encode ++ rest) ⟨0, 4⟩ = toLeBytes 4 imageMagic ∧
      field (h.encode ++ rest) ⟨4, 8⟩ = toLeBytes 4 h.loadAddress ∧
      field (h.encode ++ rest) ⟨8, 10⟩ = toLeBytes 2 h.headerSize ∧
      field (h.encode ++ rest) ⟨10, 12⟩ = toLeBytes 2 h.protectedTlvSize ∧
      field (h.encode ++ rest) ⟨12, 16⟩ = toLeBytes 4 h.imageSize ∧
      field (h.encode ++ rest) ⟨16, 20⟩ = toLeBytes 4 h.flags ∧
      field (h.encode ++ rest) ⟨20, 21⟩ = toLeBytes 1 h.version.major ∧
      field (h.encode ++ rest) ⟨21, 22⟩ = toLeBytes 1 h.version.minor ∧
      field (h.encode ++ rest) ⟨22, 24⟩ = toLeBytes 2 h.version.revision ∧
      field (h.encode ++ rest) ⟨24, 28⟩ = toLeBytes 4 h.version.build := by
  simp [encode, field, toLeBytes]

theorem parse_encode (hok : h.Accepted) (himage : h.imageSize < 256 ^ 4)
    (hprotected : h.protectedTlvSize < 256 ^ 2) (hmajor : h.version.major < 256 ^ 1)
    (hminor : h.version.minor < 256 ^ 1) (hrevision : h.version.revision < 256 ^ 2)
    (hbuild : h.version.build < 256 ^ 4) (rest : List UInt8) :
    parse (h.encode ++ rest) = .ok h := by
  obtain ⟨hsize, hload, hflags, hnonempty, hfits⟩ := hok
  have hread {k n : Nat} (hn : n < 256 ^ k) : ofLeBytes (toLeBytes k n) = n :=
    (ofLeBytes_toLeBytes k n).trans (Nat.mod_eq_of_lt hn)
  obtain ⟨h0, h4, h8, h10, h12, h16, h20, h21, h22, h24⟩ := h.field_encode rest
  rw [parse, h0, h4, h8, h10, h12, h16, h20, h21, h22, h24]
  dsimp only
  rw [hread (n := imageMagic) (by decide), hread (n := h.loadAddress) (hload ▸ by decide),
    hread (n := h.headerSize) (hsize ▸ by decide), hread (n := h.flags) (hflags ▸ by decide),
    hread himage, hread hprotected, hread hmajor, hread hminor, hread hrevision, hread hbuild,
    if_neg (not_not.mpr rfl), if_neg (not_not.mpr hsize), if_neg (not_not.mpr hload),
    if_neg (not_not.mpr hflags), if_neg hnonempty, if_neg (by omega)]

end ImageHeader

theorem ImageVersion.semverIsOlderThan_iff (a b : ImageVersion) : a.semverIsOlderThan b = true ↔
    toLex (a.major, toLex (a.minor, a.revision)) < toLex
      (b.major, toLex (b.minor, b.revision)) := by
  simp [semverIsOlderThan, Prod.Lex.toLex_lt_toLex]

namespace StreamingVerifier

variable {v v' : StreamingVerifier} {input : List UInt8}

/-- What one byte does to the verifier. -/
def step (v : StreamingVerifier) (byte : UInt8) : Except Error StreamingVerifier :=
  if v.complete then if byte != 0x1a then .error .invalidPadding else .ok v
  else if v.headerBytes.length < imageHeaderSize then v.feedHeader [byte]
  else
    match v.header with
    | none => .error .incompleteImage
    | some header =>
      if v.payloadOffset < header.imageSize then .ok (v.feedPayload [byte])
      else
        match v.protectedArea.filter (fun area => !area.isComplete) with
        | some area => v.feedProtected area [byte]
        | none => do
          let (v, _) ← v.feedRegular [byte]
          .ok v

/-- A verifier between two bytes. -/
structure Steady (v : StreamingVerifier) : Prop where
  headerBytes : v.headerBytes.length ≤ imageHeaderSize
  known : v.headerBytes.length = imageHeaderSize → v.header.isSome = true
  protectedArea : ∀ area, v.protectedArea = some area → area.Steady ∧
    ∃ header, v.header = some header ∧ area.expectedTotal = some header.protectedTlvSize ∧
      4 ≤ header.protectedTlvSize
  regular : v.regular.Steady
  complete : v.complete = v.regular.isComplete

theorem advance_advance (position m n : Nat) :
    advance (advance position m) n = advance position (m + n) := by
  unfold advance
  omega

theorem step_complete (hc : v.complete = true) (byte : UInt8) :
    v.step byte = if byte != 0x1a then .error .invalidPadding else .ok v := by
  unfold step
  rw [if_pos hc]

theorem run_complete (hc : v.complete = true) (input : List UInt8) :
    input.foldlM step v =
      if input.any (fun byte => byte != 0x1a) then .error .invalidPadding else .ok v := by
  induction input with
  | nil => rfl
  | cons byte rest ih =>
    rw [List.foldlM_cons, step_complete hc, List.any_cons]
    cases hb : byte != 0x1a with
    | true => rfl
    | false => simpa [bind, Except.bind] using ih

theorem step_header (hc : v.complete = false) (hlt : v.headerBytes.length < imageHeaderSize)
    (byte : UInt8) : v.step byte = v.feedHeader [byte] := by
  unfold step
  rw [if_neg (by simp [hc]), if_pos hlt]

theorem feedHeader_short {bytes : List UInt8}
    (hlt : v.headerBytes.length + bytes.length < imageHeaderSize) :
    v.feedHeader bytes = .ok { v with
      headerBytes := v.headerBytes ++ bytes
      hasher := v.hasher ++ bytes
      containerPosition := advance v.containerPosition bytes.length } := by
  unfold feedHeader
  simp only [List.length_append]
  rw [if_neg (by omega)]

theorem feedHeader_append (xs ys : List UInt8) :
    v.feedHeader (xs ++ ys) = { v with
      headerBytes := v.headerBytes ++ xs
      hasher := v.hasher ++ xs
      containerPosition := advance v.containerPosition xs.length }.feedHeader ys := by
  simp only [feedHeader, List.append_assoc, List.length_append, advance_advance]

theorem run_header {xs : List UInt8} (hc : v.complete = false) (hne : xs ≠ [])
    (hle : v.headerBytes.length + xs.length ≤ imageHeaderSize) :
    xs.foldlM step v = v.feedHeader xs := by
  induction xs generalizing v with
  | nil => exact absurd rfl hne
  | cons byte xs ih =>
    have hlt : v.headerBytes.length < imageHeaderSize := by simp at hle; omega
    rw [List.foldlM_cons, step_header hc hlt]
    cases xs with
    | nil => cases v.feedHeader [byte] <;> rfl
    | cons x xs =>
      have hshort : v.headerBytes.length + [byte].length <
          imageHeaderSize := by simp at hle ⊢; omega
      have happ := feedHeader_append (v := v) [byte] (x :: xs)
      rw [List.singleton_append] at happ
      rw [feedHeader_short hshort, happ]
      exact ih hc (List.cons_ne_nil x xs) (by simp at hle ⊢; omega)

section Known

variable {header : ImageHeader} (hc : v.complete = false)
  (hfull : v.headerBytes.length = imageHeaderSize) (hheader : v.header = some header)

include hc hfull hheader

theorem step_payload (hlt : v.payloadOffset < header.imageSize) (byte : UInt8) :
    v.step byte = .ok (v.feedPayload [byte]) := by
  unfold step
  rw [if_neg (by simp [hc]), if_neg (by omega), hheader]
  simp only [if_pos hlt]

theorem step_protected (hend : ¬v.payloadOffset < header.imageSize) {area : TlvArea}
    (harea : v.protectedArea = some area) (hopen : area.isComplete = false) (byte : UInt8) :
    v.step byte = v.feedProtected area [byte] := by
  unfold step
  rw [if_neg (by simp [hc]), if_neg (by omega), hheader]
  simp [if_neg hend, harea, hopen, Option.filter]

theorem step_regular (hend : ¬v.payloadOffset < header.imageSize)
    (harea : v.protectedArea.filter (fun area => !area.isComplete) = none) (byte : UInt8) :
    v.step byte = (do
      let (v, _) ← v.feedRegular [byte]
      .ok v) := by
  unfold step
  rw [if_neg (by simp [hc]), if_neg (by omega), hheader]
  simp only [if_neg hend, harea]

end Known

theorem run_payload {header : ImageHeader} {xs : List UInt8} (hc : v.complete = false)
    (hfull : v.headerBytes.length = imageHeaderSize) (hheader : v.header = some header)
    (hle : v.payloadOffset + xs.length ≤ header.imageSize) :
    xs.foldlM step v = .ok (if xs.isEmpty then v else v.feedPayload xs) := by
  induction xs generalizing v with
  | nil => rfl
  | cons byte xs ih =>
    have hlt : v.payloadOffset < header.imageSize := by simp at hle; omega
    rw [List.foldlM_cons, step_payload hc hfull hheader hlt]
    have hrest := ih (v := v.feedPayload [byte]) hc hfull hheader (by
      simp [feedPayload] at hle ⊢
      omega)
    refine hrest.trans ?_
    cases xs with
    | nil => rfl
    | cons x xs =>
      simp [feedPayload, advance_advance, Nat.add_assoc, Nat.add_comm 1]

/-- What the verifier keeps of bytes of the protected area, once the area has taken them. -/
def withProtected (v : StreamingVerifier) (area : TlvArea) (found : FoundTlvs)
    (bytes : List UInt8) :
    StreamingVerifier :=
  { v with
    hasher := v.hasher ++ bytes
    protectedBytes := v.protectedBytes ++ bytes
    protectedArea := some area
    found
    containerPosition := advance v.containerPosition bytes.length }

theorem feedProtected_eq {area : TlvArea} (h : area.Steady) (bytes : List UInt8) :
    v.feedProtected area bytes = (do
      let (area, found, _) ← TlvArea.run (area, v.found) bytes
      .ok (v.withProtected area found bytes)) := by
  unfold feedProtected
  rw [TlvArea.feed_eq h]
  rfl

theorem run_protected {header : ImageHeader} {area : TlvArea} {xs : List UInt8}
    (hc : v.complete = false) (hfull : v.headerBytes.length = imageHeaderSize)
    (hheader : v.header = some header) (hend : ¬v.payloadOffset < header.imageSize)
    (harea : v.protectedArea = some area) (h : area.Steady)
    (hexp : area.expectedTotal = some header.protectedTlvSize) (hfour : 4 ≤ header.protectedTlvSize)
    (hne : xs ≠ []) (hle : area.consumed + xs.length ≤ header.protectedTlvSize) :
    xs.foldlM step v = v.feedProtected area xs := by
  induction xs generalizing v area with
  | nil => exact absurd rfl hne
  | cons byte xs ih =>
    have hopen : area.isComplete = false := by
      apply (h.consumed_lt hexp hfour).mp
      simp at hle
      omega
    have hroom : [byte].length ≤ area.room := h.room_pos
    rw [List.foldlM_cons, step_protected hc hfull hheader hend harea hopen, feedProtected_eq h,
      feedProtected_eq h, TlvArea.run, if_neg (by simp [hopen]), TlvArea.run,
      if_neg (by simp [hopen])]
    cases hstep : TlvArea.step (area, v.found) byte with
    | error e => rfl
    | ok s =>
      obtain ⟨area1, found1⟩ := s
      obtain ⟨h1, hconsumed⟩ := TlvArea.part_steady h hroom (List.cons_ne_nil byte []) hstep
      have hsame := TlvArea.part_same hstep
      cases xs with
      | nil => rfl
      | cons x xs =>
        have hrest := @ih (v.withProtected area1 found1 [byte]) area1 hc hfull hheader
          hend rfl h1 (hsame.expectedTotal.trans hexp) (List.cons_ne_nil x xs) (by
            simp at hle hconsumed ⊢
            omega)
        refine hrest.trans ?_
        rw [feedProtected_eq h1]
        show (do
          let (area, found, _) ← TlvArea.run (area1, found1) (x :: xs)
          _) = _
        simp only [bind, Except.bind]
        cases TlvArea.run (area1, found1) (x :: xs) with
        | error e => rfl
        | ok r => simp [withProtected, advance_advance, Nat.add_comm 1]

/-- What the verifier keeps of the regular area. -/
def withRegular (v : StreamingVerifier) (regular : TlvArea) (found : FoundTlvs) (n : Nat) :
    StreamingVerifier :=
  { v with
    regular
    found
    containerPosition := advance v.containerPosition n
    complete := regular.isComplete }

theorem feedRegular_eq (h : v.regular.Steady) (hopen : v.regular.isComplete = false) (byte : UInt8)
    (bytes : List UInt8) :
    v.feedRegular (byte :: bytes) = (do
      let s ← TlvArea.step (v.regular, v.found) byte
      let (regular, found, n) ← TlvArea.run s bytes
      .ok (v.withRegular regular found (n + 1), n + 1)) := by
  unfold feedRegular
  rw [TlvArea.feed_eq h, TlvArea.run, if_neg (by simp [hopen])]
  cases TlvArea.step (v.regular, v.found) byte with
  | error e => rfl
  | ok s =>
    simp only [bind, Except.bind]
    cases TlvArea.run s bytes with
    | error e => rfl
    | ok r => rfl

theorem run_regular {header : ImageHeader} {xs : List UInt8} (hc : v.complete = false)
    (hfull : v.headerBytes.length = imageHeaderSize) (hheader : v.header = some header)
    (hend : ¬v.payloadOffset < header.imageSize)
    (harea : v.protectedArea.filter (fun area => !area.isComplete) = none)
    (h : v.regular.Steady) (hopen : v.regular.isComplete = false) (hne : xs ≠ []) :
    xs.foldlM step v = (do
      let (v, n) ← v.feedRegular xs
      (xs.drop n).foldlM step v) := by
  induction xs generalizing v with
  | nil => exact absurd rfl hne
  | cons byte xs ih =>
    have hroom : [byte].length ≤ v.regular.room := h.room_pos
    rw [List.foldlM_cons, step_regular hc hfull hheader hend harea, feedRegular_eq h hopen,
      feedRegular_eq h hopen]
    cases hstep : TlvArea.step (v.regular, v.found) byte with
    | error e => rfl
    | ok s =>
      obtain ⟨area1, found1⟩ := s
      obtain ⟨h1, -⟩ := TlvArea.part_steady h hroom (List.cons_ne_nil byte []) hstep
      simp only [bind, Except.bind, TlvArea.run]
      cases xs with
      | nil => rfl
      | cons x xs =>
        cases hc1 : area1.isComplete with
        | true =>
          rw [TlvArea.run, if_pos hc1]
          rfl
        | false =>
          have hrest := ih (v := v.withRegular area1 found1 1) hc1 hfull hheader hend harea h1 hc1
            (List.cons_ne_nil x xs)
          simp only [Nat.zero_add]
          refine hrest.trans ?_
          rw [feedRegular_eq h1 hc1, TlvArea.run, if_neg (by simp [hc1])]
          show (do let s ← TlvArea.step (area1, found1) x; _) >>= _ = _
          simp only [bind, Except.bind]
          cases TlvArea.step (area1, found1) x with
          | error e => rfl
          | ok s =>
            simp only
            cases TlvArea.run s xs with
            | error e => rfl
            | ok r => simp [withRegular, advance_advance, Nat.add_comm 1]

theorem parse_ok {bytes : List UInt8} {header : ImageHeader}
    (h : ImageHeader.parse bytes = .ok header) :
    header.imageSize ≠ 0 ∧ (header.protectedTlvSize = 0 ∨ 4 ≤ header.protectedTlvSize) := by
  unfold ImageHeader.parse at h
  grind

theorem feedHeader_ok {bytes : List UInt8} (h : v.feedHeader bytes = .ok v')
    (hfull : v.headerBytes.length + bytes.length = imageHeaderSize) :
    ∃ header, ImageHeader.parse (v.headerBytes ++ bytes) = .ok header ∧
      header.imageSize ≤ v.policy.maxImageSize ∧ header.protectedTlvSize ≤ maxProtectedTlvSize ∧
      v' = { v with
        headerBytes := v.headerBytes ++ bytes
        hasher := v.hasher ++ bytes
        containerPosition := advance v.containerPosition bytes.length
        protectedArea :=
          if header.protectedTlvSize ≠ 0 then
            some (TlvArea.new .protectedArea tlvProtectedInfoMagic (some header.protectedTlvSize))
          else none
        header := some header } := by
  unfold feedHeader at h
  simp only [List.length_append] at h
  rw [if_pos hfull] at h
  cases hp : ImageHeader.parse (v.headerBytes ++ bytes) with
  | error e => simp [hp, bind, Except.bind] at h
  | ok header =>
    simp only [hp, bind, Except.bind] at h
    by_cases hsize : header.imageSize > v.policy.maxImageSize
    · simp [if_pos hsize] at h
    rw [if_neg hsize] at h
    by_cases harea : header.protectedTlvSize > maxProtectedTlvSize
    · simp [if_pos harea] at h
    rw [if_neg harea] at h
    exact ⟨header, rfl, by omega, by omega, (Except.ok.inj h).symm⟩

theorem feedRegular_steady (h : v.Steady) (hc : v.complete = false) {byte : UInt8} {n : Nat}
    (hok : v.feedRegular [byte] = .ok (v', n)) :
    ∃ regular found, v' = v.withRegular regular found 1 ∧ regular.Steady := by
  have hopen : v.regular.isComplete = false := h.complete ▸ hc
  have hroom : [byte].length ≤ v.regular.room := h.regular.room_pos
  rw [feedRegular_eq h.regular hopen] at hok
  cases hstep : TlvArea.step (v.regular, v.found) byte with
  | error e => simp [hstep, bind, Except.bind] at hok
  | ok s =>
    obtain ⟨area1, found1⟩ := s
    simp only [hstep, bind, Except.bind, TlvArea.run, Except.ok.injEq, Prod.mk.injEq] at hok
    exact ⟨area1, found1, hok.1.symm,
      (TlvArea.part_steady h.regular hroom (List.cons_ne_nil byte []) hstep).1⟩

theorem feedRegular_ok (h : v.regular.Steady) {n : Nat} (hok : v.feedRegular input = .ok (v', n)) :
    ∃ regular found, v' = v.withRegular regular found n ∧ regular.Steady ∧ 0 < n := by
  unfold feedRegular at hok
  rw [TlvArea.feed_eq h] at hok
  cases hrun : TlvArea.run (v.regular, v.found) input with
  | error e => simp [hrun, bind, Except.bind] at hok
  | ok r =>
    obtain ⟨regular, found, m⟩ := r
    simp only [hrun, bind, Except.bind] at hok
    by_cases hz : m = 0
    · simp [if_pos hz] at hok
    · rw [if_neg hz] at hok
      obtain ⟨rfl, rfl⟩ := Prod.mk.inj (Except.ok.inj hok)
      exact ⟨regular, found, rfl, (TlvArea.run_spec h hrun).steady, by omega⟩

theorem feedProtected_steady {area : TlvArea} (h : area.Steady) (hopen : area.isComplete = false)
    {byte : UInt8} (hok : v.feedProtected area [byte] = .ok v') :
    ∃ area' found, v' = v.withProtected area' found [byte] ∧ area'.Steady ∧ area.Same area' := by
  have hroom : [byte].length ≤ area.room := h.room_pos
  rw [feedProtected_eq h, TlvArea.run, if_neg (by simp [hopen])] at hok
  cases hstep : TlvArea.step (area, v.found) byte with
  | error e => simp [hstep, bind, Except.bind] at hok
  | ok s =>
    obtain ⟨area1, found1⟩ := s
    simp only [hstep, bind, Except.bind, TlvArea.run, Except.ok.injEq] at hok
    exact ⟨area1, found1, hok.symm,
      (TlvArea.part_steady h hroom (List.cons_ne_nil byte []) hstep).1, TlvArea.part_same hstep⟩

/-- Whether the next byte is payload. -/
def wants (v : StreamingVerifier) : Bool :=
  !v.complete && v.headerBytes.length == imageHeaderSize &&
    v.header.any (fun header => v.payloadOffset < header.imageSize)

/-- What a byte can do to a verifier. -/
inductive Stepped (v : StreamingVerifier) (byte : UInt8) : StreamingVerifier → Prop
  | padding (hc : v.complete = true) : Stepped v byte v
  | header (hc : v.complete = false) (hlt : v.headerBytes.length + 1 < imageHeaderSize) :
    Stepped v byte { v with
      headerBytes := v.headerBytes ++ [byte]
      hasher := v.hasher ++ [byte]
      containerPosition := advance v.containerPosition 1 }
  | parsed (hc : v.complete = false) (hfull : v.headerBytes.length + 1 = imageHeaderSize)
    (header : ImageHeader) (hparse : ImageHeader.parse (v.headerBytes ++ [byte]) = .ok header) :
    Stepped v byte { v with
      headerBytes := v.headerBytes ++ [byte]
      hasher := v.hasher ++ [byte]
      containerPosition := advance v.containerPosition 1
      protectedArea :=
        if header.protectedTlvSize ≠ 0 then
          some (TlvArea.new .protectedArea tlvProtectedInfoMagic (some header.protectedTlvSize))
        else none
      header := some header }
  | payload (hwants : v.wants = true) : Stepped v byte (v.feedPayload [byte])
  | protectedArea (hwants : v.wants = false) (hfull : v.headerBytes.length = imageHeaderSize)
    {area area' : TlvArea} (harea : v.protectedArea = some area) (hsteady : area'.Steady)
    (hsame : area.Same area') (found : FoundTlvs) : Stepped v byte
      (v.withProtected area' found [byte])
  | regular (hwants : v.wants = false) (hfull : v.headerBytes.length = imageHeaderSize)
    {regular : TlvArea} (hsteady : regular.Steady) (found : FoundTlvs) :
    Stepped v byte (v.withRegular regular found 1)

theorem Steady.stepped (h : v.Steady) {byte : UInt8} (hok : v.step byte = .ok v') :
    Stepped v byte v' := by
  cases hc : v.complete with
  | true =>
    rw [step_complete hc] at hok
    by_cases hb : (byte != 0x1a) = true
    · rw [if_pos hb] at hok
      cases hok
    · rw [if_neg hb] at hok
      exact Except.ok.inj hok ▸ .padding hc
  | false =>
    by_cases hlt : v.headerBytes.length < imageHeaderSize
    · rw [step_header hc hlt] at hok
      by_cases hfull : v.headerBytes.length + [byte].length = imageHeaderSize
      · obtain ⟨header, hparse, -, -, rfl⟩ := feedHeader_ok hok hfull
        exact .parsed hc hfull header hparse
      · have hshort : v.headerBytes.length + [byte].length < imageHeaderSize := by
          simp at hfull ⊢
          omega
        rw [feedHeader_short hshort] at hok
        exact Except.ok.inj hok ▸ .header hc hshort
    · have hfull : v.headerBytes.length = imageHeaderSize := by have := h.headerBytes; omega
      obtain ⟨header, hheader⟩ := Option.isSome_iff_exists.mp (h.known hfull)
      by_cases hpay : v.payloadOffset < header.imageSize
      · rw [step_payload hc hfull hheader hpay] at hok
        exact Except.ok.inj hok ▸ .payload (by simp [wants, hc, hfull, hheader, hpay])
      · have hwants : v.wants = false := by simp [wants, hheader]; omega
        cases harea : v.protectedArea.filter (fun area => !area.isComplete) with
        | some area =>
          obtain ⟨hsome, hopen⟩ := Option.filter_eq_some_iff.mp harea
          have hopen : area.isComplete = false := by simpa using hopen
          rw [step_protected hc hfull hheader hpay hsome hopen] at hok
          obtain ⟨area', found, rfl, hsteady, hsame⟩ :=
            feedProtected_steady (h.protectedArea area hsome).1 hopen hok
          exact .protectedArea hwants hfull hsome hsteady hsame found
        | none =>
          rw [step_regular hc hfull hheader hpay harea] at hok
          cases hreg : v.feedRegular [byte] with
          | error e => simp [hreg, bind, Except.bind] at hok
          | ok r =>
            obtain ⟨v1, n⟩ := r
            simp only [hreg, bind, Except.bind, Except.ok.injEq] at hok
            subst hok
            obtain ⟨regular, found, rfl, hsteady⟩ := feedRegular_steady h hc hreg
            exact .regular hwants hfull hsteady found

theorem Steady.after (h : v.Steady) {byte : UInt8} (hok : v.step byte = .ok v') : v'.Steady := by
  cases h.stepped hok with
  | padding hc => exact h
  | header hc hlt =>
    exact ⟨by simp; omega, fun h32 => by simp at h32; omega, h.protectedArea, h.regular, h.complete⟩
  | parsed hc hfull header hparse =>
    obtain ⟨-, hsize⟩ := parse_ok hparse
    refine ⟨by simp; omega, fun _ => rfl, ?_, h.regular, h.complete⟩
    intro area harea
    by_cases hz : header.protectedTlvSize ≠ 0
    · simp only [if_pos hz, Option.some.injEq] at harea
      subst harea
      exact ⟨TlvArea.steady_new _ _ _, header, rfl, rfl, by omega⟩
    · simp only [if_neg hz, reduceCtorEq] at harea
  | payload hwants => exact ⟨h.headerBytes, h.known, h.protectedArea, h.regular, h.complete⟩
  | protectedArea hwants hfull harea hsteady hsame found =>
    obtain ⟨-, header, hheader, hexp, hfour⟩ := h.protectedArea _ harea
    refine ⟨h.headerBytes, h.known, ?_, h.regular, h.complete⟩
    intro a ha
    obtain rfl := Option.some.inj ha
    exact ⟨hsteady, header, hheader, hsame.expectedTotal.trans hexp, hfour⟩
  | regular hwants hfull hsteady found =>
    exact ⟨h.headerBytes, h.known, h.protectedArea, hsteady, rfl⟩

theorem Steady.afterAll (h : v.Steady) (hok : input.foldlM step v = .ok v') : v'.Steady := by
  induction input generalizing v with
  | nil => exact Except.ok.inj hok ▸ h
  | cons byte rest ih =>
    rw [List.foldlM_cons] at hok
    cases hs : v.step byte with
    | error e => simp [hs, bind, Except.bind] at hok
    | ok v1 =>
      simp only [hs, bind, Except.bind] at hok
      exact ih (h.after hs) hok

/-- The payload among the bytes to come, as far as the verifier reads them. -/
def payloadIn (v : StreamingVerifier) : List UInt8 → List UInt8
  | [] => []
  | byte :: rest =>
    (if v.wants then [byte] else []) ++
      match v.step byte with
      | .ok v => payloadIn v rest
      | .error _ => []

theorem payloadIn_append (xs ys : List UInt8) :
    v.payloadIn (xs ++ ys) = v.payloadIn xs ++
      match xs.foldlM step v with
      | .ok v => v.payloadIn ys
      | .error _ => [] := by
  induction xs generalizing v with
  | nil => rfl
  | cons byte xs ih =>
    rw [List.cons_append, payloadIn, payloadIn, List.foldlM_cons]
    cases v.step byte with
    | error e => simp [bind, Except.bind]
    | ok v1 => simp [bind, Except.bind, ih]

theorem payloadIn_complete (hc : v.complete = true) (xs : List UInt8) : v.payloadIn xs = [] := by
  induction xs with
  | nil => rfl
  | cons byte xs ih =>
    rw [payloadIn, step_complete hc, if_neg (by simp [wants, hc])]
    cases hb : byte != 0x1a with
    | true => rfl
    | false => exact ih

theorem payloadIn_header {xs : List UInt8} (hc : v.complete = false)
    (hle : v.headerBytes.length + xs.length ≤ imageHeaderSize) : v.payloadIn xs = [] := by
  induction xs generalizing v with
  | nil => rfl
  | cons byte xs ih =>
    have hlt : v.headerBytes.length < imageHeaderSize := by simp at hle; omega
    rw [payloadIn, step_header hc hlt, if_neg (by simp [wants]; omega)]
    cases xs with
    | nil => cases v.feedHeader [byte] <;> rfl
    | cons x xs =>
      have hshort : v.headerBytes.length + [byte].length <
          imageHeaderSize := by simp at hle ⊢; omega
      rw [feedHeader_short hshort]
      exact ih hc (by simp at hle ⊢; omega)

theorem payloadIn_payload {header : ImageHeader} {xs : List UInt8} (hc : v.complete = false)
    (hfull : v.headerBytes.length = imageHeaderSize) (hheader : v.header = some header)
    (hle : v.payloadOffset + xs.length ≤ header.imageSize) : v.payloadIn xs = xs := by
  induction xs generalizing v with
  | nil => rfl
  | cons byte xs ih =>
    have hlt : v.payloadOffset < header.imageSize := by simp at hle; omega
    have hwants : v.wants = true := by simp [wants, hc, hfull, hheader, hlt]
    rw [payloadIn, step_payload hc hfull hheader hlt, if_pos hwants]
    have hrest := ih (v := v.feedPayload [byte]) hc hfull hheader (by
      simp [feedPayload] at hle ⊢
      omega)
    rw [List.singleton_append]
    exact congrArg _ hrest

theorem payloadIn_past {header : ImageHeader} (h : v.Steady)
    (hfull : v.headerBytes.length = imageHeaderSize) (hheader : v.header = some header)
    (hend : ¬v.payloadOffset < header.imageSize) (xs : List UInt8) : v.payloadIn xs = [] := by
  induction xs generalizing v with
  | nil => rfl
  | cons byte xs ih =>
    have hwants : v.wants = false := by simp [wants, hheader]; omega
    rw [payloadIn, if_neg (by simp [hwants])]
    cases hs : v.step byte with
    | error e => rfl
    | ok v1 =>
      have h1 := h.after hs
      rw [List.nil_append]
      cases h.stepped hs with
      | padding hc => exact ih h1 hfull hheader hend
      | header hc hlt => omega
      | parsed hc hlt => omega
      | payload hw => exact absurd hw (by simp [hwants])
      | protectedArea => exact ih h1 hfull hheader hend
      | regular => exact ih h1 hfull hheader hend

theorem payloadIn_take {header : ImageHeader} (h : v.Steady) (hc : v.complete = false)
    (hfull : v.headerBytes.length = imageHeaderSize) (hheader : v.header = some header)
    (xs : List UInt8) : v.payloadIn xs = xs.take (header.imageSize - v.payloadOffset) := by
  by_cases hend : v.payloadOffset < header.imageSize
  · by_cases hle : xs.length ≤ header.imageSize - v.payloadOffset
    · rw [List.take_of_length_le hle]
      exact payloadIn_payload hc hfull hheader (by omega)
    · generalize hn : header.imageSize - v.payloadOffset = n at hle
      have hlen : (xs.take n).length = n := by simp; omega
      have hne : (xs.take n).isEmpty = false := by
        simpa using List.ne_nil_of_length_pos (l := xs.take n) (by omega)
      have hle' : v.payloadOffset + (xs.take n).length ≤ header.imageSize := by omega
      have hrun := run_payload hc hfull hheader hle'
      rw [hne, if_neg (by simp)] at hrun
      have happ := payloadIn_append (v := v) (xs.take n) (xs.drop n)
      have hfirst := payloadIn_payload hc hfull hheader hle'
      rw [List.take_append_drop, hrun, hfirst] at happ
      rw [happ]
      have hpast := payloadIn_past (h.afterAll hrun) hfull hheader (by
        simp [feedPayload]
        omega) (xs.drop n)
      simp [hpast]
  · rw [payloadIn_past h hfull hheader hend, show header.imageSize - v.payloadOffset = 0 by omega,
      List.take_zero]

theorem payloadOffset_after (h : v.Steady) {xs : List UInt8} (hok : xs.foldlM step v = .ok v') :
    v'.payloadOffset = v.payloadOffset + (v.payloadIn xs).length := by
  induction xs generalizing v with
  | nil => exact Except.ok.inj hok ▸ rfl
  | cons byte xs ih =>
    rw [List.foldlM_cons] at hok
    rw [payloadIn]
    cases hs : v.step byte with
    | error e => simp [hs, bind, Except.bind] at hok
    | ok v1 =>
      simp only [hs, bind, Except.bind] at hok
      have hrest := ih (h.after hs) hok
      rw [hrest, List.length_append]
      cases h.stepped hs with
      | padding hc => simp [wants, hc]
      | header hc hlt => simp [wants]; omega
      | parsed hc hlt => simp [wants]; omega
      | payload hw => simp [hw, feedPayload]; omega
      | protectedArea hw => simp [hw, withProtected]
      | regular hw => simp [hw, withRegular]

end StreamingVerifier

/-- A sink that keeps a record of what is written to it. -/
structure Recorder where
  writes : List (Nat × List UInt8)
deriving DecidableEq, Repr

instance : PayloadSink Recorder where
  Error := Empty
  write sink offset bytes := (.ok (), { writes := sink.writes ++ [(offset, bytes)] })

/-- The writes put these bytes one after the other, from an offset on, and none of them twice. -/
inductive Contiguous : Nat → List (Nat × List UInt8) → List UInt8 → Prop
  | nil (offset : Nat) : Contiguous offset [] []
  | cons {offset : Nat} {bytes rest : List UInt8} {writes : List (Nat × List UInt8)}
    (h : Contiguous (offset + bytes.length) writes rest) :
    Contiguous offset ((offset, bytes) :: writes) (bytes ++ rest)

theorem Contiguous.append {offset : Nat} {writes writes' : List (Nat × List UInt8)}
    {bytes bytes' : List UInt8} (h : Contiguous offset writes bytes)
    (h' : Contiguous (offset + bytes.length) writes' bytes') :
    Contiguous offset (writes ++ writes') (bytes ++ bytes') := by
  induction h with
  | nil offset => simpa using h'
  | cons h ih =>
    rw [List.length_append, ← Nat.add_assoc] at h'
    rw [List.append_assoc]
    exact .cons (ih h')

namespace StreamingVerifier

variable {v v' : StreamingVerifier} {input : List UInt8}

/-- What feeding some input to a recording sink comes to. -/
structure Fed (v : StreamingVerifier) (input : List UInt8) (sink : Recorder)
    (result : Except (FeedError Empty) StreamingVerifier × Recorder) : Prop where
  outcome : result.1 = (input.foldlM step v).mapError .image
  written : ∃ writes, result.2.writes = sink.writes ++ writes ∧
    Contiguous v.payloadOffset writes (v.payloadIn input)

theorem fed_nil (v : StreamingVerifier) (sink : Recorder) : Fed v [] sink (.ok v, sink) :=
  ⟨rfl, [], by simp, .nil _⟩

theorem Fed.fail {xs : List UInt8} (sink : Recorder) {error : Error}
    (hrun : xs.foldlM step v = .error error) (hnone : v.payloadIn xs = []) (ys : List UInt8) :
    Fed v (xs ++ ys) sink (.error (.image error), sink) := by
  constructor
  · rw [List.foldlM_append, hrun]
    rfl
  · refine ⟨[], by simp, ?_⟩
    rw [payloadIn_append, hrun, hnone]
    exact .nil _

theorem Fed.chain {xs ys : List UInt8} {sink sink1 : Recorder} {v1 : StreamingVerifier}
    {result : Except (FeedError Empty) StreamingVerifier × Recorder} (hv : v.Steady)
    (hrun : xs.foldlM step v = .ok v1) {writes : List (Nat × List UInt8)}
    (hsink : sink1.writes = sink.writes ++ writes)
    (hwrites : Contiguous v.payloadOffset writes (v.payloadIn xs)) (h : Fed v1 ys sink1 result) :
    Fed v (xs ++ ys) sink result := by
  constructor
  · rw [List.foldlM_append, hrun]
    exact h.outcome
  · obtain ⟨writes', hsink', hwrites'⟩ := h.written
    refine ⟨writes ++ writes', by rw [hsink', hsink, List.append_assoc], ?_⟩
    rw [payloadIn_append, hrun]
    rw [payloadOffset_after hv hrun] at hwrites'
    exact hwrites.append hwrites'

theorem Fed.silent {xs ys : List UInt8} {sink : Recorder} {v1 : StreamingVerifier}
    {result : Except (FeedError Empty) StreamingVerifier × Recorder} (hv : v.Steady)
    (hrun : xs.foldlM step v = .ok v1) (hnone : v.payloadIn xs = []) (h : Fed v1 ys sink result) :
    Fed v (xs ++ ys) sink result := by
  refine @Fed.chain _ _ _ _ _ _ _ hv hrun [] (by simp) ?_ h
  rw [hnone]
  exact .nil _

theorem take_min_length (n : Nat) (input : List UInt8) :
    (input.take (min n input.length)).length = min n input.length := by simp

theorem feedLoop_fed {fuel : Nat} (h : v.Steady) (hfuel : input.length ≤ fuel) (sink : Recorder) :
    Fed v input sink (feedLoop fuel v input sink) := by
  induction fuel generalizing v input sink with
  | zero =>
    obtain rfl := List.length_eq_zero_iff.mp (Nat.le_zero.mp hfuel)
    exact fed_nil v sink
  | succ fuel ih =>
    unfold feedLoop
    by_cases hempty : input.isEmpty = true
    · rw [if_pos hempty]
      obtain rfl := List.isEmpty_iff.mp hempty
      exact fed_nil v sink
    rw [if_neg hempty]
    have hne : input ≠ [] := fun h0 => hempty (List.isEmpty_iff.mpr h0)
    have hpos := List.length_pos_iff.mpr hne
    cases hc : v.complete with
    | true =>
      refine ⟨?_, [], by simp, by rw [payloadIn_complete hc]; exact .nil _⟩
      rw [run_complete hc]
      simp only [if_true]
      by_cases hb : input.any (fun byte => byte != 0x1a) = true
      · rw [if_pos hb, if_pos hb]
        rfl
      · rw [if_neg hb, if_neg hb]
        rfl
    | false =>
      rw [if_neg (by simp)]
      by_cases hlt : v.headerBytes.length < imageHeaderSize
      · -- the header
        rw [if_pos hlt]
        simp only
        have hlen := take_min_length (imageHeaderSize - v.headerBytes.length) input
        generalize htake : min (imageHeaderSize - v.headerBytes.length) input.length = take at hlen
        have hle : v.headerBytes.length + (input.take take).length ≤ imageHeaderSize := by omega
        have hxs : input.take take ≠ [] := List.ne_nil_of_length_pos (by omega)
        have hrun := run_header hc hxs hle
        have hnone := payloadIn_header hc hle
        have hsplit := List.take_append_drop take input
        cases hf : v.feedHeader (input.take take) with
        | error e =>
          have hfed := Fed.fail sink (hrun.trans hf) hnone (input.drop take)
          rw [hsplit] at hfed
          exact hfed
        | ok v1 =>
          have hrest := ih (h.afterAll (hrun.trans hf))
            (show (input.drop take).length ≤ fuel by simp; omega) sink
          have hfed := Fed.silent h (hrun.trans hf) hnone hrest
          rw [hsplit] at hfed
          exact hfed
      rw [if_neg hlt]
      have hfull : v.headerBytes.length = imageHeaderSize := by have := h.headerBytes; omega
      obtain ⟨header, hheader⟩ := Option.isSome_iff_exists.mp (h.known hfull)
      simp only [hheader]
      by_cases hpay : v.payloadOffset < header.imageSize
      · -- the payload
        rw [if_pos hpay]
        have hlen := take_min_length (header.imageSize - v.payloadOffset) input
        generalize htake : min (header.imageSize - v.payloadOffset) input.length = take at hlen
        have hle : v.payloadOffset + (input.take take).length ≤ header.imageSize := by omega
        have hxs : (input.take take).isEmpty = false := by
          simpa using List.ne_nil_of_length_pos (l := input.take take) (by omega)
        have hrun := run_payload hc hfull hheader hle
        rw [hxs, if_neg (by simp)] at hrun
        have hrest := ih (h.afterAll hrun)
          (show (input.drop take).length ≤ fuel by simp; omega)
          { writes := sink.writes ++ [(v.payloadOffset, input.take take)] }
        have hwrite : Contiguous v.payloadOffset [(v.payloadOffset, input.take take)]
            (v.payloadIn (input.take take)) := by
          rw [payloadIn_payload hc hfull hheader hle]
          simpa using Contiguous.cons (.nil _)
        have hfed := Fed.chain h hrun rfl hwrite hrest
        rwa [List.take_append_drop] at hfed
      rw [if_neg hpay]
      have hnone : ∀ xs, v.payloadIn xs = [] := payloadIn_past h hfull hheader hpay
      cases harea : v.protectedArea.filter (fun area => !area.isComplete) with
      | some area =>
        -- the protected area
        obtain ⟨hsome, hopen⟩ := Option.filter_eq_some_iff.mp harea
        have hopen : area.isComplete = false := by simpa using hopen
        obtain ⟨hsteady, header', hheader', hexp, hfour⟩ := h.protectedArea area hsome
        obtain rfl : header' = header := Option.some.inj (hheader'.symm.trans hheader)
        have hroom := (hsteady.consumed_lt hexp hfour).mpr hopen
        simp only
        have hlen := take_min_length (header'.protectedTlvSize - area.consumed) input
        generalize htake : min (header'.protectedTlvSize - area.consumed) input.length =
          take at hlen
        have hle : area.consumed + (input.take take).length ≤ header'.protectedTlvSize := by omega
        have hxs : input.take take ≠ [] := List.ne_nil_of_length_pos (by omega)
        have hrun := run_protected hc hfull hheader hpay hsome hsteady hexp hfour hxs hle
        have hsplit := List.take_append_drop take input
        cases hf : v.feedProtected area (input.take take) with
        | error e =>
          have hfed := Fed.fail sink (hrun.trans hf) (hnone _) (input.drop take)
          rw [hsplit] at hfed
          exact hfed
        | ok v1 =>
          have hrest := ih (h.afterAll (hrun.trans hf))
            (show (input.drop take).length ≤ fuel by simp; omega) sink
          have hfed := Fed.silent h (hrun.trans hf) (hnone _) hrest
          rw [hsplit] at hfed
          exact hfed
      | none =>
        -- the regular area
        have hopen : v.regular.isComplete = false := h.complete ▸ hc
        have hrun := run_regular hc hfull hheader hpay harea h.regular hopen hne
        cases hf : v.feedRegular input with
        | error e =>
          refine ⟨by rw [hrun, hf]; rfl, [], by simp, ?_⟩
          rw [hnone]
          exact .nil _
        | ok r =>
          obtain ⟨v1, n⟩ := r
          obtain ⟨regular, found, rfl, hsteady, hn⟩ := feedRegular_ok h.regular hf
          have h1 : (v.withRegular regular found n).Steady :=
            ⟨h.headerBytes, h.known, h.protectedArea, hsteady, rfl⟩
          have hrest := ih h1 (show (input.drop n).length ≤ fuel by simp; omega) sink
          obtain ⟨writes, hwrites, hcont⟩ := hrest.written
          refine ⟨?_, writes, hwrites, ?_⟩
          · rw [hrun, hf]
            exact hrest.outcome
          · rw [payloadIn_past h1 hfull hheader hpay] at hcont
            rw [hnone]
            exact hcont

/-- Feed the chunks of a container until one fails. -/
def feedAll {S : Type} [PayloadSink S] (v : StreamingVerifier) (chunks : List (List UInt8))
    (sink : S) :
    Except (FeedError (PayloadSink.Error S)) StreamingVerifier × S :=
  match chunks with
  | [] => (.ok v, sink)
  | chunk :: rest =>
    match v.feed chunk sink with
    | (.error error, sink) => (.error error, sink)
    | (.ok v, sink) => feedAll v rest sink

theorem feedAll_fed (h : v.Steady) (chunks : List (List UInt8)) (sink : Recorder) :
    Fed v chunks.flatten sink (feedAll v chunks sink) := by
  induction chunks generalizing v sink with
  | nil => exact fed_nil v sink
  | cons chunk rest ih =>
    have hfed := feedLoop_fed h (Nat.le_refl chunk.length) sink
    obtain ⟨writes, hwrites, hcont⟩ := hfed.written
    have hout := hfed.outcome
    rw [List.flatten_cons, feedAll, feed]
    cases hr : feedLoop chunk.length v chunk sink with
    | mk r sink1 =>
      rw [hr] at hout hwrites
      cases hrun : chunk.foldlM step v with
      | error e =>
        rw [hrun] at hout
        obtain rfl : r = .error (.image e) := hout
        refine ⟨by rw [List.foldlM_append, hrun]; rfl, writes, hwrites, ?_⟩
        rw [payloadIn_append, hrun]
        simpa using hcont
      | ok v1 =>
        rw [hrun] at hout
        obtain rfl : r = .ok v1 := hout
        exact Fed.chain h hrun hwrites hcont (ih (h.afterAll hrun) sink1)

section Whole

variable [ImageCrypto] (publicKey : Bytes 32) (policy : Policy)

theorem steady_start : (start publicKey policy).Steady :=
  ⟨by simp [start, imageHeaderSize], by simp [start, imageHeaderSize], by simp [start],
    TlvArea.steady_new _ _ _, rfl⟩

/-- The payload of a container: what follows a header that the policy admits, as far as it goes. -/
def payloadOf (policy : Policy) (container : List UInt8) : List UInt8 :=
  match ImageHeader.parse (container.take imageHeaderSize) with
  | .ok header =>
    if header.imageSize ≤ policy.maxImageSize ∧ header.protectedTlvSize ≤ maxProtectedTlvSize then
      (container.drop imageHeaderSize).take header.imageSize
    else []
  | .error _ => []

theorem feedHeader_start {bytes : List UInt8} (hlen : bytes.length = imageHeaderSize) :
    (start publicKey policy).feedHeader bytes =
      match ImageHeader.parse bytes with
      | .error error => .error error
      | .ok header =>
        if header.imageSize > policy.maxImageSize then .error .imageTooLarge
        else if header.protectedTlvSize > maxProtectedTlvSize then .error .protectedTlvAreaTooLarge
        else .ok { start publicKey policy with
          headerBytes := bytes
          hasher := bytes
          containerPosition := imageHeaderSize
          protectedArea :=
            if header.protectedTlvSize ≠ 0 then
              some (TlvArea.new .protectedArea tlvProtectedInfoMagic (some header.protectedTlvSize))
            else none
          header := some header } := by
  unfold feedHeader
  simp only [start, List.nil_append, hlen, if_true]
  cases ImageHeader.parse bytes with
  | error e => rfl
  | ok header => rfl

theorem payloadIn_start (container : List UInt8) :
    (start publicKey policy).payloadIn container = payloadOf policy container := by
  have hsplit := List.take_append_drop imageHeaderSize container
  by_cases hlen : container.length < imageHeaderSize
  · have hdrop : container.drop imageHeaderSize = [] := List.drop_eq_nil_of_le (by omega)
    rw [payloadIn_header rfl (by simp [start]; omega)]
    unfold payloadOf
    rw [hdrop]
    cases ImageHeader.parse (container.take imageHeaderSize) with
    | error e => rfl
    | ok header => simp
  · have hfull : (container.take imageHeaderSize).length = imageHeaderSize := by simp; omega
    have hxs : container.take imageHeaderSize ≠ [] :=
      List.ne_nil_of_length_pos (by rw [hfull]; decide)
    have hle : (start publicKey policy).headerBytes.length +
        (container.take imageHeaderSize).length ≤ imageHeaderSize := by
      show 0 + _ ≤ _
      omega
    have hrun := run_header (v := start publicKey policy) rfl hxs hle
    have hnone := payloadIn_header (v := start publicKey policy) rfl hle
    have happ := payloadIn_append (v := start publicKey policy) (container.take imageHeaderSize)
      (container.drop imageHeaderSize)
    rw [hsplit, hnone, hrun] at happ
    rw [happ]
    unfold payloadOf
    have hstart := feedHeader_start publicKey policy hfull
    cases hf : (start publicKey policy).feedHeader (container.take imageHeaderSize) with
    | error e =>
      rw [hf] at hstart
      cases hp : ImageHeader.parse (container.take imageHeaderSize) with
      | error e => rfl
      | ok header =>
        simp only [hp] at hstart ⊢
        by_cases hadmits : header.imageSize ≤ policy.maxImageSize ∧
            header.protectedTlvSize ≤ maxProtectedTlvSize
        · rw [if_neg (by omega), if_neg (by omega)] at hstart
          cases hstart
        · rw [if_neg hadmits]
          rfl
    | ok v1 =>
      obtain ⟨header, hp, hsize, harea, hv1⟩ := feedHeader_ok hf (by simpa [start] using hfull)
      have h1 : v1.Steady := (steady_start publicKey policy).afterAll (hrun.trans hf)
      have hpayload := payloadIn_take h1 (by rw [hv1]; rfl)
        (by rw [hv1]; simpa [start] using hfull) (by rw [hv1]) (container.drop imageHeaderSize)
      have hoffset : v1.payloadOffset = 0 := by rw [hv1]; rfl
      rw [show ImageHeader.parse (container.take imageHeaderSize) = .ok header from hp]
      have hadmits : header.imageSize ≤ policy.maxImageSize ∧
          header.protectedTlvSize ≤ maxProtectedTlvSize := ⟨hsize, harea⟩
      simp only [List.nil_append]
      rw [hpayload, hoffset, Nat.sub_zero, if_pos hadmits]

/-- The outcome for a container that arrives in these chunks, and what the sink is left with. -/
def verify {S : Type} [PayloadSink S] (chunks : List (List UInt8)) (sink : S) :
    Except (FeedError (PayloadSink.Error S)) VerifiedImage × S :=
  match (start publicKey policy).feedAll chunks sink with
  | (.error error, sink) => (.error error, sink)
  | (.ok v, sink) => (v.finish.mapError .image, sink)

/-- However a container is cut into chunks, the outcome is that of feeding it in one piece; and what
the sink receives is the payload, from offset zero on, in order and without a gap. -/
theorem chunk_invariance (chunks : List (List UInt8)) :
    (verify publicKey policy chunks (Recorder.mk [])).1 =
        (verify publicKey policy [chunks.flatten] (Recorder.mk [])).1 ∧
      Contiguous 0 (verify publicKey policy chunks (Recorder.mk [])).2.writes
        (payloadOf policy chunks.flatten) := by
  have hstart := steady_start publicKey policy
  have hmany := feedAll_fed hstart chunks ⟨[]⟩
  have hone := feedAll_fed hstart [chunks.flatten] ⟨[]⟩
  have houtcome := hmany.outcome
  obtain ⟨writes, hwrites, hcont⟩ := hmany.written
  have hsame := hone.outcome
  rw [List.flatten_singleton, ← houtcome] at hsame
  rw [payloadIn_start, show (start publicKey policy).payloadOffset = 0 from rfl] at hcont
  rw [List.nil_append] at hwrites
  subst hwrites
  unfold verify
  cases hm : (start publicKey policy).feedAll chunks (Recorder.mk []) with
  | mk r sink =>
    cases ho : (start publicKey policy).feedAll [chunks.flatten] (Recorder.mk []) with
    | mk r' sink' =>
      rw [hm, ho] at hsame
      rw [hm] at hcont
      obtain rfl : r' = r := hsame
      cases r' with
      | error e => exact ⟨rfl, hcont⟩
      | ok v => exact ⟨rfl, hcont⟩

end Whole

end StreamingVerifier

end Microtun.Mcuboot
