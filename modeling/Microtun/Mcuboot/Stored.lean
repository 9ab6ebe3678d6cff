import Microtun.Mcuboot
import Mathlib.Data.Nat.Basic

/-! Reading a stored image back. The flash is read in whole units, and only the bytes of the image
are hashed. -/

namespace Microtun.Mcuboot

def readBackChunk : Nat := 256

/-- A flash behind `ReadNorFlash`: what it holds, and the reads that it refuses. -/
structure NorFlash (E : Type) where
  readSize : Nat
  content : Nat → UInt8
  refuses : (offset len : Nat) → Option E

namespace NorFlash

variable {E : Type}

/-- The bytes of a part of the flash. -/
def bytes (flash : NorFlash E) (offset len : Nat) : List UInt8 :=
  (List.range len).map fun i => flash.content (offset + i)

def read (flash : NorFlash E) (offset len : Nat) : Except E (List UInt8) :=
  match flash.refuses offset len with
  | some e => .error e
  | none => .ok (flash.bytes offset len)

end NorFlash

inductive StoredImageError (E : Type)
  | image (error : Error)
  | read (error : E)
deriving DecidableEq, Repr

/-- A read of the flash: its offset and its length. -/
abbrev Read := Nat × Nat

/-- The protected TLV block exactly as it appeared in the container. -/
def VerifiedImage.protectedTlvBlock (image : VerifiedImage) : List UInt8 :=
  image.protectedTlv.take image.protectedTlvSize

/-- Rounded up to a multiple of the unit. -/
def roundUp (unit n : Nat) : Nat := (n + unit - 1) / unit * unit

section

variable {E : Type}

/-- The loop over the stored bytes.  It gives the bytes that went into the hash, and the reads. -/
def readBack (flash : NorFlash E) (readSize chunk imageSize offset : Nat) (hchunk : 0 < chunk)
    (hashed : List UInt8) : Except E (List UInt8) × List Read :=
  if offset < imageSize then
    let remaining := imageSize - offset
    let take := min remaining chunk
    let readLen := roundUp readSize take
    match flash.read offset readLen with
    | .error e => (.error e, [(offset, readLen)])
    | .ok buffer =>
      let (r, reads) :=
        readBack flash readSize chunk imageSize (offset + take) hchunk (hashed ++ buffer.take take)
      (r, (offset, readLen) :: reads)
  else (.ok hashed, [])
termination_by imageSize - offset

theorem chunk_pos {readSize : Nat} (hpos : 0 < readSize) (hle : readSize ≤ readBackChunk) :
    0 < readBackChunk / readSize * readSize :=
  Nat.mul_pos (Nat.div_pos hle hpos) hpos

variable [ImageCrypto]

/-- Read a slot back, and check that it has the digest of the image.  The reads are given too. -/
def verifyStoredImage (flash : NorFlash E) (image : VerifiedImage) :
    Except (StoredImageError E) Unit × List Read :=
  let readSize := max flash.readSize 1
  if h : readBackChunk < readSize then (.error (.image .unsupportedReadGranularity), [])
  else
    let chunk := readBackChunk / readSize * readSize
    match readBack flash readSize chunk image.header.imageSize 0
      (chunk_pos (Nat.lt_of_lt_of_le Nat.zero_lt_one (Nat.le_max_right _ _)) (Nat.le_of_not_lt h))
      image.headerBytes with
    | (.error e, reads) => (.error (.read e), reads)
    | (.ok hashed, reads) =>
      let digest := ImageCrypto.sha256 (hashed ++ image.protectedTlvBlock)
      if digest ≠ image.digest then (.error (.image .storedImageInvalid), reads)
        else (.ok (), reads)

end

/-! ### Units -/

section

variable {unit n m : Nat}

theorem dvd_roundUp (unit n : Nat) : unit ∣ roundUp unit n := Nat.dvd_mul_left unit _

theorem le_roundUp (hunit : 0 < unit) (n : Nat) : n ≤ roundUp unit n := by
  have hdiv := Nat.div_add_mod (n + unit - 1) unit
  have hmod := Nat.mod_lt (n + unit - 1) hunit
  rw [roundUp, Nat.mul_comm]
  omega

theorem roundUp_of_dvd (hunit : 0 < unit) (h : unit ∣ n) : roundUp unit n = n := by
  obtain ⟨k, rfl⟩ := h
  have hdiv : (unit * k + unit - 1) / unit = k := by
    rw [Nat.add_sub_assoc hunit, Nat.mul_add_div hunit, Nat.div_eq_of_lt (by omega), Nat.add_zero]
  rw [roundUp, hdiv, Nat.mul_comm]

theorem roundUp_add (hunit : 0 < unit) (h : unit ∣ n) (m : Nat) :
    roundUp unit (n + m) = n + roundUp unit m := by
  obtain ⟨k, rfl⟩ := h
  have hdiv : (unit * k + m + unit - 1) / unit = k + (m + unit - 1) / unit := by
    rw [Nat.add_assoc, Nat.add_sub_assoc (by omega), Nat.mul_add_div hunit]
  rw [roundUp, hdiv, Nat.add_mul, Nat.mul_comm k, roundUp]

theorem roundUp_mono (h : n ≤ m) : roundUp unit n ≤ roundUp unit m :=
  Nat.mul_le_mul_right unit (Nat.div_le_div_right (by omega))

end

/-! ### The reads -/

/-- The reads follow each other without a gap from `start` to `stop`. -/
inductive Tiles : List Read → (start stop : Nat) → Prop
  | nil (start : Nat) : Tiles [] start start
  | cons {offset len stop : Nat} {reads : List Read} (hlen : 0 < len)
    (hrest : Tiles reads (offset + len) stop) : Tiles ((offset, len) :: reads) offset stop

/-- The read begins at a unit and is some whole units long, no more than the buffer holds. -/
def WholeUnits (unit : Nat) (r : Read) : Prop := unit ∣ r.1 ∧ unit ∣ r.2 ∧ 0 < r.2 ∧
    r.2 ≤ readBackChunk

section

variable {E : Type} {flash flash' : NorFlash E} {unit chunk imageSize offset : Nat}
  {hashed : List UInt8}

theorem NorFlash.bytes_append (flash : NorFlash E) (offset n m : Nat) :
    flash.bytes offset n ++ flash.bytes (offset + n) m = flash.bytes offset (n + m) := by
  simp only [NorFlash.bytes, List.range_add, List.map_append, List.map_map]
  congr 2
  funext i
  simp only [Function.comp_apply, Nat.add_assoc]

theorem NorFlash.take_bytes (flash : NorFlash E) (offset : Nat) {n m : Nat} (h : n ≤ m) :
    (flash.bytes offset m).take n = flash.bytes offset n := by
  rw [NorFlash.bytes, ← List.map_take, List.take_range, Nat.min_eq_left h]
  rfl

theorem readBack_done {hchunk : 0 < chunk} (h : imageSize ≤ offset) :
    readBack flash unit chunk imageSize offset hchunk hashed = (.ok hashed, []) := by
  rw [readBack, if_neg (Nat.not_lt_of_le h)]

theorem readBack_refused {hchunk : 0 < chunk} (h : offset < imageSize) {e : E}
    (hread : flash.refuses offset (roundUp unit (min (imageSize - offset) chunk)) = some e) :
    readBack flash unit chunk imageSize offset hchunk hashed =
      (.error e, [(offset, roundUp unit (min (imageSize - offset) chunk))]) := by
  rw [readBack, if_pos h]
  simp only [NorFlash.read, hread]

theorem readBack_step {hchunk : 0 < chunk} (hunit : 0 < unit) (h : offset < imageSize)
    (hread : flash.refuses offset (roundUp unit (min (imageSize - offset) chunk)) = none) :
    readBack flash unit chunk imageSize offset hchunk hashed =
      ((readBack flash unit chunk imageSize (offset + min (imageSize - offset) chunk) hchunk
        (hashed ++ flash.bytes offset (min (imageSize - offset) chunk))).1,
      (offset, roundUp unit (min (imageSize - offset) chunk)) ::
        (readBack flash unit chunk imageSize (offset + min (imageSize - offset) chunk) hchunk
          (hashed ++ flash.bytes offset (min (imageSize - offset) chunk))).2) := by
  rw [readBack, if_pos h]
  simp only [NorFlash.read, hread, NorFlash.take_bytes flash offset (le_roundUp hunit _)]

/-- What the loop did up to its end, or up to the first read that is refused. -/
structure ReadsBack (flash : NorFlash E) (unit imageSize offset : Nat) (hashed : List UInt8)
    (r : Except E (List UInt8)) (reads : List Read) : Prop where
  whole : ∀ x ∈ reads, WholeUnits unit x
  tiles : ∃ stop, Tiles reads (roundUp unit offset) stop ∧ stop ≤ roundUp unit imageSize ∧
    (r.isOk → stop = roundUp unit imageSize)
  ok : ∀ out, r = .ok out → out = hashed ++ flash.bytes offset (imageSize - offset) ∧
    ∀ x ∈ reads, flash.refuses x.1 x.2 = none
  error : ∀ e, r = .error e → ∃ x ∈ reads, flash.refuses x.1 x.2 = some e

/-- The reads of the loop are whole units that follow each other up to the end of the image, or up
to the first one that is refused; what goes into the hash is what the image occupies. -/
theorem readBack_spec (hunit : 0 < unit) (hchunk : 0 < chunk) (hdvd : unit ∣ chunk)
    (hle : chunk ≤ readBackChunk) (hoffset : offset ≤ imageSize)
    (haligned : unit ∣ offset ∨ offset = imageSize) (hashed : List UInt8) :
    ReadsBack flash unit imageSize offset hashed
      (readBack flash unit chunk imageSize offset hchunk hashed).1
      (readBack flash unit chunk imageSize offset hchunk hashed).2 := by
  induction hn : imageSize - offset using Nat.strong_induction_on generalizing offset hashed with
  | _ n ih =>
  rcases Nat.lt_or_ge offset imageSize with hlt | hge
  · have hunits : unit ∣ offset := haligned.resolve_right (by omega)
    have hstart := roundUp_of_dvd hunit hunits
    have htake : 0 < min (imageSize - offset) chunk := by omega
    have hread := le_roundUp hunit (min (imageSize - offset) chunk)
    have hchunkUp := roundUp_of_dvd hunit hdvd
    have hfits : roundUp unit (min (imageSize - offset) chunk) ≤ roundUp unit chunk :=
      roundUp_mono (Nat.min_le_right _ _)
    -- The read ends where the rounded-up rest of the loop begins.
    have hnext : offset + roundUp unit (min (imageSize - offset) chunk) =
        roundUp unit (offset + min (imageSize - offset) chunk) := (roundUp_add hunit hunits _).symm
    have hend : roundUp unit (offset + min (imageSize - offset) chunk) ≤ roundUp unit imageSize :=
      roundUp_mono (by omega)
    have hwhole : WholeUnits unit (offset, roundUp unit (min (imageSize - offset) chunk)) :=
      ⟨hunits, dvd_roundUp unit _, by dsimp only; omega, by dsimp only; omega⟩
    cases hrefuses : flash.refuses offset (roundUp unit (min (imageSize - offset) chunk)) with
    | some e =>
      rw [readBack_refused hlt hrefuses]
      refine ⟨?_, ⟨_, ?_, hend, fun h => Bool.noConfusion h⟩, ?_, ?_⟩
      · intro x hx
        rw [List.mem_singleton.mp hx]
        exact hwhole
      · rw [hstart, ← hnext]
        exact .cons hwhole.2.2.1 (.nil _)
      · intro out h
        cases h
      · intro e' h
        cases h
        exact ⟨_, List.mem_singleton_self _, hrefuses⟩
    | none =>
      have hstays : unit ∣ offset + min (imageSize - offset) chunk ∨
          offset + min (imageSize - offset) chunk = imageSize := by
        rcases Nat.le_total chunk (imageSize - offset) with hc | hc
        · rw [Nat.min_eq_right hc]
          exact Or.inl (Nat.dvd_add hunits hdvd)
        · rw [Nat.min_eq_left hc]
          exact Or.inr (by omega)
      obtain ⟨hall, ⟨stop, htiles, hstop, hok⟩, hout, herr⟩ :=
        ih (imageSize - (offset + min (imageSize - offset) chunk)) (by omega) (by omega) hstays
          (hashed ++ flash.bytes offset (min (imageSize - offset) chunk)) rfl
      rw [readBack_step hunit hlt hrefuses]
      refine ⟨?_, ⟨stop, ?_, hstop, hok⟩, ?_, ?_⟩
      · intro x hx
        rcases List.mem_cons.mp hx with rfl | hx
        · exact hwhole
        · exact hall x hx
      · rw [hstart]
        refine .cons hwhole.2.2.1 ?_
        rw [hnext]
        exact htiles
      · intro out h
        obtain ⟨hbytes, hnone⟩ := hout out h
        constructor
        · rw [hbytes, List.append_assoc, NorFlash.bytes_append]
          congr 2
          omega
        · intro x hx
          rcases List.mem_cons.mp hx with rfl | hx
          · exact hrefuses
          · exact hnone x hx
      · intro e h
        obtain ⟨x, hx, hsome⟩ := herr e h
        exact ⟨x, List.mem_cons_of_mem _ hx, hsome⟩
  · obtain rfl : offset = imageSize := by omega
    rw [readBack_done (Nat.le_refl _)]
    refine ⟨by simp, ⟨_, .nil _, Nat.le_refl _, fun _ => rfl⟩, ?_, ?_⟩
    · intro out h
      cases h
      simp [NorFlash.bytes]
    · intro e h
      cases h

/-- The two flashes cannot be told apart by what lies below the end. -/
structure SameBelow (flash flash' : NorFlash E) (stop : Nat) : Prop where
  readSize : flash'.readSize = flash.readSize
  refuses : flash'.refuses = flash.refuses
  content : ∀ i < stop, flash'.content i = flash.content i

theorem SameBelow.bytes {stop len : Nat} (h : SameBelow flash flash' stop)
    (hle : offset + len ≤ stop) : flash'.bytes offset len = flash.bytes offset len := by
  apply List.map_congr_left
  intro i hi
  have hi := List.mem_range.mp hi
  exact h.content _ (by omega)

/-- Bytes after the image have no part in the loop. -/
theorem readBack_congr (hunit : 0 < unit) {hchunk : 0 < chunk}
    (h : SameBelow flash flash' imageSize) (hashed : List UInt8) :
    readBack flash' unit chunk imageSize offset hchunk hashed =
      readBack flash unit chunk imageSize offset hchunk hashed := by
  induction hn : imageSize - offset using Nat.strong_induction_on generalizing offset hashed with
  | _ n ih =>
  rcases Nat.lt_or_ge offset imageSize with hlt | hge
  · cases hrefuses : flash.refuses offset (roundUp unit (min (imageSize - offset) chunk)) with
    | some e =>
      rw [readBack_refused hlt hrefuses, readBack_refused hlt (by rw [h.refuses, hrefuses])]
    | none =>
      have hbytes : flash'.bytes offset (min (imageSize - offset) chunk) =
          flash.bytes offset (min (imageSize - offset) chunk) := h.bytes (by omega)
      rw [readBack_step hunit hlt hrefuses, readBack_step hunit hlt (by rw [h.refuses, hrefuses]),
        hbytes, ih (imageSize - (offset + min (imageSize - offset) chunk)) (by omega) _ rfl]
  · rw [readBack_done hge, readBack_done hge]

end

/-! ### The check -/

section

variable {E : Type}

/-- The unit in which the flash is read. -/
def NorFlash.unit (flash : NorFlash E) : Nat := max flash.readSize 1

/-- What the digest of the image is taken over, with the payload as the flash has it. -/
def VerifiedImage.stored (image : VerifiedImage) (flash : NorFlash E) : List UInt8 :=
  image.headerBytes ++ flash.bytes 0 image.header.imageSize ++ image.protectedTlvBlock

variable {flash flash' : NorFlash E} {image : VerifiedImage}

theorem NorFlash.unit_pos (flash : NorFlash E) : 0 < flash.unit :=
  Nat.lt_of_lt_of_le Nat.zero_lt_one (Nat.le_max_right _ _)

theorem readsBack_stored (hunit : flash.unit ≤ readBackChunk) (image : VerifiedImage) :
    ReadsBack flash flash.unit image.header.imageSize 0 image.headerBytes
      (readBack flash flash.unit (readBackChunk / flash.unit * flash.unit) image.header.imageSize 0
        (chunk_pos flash.unit_pos hunit) image.headerBytes).1
      (readBack flash flash.unit (readBackChunk / flash.unit * flash.unit) image.header.imageSize 0
        (chunk_pos flash.unit_pos hunit) image.headerBytes).2 :=
  readBack_spec flash.unit_pos _ (Nat.dvd_mul_left _ _) (Nat.div_mul_le_self _ _) (Nat.zero_le _)
    (Or.inl (Nat.dvd_zero _)) _

variable [ImageCrypto]

theorem verifyStoredImage_eq (hunit : flash.unit ≤ readBackChunk) :
    verifyStoredImage flash image =
      match readBack flash flash.unit (readBackChunk / flash.unit * flash.unit)
        image.header.imageSize 0 (chunk_pos flash.unit_pos hunit) image.headerBytes with
      | (.error e, reads) => (.error (.read e), reads)
      | (.ok hashed, reads) =>
        if ImageCrypto.sha256 (hashed ++ image.protectedTlvBlock) ≠ image.digest then
          (.error (.image .storedImageInvalid), reads)
        else (.ok (), reads) := by
  have hadmitted : ¬readBackChunk < max flash.readSize 1 := Nat.not_lt_of_le hunit
  rw [verifyStoredImage, dif_neg hadmitted]
  rfl

/-- For every flash that is read in units of at most the buffer, and every image: each read is whole
units long and begins at a unit, the reads follow each other from the start to the end of the image
rounded up to the unit, or to the first read that is refused; the check says yes exactly if no read
is refused and the bytes have the digest of the image; and what the flash holds past the image has
no part in it. -/
theorem stored_image_checked (hunit : flash.unit ≤ readBackChunk) :
    (∀ x ∈ (verifyStoredImage flash image).2, WholeUnits flash.unit x) ∧
    (∃ stop, Tiles (verifyStoredImage flash image).2 0 stop ∧
      stop ≤ roundUp flash.unit image.header.imageSize ∧
      ((∀ x ∈ (verifyStoredImage flash image).2, flash.refuses x.1 x.2 = none) →
        stop = roundUp flash.unit image.header.imageSize)) ∧
    ((verifyStoredImage flash image).1 = .ok () ↔
      (∀ x ∈ (verifyStoredImage flash image).2, flash.refuses x.1 x.2 = none) ∧
        ImageCrypto.sha256 (image.stored flash) = image.digest) ∧
    ∀ flash', SameBelow flash flash' image.header.imageSize →
      verifyStoredImage flash' image = verifyStoredImage flash image := by
  obtain ⟨hwhole, ⟨stop, htiles, hstop, hok⟩, hout, herr⟩ := readsBack_stored hunit image
  have hstart : roundUp flash.unit 0 = 0 := roundUp_of_dvd flash.unit_pos (Nat.dvd_zero _)
  rw [hstart] at htiles
  have hcongr : ∀ flash', SameBelow flash flash' image.header.imageSize →
      verifyStoredImage flash' image = verifyStoredImage flash image := by
    intro flash' hsame
    have hsize : flash'.unit = flash.unit := by rw [NorFlash.unit, hsame.readSize, NorFlash.unit]
    rw [verifyStoredImage_eq (hsize ▸ hunit), verifyStoredImage_eq hunit]
    simp only [hsize, readBack_congr flash.unit_pos hsame]
  rw [verifyStoredImage_eq hunit] at hcongr ⊢
  generalize readBack flash flash.unit (readBackChunk / flash.unit * flash.unit)
    image.header.imageSize 0 (chunk_pos flash.unit_pos hunit) image.headerBytes = loop at *
  obtain ⟨r, reads⟩ := loop
  cases r with
  | error e =>
    obtain ⟨x, hx, hrefused⟩ := herr e rfl
    have hsome : ¬∀ x ∈ reads, flash.refuses x.1 x.2 = none := by
      intro hall
      rw [hall x hx] at hrefused
      cases hrefused
    refine ⟨hwhole, ⟨stop, htiles, hstop, fun hall => absurd hall hsome⟩, ?_, hcongr⟩
    exact ⟨fun h => (by cases h), fun h => absurd h.1 hsome⟩
  | ok hashed =>
    obtain ⟨hbytes, hnone⟩ := hout hashed rfl
    have hstored : hashed ++ image.protectedTlvBlock = image.stored flash := by
      rw [hbytes, Nat.sub_zero]
      rfl
    by_cases hdigest : ImageCrypto.sha256 (image.stored flash) = image.digest
    · simp only [hstored, hdigest, ne_eq, not_true_eq_false, if_false] at hcongr ⊢
      exact ⟨hwhole, ⟨stop, htiles, hstop, fun _ => hok rfl⟩,
        ⟨fun _ => ⟨hnone, trivial⟩, fun _ => trivial⟩, hcongr⟩
    · simp only [hstored, hdigest, ne_eq, not_false_eq_true, if_true] at hcongr ⊢
      refine ⟨hwhole, ⟨stop, htiles, hstop, fun _ => hok rfl⟩, ?_, hcongr⟩
      exact ⟨fun h => (by cases h), fun h => h.2.elim⟩

end

/-! An image of three bytes, in a flash that holds other bytes after it. -/

namespace StoredSample

def headerBytes : List UInt8 :=
  [61, 184, 243, 150, 0, 0, 0, 0, 32, 0, 24, 0, 3, 0, 0, 0, 0, 0, 0, 0, 1, 0, 0, 0, 0, 0, 0, 0,
  0, 0, 0, 0]

def protectedTlv : List UInt8 := [8, 105, 24, 0, 117, 0, 16, 0] ++ List.replicate 16 3

def digest : Bytes 32 := .ofList 32
  [36, 162, 144, 116, 241, 82, 159, 48, 231, 151, 183, 25, 107, 209, 74, 219, 14, 216, 128, 25, 226,
  85, 220, 215, 229, 228, 133, 176, 58, 145, 54, 125]

def image : VerifiedImage :=
  { header :=
      { loadAddress := 0, headerSize := 32, protectedTlvSize := 24, imageSize := 3, flags := 0
        version := { major := 1, minor := 0, revision := 0, build := 0 } }
    digest
    vid := none
    cid := .ofList 16 (List.replicate 16 3)
    containerSize := 203
    headerBytes
    protectedTlv
    protectedTlvSize := 24 }

/-- The hash at the bytes of this image. -/
scoped instance crypto : ImageCrypto where
  sha256 bytes := if bytes = headerBytes ++ [127, 1, 2] ++ protectedTlv then digest
    else Bytes.zero 32
  verifyingKey _ := false
  verifyStrict _ _ _ := false

/-- A flash with the image and then erased bytes, which refuses nothing. -/
def flash (readSize : Nat) : NorFlash Unit :=
  { readSize
    content := fun i => [127, 1, 2].getD i 255
    refuses := fun _ _ => none }

theorem stored_image_checked_words :
    (flash 4).unit ≤ readBackChunk ∧ ((verifyStoredImage (flash 4) image).1 = .ok () ↔
      (∀ x ∈ (verifyStoredImage (flash 4) image).2, (flash 4).refuses x.1 x.2 = none) ∧
        ImageCrypto.sha256 (image.stored (flash 4)) = image.digest) :=
  ⟨by decide, (stored_image_checked (by decide)).2.2.1⟩

/-- One read takes as many units as the buffer holds. -/
theorem stored_image_many_units :
    (flash 1).readSize = 1 ∧ (verifyStoredImage (flash 1) image).2 = [(0, 3)] ∧
      ¬∀ x ∈ (verifyStoredImage (flash 1) image).2, x.2 = (flash 1).readSize := by
  have hreads : (verifyStoredImage (flash 1) image).2 = [(0, 3)] := by
    rw [verifyStoredImage_eq (by decide)]
    decide +kernel
  refine ⟨rfl, hreads, ?_⟩
  rw [hreads]
  decide

end StoredSample

end Microtun.Mcuboot
