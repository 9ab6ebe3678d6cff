import Microtun.Bytes
import Microtun.Lib.Awaiting
import Microtun.Lib.Crc

/-! Packets, block 0 and the line of YMODEM-1K, `lib.rs`, `send.rs` and `receive.rs`. -/

namespace Microtun.Ymodem

open Crc

def dataBlockSize : Nat := 1024
def headerBlockSize : Nat := 128

def soh : UInt8 := 0x01
def stx : UInt8 := 0x02
def eot : UInt8 := 0x04
def ack : UInt8 := 0x06
def nak : UInt8 := 0x15
def can : UInt8 := 0x18
/-- `C` -/
def crcRequest : UInt8 := 0x43
def pad : UInt8 := 0x1a

structure Config where
  startRetries : UInt8 := 60
  maxRetries : UInt8 := 16
deriving DecidableEq, Repr

structure Metadata where
  filename : List UInt8
  fileSize : Nat
deriving DecidableEq, Repr

structure Transfer where
  fileSize : Nat
deriving DecidableEq, Repr

/-- The checksum of the `crc` crate. -/
class Crc16 where
  crc16 : List UInt8 → UInt16

export Crc16 (crc16)

def blockSize (control : UInt8) : Option Nat :=
  if control = soh then some headerBlockSize
  else if control = stx then some dataBlockSize
  else none

/-! ### Block 0 -/

/-- Fill the scratch buffer from its end. -/
def decimalBytes : (cursor : Nat) → (value : Nat) → (scratch : List UInt8) → List UInt8
  | 0, _, scratch => scratch
  | cursor + 1, value, scratch =>
    let scratch := UInt8.ofNat (0x30 + value % 10) :: scratch
    if value / 10 = 0 then scratch else decimalBytes cursor (value / 10) scratch

inductive BlockError where
  | invalidFilename
  | headerTooLong
deriving DecidableEq, Repr

def metadataBlock (m : Metadata) : Except BlockError (List UInt8) :=
  if m.filename = [] ∨ 0 ∈ m.filename then .error .invalidFilename
  else
    let size := decimalBytes 20 m.fileSize []
    let needed := m.filename.length + 1 + size.length + 1
    if headerBlockSize < needed then .error .headerTooLong
    else
      let used := m.filename ++ 0 :: size
      .ok (used ++ List.replicate (headerBlockSize - used.length) 0)

/-- Read the digits that are left, after some value. -/
def decimalFrom (usizeMax : Nat) : Nat → List UInt8 → Option Nat
  | value, [] => some value
  | value, byte :: rest =>
    if byte < 0x30 ∨ 0x39 < byte then none
    else if usizeMax < value * 10 then none
    else if usizeMax < value * 10 + (byte - 0x30).toNat then none
    else decimalFrom usizeMax (value * 10 + (byte - 0x30).toNat) rest

def decimalUsize (usizeMax : Nat) (bytes : List UInt8) : Option Nat :=
  if bytes = [] then none else decimalFrom usizeMax 0 bytes

def parseMetadata (usizeMax : Nat) (data : List UInt8) : Option Metadata := do
  let nameEnd ← data.findIdx? (· = 0)
  if nameEnd = 0 then none
  else
    let rest := data.drop (nameEnd + 1)
    let fieldEnd := (rest.findIdx? fun byte => byte = 0 ∨ byte = 0x20).getD rest.length
    let fileSize ← decimalUsize usizeMax (rest.take fieldEnd)
    return { filename := data.take nameEnd, fileSize }

def isEmptyHeader (data : List UInt8) : Bool := data.head? = some 0

section

variable {cursor value usizeMax : Nat} {scratch : List UInt8}

theorem digit_toNat (value : Nat) :
    (UInt8.ofNat (0x30 + value % 10)).toNat = 0x30 + value % 10 := by
  rw [UInt8.toNat_ofNat']
  omega

theorem decimalFrom_digit (hvalue : value ≤ usizeMax) :
    decimalFrom usizeMax (value / 10) (UInt8.ofNat (0x30 + value % 10) :: scratch) =
      decimalFrom usizeMax value scratch := by
  have hdigit := digit_toNat value
  have hsub : (UInt8.ofNat (0x30 + value % 10) - 0x30).toNat = value % 10 := by
    rw [UInt8.toNat_sub_of_le _ _
      (by rw [UInt8.le_iff_toNat_le, hdigit]; exact Nat.le_add_right _ _), hdigit]
    exact Nat.add_sub_cancel_left ..
  have hrange : ¬(UInt8.ofNat (0x30 + value % 10) < 0x30 ∨
      0x39 < UInt8.ofNat (0x30 + value % 10)) := by
    rw [UInt8.lt_iff_toNat_lt, UInt8.lt_iff_toNat_lt, hdigit]
    show ¬(0x30 + value % 10 < 0x30 ∨ 0x39 < 0x30 + value % 10)
    omega
  have hvalue' : value / 10 * 10 + value % 10 = value := by omega
  rw [decimalFrom, if_neg hrange, if_neg (by omega), hsub, if_neg (by omega), hvalue']

/-- The digits of a number are read as the number. -/
theorem decimalFrom_decimalBytes (hvalue : value ≤ usizeMax) (hfits : value < 10 ^ cursor)
    (hpos : 0 < cursor) : decimalFrom usizeMax 0 (decimalBytes cursor value scratch) =
      decimalFrom usizeMax value scratch := by
  induction cursor generalizing value scratch with
  | zero => cases hpos
  | succ cursor ih =>
    rw [decimalBytes]
    split
    · rename_i hzero
      rw [← hzero]
      exact decimalFrom_digit hvalue
    · rename_i hmore
      have hlt : value / 10 < 10 ^ cursor := by
        rw [Nat.pow_succ] at hfits
        exact Nat.div_lt_of_lt_mul (by omega)
      have hcursor : 0 < cursor := by
        by_contra hnone
        obtain rfl : cursor = 0 := by omega
        rw [Nat.pow_zero] at hlt
        omega
      rw [ih (by omega) hlt hcursor]
      exact decimalFrom_digit hvalue

theorem mem_decimalBytes {byte : UInt8} (h : byte ∈ decimalBytes cursor value scratch) :
    (0x30 ≤ byte.toNat ∧ byte.toNat ≤ 0x39) ∨ byte ∈ scratch := by
  have hdigit := digit_toNat value
  induction cursor generalizing value scratch with
  | zero => exact Or.inr h
  | succ cursor ih =>
    rw [decimalBytes] at h
    have hhead : ∀ b ∈ UInt8.ofNat (0x30 + value % 10) :: scratch,
        (0x30 ≤ b.toNat ∧ b.toNat ≤ 0x39) ∨ b ∈ scratch := by
      intro b hb
      rcases List.mem_cons.mp hb with rfl | hb
      · exact Or.inl (by omega)
      · exact Or.inr hb
    split at h
    · exact hhead byte h
    · rcases ih h (digit_toNat _) with hd | hmem
      · exact Or.inl hd
      · exact hhead byte hmem

theorem decimalBytes_ne_nil (h : 0 < cursor ∨ scratch ≠ []) : decimalBytes cursor value scratch ≠
    [] := by
  induction cursor generalizing value scratch with
  | zero => exact h.resolve_left (Nat.lt_irrefl 0)
  | succ cursor ih =>
    rw [decimalBytes]
    split
    · exact List.cons_ne_nil _ _
    · exact ih (Or.inr (List.cons_ne_nil _ _))

theorem findIdx?_behind {p : UInt8 → Bool} {l rest : List UInt8} {byte : UInt8}
    (hl : ∀ b ∈ l, p b = false) (hbyte : p byte = true) : (l ++ byte :: rest).findIdx? p =
    some l.length := by
  rw [List.findIdx?_append, List.findIdx?_eq_none_iff.mpr hl, List.findIdx?_cons, if_pos hbyte]
  exact congrArg some (Nat.zero_add _)

theorem length_metadataBlock {m : Metadata} {block : List UInt8} (h : metadataBlock m = .ok block) :
    block.length = headerBlockSize := by
  unfold metadataBlock at h
  split at h
  · cases h
  dsimp only at h
  split at h
  · cases h
  rename_i hneeded
  obtain rfl := Except.ok.inj h
  rw [List.length_append, List.length_replicate]
  simp only [List.length_append, List.length_cons]
  omega

theorem parseMetadata_metadataBlock {m : Metadata} {block : List UInt8}
    (h : metadataBlock m = .ok block) (hsize : m.fileSize ≤ usizeMax)
    (hfits : m.fileSize < 10 ^ 20) : parseMetadata usizeMax block = some m := by
  unfold metadataBlock at h
  split at h
  · cases h
  rename_i hname
  simp only [not_or] at hname
  obtain ⟨hnonempty, hzero⟩ := hname
  dsimp only at h
  split at h
  · cases h
  rename_i hneeded
  generalize hdigits : decimalBytes 20 m.fileSize [] = digits at h hneeded
  obtain rfl := Except.ok.inj h
  have hlen : (m.filename ++ 0 :: digits).length = m.filename.length + 1 + digits.length := by
    rw [List.length_append, List.length_cons]
    omega
  have hroom : ∃ n, headerBlockSize - (m.filename ++ 0 :: digits).length = n + 1 :=
    ⟨headerBlockSize - (m.filename ++ 0 :: digits).length - 1, by omega⟩
  obtain ⟨n, hn⟩ := hroom
  rw [hn, List.replicate_succ, List.append_assoc, List.cons_append]
  have hend : (m.filename ++ 0 :: (digits ++ 0 :: List.replicate n 0)).findIdx? (· = 0) =
      some m.filename.length := by
    refine findIdx?_behind (fun b hb => ?_) rfl
    simp only [decide_eq_false_iff_not]
    rintro rfl
    exact hzero hb
  have hdigit : ∀ b ∈ digits, decide (b = 0 ∨ b = 0x20) = false := by
    intro b hb
    rw [← hdigits] at hb
    rcases mem_decimalBytes hb with hrange | hnone
    · rw [decide_eq_false_iff_not]
      rintro (rfl | rfl)
      · exact absurd hrange.1 (by decide)
      · exact absurd hrange.1 (by decide)
    · cases hnone
  have hfield : (digits ++ 0 :: List.replicate n 0).findIdx? (fun byte => byte = 0 ∨ byte = 0x20) =
      some digits.length := findIdx?_behind hdigit rfl
  have hread : decimalUsize usizeMax digits = some m.fileSize := by
    rw [decimalUsize, if_neg (hdigits ▸ decimalBytes_ne_nil (Or.inl (by decide))), ← hdigits,
      decimalFrom_decimalBytes hsize hfits (by decide)]
    rfl
  have hdrop : (m.filename ++ 0 :: (digits ++ 0 :: List.replicate n 0)).drop
    (m.filename.length + 1) =
      digits ++ 0 :: List.replicate n 0 := by
    rw [List.append_cons]
    exact List.drop_left' (by rw [List.length_append]; rfl)
  unfold parseMetadata
  rw [hend, Option.bind_eq_bind, Option.bind_some,
    if_neg (fun hz => hnonempty (List.length_eq_zero_iff.mp hz)), hdrop]
  dsimp only
  rw [hfield, Option.getD_some, List.take_left, hread, List.take_left]
  rfl

theorem decimalFrom_mono {usizeMax' result : Nat} {digits : List UInt8} (hle : usizeMax ≤ usizeMax')
    (h : decimalFrom usizeMax value digits = some result) : decimalFrom usizeMax' value digits =
      some result := by
  induction digits generalizing value with
  | nil => exact h
  | cons digit digits ih =>
    rw [decimalFrom] at h ⊢
    split at h
    · cases h
    split at h
    · cases h
    split at h
    · cases h
    rename_i hdigit hten hone
    rw [if_neg hdigit, if_neg (by omega), if_neg (by omega)]
    exact ih h

/-- What is read where numbers are small is read where they are larger. -/
theorem parseMetadata_mono {usizeMax' : Nat} {data : List UInt8} {m : Metadata}
    (hle : usizeMax ≤ usizeMax') (h : parseMetadata usizeMax data = some m) :
    parseMetadata usizeMax' data = some m := by
  unfold parseMetadata at h ⊢
  rw [Option.bind_eq_bind, Option.bind_eq_some_iff] at h ⊢
  obtain ⟨nameEnd, hname, h⟩ := h
  refine ⟨nameEnd, hname, ?_⟩
  split at h
  · cases h
  rename_i hnonempty
  rw [if_neg hnonempty]
  dsimp only at h ⊢
  rw [Option.bind_eq_some_iff] at h ⊢
  obtain ⟨fileSize, hsize, h⟩ := h
  refine ⟨fileSize, ?_, h⟩
  unfold decimalUsize at hsize ⊢
  split at hsize
  · cases hsize
  rename_i hdigits
  rw [if_neg hdigits]
  exact decimalFrom_mono hle hsize

theorem eq_of_parseMetadata {m m' : Metadata} {block : List UInt8} (h : metadataBlock m = .ok block)
    (hfits : m.fileSize < 10 ^ 20) (hparse : parseMetadata usizeMax block = some m') : m' = m := by
  have hwide := parseMetadata_mono (Nat.le_max_left usizeMax m.fileSize) hparse
  rw [parseMetadata_metadataBlock h (Nat.le_max_right ..) hfits] at hwide
  exact (Option.some.inj hwide).symm

theorem decimalFrom_le {digits : List UInt8} {result : Nat} (hvalue : value ≤ usizeMax)
    (h : decimalFrom usizeMax value digits = some result) : result ≤ usizeMax := by
  induction digits generalizing value with
  | nil => exact Option.some.inj h ▸ hvalue
  | cons digit digits ih =>
    rw [decimalFrom] at h
    split at h
    · cases h
    split at h
    · cases h
    split at h
    · cases h
    rename_i hone
    exact ih (Nat.le_of_not_lt hone) h

theorem parseMetadata_le {data : List UInt8} {m : Metadata}
    (h : parseMetadata usizeMax data = some m) : m.fileSize ≤ usizeMax := by
  unfold parseMetadata at h
  rw [Option.bind_eq_bind, Option.bind_eq_some_iff] at h
  obtain ⟨nameEnd, -, h⟩ := h
  split at h
  · cases h
  dsimp only at h
  rw [Option.bind_eq_some_iff] at h
  obtain ⟨fileSize, hsize, h⟩ := h
  cases h
  unfold decimalUsize at hsize
  split at hsize
  · cases hsize
  · exact decimalFrom_le (Nat.zero_le _) hsize

/-- Block 0 of a file has one length, and a receiver reads in it what the sender was given, unless
the size of the file is none of its numbers, for which it reads nothing. -/
theorem metadata_round_trip {m : Metadata} {block : List UInt8} (h : metadataBlock m = .ok block)
    (hbits : m.fileSize < 2 ^ 64) (usizeMax : Nat) :
    block.length = headerBlockSize ∧
      parseMetadata usizeMax block = if m.fileSize ≤ usizeMax then some m else none := by
  have hfits : m.fileSize < 10 ^ 20 := Nat.lt_of_lt_of_le hbits (by decide)
  refine ⟨length_metadataBlock h, ?_⟩
  split
  · rename_i hsize
    exact parseMetadata_metadataBlock h hsize hfits
  · rename_i hsize
    rw [Option.eq_none_iff_forall_ne_some]
    intro m' hparse
    obtain rfl := eq_of_parseMetadata h hfits hparse
    exact hsize (parseMetadata_le hparse)

end

theorem metadata_round_trip_small : ∃ block, metadataBlock ⟨[102], 700⟩ = .ok block ∧
    parseMetadata 65535 block = some ⟨[102], 700⟩ ∧ parseMetadata 255 block = none := by
  have hblock : metadataBlock ⟨[102], 700⟩ =
      .ok ([102, 0, 55, 48, 48] ++ List.replicate 123 0) := by decide +kernel
  exact ⟨_, hblock, (metadata_round_trip hblock (by decide) 65535).2,
    (metadata_round_trip hblock (by decide) 255).2⟩

/-! ### Packets -/

theorem toNat_pair (hi lo : UInt8) : (hi.toBitVec ++ lo.toBitVec).toNat = ofBeBytes [hi, lo] := by
  rw [BitVec.toNat_append, ← Nat.shiftLeft_add_eq_or_of_lt lo.toBitVec.isLt, Nat.shiftLeft_eq]
  show hi.toNat * 2 ^ 8 + lo.toNat = lo.toNat + 256 * (hi.toNat + 256 * 0)
  omega

theorem frame_parts {frame : List UInt8} {size : Nat} (hlen : frame.length = size + 4) :
    ∃ number inverse data hi lo, frame = number :: inverse :: (data ++ [hi, lo]) ∧
      data.length = size := by
  obtain ⟨number, rest, rfl⟩ := List.exists_cons_of_length_pos (l := frame) (by omega)
  obtain ⟨inverse, rest, rfl⟩ := List.exists_cons_of_length_pos (l := rest)
    (by rw [List.length_cons] at hlen; omega)
  rw [List.length_cons, List.length_cons] at hlen
  have hlast : (rest.drop size).length = 2 := by
    rw [List.length_drop]
    omega
  obtain ⟨hi, lo, hlast⟩ := List.length_eq_two.mp hlast
  refine ⟨number, inverse, rest.take size, hi, lo, ?_, by rw [List.length_take]; omega⟩
  rw [← hlast, List.take_append_drop]

section

variable [Crc16]

/-- The bytes of a packet behind its control byte. -/
def frameOf (number : UInt8) (data : List UInt8) : List UInt8 :=
  number :: ~~~number :: (data ++ toBeBytes 2 (crc16 data).toNat)

def validFrame (frame : List UInt8) (size : Nat) : Bool :=
  let block := frame.getD 0 0
  let inverse := frame.getD 1 0
  let data := (frame.drop 2).take size
  let receivedCrc := ofBeBytes [frame.getD (2 + size) 0, frame.getD (3 + size) 0]
  inverse = ~~~block ∧ receivedCrc = (crc16 data).toNat

theorem validFrame_parts {number inverse hi lo : UInt8} {data : List UInt8} :
    validFrame (number :: inverse :: (data ++ [hi, lo])) data.length = true ↔
      inverse = ~~~number ∧ ofBeBytes [hi, lo] = (crc16 data).toNat := by
  have hhi : (number :: inverse :: (data ++ [hi, lo])).getD (2 + data.length) 0 = hi := by
    rw [Nat.add_comm, List.getD_cons_succ, List.getD_cons_succ, List.getD_eq_getElem?_getD]
    simp
  have hlo : (number :: inverse :: (data ++ [hi, lo])).getD (3 + data.length) 0 = lo := by
    rw [Nat.add_comm, List.getD_cons_succ, List.getD_cons_succ, List.getD_eq_getElem?_getD]
    simp
  unfold validFrame
  rw [decide_eq_true_iff, hhi, hlo]
  show _ ∧ ofBeBytes [hi, lo] = (crc16 ((data ++ [hi, lo]).take data.length)).toNat ↔ _
  rw [List.take_left]
  rfl

theorem length_frameOf (number : UInt8) (data : List UInt8) :
    (frameOf number data).length = data.length + 4 := by
  rw [frameOf, List.length_cons, List.length_cons, List.length_append, length_toBeBytes]

theorem validFrame_frameOf (number : UInt8) (data : List UInt8) :
    validFrame (frameOf number data) data.length = true := by
  have hcrc := ofBeBytes_toBeBytes 2 (crc16 data).toNat
  rw [Nat.mod_eq_of_lt (b := 256 ^ 2) (crc16 data).toNat_lt] at hcrc
  obtain ⟨hi, lo, hbytes⟩ := List.length_eq_two.mp (length_toBeBytes 2 (crc16 data).toNat)
  rw [frameOf, hbytes]
  rw [hbytes] at hcrc
  exact validFrame_parts.mpr ⟨rfl, hcrc⟩

/-- CRC-16/XMODEM. -/
def Xmodem : Prop := ∀ data, (crc16 data).toBitVec = Crc.register 0x1021#16 0#16 (bits data)

/-- A frame is valid if the number of its block is repeated inverted and what follows empties the
register. -/
theorem validFrame_iff (hcrc : Xmodem) {number inverse : UInt8} {rest : List UInt8} {size : Nat}
    (hlen : rest.length = size + 2) : validFrame (number :: inverse :: rest) size = true ↔
      inverse = ~~~number ∧ Crc.register 0x1021#16 0#16 (bits rest) = 0#16 := by
  have hframe : (number :: inverse :: rest).length = size + 4 := by simp [hlen]
  obtain ⟨number', inverse', data, hi, lo, heq, rfl⟩ := frame_parts hframe
  obtain ⟨hnumber, hrest⟩ := List.cons.inj heq
  obtain ⟨hinverse, rfl⟩ := List.cons.inj hrest
  rw [validFrame_parts, bits_append, bits_pair, Crc.register_check (by decide), ← hcrc data,
    ← toNat_pair]
  exact and_congr_right fun _ =>
    ⟨fun h => (BitVec.eq_of_toNat_eq h).symm, fun h => congrArg BitVec.toNat h.symm⟩

end

/-! ### Noise -/

section

variable {frame frame' : List UInt8} {n i size : Nat}

/-- The frames differ at most in `n` bits from bit `i` on. -/
def Burst (n i : Nat) (frame frame' : List UInt8) : Prop :=
  ∀ j, j < i ∨ i + n ≤ j → (bits frame)[j]? = (bits frame')[j]?

/-- What noise does to a frame: it changes a few bits next to each other, more of them if they are
behind the number of the block, or an odd number of bits. -/
inductive Damaged (frame frame' : List UInt8) : Prop where
  | short (i : Nat) (h : Burst 8 i frame frame')
  | behind (i : Nat) (hi : 16 ≤ i) (h : Burst 16 i frame frame')
  | odd (h : parity (bits frame) ≠ parity (bits frame'))

theorem Burst.longer (h : Burst n i frame frame') {n' : Nat} (hn : n ≤ n') :
    Burst n' i frame frame' :=
  fun j hj => h j (by omega)

theorem bits_behind (number inverse : UInt8) (rest : List UInt8) (j : Nat) :
    (bits (number :: inverse :: rest))[16 + j]? = (bits rest)[j]? := by
  rw [bits_cons, bits_cons, ← List.append_assoc]
  exact (List.getElem?_append_right (by simp)).trans (congrArg _ (by simp))

/-- Either bit of the number shows in the frame, as it is or inverted. -/
theorem bits_number (number : UInt8) (rest : List UInt8) {j : Nat} (hj : j < 8) :
    (bits (number :: ~~~number :: rest))[j]? = some (number.toBitVec.getMsbD j) ∧
      (bits (number :: ~~~number :: rest))[8 + j]? = some !(number.toBitVec.getMsbD j) := by
  constructor
  · rw [bits_cons, List.getElem?_append_left (by simpa using hj), Radix.getElem?_bitString,
      if_pos hj]
  · rw [bits_cons, bits_cons, List.getElem?_append_right (by simp), Radix.length_bitString,
      Nat.add_sub_cancel_left, List.getElem?_append_left (by simpa using hj),
      Radix.getElem?_bitString, if_pos hj, UInt8.toBitVec_not,
      BitVec.getMsbD_not]
    simp [hj]

theorem parity_number (number : UInt8) (rest : List UInt8) :
    parity (bits (number :: ~~~number :: rest)) = parity (bits rest) := by
  rw [bits_cons, bits_cons, parity_append, parity_append, UInt8.toBitVec_not, ← BitVec.xor_allOnes,
    parity_xor, ← Bool.xor_assoc, ← Bool.xor_assoc, Bool.xor_self, Bool.false_xor]
  exact Bool.false_xor _

/-- A burst leaves the number of the block as it is, if both frames repeat it inverted. -/
theorem number_of_burst {number number' : UInt8} {rest rest' : List UInt8}
    (h : Burst 8 i (number :: ~~~number :: rest) (number' :: ~~~number' :: rest')) :
      number = number' := by
  refine UInt8.toBitVec_inj.mp (BitVec.eq_of_getMsbD_eq fun j hj => ?_)
  obtain ⟨hplain, hinverted⟩ := bits_number number rest hj
  obtain ⟨hplain', hinverted'⟩ := bits_number number' rest' hj
  -- The two copies of a bit are too far from each other for both to change.
  by_cases hout : j < i ∨ i + 8 ≤ j
  · have hbit := h j hout
    rw [hplain, hplain'] at hbit
    exact Option.some.inj hbit
  · have hbit := h (8 + j) (Or.inr (by omega))
    rw [hinverted, hinverted'] at hbit
    exact Bool.not_inj (Option.some.inj hbit)

variable [Crc16]

/-- A packet that noise has changed is not valid. -/
theorem damaged_invalid (hcrc : Xmodem) (hlen : frame.length = size + 4)
    (hlen' : frame'.length = size + 4) (h : validFrame frame size = true) (hne : frame ≠ frame')
    (hdamaged : Damaged frame frame') : validFrame frame' size = false := by
  by_contra hvalid
  rw [Bool.not_eq_false] at hvalid
  obtain ⟨number, inverse, data, hi, lo, rfl, hdata⟩ := frame_parts hlen
  obtain ⟨number', inverse', data', hi', lo', rfl, hdata'⟩ := frame_parts hlen'
  obtain ⟨rfl, hzero⟩ := (validFrame_iff hcrc (by simp [hdata])).mp h
  obtain ⟨rfl, hzero'⟩ := (validFrame_iff hcrc (by simp [hdata'])).mp hvalid
  generalize data ++ [hi, lo] = rest at *
  generalize data' ++ [hi', lo'] = rest' at *
  have hrest : (bits rest).length = (bits rest').length := by
    rw [length_bits, length_bits]
    simp only [List.length_cons] at hlen hlen'
    omega
  have hburst : ∀ i, number = number' →
    Burst 16 i (number :: ~~~number :: rest) (number' :: ~~~number' :: rest') →
      False := by
    rintro i rfl hb
    refine burst_detected (i := i - 16) (by decide) hrest (fun heq => hne ?_) (fun j hj => ?_) hzero
      hzero'
    · rw [bits_inj heq]
    · have hbit := hb (16 + j) (by omega)
      rwa [bits_behind, bits_behind] at hbit
  cases hdamaged with
  | short i hb => exact hburst i (number_of_burst hb) (hb.longer (by decide))
  | behind i hi hb =>
    refine hburst i (UInt8.toBitVec_inj.mp (BitVec.eq_of_getMsbD_eq fun j hj => ?_)) hb
    have hbit := hb j (Or.inl (by omega))
    rw [(bits_number number rest hj).1, (bits_number number' rest' hj).1] at hbit
    exact Option.some.inj hbit
  | odd hp =>
    rw [parity_number, parity_number] at hp
    exact odd_detected (by decide) hp hzero hzero'

/-- A packet that noise has changed is not valid; but the number of the block is not under the
checksum, so that any other number with its inverse is as valid. -/
theorem noise_detected (hcrc : Xmodem) (hlen : frame.length = size + 4)
    (h : validFrame frame size = true) :
    (∀ frame', frame'.length = size + 4 → frame ≠ frame' → Damaged frame frame' →
      validFrame frame' size = false) ∧
      ∀ number, validFrame (number :: ~~~number :: frame.drop 2) size = true := by
  refine ⟨fun frame' hlen' hne hdamaged => damaged_invalid hcrc hlen hlen' h hne hdamaged,
    fun number => ?_⟩
  obtain ⟨number', inverse, data, hi, lo, rfl, hdata⟩ := frame_parts hlen
  have hrest : (data ++ [hi, lo]).length = size + 2 := by simp [hdata]
  exact (validFrame_iff hcrc hrest).mpr ⟨rfl, ((validFrame_iff hcrc hrest).mp h).2⟩

end

/-- CRC-16/XMODEM, as it is computed. -/
@[reducible] def xmodem : Crc16 :=
    ⟨fun data => UInt16.ofBitVec (register 0x1021#16 0#16 (bits data))⟩

theorem noise_detected_xmodem :
    (∀ frame', frame'.length = 3 + 4 → [1, 254, 65, 66, 67, 57, 148] ≠ frame' →
      Damaged [1, 254, 65, 66, 67, 57, 148] frame' → @validFrame xmodem frame' 3 = false) ∧
      ∀ number, @validFrame xmodem (number :: ~~~number :: [65, 66, 67, 57, 148]) 3 = true :=
  @noise_detected [1, 254, 65, 66, 67, 57, 148] 3 xmodem (fun _ => rfl) rfl (by decide +kernel)

/-! ### The line -/

open Awaiting

/-- What a read of one byte finds. -/
inductive Arrival (ε : Type) where
  | byte (b : UInt8)
  | closed
  | interrupted
  | timedOut
  | failed (e : ε)

/-- An answer of the surroundings, whatever is waited for: a read, a write or a flush of the line,
which may fail after some of the bytes, or something on the side of the caller. -/
structure Answer (ε ν : Type) where
  arrival : Arrival ε
  refusal : Option (Nat × ε)
  side : ν

inductive Mark where
  | heard (byte : UInt8)
  | said (byte : UInt8)
deriving DecidableEq, Repr

def Mark.heard? : Mark → Option UInt8
  | .heard byte => some byte
  | .said _ => none

def Mark.said? : Mark → Option UInt8
  | .heard _ => none
  | .said byte => some byte

/-- What has passed over the line, and what is kept on the side of the caller. -/
structure State (κ : Type) where
  log : List Mark
  side : κ

namespace State

variable {κ : Type}

/-- The bytes that were read. -/
def heard (s : State κ) : List UInt8 := s.log.filterMap Mark.heard?

/-- The bytes that the line took. -/
def said (s : State κ) : List UInt8 := s.log.filterMap Mark.said?

def hear (s : State κ) (byte : UInt8) : State κ := { s with log := s.log ++ [.heard byte] }

def say (s : State κ) (bytes : List UInt8) : State κ := { s with log := s.log ++ bytes.map .said }

variable {s : State κ} {byte : UInt8} {bytes : List UInt8}

@[simp] theorem heard_hear : (s.hear byte).heard = s.heard ++ [byte] := List.filterMap_append

@[simp] theorem heard_say : (s.say bytes).heard = s.heard := by
  simp [heard, say, List.filterMap_map, Function.comp_def, Mark.heard?]

end State

inductive ReadByteError (ε : Type) where
  | io (e : ε)
  | timeout
  | eof

variable {κ ε ν : Type}

def readByte : Program (State κ) (Answer ε ν) (Except (ReadByteError ε) UInt8) :=
  loop (fun () => do
    match ← answer Answer.arrival with
    | .closed => return .inl (.error .eof)
    | .byte b =>
      update (·.hear b)
      return .inl (.ok b)
    | .interrupted => return .inr ()
    | .timedOut => return .inl (.error .timeout)
    | .failed e => return .inl (.error (.io e))) ()

/-- `write_all` -/
def writeAll (bytes : List UInt8) : Program (State κ) (Answer ε ν) (Except ε Unit) := do
  match ← answer Answer.refusal with
  | none =>
    update (·.say bytes)
    return .ok ()
  | some (n, e) =>
    update (·.say (bytes.take n))
    return .error e

def flush : Program (State κ) (Answer ε ν) (Except ε Unit) := do
  match ← answer Answer.refusal with
  | none => return .ok ()
  | some (_, e) => return .error e

section

variable {W : State κ → Prop} {s : State κ}

theorem spec_readByte {Q : Except (ReadByteError ε) UInt8 → State κ → Prop} (hw : W s)
    (hok : ∀ b, Q (.ok b) (s.hear b)) (herr : ∀ e, Q (.error e) s) :
    Spec W (readByte : Program (State κ) (Answer ε ν) _) Q s := by
  refine spec_loop (I := fun _ s' => s' = s) (fun _ _ h => h ▸ hw) (fun _ s' h => ?_) rfl
  subst h
  refine spec_answer_bind hw fun arrival => ?_
  cases arrival with
  | byte b => exact spec_update_bind (spec_pure (hok b))
  | closed => exact spec_pure (herr _)
  | interrupted => exact spec_pure rfl
  | timedOut => exact spec_pure (herr _)
  | failed e => exact spec_pure (herr _)

theorem spec_writeAll {Q : Except ε Unit → State κ → Prop} {bytes : List UInt8} (hw : W s)
    (hok : Q (.ok ()) (s.say bytes)) (herr : ∀ e n, Q (.error e) (s.say (bytes.take n))) :
    Spec W (writeAll bytes : Program (State κ) (Answer ε ν) _) Q s := by
  refine spec_answer_bind hw fun refusal => ?_
  cases refusal with
  | none => exact spec_update_bind (spec_pure hok)
  | some failed => exact spec_update_bind (spec_pure (herr _ _))

theorem spec_flush {Q : Except ε Unit → State κ → Prop} (hw : W s) (hok : Q (.ok ()) s)
    (herr : ∀ e, Q (.error e) s) : Spec W (flush : Program (State κ) (Answer ε ν) _) Q s := by
  refine spec_answer_bind hw fun refusal => ?_
  cases refusal with
  | none => exact spec_pure hok
  | some failed => exact spec_pure (herr _)

end

/-- A retry counter saturates. -/
def saturatingSucc (retries : UInt8) : UInt8 := if retries = 255 then 255 else retries + 1

/-! ### Items -/

/-- The length of what follows a control byte. -/
def frameLength (control : UInt8) : Nat := ((blockSize control).map (· + 4)).getD 0

/-- A control byte on its own, or with the frame that it announces. -/
structure Item where
  control : UInt8
  frame : List UInt8
  length_frame : frame.length = frameLength control

namespace Item

def bytes (i : Item) : List UInt8 := i.control :: i.frame

/-- A control byte that announces nothing. -/
def alone (control : UInt8) (h : blockSize control = none) : Item :=
  ⟨control, [], by rw [frameLength, h]; rfl⟩

/-- A control byte with the frame that it announces. -/
def framed {control : UInt8} {size : Nat} (h : blockSize control = some size) {frame : List UInt8}
    (hlen : frame.length = size + 4) : Item :=
  ⟨control, frame, by rw [frameLength, h]; exact hlen⟩

/-- The end of the data. -/
def eot : Item := alone Ymodem.eot rfl

theorem bytes_append_inj {i j : Item} {rest rest' : List UInt8}
    (h : i.bytes ++ rest = j.bytes ++ rest') : i = j ∧ rest = rest' := by
  obtain ⟨control, frame, hframe⟩ := i
  obtain ⟨control', frame', hframe'⟩ := j
  obtain ⟨hcontrol, hrest⟩ := List.cons.inj h
  cases hcontrol
  obtain ⟨rfl, rfl⟩ := List.append_inj hrest (hframe.trans hframe'.symm)
  exact ⟨rfl, rfl⟩

end Item

/-- What was heard or said, item by item. -/
def bytesOf (items : List Item) : List UInt8 := items.flatMap Item.bytes

@[simp] theorem bytesOf_nil : bytesOf [] = [] := rfl

@[simp] theorem bytesOf_cons (i : Item) (items : List Item) : bytesOf (i :: items) =
    i.bytes ++ bytesOf items := rfl

@[simp] theorem bytesOf_append (items items' : List Item) :
    bytesOf (items ++ items') = bytesOf items ++ bytesOf items' := List.flatMap_append

theorem bytesOf_concat (items : List Item) (i : Item) : bytesOf (items ++ [i]) =
    bytesOf items ++ i.bytes := by
  rw [bytesOf_append, bytesOf_cons, bytesOf_nil, List.append_nil]

end Microtun.Ymodem
