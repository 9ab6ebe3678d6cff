import Mathlib.Data.Nat.Bitwise
import Microtun.Lib.Except
import Microtun.Ws

/-! A header is read back as it was written, and a payload masked twice is itself, wherever it is
cut. -/

namespace Microtun.Ws

/-! ### Masking -/

section

variable {key : Bytes 4} {offset : Nat} {data data' : List UInt8}

theorem length_applyMask (key : Bytes 4) (offset : Nat) (data : List UInt8) :
    (applyMask key offset data).1.length = data.length := List.length_mapIdx

theorem applyMask_append (key : Bytes 4) (offset : Nat) (data data' : List UInt8) :
    applyMask key offset (data ++ data') =
      ((applyMask key offset data).1 ++ (applyMask key (applyMask key offset data).2 data').1,
        (applyMask key (applyMask key offset data).2 data').2) := by
  unfold applyMask
  dsimp only
  rw [List.mapIdx_append, List.length_append]
  apply Prod.ext
  · dsimp only
    congr 1
    apply List.ext_getElem?
    intro i
    simp only [List.getElem?_mapIdx]
    congr 1
    funext byte
    congr 3
    omega
  · dsimp only
    omega

theorem applyMask_applyMask (key : Bytes 4) (offset : Nat) (data : List UInt8) :
    (applyMask key offset (applyMask key offset data).1).1 = data := by
  unfold applyMask
  dsimp only
  apply List.ext_getElem?
  intro i
  simp only [List.getElem?_mapIdx, Option.map_map]
  cases data[i]? with
  | none => rfl
  | some byte => simp only [Option.map_some, Function.comp_apply, UInt8.xor_assoc, UInt8.xor_self,
      UInt8.xor_zero]

end

/-! ### Headers -/

/-- The seven bits for a length. -/
def len7 (len : Nat) : UInt8 := if len < 126 then UInt8.ofNat len else if len ≤ 65535 then 126
    else 127

/-- The length bytes after the first two. -/
def extended (len : Nat) : List UInt8 :=
  if len < 126 then [] else if len ≤ 65535 then toBeBytes 2 len else toBeBytes 8 len

def keyBytes : Option (Bytes 4) → List UInt8
  | some key => key.toList
  | none => []

section

variable {K : Type} {len : Nat} {opcode : UInt8} {target : Target}

theorem encodeHeader_eq (fin : Bool) (opcode : UInt8) (len : Nat) (key : Option (Bytes 4)) :
    encodeHeader fin opcode len key = (if fin then 0x80 ||| opcode else opcode) ::
      ((if key.isSome then 0x80 else 0x00) ||| len7 len) :: (extended len ++ keyBytes key) := by
  unfold encodeHeader len7 extended keyBytes
  by_cases hshort : len < 126
  · simp only [if_pos hshort]
    rfl
  · by_cases hmedium : len ≤ 65535
    · simp only [if_neg hshort, if_pos hmedium]
      rfl
    · simp only [if_neg hshort, if_neg hmedium]
      rfl

theorem len7_short (h : len < 126) : (len7 len).toNat = len ∧ len7 len ≠ 126 ∧ len7 len ≠ 127 := by
  have hnat : (len7 len).toNat = len := by
    rw [len7, if_pos h, UInt8.toNat_ofNat_of_lt']
    rw [UInt8.size]
    omega
  refine ⟨hnat, ?_, ?_⟩
  · intro heq
    rw [heq] at hnat
    exact absurd (show 126 = len from hnat) (by omega)
  · intro heq
    rw [heq] at hnat
    exact absurd (show 127 = len from hnat) (by omega)

theorem len7_medium (h : ¬len < 126) (hmedium : len ≤ 65535) : len7 len = 126 := by
  rw [len7, if_neg h, if_pos hmedium]

theorem len7_long (h : ¬len ≤ 65535) : len7 len = 127 := by
  rw [len7, if_neg (by omega), if_neg h]

theorem length_extended (len : Nat) : (extended len).length = extendedLenBytes (len7 len) := by
  unfold extended extendedLenBytes
  by_cases hshort : len < 126
  · obtain ⟨-, h126, h127⟩ := len7_short hshort
    rw [if_pos hshort, if_neg h126, if_neg h127]
    rfl
  · by_cases hmedium : len ≤ 65535
    · rw [if_neg hshort, if_pos hmedium, len7_medium hshort hmedium, length_toBeBytes]
      rfl
    · rw [if_neg hshort, if_neg hmedium, len7_long hmedium, length_toBeBytes]
      rfl

theorem second_bits : ∀ n < 128, ∀ masked : Bool,
    (((if masked then 0x80 else 0x00) ||| UInt8.ofNat n) &&& 0x80 != (0 : UInt8)) = masked ∧
      ((if masked then 0x80 else 0x00) ||| UInt8.ofNat n) &&& 0x7F = UInt8.ofNat n := by
  decide

theorem len7_eq (len : Nat) : ∃ n < 128, len7 len = UInt8.ofNat n := by
  by_cases hshort : len < 126
  · exact ⟨len, by omega, if_pos hshort⟩
  · by_cases hmedium : len ≤ 65535
    · exact ⟨126, by omega, len7_medium hshort hmedium⟩
    · exact ⟨127, by omega, len7_long hmedium⟩

/-- The first two bytes say what the header was made from. -/
theorem decodePrefix_encode (fin masked : Bool) (hopcode : opcode ∈ knownOpcodes) (len : Nat) :
    decodePrefix (if fin then 0x80 ||| opcode else opcode)
        ((if masked then 0x80 else 0x00) ||| len7 len) =
      (.ok { fin, opcode, masked, len7 := len7 len } : Except (Error K) Prefix) := by
  obtain ⟨n, hn, hlen7⟩ := len7_eq len
  obtain ⟨hmasked, hbits⟩ := second_bits n hn masked
  have hfirst : (if fin then 0x80 ||| opcode else opcode) &&& 0x70 = 0 ∧
      (if fin then 0x80 ||| opcode else opcode) &&& 0x0F = opcode ∧
      ((if fin then 0x80 ||| opcode else opcode) &&& 0x80 != 0) = fin := by
    simp only [knownOpcodes, List.mem_cons, List.not_mem_nil, or_false] at hopcode
    rcases hopcode with rfl | rfl | rfl | rfl | rfl | rfl <;> cases fin <;> decide
  obtain ⟨hreserved, hop, hfin⟩ := hfirst
  unfold decodePrefix
  simp only [hreserved, hop, hfin, hlen7, hmasked, hbits, ne_eq, not_true_eq_false, if_false,
    hopcode]

/-- The length is read back, in whichever form it was written. -/
theorem decodeLen_encode (hlen : len < 2 ^ 63) (hfits : len ≤ target.usizeMax) :
    decodeLen target (len7 len) (extended len) = (.ok len : Except (Error K) Nat) := by
  have hbound : ¬target.usizeMax < len := by omega
  unfold decodeLen wireLen extended
  by_cases hshort : len < 126
  · obtain ⟨hnat, h126, h127⟩ := len7_short hshort
    simp only [if_neg h126, if_neg h127, hnat]
    exact if_neg hbound
  · by_cases hmedium : len ≤ 65535
    · have hvalue : ofBeBytes (toBeBytes 2 len) = len := by
        rw [ofBeBytes_toBeBytes, Nat.mod_eq_of_lt (by omega)]
      simp only [len7_medium hshort hmedium, if_neg hshort, if_pos hmedium, if_true,
        length_toBeBytes, ne_eq, not_true_eq_false, if_false, hvalue]
      exact if_neg hbound
    · have hvalue : ofBeBytes (toBeBytes 8 len) = len := by
        rw [ofBeBytes_toBeBytes, Nat.mod_eq_of_lt (by omega)]
      have hhigh : len &&& 0x8000000000000000 = 0 := by
        rw [show 0x8000000000000000 = 2 ^ 63 from rfl, Nat.and_two_pow,
          Nat.testBit_lt_two_pow hlen, Bool.toNat_false, Nat.zero_mul]
      simp only [len7_long hmedium, if_neg hshort, if_neg hmedium,
        show (127 : UInt8) ≠ 126 by decide,
        if_true, if_false, length_toBeBytes, ne_eq, not_true_eq_false, hvalue, hhigh]
      exact if_neg hbound

theorem length_extended_le {short : UInt8} {bytes : List UInt8} (hseven : short.toNat < 128)
    (hbytes : bytes.length = extendedLenBytes short)
    (h : decodeLen target short bytes = (.ok len : Except (Error K) Nat)) :
    (extended len).length ≤ bytes.length := by
  unfold decodeLen at h
  obtain ⟨value, hvalue, h⟩ := bind_eq_ok.mp h
  have hlen : value = len := by
    by_cases hbound : target.usizeMax < value
    · rw [if_pos hbound] at h
      cases h
    · rw [if_neg hbound] at h
      exact Except.ok.inj h
  subst hlen
  unfold extendedLenBytes at hbytes
  unfold wireLen at hvalue
  by_cases h126 : short = 126
  · rw [if_pos h126] at hvalue hbytes
    rw [if_neg (by omega)] at hvalue
    have hlt := ofBeBytes_lt bytes
    rw [hbytes, Except.ok.inj hvalue] at hlt
    unfold extended
    split
    · exact Nat.zero_le _
    · rw [if_pos (by omega), length_toBeBytes, hbytes]
  · by_cases h127 : short = 127
    · rw [if_neg h126, if_pos h127] at hbytes
      rw [length_extended, hbytes, extendedLenBytes]
      split
      · omega
      · split <;> omega
    · -- the seven bits are the length
      rw [if_neg h126, if_neg h127] at hvalue
      have hvalue : short.toNat = value := Except.ok.inj hvalue
      have hne126 : short.toNat ≠ 126 := fun heq => h126 (UInt8.toNat_inj.mp heq)
      have hne127 : short.toNat ≠ 127 := fun heq => h127 (UInt8.toNat_inj.mp heq)
      rw [extended, if_pos (by omega)]
      exact Nat.zero_le _

end

end Microtun.Ws
