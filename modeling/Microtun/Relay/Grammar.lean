import Microtun.Relay
import Mathlib.Data.Nat.Basic

/-! The grammar of relay plaintexts, and that `parse` reads exactly that. -/

namespace Microtun.Relay

variable {plaintext inner : List UInt8} {destination : Key} {e : Envelope}

/-- The plaintext is the destination, the little-endian length of the inner datagram, the inner
datagram, and the fewest zeros that make it a multiple of sixteen long. -/
def Spells (plaintext : List UInt8) (e : Envelope) : Prop :=
  ∃ len zeros : List UInt8, plaintext = e.destination.toList ++ len ++ e.inner ++ zeros ∧
    len.length = 4 ∧ ofLeBytes len = e.inner.length ∧ (∀ b ∈ zeros, b = 0) ∧
    16 ∣ plaintext.length ∧
    ∀ k, 16 ∣ (e.destination.toList ++ len ++ e.inner).length + k → zeros.length ≤ k

/-- The inner datagram is an initiation, a response, a cookie reply, or data of a multiple of
sixteen bytes. -/
def Standard (inner : List UInt8) : Prop :=
  classify inner = some .initiation ∨ classify inner = some .response ∨
    classify inner = some .cookieReply ∨ (classify inner = some .data ∧ 16 ∣ inner.length)

theorem innerPlausible_iff : innerPlausible inner = true ↔ Standard inner := by
  unfold innerPlausible Standard
  cases classify inner with
  | none => simp
  | some kind =>
    cases kind with
    | data => simp [Nat.dvd_iff_mod_eq_zero]
    | _ => simp

theorem padded_sub (n : Nat) : 16 ∣ padded n ∧ ∀ k, 16 ∣ n + k → padded n - n ≤ k := by
  simp only [padded, floor16]
  constructor
  · exact Nat.dvd_mul_left 16 _
  · intro k hk
    omega

theorem spells_of_parse (h : parse plaintext = some e) : Spells plaintext e ∧ Standard e.inner := by
  unfold parse at h
  have h36 : envelopeHeaderLen = 36 := rfl
  split at h
  · cases h
  rename_i hlen
  dsimp only at h
  split at h
  · cases h
  rename_i htotal
  split at h
  · cases h
  rename_i hrest
  rw [not_not] at htotal
  rw [not_or] at hrest
  obtain ⟨hzeros, hplausible⟩ := hrest
  obtain rfl := Option.some.inj h
  generalize hn : ofLeBytes (field plaintext ⟨32, 36⟩) = n at *
  have hpad := le_padded (envelopeHeaderLen + n)
  have hkey : (Bytes.ofList 32 (plaintext.take 32)).toList = plaintext.take 32 :=
    Bytes.toList_ofList (by rw [List.length_take]; omega)
  have hword : field plaintext ⟨32, 36⟩ = (plaintext.drop 32).take 4 := rfl
  have hfield : (field plaintext ⟨32, 36⟩).length = 4 := by
    rw [hword, List.length_take, List.length_drop]
    omega
  have hinner : ((plaintext.drop envelopeHeaderLen).take n).length = n := by
    rw [List.length_take, List.length_drop]
    omega
  have hparts : plaintext = plaintext.take 32 ++ field plaintext ⟨32, 36⟩ ++
      (plaintext.drop envelopeHeaderLen).take n ++ (plaintext.drop envelopeHeaderLen).drop n := by
    rw [List.append_assoc, List.take_append_drop, hword, List.append_assoc]
    have hdrop : plaintext.drop envelopeHeaderLen = (plaintext.drop 32).drop 4 := by
      rw [List.drop_drop]
      rfl
    rw [hdrop, List.take_append_drop, List.take_append_drop]
  obtain ⟨hdvd, hfewest⟩ := padded_sub (envelopeHeaderLen + n)
  refine ⟨⟨field plaintext ⟨32, 36⟩, (plaintext.drop envelopeHeaderLen).drop n, ?_, hfield, ?_, ?_,
    ?_, ?_⟩, ?_⟩
  · rw [hkey]
    exact hparts
  · rw [hn, hinner]
  · intro b hb
    by_contra hne
    exact hzeros (List.any_eq_true.mpr ⟨b, hb, by simpa using hne⟩)
  · rw [htotal]
    exact hdvd
  · intro k hk
    rw [hkey, List.length_append, List.length_append, hfield, hinner, List.length_take] at hk
    rw [List.length_drop, List.length_drop, htotal]
    have hcount : min 32 plaintext.length + 4 + n + k = envelopeHeaderLen + n + k := by omega
    have hle := hfewest k (hcount ▸ hk)
    omega
  · apply innerPlausible_iff.mp
    simpa using hplausible

theorem parse_of_spells (h : Spells plaintext e) (hstandard : Standard e.inner) :
    parse plaintext = some e := by
  obtain ⟨len, zeros, hparts, hlen, hvalue, hzeros, hdvd, hfewest⟩ := h
  have h36 : envelopeHeaderLen = 36 := rfl
  have hkey : e.destination.toList.length = 32 := Vector.length_toList
  have hheader : (e.destination.toList ++ len).length = 36 := by
    rw [List.length_append, hkey, hlen]
  have htotal : plaintext.length = padded (envelopeHeaderLen + e.inner.length) := by
    obtain ⟨hdvd', -⟩ := padded_sub (envelopeHeaderLen + e.inner.length)
    have hpad := le_padded (envelopeHeaderLen + e.inner.length)
    have hlength := congrArg List.length hparts
    rw [List.length_append, List.length_append, hheader] at hlength
    have hle := hfewest (padded (envelopeHeaderLen + e.inner.length) -
      (envelopeHeaderLen + e.inner.length)) (by
        rw [List.length_append, hheader, ← h36, Nat.add_sub_cancel' hpad]
        exact hdvd')
    simp only [padded, floor16, h36] at *
    omega
  have hfield : field plaintext ⟨32, 36⟩ = len := by
    rw [field, hparts, List.append_assoc, List.append_assoc, List.drop_left' hkey]
    exact List.take_left' hlen
  have hdrop : plaintext.drop envelopeHeaderLen = e.inner ++ zeros := by
    rw [hparts, List.append_assoc]
    exact List.drop_left' hheader
  have htake : plaintext.take 32 = e.destination.toList := by
    rw [hparts, List.append_assoc, List.append_assoc, List.take_left' hkey]
  have hany : zeros.any (· ≠ 0) = false := by
    rw [List.any_eq_false]
    intro b hb
    simp [hzeros b hb]
  have hpad := le_padded (envelopeHeaderLen + e.inner.length)
  unfold parse
  simp only [hfield, hvalue, hdrop, htake, List.drop_left, List.take_left, hany,
    innerPlausible_iff.mpr hstandard]
  rw [if_neg (by omega), if_neg (by omega), if_neg (by simp), Bytes.ofList_toList]

/-- A plaintext is read as an envelope if and only if it spells it. -/
theorem parse_iff : parse plaintext = some e ↔ Spells plaintext e ∧ Standard e.inner :=
  ⟨spells_of_parse, fun h => parse_of_spells h.1 h.2⟩

/-- A payload with the zeros that fill its last block. -/
def fill (payload : List UInt8) : List UInt8 :=
  payload ++ List.replicate (padded payload.length - payload.length) 0

theorem length_fill (payload : List UInt8) : (fill payload).length = padded payload.length := by
  rw [fill, List.length_append, List.length_replicate]
  exact Nat.add_sub_of_le (le_padded _)

/-- An envelope is read back from its padded form. -/
theorem parse_writeHeader {header : List UInt8}
    (hheader : writeHeader destination inner.length = some header)
    (hlikely : innerPlausible inner = true) : parse (header ++ inner ++ List.replicate
      (padded (header ++ inner).length - (header ++ inner).length) 0) =
        some ⟨destination, inner⟩ := by
  apply parse_of_spells _ (innerPlausible_iff.mp hlikely)
  unfold writeHeader at hheader
  split at hheader
  · rename_i hsmall
    obtain rfl := Option.some.inj hheader
    obtain ⟨hdvd, hfewest⟩ :=
      padded_sub (destination.toList ++ toLeBytes 4 inner.length ++ inner).length
    refine ⟨toLeBytes 4 inner.length, _, rfl, length_toLeBytes 4 _, ?_, ?_, ?_, ?_⟩
    · rw [ofLeBytes_toLeBytes]
      exact Nat.mod_eq_of_lt hsmall
    · exact fun b hb => List.eq_of_mem_replicate hb
    · change 16 ∣ (fill (destination.toList ++ toLeBytes 4 inner.length ++ inner)).length
      rw [length_fill]
      exact hdvd
    · intro k hk
      rw [List.length_replicate]
      exact hfewest k hk
  · cases hheader

end Microtun.Relay
