import Mathlib.Logic.Relation
import Microtun.Mdns.Discovery

/-! What `read_name` finds wherever the pointers of a name lead. -/

namespace Microtun.Mdns

/-! ### Names in a packet -/

/-- What a name has at an offset: its end, the bytes of a label, or a pointer to where it goes on.
-/
inductive Part where
  | root
  | label (bytes : List UInt8)
  | pointer (target : Nat)
deriving DecidableEq, Repr

/-- The part at an offset, where all of it is in the packet. -/
def partAt? (packet : Packet) (offset : Nat) : Option Part :=
  match packet.drop offset with
  | [] => none
  | byte :: rest =>
    if byte = 0 then some .root
    else if byte < 64 then if byte.toNat ≤ rest.length then some (.label (rest.take byte.toNat))
      else none
    else if 192 ≤ byte then rest.head?.map fun low =>
      .pointer ((byte.toNat - 192) * 256 + low.toNat)
    else none

/-- From an offset, labels and pointers lead to the end of a name: the number of pointers, the
labels, and the offset after the name where it stands. -/
inductive Spells (packet : Packet) : Nat → Nat → List (List UInt8) → Nat → Prop where
  | root {offset : Nat} (h : partAt? packet offset = some .root) : Spells packet offset 0 []
    (offset + 1)
  | label {offset pointers next : Nat} {bytes : List UInt8} {labels : List (List UInt8)}
      (h : partAt? packet offset = some (.label bytes))
      (hrest : Spells packet (offset + 1 + bytes.length) pointers labels next) :
      Spells packet offset pointers (bytes :: labels) next
  | pointer {offset target pointers next : Nat} {labels : List (List UInt8)}
      (h : partAt? packet offset = some (.pointer target))
        (hrest : Spells packet target pointers labels next) :
      Spells packet offset (pointers + 1) labels (offset + 2)

/-- A name goes on at another offset. -/
def Hop (packet : Packet) (offset offset' : Nat) : Prop :=
  (∃ bytes, partAt? packet offset = some (.label bytes) ∧ offset' = offset + 1 + bytes.length) ∨
    partAt? packet offset = some (.pointer offset')

def labelText (bytes : List UInt8) : Text := bytes.map fun byte => (Char.ofNat byte.toNat).toLower

/-- The labels in lower case, joined by dots. -/
def dotted (labels : List (List UInt8)) : Text := ['.'].intercalate (labels.map labelText)

section
variable {packet : Packet} {offset : Nat}

theorem Hop.unique {offset' offset'' : Nat} (h : Hop packet offset offset')
    (h' : Hop packet offset offset'') : offset' = offset'' := by
  rcases h with ⟨bytes, h, rfl⟩ | h <;> rcases h' with ⟨bytes', h', rfl⟩ | h' <;> rw [h] at h' <;>
    cases h' <;> rfl

theorem Spells.hop {offset' pointers next : Nat} {labels : List (List UInt8)}
    (h : Spells packet offset pointers labels next) (hhop : Hop packet offset offset') :
    ∃ pointers labels next, Spells packet offset' pointers labels next := by
  cases h with
  | root h => rcases hhop with ⟨_, h', -⟩ | h' <;> exact nomatch h.symm.trans h'
  | label h hrest => exact Hop.unique (.inl ⟨_, h, rfl⟩) hhop ▸ ⟨_, _, _, hrest⟩
  | pointer h hrest => exact Hop.unique (.inr h) hhop ▸ ⟨_, _, _, hrest⟩

/-- Where a name ends, it does not come back to its offset. -/
theorem Spells.acyclic {pointers next : Nat} {labels : List (List UInt8)}
    (h : Spells packet offset pointers labels next) :
      ¬Relation.TransGen (Hop packet) offset offset := by
  -- a name that comes back to an offset comes back to the one after it as well
  have hafter {offset offset' : Nat} (hhop : Hop packet offset offset')
      (hcycle : Relation.TransGen (Hop packet) offset offset) : Relation.TransGen
        (Hop packet) offset' offset' := by
    obtain ⟨first, hfirst, hback⟩ := Relation.TransGen.head'_iff.mp hcycle
    obtain rfl := Hop.unique hhop hfirst
    exact Relation.TransGen.tail' hback hhop
  induction h with
  | root h =>
    intro hcycle
    obtain ⟨_, hhop, -⟩ := Relation.TransGen.head'_iff.mp hcycle
    rcases hhop with ⟨_, h', -⟩ | h' <;> exact nomatch h.symm.trans h'
  | label h hrest ih => exact fun hcycle => ih (hafter (.inl ⟨_, h, rfl⟩) hcycle)
  | pointer h hrest ih => exact fun hcycle => ih (hafter (.inr h) hcycle)

theorem Spells.no_cycle {start pointers next : Nat} {labels : List (List UInt8)}
    (h : Spells packet start pointers labels next)
    (hreach : Relation.ReflTransGen (Hop packet) start offset) :
    ¬Relation.TransGen (Hop packet) offset offset := by
  induction hreach using Relation.ReflTransGen.head_induction_on generalizing pointers
    next labels with
  | refl => exact h.acyclic
  | head hhop _ ih =>
    obtain ⟨_, _, _, hrest⟩ := h.hop hhop
    exact ih hrest

end

/-! ### The reader -/

section
variable {N : Nat} {packet : Packet} {offset : Nat}

theorem pointer_byte {byte : UInt8} : byte &&& 0xc0 = 0xc0 ↔ 192 ≤ byte := by
  have hall : ∀ v : BitVec 8, UInt8.ofBitVec v &&& 0xc0 = 0xc0 ↔ 192 ≤ UInt8.ofBitVec v := by decide
  exact hall byte.toBitVec

theorem length_byte {byte : UInt8} : byte &&& 0xc0 = 0 ↔ byte < 64 := by
  have hall : ∀ v : BitVec 8, UInt8.ofBitVec v &&& 0xc0 = 0 ↔ UInt8.ofBitVec v < 64 := by decide
  exact hall byte.toBitVec

theorem pointer_eq {byte low : UInt8} (h : 192 ≤ byte) :
    ((byte &&& 0x3f).toNat <<< 8) ||| low.toNat = (byte.toNat - 192) * 256 + low.toNat := by
  have hall : ∀ v : BitVec 8, 192 ≤ UInt8.ofBitVec v →
      (UInt8.ofBitVec v &&& 0x3f).toNat = v.toNat - 192 := by
    decide
  have hlow : low.toNat < 2 ^ 8 := low.toNat_lt
  rw [← Nat.shiftLeft_add_eq_or_of_lt hlow, hall byte.toBitVec h, Nat.shiftLeft_eq]
  rfl

/-- A pass of the loop of `read_name`, by what is at its offset. -/
theorem readNameFrom_part (next : Option Nat) (jumps : Nat) (out : HString N) :
    readNameFrom packet offset next jumps out =
      match partAt? packet offset with
      | none => none
      | some .root => some (next.getD (offset + 1), out)
      | some (.label bytes) =>
        ((if out.text ≠ [] then out.push '.' else some out).bind (readLabel bytes)).bind
          (readNameFrom packet (offset + 1 + bytes.length) next jumps)
      | some (.pointer target) =>
        if jumps + 1 > 16 then none
        else readNameFrom packet target (next.or (some (offset + 2))) (jumps + 1) out := by
  unfold partAt?
  cases hdrop : packet.drop offset with
  | nil =>
    have hlen : ¬offset < packet.length := Nat.not_lt.mpr (List.drop_eq_nil_iff.mp hdrop)
    rw [readNameFrom, dif_neg hlen]
  | cons byte rest =>
    have hlen : offset < packet.length := by
      have hne : packet.drop offset ≠ [] := hdrop ▸ List.cons_ne_nil _ _
      exact Nat.lt_of_not_le fun hle => hne (List.drop_eq_nil_iff.mpr hle)
    obtain ⟨hbyte, hrest⟩ := List.cons.inj ((List.drop_eq_getElem_cons hlen).symm.trans hdrop)
    have hlow : packet[offset + 1]? = rest.head? := by
      rw [← hrest, List.head?_drop]
    rw [readNameFrom, dif_pos hlen]
    simp only [hbyte, pointer_byte, length_byte, ne_eq, hlow]
    by_cases hzero : byte = 0
    · subst hzero
      rw [if_neg (by decide), if_neg (by decide), if_pos rfl, if_pos rfl]
    by_cases hlabel : byte < 64
    · have hpointer : ¬192 ≤ byte := fun h => absurd (UInt8.lt_of_le_of_lt h hlabel) (by decide)
      rw [if_neg hpointer, if_neg (not_not.mpr hlabel), if_neg hzero, if_neg hzero, if_pos hlabel]
      have hroom : byte.toNat ≤ rest.length ↔ offset + 1 + byte.toNat ≤ packet.length := by
        rw [← hrest, List.length_drop]
        omega
      by_cases hfits : byte.toNat ≤ rest.length
      · have hslice : slice packet ⟨offset + 1, offset + 1 + byte.toNat⟩ =
            some (rest.take byte.toNat) := by
          rw [slice, if_pos ⟨Nat.le_add_right _ _, hroom.mp hfits⟩, ← hrest]
          simp only [Nat.add_sub_cancel_left]
        have hlength : (rest.take byte.toNat).length = byte.toNat := List.length_take_of_le hfits
        rw [if_pos hfits, hslice]
        simp only [hlength]
      · have hslice : slice packet ⟨offset + 1, offset + 1 + byte.toNat⟩ = none :=
          if_neg fun h => hfits (hroom.mpr h.2)
        rw [if_neg hfits, hslice]
    · by_cases hpointer : 192 ≤ byte
      · rw [if_pos hpointer, if_neg hzero, if_neg hlabel, if_pos hpointer]
        cases rest.head? with
        | none => rfl
        | some low =>
          simp only [Option.map_some, pointer_eq hpointer]
          split <;> rfl
      · rw [if_neg hpointer, if_pos hlabel, if_neg hzero, if_neg hlabel, if_neg hpointer]

/-! ### What it returns -/

theorem HString.pushStr_iff {s t : HString N} {text : Text} : s.pushStr text = some t ↔
    t.text = s.text ++ text := by
  obtain ⟨result, hresult⟩ := t
  unfold HString.pushStr
  constructor
  · intro h
    split at h
    · exact (congrArg HString.text (Option.some.inj h)).symm
    · cases h
  · rintro rfl
    exact dif_pos hresult

theorem readLabel_iff {bytes : List UInt8} {out t : HString N} : readLabel bytes out = some t ↔
      (∀ byte ∈ bytes, byte < 128) ∧ t.text = out.text ++ labelText bytes := by
  induction bytes generalizing out with
  | nil =>
    obtain ⟨text, hout⟩ := out
    obtain ⟨result, hresult⟩ := t
    simp [readLabel, labelText, eq_comm]
  | cons byte bytes ih =>
    rw [readLabel, List.forall_mem_cons]
    by_cases hbyte : byte < 128
    · rw [if_pos hbyte, Option.bind_eq_some_iff, and_iff_right hbyte]
      simp only [HString.push, HString.pushStr_iff, ih]
      constructor
      · rintro ⟨first, hfirst, hascii, hrest⟩
        rw [hrest, hfirst, List.append_assoc]
        exact ⟨hascii, rfl⟩
      · rintro ⟨hascii, hrest⟩
        have hsplit : t.text = out.text ++ [(Char.ofNat byte.toNat).toLower] ++
            labelText bytes := by
          rw [hrest, List.append_assoc]
          rfl
        have hfits := Nat.le_trans (length_encode_append _ _) (hsplit ▸ t.fits)
        exact ⟨⟨_, hfits⟩, rfl, hascii, hsplit⟩
    · rw [if_neg hbyte]
      exact iff_of_false (Option.some_ne_none t).symm fun h => absurd h.1.1 hbyte

/-- A label, after a dot if there was one before it. -/
theorem readDotted_iff {bytes : List UInt8} {out t : HString N} :
    (if out.text ≠ [] then out.push '.' else some out).bind (readLabel bytes) = some t ↔
      (∀ byte ∈ bytes, byte < 128) ∧
        t.text = (if out.text ≠ [] then out.text ++ ['.'] else out.text) ++ labelText bytes := by
  by_cases hout : out.text ≠ []
  · rw [if_pos hout, if_pos hout, Option.bind_eq_some_iff]
    simp only [HString.push, HString.pushStr_iff, readLabel_iff]
    constructor
    · rintro ⟨first, hfirst, hascii, hrest⟩
      exact ⟨hascii, hfirst ▸ hrest⟩
    · rintro ⟨hascii, hrest⟩
      have hfits := Nat.le_trans (length_encode_append _ _) (hrest ▸ t.fits)
      exact ⟨⟨_, hfits⟩, rfl, hascii, hrest⟩
  · rw [if_neg hout, if_neg hout, Option.bind_some, readLabel_iff]

theorem spells_none (h : partAt? packet offset = none) {pointers stop : Nat}
    {labels : List (List UInt8)} : ¬Spells packet offset pointers labels stop := by
  intro hspells
  cases hspells with
  | root h' | label h' _ | pointer h' _ => exact nomatch h.symm.trans h'

theorem spells_root (h : partAt? packet offset = some .root) {pointers stop : Nat}
    {labels : List (List UInt8)} :
    Spells packet offset pointers labels stop ↔ pointers = 0 ∧ labels = [] ∧ stop = offset + 1 := by
  constructor
  · intro hspells
    cases hspells with
    | root _ => exact ⟨rfl, rfl, rfl⟩
    | label h' _ | pointer h' _ => exact nomatch h.symm.trans h'
  · rintro ⟨rfl, rfl, rfl⟩
    exact .root h

theorem spells_label {bytes : List UInt8} (h : partAt? packet offset = some (.label bytes))
    {pointers stop : Nat} {labels : List (List UInt8)} : Spells packet offset pointers labels stop ↔
      ∃ rest, labels = bytes :: rest ∧
        Spells packet (offset + 1 + bytes.length) pointers rest stop := by
  constructor
  · intro hspells
    cases hspells with
    | label h' hrest =>
      obtain rfl := Part.label.inj (Option.some.inj (h.symm.trans h'))
      exact ⟨_, rfl, hrest⟩
    | root h' | pointer h' _ => exact nomatch h.symm.trans h'
  · rintro ⟨rest, rfl, hrest⟩
    exact .label h hrest

theorem spells_pointer {target : Nat} (h : partAt? packet offset = some (.pointer target))
    {pointers stop : Nat} {labels : List (List UInt8)} : Spells packet offset pointers labels stop ↔
      ∃ more next, pointers = more + 1 ∧ stop = offset + 2 ∧
        Spells packet target more labels next := by
  constructor
  · intro hspells
    cases hspells with
    | pointer h' hrest =>
      obtain rfl := Part.pointer.inj (Option.some.inj (h.symm.trans h'))
      exact ⟨_, _, rfl, rfl, hrest⟩
    | root h' | label h' _ => exact nomatch h.symm.trans h'
  · rintro ⟨more, next, rfl, rfl, hrest⟩
    exact .pointer h hrest

/-- A bound on the passes of the loop that are left. -/
def passesLeft (packet : Packet) (offset jumps : Nat) : Nat :=
  (17 - jumps) * (packet.length + 1) + (packet.length - offset)

theorem passesLeft_label {bytes : List UInt8} (h : partAt? packet offset = some (.label bytes))
    (jumps : Nat) :
    passesLeft packet (offset + 1 + bytes.length) jumps < passesLeft packet offset jumps := by
  have hlen : offset < packet.length := by
    refine Nat.lt_of_not_le fun hle => ?_
    rw [partAt?, List.drop_eq_nil_iff.mpr hle] at h
    exact nomatch h
  unfold passesLeft
  omega

theorem passesLeft_pointer (target : Nat) {jumps : Nat} (h : ¬jumps + 1 > 16) :
    passesLeft packet target (jumps + 1) < passesLeft packet offset jumps := by
  have hjumps : 17 - jumps = 17 - (jumps + 1) + 1 := by omega
  unfold passesLeft
  rw [hjumps, Nat.succ_mul]
  omega

variable (packet) in
theorem pass_induct {motive : Nat → Nat → Prop} (h : ∀ offset jumps,
      (∀ bytes, partAt? packet offset = some (.label bytes) →
        motive (offset + 1 + bytes.length) jumps) →
      (∀ target, partAt? packet offset = some (.pointer target) → ¬jumps + 1 > 16 →
        motive target (jumps + 1)) → motive offset jumps)
    (offset jumps : Nat) : motive offset jumps := by
  induction hleft : passesLeft packet offset jumps using Nat.strongRecOn generalizing offset
    jumps with
  | ind left ih =>
    subst hleft
    refine h offset jumps (fun bytes hbytes => ?_) fun target _ hjumps => ?_
    · exact ih _ (passesLeft_label hbytes jumps) _ _ rfl
    · exact ih _ (passesLeft_pointer target hjumps) _ _ rfl

theorem readNameFrom_iff (offset jumps : Nat) (hjumps : jumps ≤ 16) (next : Option Nat)
    (out : HString N) (stop : Nat) (t : HString N) : readNameFrom packet offset next jumps out =
    some (stop, t) ↔
      ∃ pointers labels after, Spells packet offset pointers labels after ∧ jumps + pointers ≤ 16 ∧
        (∀ bytes ∈ labels, ∀ byte ∈ bytes, byte < 128) ∧ stop = next.getD after ∧
        t.text = joined out.text (labels.map labelText) := by
  induction offset, jumps using pass_induct packet generalizing next out with
  | h offset jumps ihlabel ihpointer =>
    rw [readNameFrom_part]
    cases hpart : partAt? packet offset with
    | none => exact ⟨nofun, fun ⟨_, _, _, hspells, _⟩ => absurd hspells (spells_none hpart)⟩
    | some part =>
      cases part with
      | root =>
        simp only [spells_root hpart]
        constructor
        · intro h
          obtain ⟨rfl, rfl⟩ := Prod.mk.inj (Option.some.inj h)
          exact ⟨_, _, _, ⟨rfl, rfl, rfl⟩, hjumps, List.forall_mem_nil _, rfl, rfl⟩
        · rintro ⟨_, _, _, ⟨rfl, rfl, rfl⟩, -, -, rfl, htext⟩
          obtain ⟨text, _⟩ := out
          obtain ⟨result, _⟩ := t
          obtain rfl : result = text := htext
          rfl
      | label bytes =>
        simp only [spells_label hpart]
        rw [Option.bind_eq_some_iff]
        simp only [readDotted_iff]
        constructor
        · rintro ⟨first, ⟨hascii, hfirst⟩, hrest⟩
          obtain ⟨pointers, labels, after, hspells, hle, hall, hstop, htext⟩ :=
            (ihlabel bytes hpart hjumps _ _).mp hrest
          exact ⟨pointers, _, after, ⟨labels, rfl, hspells⟩, hle,
            List.forall_mem_cons.mpr ⟨hascii, hall⟩, hstop,
            htext.trans (congrArg (joined · _) hfirst)⟩
        · rintro ⟨pointers, _, after, ⟨labels, rfl, hspells⟩, hle, hall, hstop, htext⟩
          obtain ⟨hascii, hall⟩ := List.forall_mem_cons.mp hall
          obtain ⟨more, hmore⟩ := joined_append
            ((if out.text ≠ [] then out.text ++ ['.'] else out.text) ++ labelText bytes)
              (labels.map labelText)
          have hfits := Nat.le_trans (length_encode_append _ more) (hmore ▸ htext ▸ t.fits)
          exact ⟨⟨_, hfits⟩, ⟨hascii, rfl⟩,
            (ihlabel bytes hpart hjumps _ _).mpr
              ⟨pointers, labels, after, hspells, hle, hall, hstop, htext⟩⟩
      | pointer target =>
        simp only [spells_pointer hpart]
        by_cases hlimit : jumps + 1 > 16
        · rw [if_pos hlimit]
          refine ⟨nofun, ?_⟩
          rintro ⟨_, _, _, ⟨more, _, rfl, -⟩, hle, -⟩
          omega
        · rw [if_neg hlimit, ihpointer target hpart hlimit (by omega)]
          have hnext (after : Nat) : (next.or (some (offset + 2))).getD after =
              next.getD (offset + 2) := by
            cases next <;> rfl
          constructor
          · rintro ⟨pointers, labels, after, hspells, hle, hall, hstop, htext⟩
            exact ⟨_, labels, _,
              ⟨pointers, after, rfl, rfl,
              hspells⟩, by omega, hall, hstop.trans (hnext after), htext⟩
          · rintro ⟨_, labels, _, ⟨pointers, after, rfl, rfl, hspells⟩, hle, hall, hstop, htext⟩
            exact ⟨pointers, labels, after,
              hspells, by omega, hall, hstop.trans (hnext after).symm, htext⟩

theorem partAt?_label {bytes : List UInt8} (h : partAt? packet offset = some (.label bytes)) :
    bytes ≠ [] := by
  unfold partAt? at h
  split at h
  · exact nomatch h
  · next byte rest _ =>
    split at h
    · exact nomatch h
    next hzero =>
      split at h
      · split at h
        · next hfits =>
          obtain rfl := Part.label.inj (Option.some.inj h)
          intro hnil
          have hlength := congrArg List.length hnil
          rw [List.length_take_of_le hfits] at hlength
          exact hzero (UInt8.toNat_inj.mp hlength)
        · exact nomatch h
      · split at h
        · obtain ⟨_, _, h⟩ := Option.map_eq_some_iff.mp h
          exact nomatch h
        · exact nomatch h

theorem Spells.labels_ne {pointers stop : Nat} {labels : List (List UInt8)}
    (h : Spells packet offset pointers labels stop) : ∀ bytes ∈ labels, bytes ≠ [] := by
  induction h with
  | root _ => exact List.forall_mem_nil _
  | label h _ ih => exact List.forall_mem_cons.mpr ⟨partAt?_label h, ih⟩
  | pointer _ _ ih => exact ih

theorem Spells.joined {pointers stop : Nat} {labels : List (List UInt8)}
    (h : Spells packet offset pointers labels stop) : joined [] (labels.map labelText) =
      dotted labels := by
  refine joined_nil fun label hmem => ?_
  obtain ⟨bytes, hbytes, rfl⟩ := List.mem_map.mp hmem
  exact fun hnil => h.labels_ne bytes hbytes (List.map_eq_nil_iff.mp hnil)

theorem readName_iff {start stop : Nat} {t : HString N} : readName packet start = some (stop, t) ↔
    ∃ pointers labels, Spells packet start pointers labels stop ∧ pointers ≤ 16 ∧
      (∀ bytes ∈ labels, ∀ byte ∈ bytes, byte < 128) ∧ t.text = dotted labels := by
  rw [readName, readNameFrom_iff start 0 (Nat.zero_le _)]
  simp only [Nat.zero_add, Option.getD_none]
  constructor
  · rintro ⟨pointers, labels, _, hspells, hle, hall, rfl, htext⟩
    exact ⟨pointers, labels, hspells, hle, hall, htext.trans hspells.joined⟩
  · rintro ⟨pointers, labels, hspells, hle, hall, htext⟩
    exact ⟨pointers, labels, stop, hspells, hle, hall, rfl, htext.trans hspells.joined.symm⟩

/-! ### Its loop ends -/

/-- The variables of the loop of `read_name`. -/
structure Reader (N : Nat) where
  offset : Nat
  next : Option Nat
  jumps : Nat
  out : HString N

/-- A pass of the loop: what `read_name` returns, or the variables after it. -/
def Reader.pass (packet : Packet) (r : Reader N) : Except (Option (Nat × HString N)) (Reader N) :=
  match packet[r.offset]? with
  | none => .error none
  | some len =>
    if len &&& 0xc0 = 0xc0 then
      match packet[r.offset + 1]? with
      | none => .error none
      | some second =>
        if r.jumps + 1 > 16 then .error none
        else .ok { r with
          offset := ((len &&& 0x3f).toNat <<< 8) ||| second.toNat
          next := r.next.or (some (r.offset + 2))
          jumps := r.jumps + 1 }
    else if len &&& 0xc0 ≠ 0 then .error none
    else if len = 0 then .error (some (r.next.getD (r.offset + 1), r.out))
    else
      match slice packet ⟨r.offset + 1, r.offset + 1 + len.toNat⟩ with
      | none => .error none
      | some label =>
        match (if r.out.text ≠ [] then r.out.push '.' else some r.out).bind (readLabel label) with
        | none => .error none
        | some out => .ok { r with offset := r.offset + 1 + len.toNat, out }

/-- What some passes of the loop return, if it does not need more of them. -/
def Reader.run (packet : Packet) : Nat → Reader N → Option (Option (Nat × HString N))
  | 0, _ => none
  | passes + 1, r =>
    match r.pass packet with
    | .error result => some result
    | .ok r => run packet passes r

/-- What `read_name` returns from some variables on. -/
def Reader.result (packet : Packet) (r : Reader N) : Option (Nat × HString N) :=
  readNameFrom packet r.offset r.next r.jumps r.out

theorem Reader.pass_error {r : Reader N} {result : Option (Nat × HString N)}
    (h : r.pass packet = .error result) : r.result packet = result := by
  unfold Reader.pass at h
  unfold Reader.result
  rw [readNameFrom]
  by_cases hlen : r.offset < packet.length
  · rw [List.getElem?_eq_getElem hlen] at h
    rw [dif_pos hlen]
    simp only at h ⊢
    generalize packet[r.offset] = len at h
    by_cases hpointer : len &&& 0xc0 = 0xc0
    · rw [if_pos hpointer] at h ⊢
      cases hsecond : packet[r.offset + 1]? with
      | none =>
        rw [hsecond] at h
        exact Except.error.inj h
      | some second =>
        rw [hsecond] at h
        by_cases hjumps : r.jumps + 1 > 16
        · exact (dif_pos hjumps).trans (Except.error.inj ((if_pos hjumps).symm.trans h))
        · cases (if_neg hjumps).symm.trans h
    · rw [if_neg hpointer] at h ⊢
      by_cases hreserved : len &&& 0xc0 ≠ 0
      · rw [if_pos hreserved] at h ⊢
        exact Except.error.inj h
      · rw [if_neg hreserved] at h ⊢
        by_cases hzero : len = 0
        · rw [if_pos hzero] at h ⊢
          exact Except.error.inj h
        · rw [if_neg hzero] at h ⊢
          cases hslice : slice packet ⟨r.offset + 1, r.offset + 1 + len.toNat⟩ with
          | none =>
            rw [hslice] at h
            exact Except.error.inj h
          | some label =>
            rw [hslice] at h
            simp only at h ⊢
            cases hread : (if r.out.text ≠ [] then r.out.push '.' else some r.out).bind
              (readLabel label) with
            | none =>
              rw [hread] at h
              exact Except.error.inj h
            | some out =>
              rw [hread] at h
              cases h
  · rw [List.getElem?_eq_none (Nat.not_lt.mp hlen)] at h
    exact (dif_neg hlen).trans (Except.error.inj h)

theorem Reader.pass_ok {r r' : Reader N} (h : r.pass packet = .ok r') :
    r.result packet = r'.result packet ∧ passesLeft packet r'.offset r'.jumps <
      passesLeft packet r.offset r.jumps := by
  unfold Reader.pass at h
  unfold Reader.result
  rw [readNameFrom]
  by_cases hlen : r.offset < packet.length
  · rw [List.getElem?_eq_getElem hlen] at h
    rw [dif_pos hlen]
    simp only at h ⊢
    generalize packet[r.offset] = len at h
    by_cases hpointer : len &&& 0xc0 = 0xc0
    · rw [if_pos hpointer] at h ⊢
      cases hsecond : packet[r.offset + 1]? with
      | none =>
        rw [hsecond] at h
        cases h
      | some second =>
        rw [hsecond] at h
        by_cases hjumps : r.jumps + 1 > 16
        · cases (if_pos hjumps).symm.trans h
        · obtain rfl := Except.ok.inj ((if_neg hjumps).symm.trans h)
          exact ⟨dif_neg hjumps, passesLeft_pointer _ hjumps⟩
    · rw [if_neg hpointer] at h ⊢
      by_cases hreserved : len &&& 0xc0 ≠ 0
      · rw [if_pos hreserved] at h
        cases h
      · rw [if_neg hreserved] at h ⊢
        by_cases hzero : len = 0
        · rw [if_pos hzero] at h
          cases h
        · rw [if_neg hzero] at h ⊢
          cases hslice : slice packet ⟨r.offset + 1, r.offset + 1 + len.toNat⟩ with
          | none =>
            rw [hslice] at h
            cases h
          | some label =>
            rw [hslice] at h
            simp only at h ⊢
            cases hread : (if r.out.text ≠ [] then r.out.push '.' else some r.out).bind
              (readLabel label) with
            | none =>
              rw [hread] at h
              cases h
            | some out =>
              rw [hread] at h
              obtain rfl := Except.ok.inj h
              refine ⟨rfl, ?_⟩
              unfold passesLeft
              simp only
              omega
  · rw [List.getElem?_eq_none (Nat.not_lt.mp hlen)] at h
    cases h

theorem Reader.run_eq {passes : Nat} {r : Reader N}
    (h : passesLeft packet r.offset r.jumps < passes) :
    r.run packet passes = some (r.result packet) := by
  induction passes generalizing r with
  | zero => exact absurd h (Nat.not_lt_zero _)
  | succ passes ih =>
    unfold Reader.run
    cases hpass : r.pass packet with
    | error result => exact congrArg some (Reader.pass_error hpass).symm
    | ok r' =>
      obtain ⟨hresult, hless⟩ := Reader.pass_ok hpass
      rw [hresult]
      exact ih (by omega)

/-! ### What was written -/

theorem put_some {offset next : Nat} {bytes : List UInt8} {packet packet' : Packet}
    (h : put offset bytes packet = some (next, packet')) :
    next = offset + bytes.length ∧ next ≤ packet.length ∧ packet'.length = packet.length := by
  unfold put at h
  split at h
  · next hroom =>
    obtain ⟨rfl, rfl⟩ := Prod.mk.inj (Option.some.inj h)
    refine ⟨rfl, hroom, ?_⟩
    rw [setField, List.length_append, List.length_append, List.length_take, List.length_drop]
    simp only
    omega
  · cases h

theorem writeLabels_some {labels : List Text} {offset next : Nat} {packet packet' : Packet}
    (h : writeLabels labels offset packet = some (next, packet')) :
    next = offset + (labels.flatMap labelBytes).length ∧ packet'.length = packet.length := by
  induction labels generalizing offset packet with
  | nil =>
    obtain ⟨rfl, rfl⟩ := Prod.mk.inj (Option.some.inj h)
    exact ⟨rfl, rfl⟩
  | cons label labels ih =>
    have hrun : (if _ then _ else _ : Writer Nat) packet = some (next, packet') := h
    split at hrun
    · exact nomatch hrun
    · rw [bind_run] at hrun
      obtain ⟨⟨offset', packet1⟩, hput, hrest⟩ := Option.bind_eq_some_iff.mp hrun
      obtain ⟨rfl, -, hlength⟩ := put_some hput
      obtain ⟨hnext, hlength'⟩ := ih hrest
      rw [List.flatMap_cons, List.length_append, ← Nat.add_assoc]
      exact ⟨hnext, hlength'.trans hlength⟩

theorem writeName_some {name : Text} {offset next : Nat} {packet packet' : Packet}
    (h : writeName offset name packet = some (next, packet')) :
    Writable name ∧ offset + (nameBytes name).length ≤ packet.length := by
  have hrun := h
  rw [writeName, bind_run] at hrun
  obtain ⟨⟨offset', packet1⟩, hlabels, hend⟩ := Option.bind_eq_some_iff.mp hrun
  obtain ⟨rfl, hlength⟩ := writeLabels_some hlabels
  obtain ⟨rfl, hroom, -⟩ := put_some hend
  refine ⟨fun label hmem => ?_, ?_⟩
  · exact Classical.byContradiction fun hbad =>
      nomatch (writeName_none hmem hbad offset packet).symm.trans h
  · rw [nameBytes, List.length_append, ← Nat.add_assoc]
    exact hlength ▸ hroom

theorem readName_written {name : Text} {offset next : Nat} {packet packet' : Packet}
    (h : writeName offset name packet = some (next, packet')) (hascii : Ascii name)
    (hfits : (Utf8.encode name).length ≤ N) :
    ∃ t : HString N, readName packet' offset = some (next, t) ∧ t.text = lower name := by
  obtain ⟨hwritable, hroom⟩ := writeName_some h
  have hlength : (packet.take offset).length = offset := List.length_take_of_le (by omega)
  have hwrite := writes_name hwritable (packet.take offset) (packet.drop offset)
    (by rw [List.length_drop]; omega)
  rw [hlength, List.take_append_drop] at hwrite
  obtain ⟨rfl, rfl⟩ := Prod.mk.inj (Option.some.inj (h.symm.trans hwrite))
  have hread := readName_ascii (packet.take offset)
    ((packet.drop offset).drop (nameBytes name).length) hwritable hascii
    (hascii.length_lower ▸ hfits)
  rw [hlength] at hread
  exact ⟨_, (List.append_assoc _ _ _).symm ▸ hread, rfl⟩

/-- The reader of names: it returns, after a number of passes that the packet bounds; it returns
what labels and at most sixteen pointers spell, and nothing else; it rejects every cycle; and it
reads back what `write_name` wrote. -/
theorem readName_spelled (packet : Packet) (start : Nat) : (∃ passes ≤ 18 * (packet.length + 1),
      (⟨start, none, 0, .new⟩ : Reader N).run packet passes = some (readName packet start)) ∧
    (∀ (next : Nat) (t : HString N), readName packet start = some (next, t) ↔
      ∃ pointers labels, Spells packet start pointers labels next ∧ pointers ≤ 16 ∧
        (∀ bytes ∈ labels, ∀ byte ∈ bytes, byte < 128) ∧ t.text = dotted labels) ∧
    (∀ offset, Relation.ReflTransGen (Hop packet) start offset →
      Relation.TransGen (Hop packet) offset offset →
      readName packet start = (none : Option (Nat × HString N))) ∧
    (∀ (name : Text) (next : Nat) (packet' : Packet), writeName start name packet =
      some (next, packet') → Ascii name → (Utf8.encode name).length ≤ N →
      ∃ t : HString N, readName packet' start = some (next, t) ∧ t.text = lower name) := by
  refine ⟨⟨18 * (packet.length + 1), Nat.le_refl _, Reader.run_eq ?_⟩, fun _ _ => readName_iff,
    fun offset hreach hcycle => ?_, fun _ _ _ => readName_written⟩
  · unfold passesLeft
    simp only
    omega
  · cases hread : readName packet start with
    | none => rfl
    | some r =>
      obtain ⟨_, _, hspells, -⟩ := readName_iff.mp hread
      exact absurd hcycle (hspells.no_cycle hreach)

/-- A name of a label and a pointer back to another one. -/
theorem readName_spelled_pointer : ∃ t : HString 8, readName [1, 98, 0, 1, 65, 192, 0] 3 =
    some (7, t) ∧ t.text = ['a', '.', 'b'] := by
  have hspells : Spells [1, 98, 0, 1, 65, 192, 0] 3 1 [[65], [98]] 7 :=
    .label (by decide) (.pointer (show partAt? _ 5 = some (.pointer 0) by decide)
      (.label (by decide) (.root (by decide))))
  have hread := (readName_spelled [1, 98, 0, 1, 65, 192, 0] 3).2.1 7
    (⟨['a', '.', 'b'], by decide⟩ : HString 8)
  exact ⟨_, hread.mpr ⟨1, _, hspells, by decide, by decide +kernel, by decide⟩, rfl⟩

end

end Microtun.Mdns
