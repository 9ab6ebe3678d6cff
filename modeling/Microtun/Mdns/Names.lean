import Microtun.Mdns.Packets

/-! What the writers write, and that the readers read it back. -/

namespace Microtun.Mdns

/-! ### Writing where there is room -/

/-- A writer at the end of a front writes the bytes after it wherever they fit. -/
def Writes (write : Nat → Writer Nat) (bytes : List UInt8) : Prop :=
  ∀ front rest : List UInt8, bytes.length ≤ rest.length →
    write front.length (front ++ rest) =
      some (front.length + bytes.length, front ++ bytes ++ rest.drop bytes.length)

theorem writes_put (bytes : List UInt8) : Writes (put · bytes) bytes := by
  intro front rest h
  have hfits : front.length + bytes.length ≤ (front ++ rest).length := by
    rw [List.length_append]
    omega
  show (if _ then _ else _) = _
  rw [if_pos hfits]
  simp [setField, List.drop_append]

theorem Writes.nil : Writes (fun offset => pure offset) [] := by
  intro front rest _
  simp
  rfl

theorem bind_run {α β : Type} (write : Writer α) (next : α → Writer β) (packet : Packet) :
    (write >>= next) packet = (write packet).bind fun r => next r.1 r.2 := rfl

theorem Writes.bind {write write' : Nat → Writer Nat} {a b : List UInt8} (h : Writes write a)
    (h' : Writes write' b) : Writes (fun offset => write offset >>= write') (a ++ b) := by
  intro front rest hroom
  rw [List.length_append] at hroom
  have hfirst := h front rest (by omega)
  have hsecond := h' (front ++ a) (rest.drop a.length) (by rw [List.length_drop]; omega)
  show (write front.length >>= write') (front ++ rest) = _
  rw [bind_run, hfirst, Option.bind_some]
  simp only
  rw [← List.length_append, hsecond]
  simp [List.append_assoc, List.length_append, Nat.add_assoc]

theorem Writes.rdata {rdata : Nat → Writer Nat} {bytes : List UInt8} (h : Writes rdata bytes)
    (hlen : bytes.length < 2 ^ 16) :
    Writes (writeRdata · rdata) (toBeBytes 2 bytes.length ++ bytes) := by
  intro front rest hroom
  rw [List.length_append, length_toBeBytes] at hroom
  have hzero : put front.length (toBeBytes 2 0) (front ++ rest) =
      some (front.length + 2, front ++ toBeBytes 2 0 ++ rest.drop 2) :=
    writes_put (toBeBytes 2 0) front rest (by rw [length_toBeBytes]; omega)
  have hdata := h (front ++ toBeBytes 2 0) (rest.drop 2) (by rw [List.length_drop]; omega)
  rw [List.length_append, length_toBeBytes] at hdata
  have hpatch : put front.length (toBeBytes 2 bytes.length)
      (front ++ toBeBytes 2 0 ++ bytes ++ (rest.drop 2).drop bytes.length) =
      some (front.length + 2, front ++ toBeBytes 2 bytes.length ++ bytes ++
        (rest.drop 2).drop bytes.length) := by
    show (if _ then _ else _) = _
    rw [if_pos (by simp)]
    simp [setField, List.drop_append, List.append_assoc]
  have hnat : (UInt16.ofNat bytes.length).toNat = bytes.length := UInt16.toNat_ofNat_of_lt' hlen
  show (writeU16At front.length 0 >>= _) (front ++ rest) = _
  rw [bind_run, writeU16At, UInt16.toNat_zero, hzero, Option.bind_some]
  simp only
  rw [bind_run, hdata, Option.bind_some]
  simp only [Nat.add_sub_cancel_left, hlen, if_true]
  rw [bind_run, writeU16, bind_run, writeU16At, hnat, hpatch]
  simp [Nat.add_assoc]
  rfl

/-! ### Names -/

/-- A label on the wire. -/
def labelBytes (label : Text) : List UInt8 :=
  UInt8.ofNat (Utf8.encode label).length :: Utf8.encode label

def nameBytes (name : Text) : List UInt8 := (name.splitOn '.').flatMap labelBytes ++ [0]

/-- A label that can be written. -/
def Label (label : Text) : Prop := label ≠ [] ∧ (Utf8.encode label).length ≤ 63

/-- A name that can be written. -/
def Writable (name : Text) : Prop := ∀ label ∈ name.splitOn '.', Label label

instance (name : Text) : Decidable (Writable name) :=
  inferInstanceAs (Decidable (∀ label ∈ name.splitOn '.', _ ∧ _))

theorem encode_eq_nil {text : Text} : Utf8.encode text = [] ↔ text = [] := by
  cases text with
  | nil => simp
  | cons c text => simp [String.utf8EncodeChar_ne_nil]

theorem writes_labels {labels : List Text} (h : ∀ label ∈ labels, Label label) :
    Writes (writeLabels labels) (labels.flatMap labelBytes) := by
  induction labels with
  | nil => exact Writes.nil
  | cons label labels ih =>
    obtain ⟨hne, hlen⟩ := h label List.mem_cons_self
    have hwrite := (writes_put (labelBytes label)).bind
      (ih fun l hl => h l (List.mem_cons_of_mem _ hl))
    intro front rest hroom
    refine Eq.trans ?_ (hwrite front rest hroom)
    show (if _ then _ else _ : Writer Nat) _ = _
    rw [if_neg fun hbad => hbad.elim (fun hnil => hne (encode_eq_nil.mp hnil))
      (Nat.not_lt.mpr hlen)]
    rfl

theorem writes_name {name : Text} (h : Writable name) :
    Writes (writeName · name) (nameBytes name) := (writes_labels h).bind (writes_put [0])

theorem writeLabels_none {labels : List Text} {label : Text} (hmem : label ∈ labels)
    (h : ¬Label label) (offset : Nat) (packet : Packet) : writeLabels labels offset packet =
    none := by
  induction labels generalizing offset packet with
  | nil => cases hmem
  | cons first labels ih =>
    show (if _ then _ else _ : Writer Nat) packet = none
    split
    · rfl
    next hgood =>
      rw [bind_run]
      rcases List.mem_cons.mp hmem with rfl | hmem
      · refine absurd ⟨?_, ?_⟩ h
        · exact fun hnil => hgood (.inl (encode_eq_nil.mpr hnil))
        · exact Nat.not_lt.mp fun hlong => hgood (.inr hlong)
      · cases put offset _ packet with
        | none => rfl
        | some r => exact ih hmem _ _

theorem writeName_none {name label : Text} (hmem : label ∈ name.splitOn '.') (h : ¬Label label)
    (offset : Nat) (packet : Packet) : writeName offset name packet = none := by
  show (writeLabels _ offset >>= _) packet = none
  rw [bind_run, writeLabels_none hmem h]
  rfl

theorem length_nameBytes (name : Text) : (nameBytes name).length =
    (Utf8.encode name).length + 2 := by
  have hlabels (labels : List Text) (hne : labels ≠ []) :
      (labels.flatMap labelBytes).length = (Utf8.encode (['.'].intercalate labels)).length + 1 := by
    induction labels with
    | nil => exact absurd rfl hne
    | cons label labels ih =>
      cases labels with
      | nil => simp [labelBytes]
      | cons label' labels =>
        have hdot : (String.utf8EncodeChar '.').length = 1 := rfl
        have hrest := ih (List.cons_ne_nil _ _)
        rw [List.intercalate_cons_cons, List.flatMap_cons, List.length_append, hrest]
        simp [labelBytes, hdot]
        omega
  have hname : ['.'].intercalate (name.splitOn '.') = name := List.intercalate_splitOn '.'
  rw [nameBytes, List.length_append, hlabels _ (List.splitOn_ne_nil _ _), hname]
  rfl

/-! ### Reading names -/

/-- Only characters of one byte. -/
def Ascii (text : Text) : Prop := ∀ c ∈ text, c.toNat < 128

instance (text : Text) : Decidable (Ascii text) := List.decidableBAll _ text

/-- The name as a reader gives it. -/
def lower (text : Text) : Text := text.map Char.toLower

theorem HString.pushStr_eq {N : Nat} {s : HString N} {text : Text}
    (h : (Utf8.encode (s.text ++ text)).length ≤ N) :
    s.pushStr text = some ⟨s.text ++ text, h⟩ := dif_pos h

theorem length_encode_append (a b : Text) : (Utf8.encode a).length ≤
    (Utf8.encode (a ++ b)).length := by
  rw [Utf8.encode_append, List.length_append]
  omega

theorem readLabel_ascii {N : Nat} {label : Text} (h : Ascii label) {out : HString N}
    (hfits : (Utf8.encode (out.text ++ lower label)).length ≤ N) :
    readLabel (Utf8.encode label) out = some ⟨out.text ++ lower label, hfits⟩ := by
  induction label generalizing out with
  | nil =>
    obtain ⟨text, hout⟩ := out
    simp [lower, readLabel]
  | cons c label ih =>
    have hc : c.toNat < 128 := h c List.mem_cons_self
    have hsplit : out.text ++ lower (c :: label) =
        (out.text ++ [c.toLower]) ++ lower label := by simp [lower]
    have hbyte : c.val.toUInt8 < 128 := by
      rw [UInt8.lt_iff_toNat_lt, Utf8.toNat_ascii hc]
      exact hc
    have hchar : Char.ofNat c.val.toUInt8.toNat = c := by rw [Utf8.toNat_ascii hc, Char.ofNat_toNat]
    have hpush : (Utf8.encode (out.text ++ [c.toLower])).length ≤ N :=
      Nat.le_trans (length_encode_append _ _) (hsplit ▸ hfits)
    rw [Utf8.encode_cons, Utf8.encodeChar_ascii hc, List.singleton_append, readLabel, if_pos hbyte,
      hchar, HString.push, HString.pushStr_eq hpush, Option.bind_some,
      ih (fun c' hc' => h c' (List.mem_cons_of_mem _ hc')) (hsplit ▸ hfits)]
    simp only [hsplit]

theorem readLabel_none {N : Nat} {label : Text} (h : ¬Ascii label) (out : HString N) :
    readLabel (Utf8.encode label) out = none := by
  induction label generalizing out with
  | nil => exact absurd (List.forall_mem_nil _) h
  | cons c label ih =>
    by_cases hc : c.toNat < 128
    · have hrest : ¬Ascii label := fun hrest => h (List.forall_mem_cons.mpr ⟨hc, hrest⟩)
      have hbyte : c.val.toUInt8 < 128 := by
        rw [UInt8.lt_iff_toNat_lt, Utf8.toNat_ascii hc]
        exact hc
      rw [Utf8.encode_cons, Utf8.encodeChar_ascii hc, List.singleton_append, readLabel,
        if_pos hbyte]
      cases out.push _ with
      | none => rfl
      | some out => exact ih hrest out
    · have hhigh := Utf8.encodeChar_high (Nat.not_lt.mp hc)
      rw [Utf8.encode_cons]
      cases hbytes : String.utf8EncodeChar c with
      | nil => exact absurd hbytes String.utf8EncodeChar_ne_nil
      | cons b bytes =>
        have hb : ¬b < 128 := UInt8.not_lt.mpr (hhigh b (hbytes ▸ List.mem_cons_self))
        rw [List.cons_append, readLabel, if_neg hb]

/-- Labels joined after what was read before them. -/
def joined (out : Text) : List Text → Text
  | [] => out
  | label :: labels => joined ((if out ≠ [] then out ++ ['.'] else out) ++ label) labels

theorem joined_of_ne {out : Text} (h : out ≠ []) (labels : List Text) :
    joined out labels = out ++ labels.flatMap ('.' :: ·) := by
  induction labels generalizing out with
  | nil => simp [joined]
  | cons label labels ih =>
    rw [joined, if_pos h, ih (by simp), List.flatMap_cons]
    simp [List.append_assoc]

theorem joined_append (out : Text) (labels : List Text) : ∃ more, joined out labels =
    out ++ more := by
  induction labels generalizing out with
  | nil => exact ⟨[], (List.append_nil _).symm⟩
  | cons label labels ih =>
    obtain ⟨more, hmore⟩ := ih ((if out ≠ [] then out ++ ['.'] else out) ++ label)
    rw [joined, hmore]
    split
    · exact ⟨['.'] ++ label ++ more, by simp [List.append_assoc]⟩
    · exact ⟨label ++ more, by rw [List.append_assoc]⟩

theorem joined_nil {labels : List Text} (h : ∀ label ∈ labels, label ≠ []) :
    joined [] labels = ['.'].intercalate labels := by
  cases labels with
  | nil => rfl
  | cons label labels =>
    rw [joined, if_neg (by simp), List.nil_append, joined_of_ne (h label List.mem_cons_self)]
    induction labels generalizing label with
    | nil => simp
    | cons label' labels ih =>
      rw [List.intercalate_cons_cons, ← ih label' fun l hl => h l (List.mem_cons_of_mem _ hl)]
      simp [List.append_assoc]

theorem slice_at (front part rest : List UInt8) :
    slice (front ++ (part ++ rest)) ⟨front.length, front.length + part.length⟩ = some part := by
  rw [slice, if_pos ⟨Nat.le_add_right _ _, by simp⟩]
  simp

section
variable {N : Nat} (front rest : List UInt8) {next : Option Nat} {jumps : Nat} {out : HString N}

theorem readNameFrom_end : readNameFrom (front ++ 0 :: rest) front.length next jumps out =
    some (next.getD (front.length + 1), out) := by
  rw [readNameFrom, dif_pos (by simp)]
  simp

theorem readNameFrom_label {label : Text} (h : Label label) :
    readNameFrom (front ++ (labelBytes label ++ rest)) front.length next jumps out =
      ((if out.text ≠ [] then out.push '.' else some out).bind (readLabel (Utf8.encode label))).bind
        (readNameFrom (front ++ labelBytes label ++ rest) (front ++ labelBytes label).length
          next jumps) := by
  obtain ⟨hne, hlen⟩ := h
  have hpos : 0 < (Utf8.encode label).length :=
    List.length_pos_iff.mpr fun hnil => hne (encode_eq_nil.mp hnil)
  have hbyte : (UInt8.ofNat (Utf8.encode label).length).toNat = (Utf8.encode label).length :=
    UInt8.toNat_ofNat_of_lt' (Nat.lt_of_le_of_lt hlen (by decide))
  have hlow : ∀ v : BitVec 8, v.toNat ≤ 63 → 0 < v.toNat → UInt8.ofBitVec v &&& 0xc0 = 0 ∧
      UInt8.ofBitVec v ≠ 0 := by
    decide
  obtain ⟨hmask, hzero⟩ := hlow (UInt8.ofNat (Utf8.encode label).length).toBitVec (by
    show UInt8.toNat _ ≤ 63
    rw [hbyte]
    exact hlen) (by
    show 0 < UInt8.toNat _
    rw [hbyte]
    exact hpos)
  have hget : (front ++ (labelBytes label ++ rest))[front.length]? =
      some (UInt8.ofNat (Utf8.encode label).length) := by
    rw [List.getElem?_append_right (Nat.le_refl _), Nat.sub_self]
    rfl
  have hslice : slice (front ++ (labelBytes label ++ rest)) ⟨front.length + 1, front.length + 1 +
      (Utf8.encode label).length⟩ = some (Utf8.encode label) := by
    have hat := slice_at (front ++ [UInt8.ofNat (Utf8.encode label).length])
      (Utf8.encode label) rest
    rwa [List.length_append, List.length_singleton, List.append_assoc] at hat
  have hlt : front.length < (front ++ (labelBytes label ++ rest)).length := by
    simp [labelBytes]
  have hat : (front ++ (labelBytes label ++ rest))[front.length] =
      UInt8.ofNat (Utf8.encode label).length :=
    Option.some.inj ((List.getElem?_eq_getElem hlt).symm.trans hget)
  rw [readNameFrom, dif_pos hlt]
  simp only [hat]
  rw [if_neg (by rw [hmask]; decide), if_neg (by rw [hmask]; decide), if_neg hzero, hbyte, hslice]
  simp only
  have hnext : front.length + 1 + (Utf8.encode label).length =
      (front ++ labelBytes label).length := by
    simp [labelBytes]
    omega
  rw [hnext, List.append_assoc]

theorem readNameFrom_labels {labels : List Text} (hlabels : ∀ label ∈ labels, Label label)
    (hascii : ∀ label ∈ labels, Ascii label)
    (hfits : (Utf8.encode (joined out.text (labels.map lower))).length ≤ N) :
    readNameFrom (front ++ (labels.flatMap labelBytes ++ 0 :: rest)) front.length next jumps out =
      some (next.getD (front.length + (labels.flatMap labelBytes).length + 1),
        ⟨joined out.text (labels.map lower), hfits⟩) := by
  induction labels generalizing front out with
  | nil => exact readNameFrom_end _ _
  | cons label labels ih =>
    rw [List.flatMap_cons, List.append_assoc,
      readNameFrom_label _ _ (hlabels label List.mem_cons_self)]
    have hmore : joined out.text ((label :: labels).map lower) =
        joined ((if out.text ≠ [] then out.text ++ ['.'] else out.text) ++ lower label)
          (labels.map lower) := rfl
    obtain ⟨text, htext⟩ :=
      joined_append ((if out.text ≠ [] then out.text ++ ['.'] else out.text) ++ lower label)
      (labels.map lower)
    have hlabel : (Utf8.encode
        ((if out.text ≠ [] then out.text ++ ['.'] else out.text) ++ lower label)).length ≤ N :=
      Nat.le_trans (length_encode_append _ text) (by rw [← htext, ← hmore]; exact hfits)
    have hdot : (if out.text ≠ [] then out.push '.' else some out) =
        some ⟨if out.text ≠ [] then out.text ++ ['.'] else out.text,
          Nat.le_trans (length_encode_append _ _) hlabel⟩ := by
      have hpushed := Nat.le_trans (length_encode_append _ _) hlabel
      by_cases hout : out.text ≠ []
      · simp only [if_pos hout] at hpushed ⊢
        exact HString.pushStr_eq hpushed
      · simp only [if_neg hout]
    rw [hdot, Option.bind_some, readLabel_ascii (hascii label List.mem_cons_self) hlabel,
      Option.bind_some, ih _ (fun l hl => hlabels l (List.mem_cons_of_mem _ hl))
      (fun l hl => hascii l (List.mem_cons_of_mem _ hl))
        (hmore ▸ hfits)]
    simp only [List.length_append, Nat.add_assoc]
    rfl

theorem readNameFrom_none {labels : List Text} (hlabels : ∀ label ∈ labels, Label label)
    {label : Text} (hmem : label ∈ labels) (hascii : ¬Ascii label) :
    readNameFrom (front ++ (labels.flatMap labelBytes ++ 0 :: rest)) front.length next jumps out =
      none := by
  induction labels generalizing front out with
  | nil => cases hmem
  | cons first labels ih =>
    rw [List.flatMap_cons, List.append_assoc,
      readNameFrom_label _ _ (hlabels first List.mem_cons_self)]
    cases (if out.text ≠ [] then out.push '.' else some out) with
    | none => rfl
    | some out =>
      rcases List.mem_cons.mp hmem with rfl | hmem
      · rw [Option.bind_some, readLabel_none hascii]
        rfl
      · rw [Option.bind_some]
        cases readLabel (Utf8.encode first) out with
        | none => rfl
        | some out => exact ih _ (fun l hl => hlabels l (List.mem_cons_of_mem _ hl)) hmem

variable {name : Text}

theorem ascii_intercalate (labels : List Text) :
    Ascii (['.'].intercalate labels) ↔ ∀ label ∈ labels, Ascii label := by
  have happend (a b : Text) : Ascii (a ++ b) ↔ Ascii a ∧ Ascii b := List.forall_mem_append
  have hdot : Ascii ['.'] := by decide
  induction labels with
  | nil => exact ⟨fun _ => List.forall_mem_nil _, fun _ => List.forall_mem_nil _⟩
  | cons label labels ih =>
    rw [List.forall_mem_cons]
    refine Iff.trans ?_ (and_congr_right fun _ => ih)
    cases labels with
    | nil =>
      rw [List.intercalate_singleton, List.intercalate_nil]
      exact (and_iff_left (List.forall_mem_nil _)).symm
    | cons label' labels =>
      rw [List.intercalate_cons_cons, happend, happend]
      exact ⟨fun h => ⟨h.1.1, h.2⟩, fun h => ⟨⟨h.1, hdot⟩, h.2⟩⟩

theorem ascii_splitOn : Ascii name ↔ ∀ label ∈ name.splitOn '.', Ascii label := by
  rw [← ascii_intercalate, List.intercalate_splitOn]

theorem lower_intercalate (labels : List Text) :
    lower (['.'].intercalate labels) = ['.'].intercalate (labels.map lower) := by
  induction labels with
  | nil => rfl
  | cons label labels ih =>
    cases labels with
    | nil => rw [List.map_cons, List.map_nil, List.intercalate_singleton,
      List.intercalate_singleton]
    | cons label' labels =>
      rw [List.map_cons, List.map_cons, List.intercalate_cons_cons, List.intercalate_cons_cons,
        ← List.map_cons, ← ih]
      simp [lower]

theorem readName_ascii (hlabels : Writable name) (hascii : Ascii name)
    (hfits : (Utf8.encode (lower name)).length ≤ N) :
    readName (front ++ (nameBytes name ++ rest)) front.length =
      some (front.length + (nameBytes name).length, (⟨lower name, hfits⟩ : HString N)) := by
  have hjoined : joined (HString.new : HString N).text ((name.splitOn '.').map lower) =
      lower name := by
    have hne : ∀ label ∈ (name.splitOn '.').map lower, label ≠ [] := by
      intro label hmem
      obtain ⟨label', hmem', rfl⟩ := List.mem_map.mp hmem
      exact fun hnil => (hlabels label' hmem').1 (List.map_eq_nil_iff.mp hnil)
    refine (joined_nil hne).trans ?_
    rw [← lower_intercalate, List.intercalate_splitOn]
  have hread : readNameFrom (N := N) _ front.length none 0 .new = _ :=
    readNameFrom_labels front rest hlabels (ascii_splitOn.mp hascii) (by rw [hjoined]; exact hfits)
  rw [readName, nameBytes, List.append_assoc]
  refine hread.trans ?_
  simp only [hjoined, Option.getD_none, List.length_append, List.length_singleton, Nat.add_assoc]

theorem readName_none (hlabels : Writable name) (hascii : ¬Ascii name) :
    readName (N := N) (front ++ (nameBytes name ++ rest)) front.length = none := by
  rw [ascii_splitOn] at hascii
  simp only [not_forall] at hascii
  obtain ⟨label, hmem, hlabel⟩ := hascii
  rw [nameBytes, List.append_assoc]
  exact readNameFrom_none _ _ hlabels hmem hlabel
end

end Microtun.Mdns
