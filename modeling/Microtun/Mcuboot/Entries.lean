import Microtun.Mcuboot.Area

/-! What a TLV area says: its entries, each a type and a value, and what they add up to. -/

namespace Microtun.Mcuboot

structure Tlv where
  type : Nat
  value : List UInt8
deriving DecidableEq, Repr

def Tlv.encode (e : Tlv) : List UInt8 :=
  toLeBytes 2 e.type ++ toLeBytes 2 e.value.length ++ e.value

@[simp] theorem Tlv.length_encode (e : Tlv) : e.encode.length = 4 + e.value.length := by
  simp only [Tlv.encode, List.length_append, length_toLeBytes]

/-- An area of entries, behind its magic and its size. -/
def encodeArea (magic : Nat) (entries : List Tlv) : List UInt8 :=
  toLeBytes 2 magic ++ toLeBytes 2 (4 + (entries.flatMap Tlv.encode).length) ++
    entries.flatMap Tlv.encode

@[simp] theorem length_encodeArea (magic : Nat) (entries : List Tlv) :
    (encodeArea magic entries).length = 4 + (entries.flatMap Tlv.encode).length := by
  simp only [encodeArea, List.length_append, length_toLeBytes]

theorem field_two (a b : Nat) :
    ofLeBytes (field (toLeBytes 2 a ++ toLeBytes 2 b) ⟨0, 2⟩) = a % 65536 ∧
      ofLeBytes (field (toLeBytes 2 a ++ toLeBytes 2 b) ⟨2, 4⟩) = b % 65536 := by
  have ha := ofLeBytes_toLeBytes 2 a
  have hb := ofLeBytes_toLeBytes 2 b
  constructor
  · simpa [field, toLeBytes] using ha
  · simpa [field, toLeBytes] using hb

theorem toLeBytes_ofLeBytes_two {bytes : List UInt8} (h : bytes.length = 2) :
    toLeBytes 2 (ofLeBytes bytes) = bytes ∧ ofLeBytes bytes < 65536 := by
  have hlt := ofLeBytes_lt bytes
  rw [h] at hlt
  exact ⟨h ▸ toLeBytes_ofLeBytes bytes, hlt⟩

theorem four_eq {bytes : List UInt8} (h : bytes.length = 4) :
    bytes = toLeBytes 2 (ofLeBytes (field bytes ⟨0, 2⟩)) ++ toLeBytes 2
      (ofLeBytes (field bytes ⟨2, 4⟩)) ∧ ofLeBytes (field bytes ⟨2, 4⟩) < 65536 := by
  obtain ⟨h0, -⟩ := @toLeBytes_ofLeBytes_two (field bytes ⟨0, 2⟩) (by simp [field, h])
  obtain ⟨h2, h2'⟩ := @toLeBytes_ofLeBytes_two (field bytes ⟨2, 4⟩) (by simp [field, h])
  refine ⟨?_, h2'⟩
  rw [h0, h2]
  obtain ⟨a, b, c, d, rfl⟩ := List.length_eq_four.mp h
  rfl

namespace TlvArea

variable {found found' : FoundTlvs} {kind : TlvAreaKind} {magic total consumed : Nat}
  {expected : Option Nat} {info : List UInt8}

/-- An area that stands between two entries. -/
def between (kind : TlvAreaKind) (magic : Nat) (expected : Option Nat) (info : List UInt8)
    (total consumed : Nat) : TlvArea :=
  { kind, expectedMagic := magic, expectedTotal := expected, total := some total, consumed, info,
    entryHeader := [], entryType := 0, entryLen := 0, entryFill := 0, entryValue := [],
    entryCollect := false }

theorem steady_between (hinfo : info.length = 4) (hle : consumed ≤ total)
    (hexp : ∀ e, expected = some e → total = e) :
    (between kind magic expected info total consumed).Steady := by
  refine ⟨Nat.le_of_eq hinfo, by simp [between], ?_, ?_, fun _ => rfl, by simp [between],
    by simp [between], ?_, ?_, ?_⟩
  · intro h
    exact absurd hinfo (by simp [between] at h; omega)
  · intro h
    exact absurd hinfo (by simp [between] at h; omega)
  · intro h
    exact absurd hinfo (by simp [between] at h; omega)
  · intro t ht
    obtain rfl := Option.some.inj ht
    exact hle
  · intro t ht e he
    obtain rfl := Option.some.inj ht
    exact hexp e he

theorem between_complete :
    (between kind magic expected info total consumed).isComplete = (total == consumed) := rfl

/-- What an entry adds, if its value fits. -/
def absorb (kind : TlvAreaKind) (found : FoundTlvs) (e : Tlv) : Except Error FoundTlvs :=
  if collects e.type && e.value.length > 64 then .error .invalidTlvLength
  else record kind e.type (if collects e.type then e.value else []) found

/-- An area whose entry's type and length have been read. -/
def opened (area : TlvArea) (type len : Nat) : TlvArea :=
  { area with
    consumed := area.consumed + 4
    entryHeader := toLeBytes 2 type ++ toLeBytes 2 len
    entryType := type
    entryLen := len
    entryCollect := collects type }

theorem part_header (hinfo : info.length = 4) {type len : Nat} (htype : type < 65536)
    (hlen : len < 65536) (hle : consumed + (4 + len) ≤ total) :
    (between kind magic expected info total consumed).part found
        (toLeBytes 2 type ++ toLeBytes 2 len) =
      if collects type && len > 64 then .error .invalidTlvLength
      else if len = 0 then
        ((between kind magic expected info total consumed).opened type len).finishEntry found
      else .ok ((between kind magic expected info total consumed).opened type len, found) := by
  obtain ⟨h0, h2⟩ := field_two type len
  rw [Nat.mod_eq_of_lt htype] at h0
  rw [Nat.mod_eq_of_lt hlen] at h2
  have hhead : (toLeBytes 2 type ++ toLeBytes 2 len).length = 4 := by simp
  unfold part
  rw [if_neg (by simp [between, hinfo])]
  show (if _ then (if total - consumed < 4 - 0 then _ else _) else _) = _
  rw [if_pos (by simp [between]), if_neg (by omega)]
  unfold feedEntryHeader
  simp only [between, List.nil_append, hhead, if_true, h0, h2]
  rw [if_neg (by omega)]
  rfl

theorem part_value {area : TlvArea} (hinfo : area.info.length = 4)
    (htotal : area.total.isSome = true) (hheader : area.entryHeader.length = 4)
    (hfill : area.entryFill = 0) {value : List UInt8} (hlen : area.entryLen = value.length) :
    area.part found value = (area.withEntryValue value).finishEntry found := by
  obtain ⟨total, ht⟩ := Option.isSome_iff_exists.mp htotal
  unfold part
  rw [if_neg (by omega), ht]
  simp only
  rw [if_neg (by omega)]
  unfold feedEntryValue
  simp only
  rw [if_pos (by omega)]
  rfl

theorem finishEntry_opened (type len : Nat) (value : List UInt8) :
    (((between kind magic expected info total consumed).opened type len).withEntryValue
        value).finishEntry found = (do
      let found ← record kind type (if collects type then value else []) found
      .ok (between kind magic expected info total (consumed + (4 + value.length)), found)) := by
  unfold finishEntry
  simp only [withEntryValue, opened, between, List.nil_append, Nat.add_assoc]
  rfl

theorem opened_withEntryValue_nil (type len : Nat) :
    ((between kind magic expected info total consumed).opened type len).withEntryValue [] =
      (between kind magic expected info total consumed).opened type len := by
  simp [withEntryValue, opened]

theorem run_value (hinfo : info.length = 4) {type : Nat} {value : List UInt8} (hne : value ≠ [])
    (hsteady : ((between kind magic expected info total consumed).opened type value.length).Steady)
    (hle : consumed + (4 + value.length) ≤ total) (ys : List UInt8) :
    run ((between kind magic expected info total consumed).opened type value.length, found)
        (value ++ ys) = (do
      let found ← record kind type (if collects type then value else []) found
      let (area, found, n) ←
        run (between kind magic expected info total (consumed + (4 + value.length)), found) ys
      .ok (area, found, n + value.length)) := by
  have hpos := List.length_pos_iff.mpr hne
  have hhead : (toLeBytes 2 type ++ toLeBytes 2 value.length).length = 4 := by simp
  have hopen : ((between kind magic expected info total consumed).opened type
      value.length).isComplete = false := by
    simp [isComplete, opened, between]
    omega
  have hroom : value.length ≤
      ((between kind magic expected info total consumed).opened type value.length).room := by
    simp [room, opened, between, hinfo]
  rw [run_part hsteady hopen hne hroom, part_value hinfo rfl hhead rfl rfl, finishEntry_opened]
  cases record kind type (if collects type then value else []) found <;> rfl

theorem run_entry (hinfo : info.length = 4) (hexp : ∀ e, expected = some e → total = e) (e : Tlv)
    (htype : e.type < 65536) (hlen : e.value.length < 65536)
    (hle : consumed + (4 + e.value.length) ≤ total) (ys : List UInt8) :
    run (between kind magic expected info total consumed, found) (e.encode ++ ys) = (do
      let found ← absorb kind found e
      let (area, found, n) ←
        run (between kind magic expected info total (consumed + (4 + e.value.length)), found) ys
      .ok (area, found, n + (4 + e.value.length))) := by
  have hsteady := @steady_between kind magic _ _ _ _ hinfo
    (show consumed ≤ total by omega) hexp
  have hopen : (between kind magic expected info total consumed).isComplete = false := by
    rw [between_complete]
    simp
    omega
  have hhead : (toLeBytes 2 e.type ++ toLeBytes 2 e.value.length).length = 4 := by simp
  have hne : toLeBytes 2 e.type ++ toLeBytes 2 e.value.length ≠ [] :=
    List.ne_nil_of_length_pos (by rw [hhead]; omega)
  have hroom : (toLeBytes 2 e.type ++ toLeBytes 2 e.value.length).length ≤
      (between kind magic expected info total consumed).room := by
    simp [room, between, hinfo]
  have hrun := @run_part _ found hsteady hopen _ hne hroom (e.value ++ ys)
  have hpart := @part_header found kind magic _ _ expected _ hinfo _ _ htype hlen hle
  unfold Tlv.encode
  rw [List.append_assoc, hrun, hpart]
  unfold absorb
  by_cases hbig : (collects e.type && decide (e.value.length > 64)) = true
  · rw [if_pos hbig, if_pos hbig]
    rfl
  rw [if_neg hbig] at hpart
  rw [if_neg hbig, if_neg hbig]
  by_cases hempty : e.value = []
  · -- an empty value ends with its header
    rw [hempty, List.length_nil, if_pos rfl, ← opened_withEntryValue_nil, finishEntry_opened,
      List.length_nil]
    cases record kind e.type (if collects e.type then [] else []) found <;> rfl
  · have hzero : e.value.length ≠ 0 := by simpa using hempty
    rw [if_neg hzero] at hpart ⊢
    obtain ⟨h1, -⟩ := part_steady hsteady hroom hne hpart
    simp only [bind, Except.bind]
    rw [run_value hinfo hempty h1 hle]
    cases record kind e.type (if collects e.type then e.value else []) found with
    | error e => rfl
    | ok found1 =>
      simp only [bind, Except.bind, hhead]
      cases run (between kind magic expected info total (consumed + (4 + e.value.length)), found1)
        ys with
      | error e => rfl
      | ok r => simp [Nat.add_comm 4, Nat.add_assoc]

/-- Entries whose type and length can be written down. -/
def Wide (entries : List Tlv) : Prop := ∀ e ∈ entries, e.type < 65536 ∧ e.value.length < 65536

instance (entries : List Tlv) : Decidable (Wide entries) :=
  inferInstanceAs (Decidable (∀ e ∈ entries, e.type < 65536 ∧ e.value.length < 65536))

theorem run_entries (hinfo : info.length = 4) (hexp : ∀ e, expected = some e → total = e)
    {entries : List Tlv} (hwide : Wide entries)
    (hle : consumed + (entries.flatMap Tlv.encode).length ≤ total) (ys : List UInt8) :
    run (between kind magic expected info total consumed, found)
      (entries.flatMap Tlv.encode ++ ys) = (do
        let found ← entries.foldlM (absorb kind) found
        let (area, found, n) ← run (between kind magic expected info total
          (consumed + (entries.flatMap Tlv.encode).length), found) ys
        .ok (area, found, n + (entries.flatMap Tlv.encode).length)) := by
  induction entries generalizing found consumed with
  | nil =>
    simp only [List.flatMap_nil, List.nil_append, List.foldlM_nil, List.length_nil, Nat.add_zero]
    cases hr : run (between kind magic expected info total consumed, found) ys with
    | error e => simp [hr, bind, Except.bind, pure, Except.pure]
    | ok r => simp [hr, bind, Except.bind, pure, Except.pure]
  | cons e rest ih =>
    have hfirst := hwide e (by simp)
    simp only [List.flatMap_cons, List.length_append, Tlv.length_encode] at hle ⊢
    rw [List.append_assoc, run_entry hinfo hexp e hfirst.1 hfirst.2 (by omega), List.foldlM_cons]
    simp only [bind, Except.bind]
    cases absorb kind found e with
    | error e => rfl
    | ok found1 =>
      have hrest := @ih found1 (consumed + (4 + e.value.length))
        (fun e' he' => hwide e' (List.mem_cons_of_mem _ he')) (by omega)
      simp only [bind, Except.bind, Nat.add_assoc] at hrest ⊢
      rw [hrest]
      cases rest.foldlM (absorb kind) found1 with
      | error e => rfl
      | ok found2 =>
        simp only
        cases run (between kind magic expected info total (consumed + (4 + (e.value.length +
            (rest.flatMap Tlv.encode).length))), found2) ys with
        | error e => rfl
        | ok r =>
          simp only [Except.ok.injEq, Prod.mk.injEq, true_and]
          omega

/-- An area that is read without error to its end is made of entries. -/
theorem entries_of_run (hinfo : info.length = 4) (hexp : ∀ e, expected = some e → total = e)
    {xs : List UInt8} (hlen : consumed + xs.length = total) {r : TlvArea × FoundTlvs × Nat}
    (hrun : run (between kind magic expected info total consumed, found) xs = .ok r) :
    ∃ entries, xs = entries.flatMap Tlv.encode ∧ Wide entries := by
  induction hn : xs.length using Nat.strongRecOn generalizing xs found consumed r with
  | ind n ih =>
    by_cases hempty : xs = []
    · exact ⟨[], hempty, by simp [Wide]⟩
    have hpos := List.length_pos_iff.mpr hempty
    have hsteady := @steady_between kind magic _ _ _ _ hinfo
      (show consumed ≤ total by omega) hexp
    have hopen : (between kind magic expected info total consumed).isComplete = false := by
      rw [between_complete]
      simp
      omega
    by_cases hfour : xs.length < 4
    · -- too few bytes for another entry
      obtain ⟨b, rest, rfl⟩ := List.exists_cons_of_ne_nil hempty
      rw [run, if_neg (by simp [hopen])] at hrun
      have herr : step (between kind magic expected info total consumed, found) b =
          .error .truncatedTlv := by
        unfold step part
        rw [if_neg (by simp [between, hinfo])]
        show (if _ then (if total - consumed < 4 - 0 then _ else _) else _) = _
        rw [if_pos (by simp [between]), if_pos (by omega)]
      simp [herr, bind, Except.bind] at hrun
    -- the type and length of the entry
    generalize htype : ofLeBytes (xs.take 2) = type
    generalize hvlen : ofLeBytes ((xs.drop 2).take 2) = len
    obtain ⟨ht, ht'⟩ := @toLeBytes_ofLeBytes_two (xs.take 2) (by simp; omega)
    obtain ⟨hl, hl'⟩ := @toLeBytes_ofLeBytes_two ((xs.drop 2).take 2) (by simp; omega)
    rw [htype] at ht ht'
    rw [hvlen] at hl hl'
    have hsplit : xs = toLeBytes 2 type ++ toLeBytes 2 len ++ xs.drop 4 := by
      rw [ht, hl]
      have h2 := List.take_append_drop 2 (xs.drop 2)
      rw [List.drop_drop] at h2
      rw [List.append_assoc, h2, List.take_append_drop]
    have hhead : (toLeBytes 2 type ++ toLeBytes 2 len).length = 4 := by simp
    have hne : toLeBytes 2 type ++ toLeBytes 2 len ≠ [] :=
      List.ne_nil_of_length_pos (by rw [hhead]; omega)
    have hroom : (toLeBytes 2 type ++ toLeBytes 2 len).length ≤
        (between kind magic expected info total consumed).room := by
      simp [room, between, hinfo]
    by_cases hover : consumed + (4 + len) ≤ total
    · -- its value, and what follows it
      have hvalue : ((xs.drop 4).take len).length = len := by simp; omega
      have hsplit' : xs = (Tlv.mk type ((xs.drop 4).take len)).encode ++ (xs.drop 4).drop len := by
        unfold Tlv.encode
        rw [hvalue, List.append_assoc, List.take_append_drop]
        exact hsplit
      have hrun' := hrun
      rw [hsplit', run_entry hinfo hexp _ ht' (by rw [hvalue]; exact hl')
        (by rw [hvalue]; exact hover)] at hrun'
      cases ha : absorb kind found ⟨type, (xs.drop 4).take len⟩ with
      | error e => simp [ha, bind, Except.bind] at hrun'
      | ok found1 =>
        simp only [ha, bind, Except.bind] at hrun'
        cases hr : run (between kind magic expected info total
            (consumed + (4 + ((xs.drop 4).take len).length)), found1) ((xs.drop 4).drop len) with
        | error e =>
          rw [hr] at hrun'
          cases hrun'
        | ok r1 =>
          have hrest : ((xs.drop 4).drop len).length = xs.length - 4 - len := by
            simp
            omega
          obtain ⟨entries, hentries, hwide⟩ := ih _ (by omega) (by rw [hvalue]; omega) hr rfl
          refine ⟨⟨type, (xs.drop 4).take len⟩ :: entries, ?_, ?_⟩
          · rw [List.flatMap_cons, ← hentries]
            exact hsplit'
          · intro e he
            rcases List.mem_cons.mp he with rfl | he
            · exact ⟨ht', by rw [hvalue]; exact hl'⟩
            · exact hwide e he
    · -- the length says more than there is left
      exfalso
      rw [hsplit, run_part hsteady hopen hne hroom] at hrun
      have herr : (between kind magic expected info total consumed).part found
          (toLeBytes 2 type ++ toLeBytes 2 len) = .error .truncatedTlv := by
        obtain ⟨h0, h2⟩ := field_two type len
        rw [Nat.mod_eq_of_lt hl'] at h2
        unfold part
        rw [if_neg (by simp [between, hinfo])]
        show (if _ then (if total - consumed < 4 - 0 then _ else _) else _) = _
        rw [if_pos (by simp [between]), if_neg (by omega)]
        unfold feedEntryHeader
        simp only [between, List.nil_append, hhead, if_true, h2]
        rw [if_pos (by omega)]
      simp [herr, bind, Except.bind] at hrun

/-- The start of an area: its magic, and a size that is the one expected, if one is. -/
theorem run_info {bytes : List UInt8} (hlen : bytes.length = 4) (ys : List UInt8) :
    run (new kind magic expected, found) (bytes ++ ys) =
      if ofLeBytes (field bytes ⟨0, 2⟩) ≠ magic then .error .invalidTlvInfoMagic
      else if ofLeBytes (field bytes ⟨2, 4⟩) < 4 then .error .invalidTlvAreaSize
      else if expected.any (fun e => ofLeBytes (field bytes ⟨2, 4⟩) != e) then
        .error .invalidTlvAreaSize
      else (do
        let (area, found, n) ←
          run (between kind magic expected bytes (ofLeBytes (field bytes ⟨2, 4⟩)) 4, found) ys
        .ok (area, found, n + 4)) := by
  have hne : bytes ≠ [] := List.ne_nil_of_length_pos (by omega)
  have hroom : bytes.length ≤ (new kind magic expected).room := by simp [room, new, hlen]
  rw [run_part (steady_new kind magic expected) rfl hne hroom]
  unfold part
  rw [if_pos (by simp [new])]
  unfold feedInfo
  simp only [new, List.nil_append, hlen, if_true, Nat.zero_add]
  by_cases hm : ofLeBytes (field bytes ⟨0, 2⟩) ≠ magic
  · rw [if_pos hm, if_pos hm]
    rfl
  rw [if_neg hm, if_neg hm]
  by_cases hsmall : ofLeBytes (field bytes ⟨2, 4⟩) < 4
  · rw [if_pos hsmall, if_pos hsmall]
    rfl
  rw [if_neg hsmall, if_neg hsmall]
  by_cases he : (expected.any fun e => ofLeBytes (field bytes ⟨2, 4⟩) != e) = true
  · rw [if_pos he, if_pos he]
    rfl
  · rw [if_neg he, if_neg he]
    rfl

theorem run_take {s : TlvArea × FoundTlvs} {input : List UInt8} {r : TlvArea × FoundTlvs × Nat}
    (hrun : run s input = .ok r) : run s (input.take r.2.2) = .ok r := by
  induction input generalizing s r with
  | nil =>
    obtain rfl := Except.ok.inj hrun
    rfl
  | cons b rest ih =>
    rw [run] at hrun
    by_cases hc : s.1.isComplete = true
    · rw [if_pos hc] at hrun
      obtain rfl := Except.ok.inj hrun
      rfl
    · rw [if_neg hc] at hrun
      cases hs : step s b with
      | error e => simp [hs, bind, Except.bind] at hrun
      | ok s1 =>
        cases hr : run s1 rest with
        | error e => simp [hs, hr, bind, Except.bind] at hrun
        | ok r1 =>
          simp only [hs, hr, bind, Except.bind, Except.ok.injEq] at hrun
          obtain rfl := hrun
          rw [List.take_succ_cons, run, if_neg hc]
          simp only [hs, ih hr, bind, Except.bind]

/-- Bytes behind the end of the area are left alone. -/
theorem run_extend {s : TlvArea × FoundTlvs} {xs : List UInt8} {area : TlvArea}
    (hrun : run s xs = .ok (area, found, xs.length)) (hc : area.isComplete = true)
    (ys : List UInt8) : run s (xs ++ ys) = .ok (area, found, xs.length) := by
  induction xs generalizing s with
  | nil =>
    obtain ⟨rfl, rfl, -⟩ := by simpa [run] using hrun
    cases ys with
    | nil => rfl
    | cons y ys => rw [List.nil_append, run, if_pos hc]; rfl
  | cons b rest ih =>
    rw [run] at hrun
    by_cases hopen : s.1.isComplete = true
    · rw [if_pos hopen] at hrun
      simp at hrun
    · rw [if_neg hopen] at hrun
      rw [List.cons_append, run, if_neg hopen]
      cases hs : step s b with
      | error e => simp [hs, bind, Except.bind] at hrun
      | ok s1 =>
        cases hr : run s1 rest with
        | error e => simp [hs, hr, bind, Except.bind] at hrun
        | ok r1 =>
          obtain ⟨area1, found1, n⟩ := r1
          simp only [hs, hr, bind, Except.bind, Except.ok.injEq, Prod.mk.injEq, List.length_cons,
            Nat.add_right_cancel_iff] at hrun
          obtain ⟨rfl, rfl, rfl⟩ := hrun
          simp only [ih hr, bind, Except.bind, List.length_cons]

/-- What it takes to be read as an area to the last byte. -/
structure Area (kind : TlvAreaKind) (magic : Nat) (expected : Option Nat) (found : FoundTlvs)
    (bytes : List UInt8) (entries : List Tlv) (found' : FoundTlvs) : Prop where
  layout : bytes = encodeArea magic entries
  small : (encodeArea magic entries).length < 65536
  wide : Wide entries
  expected : ∀ e, expected = some e → bytes.length = e
  absorbed : entries.foldlM (absorb kind) found = .ok found'

theorem Area.run {bytes : List UInt8} {entries : List Tlv}
    (h : Area kind magic expected found bytes entries found') (hmagic : magic < 65536) :
    ∃ area, TlvArea.run (new kind magic expected, found) bytes = .ok (area, found', bytes.length) ∧
      area.isComplete = true := by
  have hsmall := h.small
  have hlen := congrArg List.length h.layout
  rw [length_encodeArea] at hsmall hlen
  generalize htotal : 4 + (entries.flatMap Tlv.encode).length = total at hsmall hlen
  obtain ⟨h0, h2⟩ := field_two magic total
  rw [Nat.mod_eq_of_lt hmagic] at h0
  rw [Nat.mod_eq_of_lt hsmall] at h2
  have hexp : ∀ e, expected = some e → total = e := fun e he => hlen ▸ h.expected e he
  have hany : ¬(expected.any fun e => total != e) = true := by
    cases he : expected with
    | none => simp
    | some e => simp [hexp e he]
  have hinfo : (toLeBytes 2 magic ++ toLeBytes 2 total).length = 4 := by simp
  have hentries := @run_entries found kind magic _ _ _ _ hinfo hexp _ h.wide
    (Nat.le_of_eq htotal) []
  rw [h.absorbed] at hentries
  refine ⟨between kind magic expected (toLeBytes 2 magic ++ toLeBytes 2 total) total total, ?_, ?_⟩
  · rw [hlen, h.layout]
    unfold encodeArea
    rw [htotal, run_info hinfo, h0, h2, if_neg (by simp), if_neg (by omega), if_neg hany,
      ← List.append_nil (entries.flatMap Tlv.encode), hentries, htotal]
    simp only [bind, Except.bind, TlvArea.run, Nat.zero_add]
    congr 3
    omega
  · simp [between_complete]

theorem area_of_run {bytes : List UInt8} {area : TlvArea}
    (hrun : run (new kind magic expected, found) bytes = .ok (area, found', bytes.length))
    (hc : area.isComplete = true) :
    ∃ entries, Area kind magic expected found bytes entries found' := by
  by_cases hfour : bytes.length < 4
  · -- the area has not said yet how long it is
    exfalso
    have hshort : (new kind magic expected).info.length + bytes.length <
        4 := by simpa [new] using hfour
    have hnew : area.total = none := by
      cases bytes with
      | nil =>
        obtain ⟨rfl, -⟩ := by simpa [run] using hrun
        rfl
      | cons b rest =>
        have hroom : (b :: rest).length ≤ (new kind magic expected).room := by
          simp [room, new] at hfour ⊢
          omega
        have hpart : (new kind magic expected).part found (b :: rest) =
            .ok ((new kind magic expected).withInfo (b :: rest), found) := by
          unfold part
          rw [if_pos (by simp [new]), feedInfo_short hshort]
          rfl
        rw [← List.append_nil (b :: rest), run_part (steady_new kind magic expected) rfl
          (List.cons_ne_nil b rest) hroom, hpart] at hrun
        simp only [bind, Except.bind, run, Except.ok.injEq, Prod.mk.injEq] at hrun
        rw [← hrun.1]
        rfl
    simp [isComplete, hnew] at hc
  have hsplit := List.take_append_drop 4 bytes
  have hinfo : (bytes.take 4).length = 4 := by simp; omega
  have hran := run_spec (steady_new kind magic expected) hrun
  rw [← hsplit, run_info hinfo, hsplit] at hrun
  by_cases hm : ofLeBytes (field (bytes.take 4) ⟨0, 2⟩) ≠ magic
  · rw [if_pos hm] at hrun
    cases hrun
  rw [if_neg hm] at hrun
  by_cases hsmall : ofLeBytes (field (bytes.take 4) ⟨2, 4⟩) < 4
  · rw [if_pos hsmall] at hrun
    cases hrun
  rw [if_neg hsmall] at hrun
  by_cases he : (expected.any fun e => ofLeBytes (field (bytes.take 4) ⟨2, 4⟩) != e) = true
  · rw [if_pos he] at hrun
    cases hrun
  rw [if_neg he] at hrun
  generalize htotal : ofLeBytes (field (bytes.take 4) ⟨2, 4⟩) = total at hrun hsmall he
  have hexp : ∀ e, expected = some e → total = e := by
    intro e hexpected
    simpa [hexpected] using he
  cases hr : run (between kind magic expected (bytes.take 4) total 4, found) (bytes.drop 4) with
  | error e => simp [hr, bind, Except.bind] at hrun
  | ok r =>
    obtain ⟨area1, found1, n⟩ := r
    simp only [hr, bind, Except.bind, Except.ok.injEq, Prod.mk.injEq] at hrun
    obtain ⟨rfl, rfl, hn⟩ := hrun
    -- the area ends where its size says
    have hran1 := run_spec (steady_between hinfo (by omega) hexp) hr
    have htotal1 : area1.total = some total := (hran1.same.total hinfo).1
    have hconsumed : area1.consumed = bytes.length := by
      rw [hran.consumed]
      exact Nat.zero_add _
    have hend : total = bytes.length := by
      simpa [isComplete, htotal1, hconsumed] using hc
    obtain ⟨entries, hentries, hwide⟩ := entries_of_run hinfo hexp (by simp; omega) hr
    have hlen : (entries.flatMap Tlv.encode).length = bytes.length - 4 := by rw [← hentries]; simp
    obtain ⟨hhead, hwide4⟩ := four_eq hinfo
    rw [htotal, Decidable.not_not.mp hm] at hhead
    rw [htotal] at hwide4
    refine ⟨entries, ⟨?_, ?_, hwide, fun e hexpected => hend ▸ hexp e hexpected, ?_⟩⟩
    · unfold encodeArea
      rw [hlen, show 4 + (bytes.length - 4) = total by omega, ← hhead, ← hentries, hsplit]
    · rw [length_encodeArea]
      omega
    · have hall := @run_entries found kind magic _ _ _ _ hinfo hexp _ hwide
        (show 4 + (entries.flatMap Tlv.encode).length ≤ total by omega) []
      rw [List.append_nil, ← hentries, hr] at hall
      cases ha : entries.foldlM (absorb kind) found with
      | error e => simp [ha, bind, Except.bind] at hall
      | ok found2 =>
        simp only [ha, bind, Except.bind, run, Except.ok.injEq, Prod.mk.injEq] at hall
        rw [hall.2.1]

/-- What a slot of an area comes to hold: the value of the only entry of its type, or what it held
before, if there is none. -/
def Held {n : Nat} (entries : List Tlv) (type : Nat) (before after : Option (Bytes n)) : Prop :=
  (entries.filter (·.type == type) = [] ∧ after = before) ∨
    (before = none ∧ ∃ value : Bytes n,
      entries.filter (·.type == type) = [⟨type, value.toList⟩] ∧ after = some value)

/-- Entries of a type go to the slot `get`, once. -/
structure Slot (kind : TlvAreaKind) (type : Nat) {n : Nat} (get : FoundTlvs → Option (Bytes n)) :
    Prop where
  collects : collects type = true
  own : ∀ value found found', record kind type value found = .ok found' →
    get found = none ∧ ∃ bytes : Bytes n, value = bytes.toList ∧ get found' = some bytes
  other : ∀ type', type' ≠ type → ∀ value found found', record kind type' value found = .ok found' →
    get found' = get found

theorem absorb_ok {e : Tlv} (h : absorb kind found e = .ok found') :
    (collects e.type = true → e.value.length ≤ 64) ∧
      record kind e.type (if collects e.type then e.value else []) found = .ok found' := by
  unfold absorb at h
  by_cases hbig : (collects e.type && decide (e.value.length > 64)) = true
  · rw [if_pos hbig] at h
    cases h
  · rw [if_neg hbig] at h
    refine ⟨fun hc => ?_, h⟩
    simpa [hc] using hbig

theorem Slot.held {type n : Nat} {get : FoundTlvs → Option (Bytes n)} (hs : Slot kind type get)
    {entries : List Tlv} (h : entries.foldlM (absorb kind) found = .ok found') :
    Held entries type (get found) (get found') := by
  induction entries generalizing found with
  | nil =>
    obtain rfl := Except.ok.inj h
    exact .inl ⟨rfl, rfl⟩
  | cons e rest ih =>
    rw [List.foldlM_cons] at h
    cases ha : absorb kind found e with
    | error e => simp [ha, bind, Except.bind] at h
    | ok found1 =>
      simp only [ha, bind, Except.bind] at h
      obtain ⟨-, hrec⟩ := absorb_ok ha
      have hrest := ih h
      by_cases ht : e.type = type
      · subst ht
        rw [if_pos hs.collects] at hrec
        obtain ⟨hnone, bytes, hvalue, hsome⟩ := hs.own _ _ _ hrec
        obtain ⟨hfilter, hafter⟩ | ⟨hbefore, -⟩ := hrest
        · refine .inr ⟨hnone, bytes, ?_, hafter.trans hsome⟩
          rw [List.filter_cons_of_pos (by simp), hfilter, ← hvalue]
        · rw [hsome] at hbefore
          cases hbefore
      · have hkeep := hs.other _ ht _ _ _ hrec
        unfold Held at hrest ⊢
        rw [List.filter_cons_of_neg (by simpa using ht), ← hkeep]
        exact hrest

/-- What no entry of the area touches stays as it is. -/
theorem absorb_keeps {α : Type} {get : FoundTlvs → α}
    (hkeep : ∀ type value found found', record kind type value found = .ok found' →
      get found' = get found)
    {entries : List Tlv} (h : entries.foldlM (absorb kind) found = .ok found') :
    get found' = get found := by
  induction entries generalizing found with
  | nil => exact Except.ok.inj h ▸ rfl
  | cons e rest ih =>
    rw [List.foldlM_cons] at h
    cases ha : absorb kind found e with
    | error e => simp [ha, bind, Except.bind] at h
    | ok found1 =>
      simp only [ha, bind, Except.bind] at h
      exact (ih h).trans (hkeep _ _ _ _ (absorb_ok ha).2)

theorem setOnceArray_ok {n : Nat} {slot slot' : Option (Bytes n)} {value : List UInt8}
    (h : setOnceArray slot value = .ok slot') :
    slot = none ∧ ∃ bytes : Bytes n, value = bytes.toList ∧ slot' = some bytes := by
  unfold setOnceArray at h
  by_cases hlen : value.length ≠ n
  · rw [if_pos hlen] at h
    cases h
  rw [if_neg hlen] at h
  cases slot with
  | some b => simp at h
  | none =>
    refine ⟨rfl, Bytes.ofList n value, ?_, ?_⟩
    · exact (Bytes.toList_ofList (by omega)).symm
    · simpa using h.symm

theorem setOnceArray_none {n : Nat} (bytes : Bytes n) :
    setOnceArray none bytes.toList = .ok (some bytes) := by
  unfold setOnceArray
  rw [if_neg (by simp), if_neg (by simp), Bytes.ofList_toList]

/-- What an entry of the regular area does to what was found. -/
inductive RecordedRegular (type : Nat) (value : List UInt8) (found : FoundTlvs) : FoundTlvs → Prop
  | keyHash (ht : type = tlvKeyhash) (hnone : found.keyHash = none) (bytes : Bytes 32)
    (hvalue : value = bytes.toList) : RecordedRegular type value found
    { found with keyHash := some bytes }
  | sha256 (ht : type = tlvSha256) (hnone : found.sha256 = none) (bytes : Bytes 32)
    (hvalue : value = bytes.toList) : RecordedRegular type value found
    { found with sha256 := some bytes }
  | signature (ht : type = tlvEd25519) (hnone : found.signature = none) (bytes : Bytes 64)
    (hvalue : value = bytes.toList) :
    RecordedRegular type value found { found with signature := some bytes }
  | pure (ht : type = tlvSigPure) : RecordedRegular type value found
    { found with pureSignature := true }
  | unknown (hk : type ≠ tlvKeyhash) (hs : type ≠ tlvSha256) (he : type ≠ tlvEd25519)
    (hp : type ≠ tlvSigPure) : RecordedRegular type value found found

theorem record_regular {type : Nat} {value : List UInt8} :
    record .regularArea type value found = .ok found' ↔
      RecordedRegular type value found found' := by
  constructor
  · intro h
    unfold record at h
    simp only at h
    by_cases hk : type = tlvKeyhash
    · rw [if_pos hk] at h
      cases hs : setOnceArray found.keyHash value with
      | error e => simp [hs, bind, Except.bind] at h
      | ok slot =>
        simp only [hs, bind, Except.bind, Except.ok.injEq] at h
        obtain ⟨hnone, bytes, hvalue, rfl⟩ := setOnceArray_ok hs
        exact h ▸ .keyHash hk hnone bytes hvalue
    rw [if_neg hk] at h
    by_cases hsha : type = tlvSha256
    · rw [if_pos hsha] at h
      cases hs : setOnceArray found.sha256 value with
      | error e => simp [hs, bind, Except.bind] at h
      | ok slot =>
        simp only [hs, bind, Except.bind, Except.ok.injEq] at h
        obtain ⟨hnone, bytes, hvalue, rfl⟩ := setOnceArray_ok hs
        exact h ▸ .sha256 hsha hnone bytes hvalue
    rw [if_neg hsha] at h
    by_cases hsig : type = tlvEd25519
    · rw [if_pos hsig] at h
      cases hs : setOnceArray found.signature value with
      | error e => simp [hs, bind, Except.bind] at h
      | ok slot =>
        simp only [hs, bind, Except.bind, Except.ok.injEq] at h
        obtain ⟨hnone, bytes, hvalue, rfl⟩ := setOnceArray_ok hs
        exact h ▸ .signature hsig hnone bytes hvalue
    rw [if_neg hsig] at h
    by_cases hp : type = tlvSigPure
    · rw [if_pos hp] at h
      exact Except.ok.inj h ▸ .pure hp
    · rw [if_neg hp] at h
      exact Except.ok.inj h ▸ .unknown hk hsha hsig hp
  · intro h
    unfold record
    simp only
    cases h with
    | keyHash ht hnone bytes hvalue =>
      rw [if_pos ht, hnone, hvalue, setOnceArray_none]
      rfl
    | sha256 ht hnone bytes hvalue =>
      rw [if_neg (by rw [ht]; decide), if_pos ht, hnone, hvalue, setOnceArray_none]
      rfl
    | signature ht hnone bytes hvalue =>
      rw [if_neg (by rw [ht]; decide), if_neg (by rw [ht]; decide), if_pos ht, hnone, hvalue,
        setOnceArray_none]
      rfl
    | pure ht =>
      rw [if_neg (by rw [ht]; decide), if_neg (by rw [ht]; decide), if_neg (by rw [ht]; decide),
        if_pos ht]
    | unknown hk hs he hp => rw [if_neg hk, if_neg hs, if_neg he, if_neg hp]

/-- What an entry of the protected area does to what was found. -/
inductive RecordedProtected (type : Nat) (value : List UInt8) (found : FoundTlvs) : FoundTlvs → Prop
  | vid (ht : type = tlvUuidVid) (hnone : found.vid = none) (bytes : Bytes 16)
    (hvalue : value = bytes.toList) : RecordedProtected type value found
    { found with vid := some bytes }
  | cid (ht : type = tlvUuidCid) (hnone : found.cid = none) (bytes : Bytes 16)
    (hvalue : value = bytes.toList) : RecordedProtected type value found
    { found with cid := some bytes }
  | unknown (hv : type ≠ tlvUuidVid) (hc : type ≠ tlvUuidCid) :
    RecordedProtected type value found found

theorem record_protected {type : Nat} {value : List UInt8} :
    record .protectedArea type value found = .ok found' ↔
      RecordedProtected type value found found' := by
  constructor
  · intro h
    unfold record at h
    simp only at h
    by_cases hv : type = tlvUuidVid
    · rw [if_pos hv] at h
      cases hs : setOnceArray found.vid value with
      | error e => simp [hs, bind, Except.bind] at h
      | ok slot =>
        simp only [hs, bind, Except.bind, Except.ok.injEq] at h
        obtain ⟨hnone, bytes, hvalue, rfl⟩ := setOnceArray_ok hs
        exact h ▸ .vid hv hnone bytes hvalue
    rw [if_neg hv] at h
    by_cases hc : type = tlvUuidCid
    · rw [if_pos hc] at h
      cases hs : setOnceArray found.cid value with
      | error e => simp [hs, bind, Except.bind] at h
      | ok slot =>
        simp only [hs, bind, Except.bind, Except.ok.injEq] at h
        obtain ⟨hnone, bytes, hvalue, rfl⟩ := setOnceArray_ok hs
        exact h ▸ .cid hc hnone bytes hvalue
    · rw [if_neg hc] at h
      exact Except.ok.inj h ▸ .unknown hv hc
  · intro h
    unfold record
    simp only
    cases h with
    | vid ht hnone bytes hvalue =>
      rw [if_pos ht, hnone, hvalue, setOnceArray_none]
      rfl
    | cid ht hnone bytes hvalue =>
      rw [if_neg (by rw [ht]; decide), if_pos ht, hnone, hvalue, setOnceArray_none]
      rfl
    | unknown hv hc => rw [if_neg hv, if_neg hc]

theorem slot_keyHash : Slot .regularArea tlvKeyhash FoundTlvs.keyHash where
  collects := rfl
  own value found found' h := by
    cases record_regular.mp h with
    | keyHash ht hnone bytes hvalue => exact ⟨hnone, bytes, hvalue, rfl⟩
    | sha256 ht => exact absurd ht (by decide)
    | signature ht => exact absurd ht (by decide)
    | pure ht => exact absurd ht (by decide)
    | unknown hk => exact absurd rfl hk
  other type' hne value found found' h := by
    cases record_regular.mp h with
    | keyHash ht => exact absurd ht hne
    | sha256 | signature | pure | unknown => rfl

theorem slot_sha256 : Slot .regularArea tlvSha256 FoundTlvs.sha256 where
  collects := rfl
  own value found found' h := by
    cases record_regular.mp h with
    | sha256 ht hnone bytes hvalue => exact ⟨hnone, bytes, hvalue, rfl⟩
    | keyHash ht => exact absurd ht (by decide)
    | signature ht => exact absurd ht (by decide)
    | pure ht => exact absurd ht (by decide)
    | unknown _ hs => exact absurd rfl hs
  other type' hne value found found' h := by
    cases record_regular.mp h with
    | sha256 ht => exact absurd ht hne
    | keyHash | signature | pure | unknown => rfl

theorem slot_signature : Slot .regularArea tlvEd25519 FoundTlvs.signature where
  collects := rfl
  own value found found' h := by
    cases record_regular.mp h with
    | signature ht hnone bytes hvalue => exact ⟨hnone, bytes, hvalue, rfl⟩
    | keyHash ht => exact absurd ht (by decide)
    | sha256 ht => exact absurd ht (by decide)
    | pure ht => exact absurd ht (by decide)
    | unknown _ _ he => exact absurd rfl he
  other type' hne value found found' h := by
    cases record_regular.mp h with
    | signature ht => exact absurd ht hne
    | keyHash | sha256 | pure | unknown => rfl

theorem slot_vid : Slot .protectedArea tlvUuidVid FoundTlvs.vid where
  collects := rfl
  own value found found' h := by
    cases record_protected.mp h with
    | vid ht hnone bytes hvalue => exact ⟨hnone, bytes, hvalue, rfl⟩
    | cid ht => exact absurd ht (by decide)
    | unknown hv => exact absurd rfl hv
  other type' hne value found found' h := by
    cases record_protected.mp h with
    | vid ht => exact absurd ht hne
    | cid | unknown => rfl

theorem slot_cid : Slot .protectedArea tlvUuidCid FoundTlvs.cid where
  collects := rfl
  own value found found' h := by
    cases record_protected.mp h with
    | cid ht hnone bytes hvalue => exact ⟨hnone, bytes, hvalue, rfl⟩
    | vid ht => exact absurd ht (by decide)
    | unknown _ hc => exact absurd rfl hc
  other type' hne value found found' h := by
    cases record_protected.mp h with
    | cid ht => exact absurd ht hne
    | vid | unknown => rfl

/-- A slot that the entries can fill, or leave alone. -/
def Free {n : Nat} (entries : List Tlv) (type : Nat) (before : Option (Bytes n)) : Prop :=
  entries.filter (·.type == type) = [] ∨
    (before = none ∧ ∃ value : Bytes n, entries.filter (·.type == type) = [⟨type, value.toList⟩])

section Free

variable {n : Nat} {e : Tlv} {rest : List Tlv} {type : Nat} {before : Option (Bytes n)}

theorem Free.other (h : Free (e :: rest) type before) (ht : e.type ≠ type) :
    Free rest type before := by
  unfold Free at h ⊢
  rwa [List.filter_cons_of_neg (by simpa using ht)] at h

theorem Free.own (h : Free (e :: rest) type before) (ht : e.type = type) :
    before = none ∧ (∃ value : Bytes n, e.value = value.toList) ∧
      rest.filter (·.type == type) = [] := by
  unfold Free at h
  rw [List.filter_cons_of_pos (by simpa using ht)] at h
  obtain h | ⟨hnone, value, h⟩ := h
  · cases h
  · obtain ⟨rfl, hrest⟩ := List.cons.inj h
    exact ⟨hnone, ⟨value, rfl⟩, hrest⟩

end Free

theorem absorb_eq {kind : TlvAreaKind} {e : Tlv}
    (hfits : collects e.type = true → e.value.length ≤ 64) :
    absorb kind found e = record kind e.type (if collects e.type then e.value else []) found := by
  unfold absorb
  rw [if_neg]
  intro h
  simp only [Bool.and_eq_true, decide_eq_true_eq] at h
  have := hfits h.1
  omega

theorem regular_ok {entries : List Tlv}
    (hfits : ∀ e ∈ entries, collects e.type = true → e.value.length ≤ 64)
    (hk : Free entries tlvKeyhash found.keyHash) (hs : Free entries tlvSha256 found.sha256)
    (hsig : Free entries tlvEd25519 found.signature) :
    ∃ found', entries.foldlM (absorb .regularArea) found = .ok found' := by
  induction entries generalizing found with
  | nil => exact ⟨found, rfl⟩
  | cons e rest ih =>
    have hfits' : ∀ e ∈ rest, collects e.type = true → e.value.length ≤ 64 :=
      fun e' he' => hfits e' (List.mem_cons_of_mem _ he')
    rw [List.foldlM_cons, absorb_eq (hfits e (by simp))]
    by_cases htk : e.type = tlvKeyhash
    · obtain ⟨hnone, ⟨value, hvalue⟩, hrest⟩ := hk.own htk
      have hrec := record_regular.mpr (.keyHash htk hnone value hvalue)
      rw [if_pos (by rw [htk]; rfl), hrec]
      exact ih hfits' (.inl hrest) (hs.other (by rw [htk]; decide))
        (hsig.other (by rw [htk]; decide))
    by_cases hts : e.type = tlvSha256
    · obtain ⟨hnone, ⟨value, hvalue⟩, hrest⟩ := hs.own hts
      have hrec := record_regular.mpr (.sha256 hts hnone value hvalue)
      rw [if_pos (by rw [hts]; rfl), hrec]
      exact ih hfits' (hk.other htk) (.inl hrest) (hsig.other (by rw [hts]; decide))
    by_cases hte : e.type = tlvEd25519
    · obtain ⟨hnone, ⟨value, hvalue⟩, hrest⟩ := hsig.own hte
      have hrec := record_regular.mpr (.signature hte hnone value hvalue)
      rw [if_pos (by rw [hte]; rfl), hrec]
      exact ih hfits' (hk.other htk) (hs.other hts) (.inl hrest)
    by_cases htp : e.type = tlvSigPure
    · rw [record_regular.mpr (.pure htp)]
      exact ih hfits' (hk.other htk) (hs.other hts) (hsig.other hte)
    · rw [record_regular.mpr (.unknown htk hts hte htp)]
      exact ih hfits' (hk.other htk) (hs.other hts) (hsig.other hte)

theorem protected_ok {entries : List Tlv}
    (hfits : ∀ e ∈ entries, collects e.type = true → e.value.length ≤ 64)
    (hv : Free entries tlvUuidVid found.vid) (hc : Free entries tlvUuidCid found.cid) :
    ∃ found', entries.foldlM (absorb .protectedArea) found = .ok found' := by
  induction entries generalizing found with
  | nil => exact ⟨found, rfl⟩
  | cons e rest ih =>
    have hfits' : ∀ e ∈ rest, collects e.type = true → e.value.length ≤ 64 :=
      fun e' he' => hfits e' (List.mem_cons_of_mem _ he')
    rw [List.foldlM_cons, absorb_eq (hfits e (by simp))]
    by_cases htv : e.type = tlvUuidVid
    · obtain ⟨hnone, ⟨value, hvalue⟩, hrest⟩ := hv.own htv
      have hrec := record_protected.mpr (.vid htv hnone value hvalue)
      rw [if_pos (by rw [htv]; rfl), hrec]
      exact ih hfits' (.inl hrest) (hc.other (by rw [htv]; decide))
    by_cases htc : e.type = tlvUuidCid
    · obtain ⟨hnone, ⟨value, hvalue⟩, hrest⟩ := hc.own htc
      have hrec := record_protected.mpr (.cid htc hnone value hvalue)
      rw [if_pos (by rw [htc]; rfl), hrec]
      exact ih hfits' (hv.other htv) (.inl hrest)
    · rw [record_protected.mpr (.unknown htv htc)]
      exact ih hfits' (hv.other htv) (hc.other htc)

theorem absorbed_fits {kind : TlvAreaKind} {entries : List Tlv}
    (h : entries.foldlM (absorb kind) found = .ok found') :
    ∀ e ∈ entries, collects e.type = true → e.value.length ≤ 64 := by
  induction entries generalizing found with
  | nil => simp
  | cons e rest ih =>
    rw [List.foldlM_cons] at h
    cases ha : absorb kind found e with
    | error e => simp [ha, bind, Except.bind] at h
    | ok found1 =>
      simp only [ha, bind, Except.bind] at h
      intro e' he'
      rcases List.mem_cons.mp he' with rfl | he'
      · exact (absorb_ok ha).1
      · exact ih h e' he'

theorem pureSignature_eq {entries : List Tlv}
    (h : entries.foldlM (absorb .regularArea) found = .ok found') :
    found'.pureSignature = (found.pureSignature || entries.any (·.type == tlvSigPure)) := by
  induction entries generalizing found with
  | nil =>
    obtain rfl := Except.ok.inj h
    simp
  | cons e rest ih =>
    rw [List.foldlM_cons] at h
    cases ha : absorb .regularArea found e with
    | error e => simp [ha, bind, Except.bind] at h
    | ok found1 =>
      simp only [ha, bind, Except.bind] at h
      rw [ih h, List.any_cons]
      have hrec := record_regular.mp (absorb_ok ha).2
      have hfirst : found1.pureSignature = (found.pureSignature || e.type == tlvSigPure) := by
        cases hrec with
        | pure ht => rw [ht]; simp
        | keyHash ht => rw [ht]; simp [tlvKeyhash, tlvSigPure]
        | sha256 ht => rw [ht]; simp [tlvSha256, tlvSigPure]
        | signature ht => rw [ht]; simp [tlvEd25519, tlvSigPure]
        | unknown _ _ _ hp => simp [hp]
      rw [hfirst, Bool.or_assoc]


end TlvArea

end Microtun.Mcuboot
