import Microtun.Ws.Sent

/-! What a connection reads off the wire, however its reads cut the bytes. -/

namespace Microtun.Ws

variable {σ K : Type} {target : Target} {w : Writer σ K} {c : Connection σ K} {buf : List UInt8}

/-- What follows a turn. -/
def Turn.finish (target : Target) (w : Writer σ K) :
    Turn σ K → Except (Error K) Nat × Connection σ K × List UInt8
  | .again c buf => c.receive target w buf
  | .done result c buf => (result, c, buf)

theorem receive_eq : c.receive target w buf = (c.turn target w buf).finish target w := by
  rw [Connection.receive]
  split
  · next heq =>
    rw [heq]
    rfl
  · next heq =>
    rw [heq]
    rfl

/-- A read gives the first of the bytes to come, and no more than are asked for. -/
theorem Reader.fill_part {r : Reader K} {bytes rest : List UInt8} (hbytes : r.bytes = bytes ++ rest)
    (hpos : 0 < bytes.length) :
    ∃ first last r', r.fill bytes.length = (.ok first, r') ∧ bytes = first ++ last ∧
      0 < first.length ∧ r'.bytes = last ++ rest ∧ r.Took first r' := by
  have hsome : r.bytes ≠ [] := by
    intro hnil
    rw [hnil] at hbytes
    have hlength := congrArg List.length hbytes
    simp only [List.length_nil, List.length_append] at hlength
    omega
  have hfill : r.fill bytes.length =
      (.ok (r.bytes.take (min bytes.length (max 1 (r.sizes r.reads)))),
        { r with
          bytes := r.bytes.drop (min bytes.length (max 1 (r.sizes r.reads)))
          reads := r.reads + 1 }) := by
    unfold Reader.fill
    rw [if_neg hsome, if_neg (by omega)]
  obtain ⟨htook, hfirst, -⟩ := Reader.fill_ok hfill
  refine ⟨_, bytes.drop (min bytes.length (max 1 (r.sizes r.reads))), _, hfill, ?_, hfirst, ?_,
    htook⟩
  · rw [hbytes, List.take_append_of_le_length (Nat.min_le_left _ _), List.take_append_drop]
  · dsimp only
    rw [hbytes, List.drop_append_of_le_length (Nat.min_le_left _ _)]

/-! ### The three phases -/

theorem receive_header {read bytes rest : List UInt8} {need : Nat}
    (hphase : c.phase = .header read need) (hneed : read.length + bytes.length = need)
    (hpos : 0 < bytes.length) (hbytes : c.reader.bytes = bytes ++ rest) :
    ∃ reader phase, c.reader.Took bytes reader ∧ reader.bytes = rest ∧
      c.receive target w buf =
        (Connection.headerRead target { c with reader, phase } (read ++ bytes) need buf).finish
          target w := by
  induction hn : bytes.length using Nat.strong_induction_on generalizing c read bytes with
  | _ n ih =>
  obtain ⟨first, last, reader, hfill, rfl, hfirst, hrest, htook⟩ := Reader.fill_part hbytes hpos
  have hlen : need - read.length = (first ++ last).length := by omega
  rw [List.length_append] at hneed hn
  have hturn : c.turn target w buf =
      if (read ++ first).length < need then
        .again { c with reader, phase := .header (read ++ first) need } buf
      else Connection.headerRead target { c with reader } (read ++ first) need buf := by
    unfold Connection.turn
    simp only [hphase, hlen, hfill]
  rw [receive_eq, hturn, List.length_append]
  by_cases hmore : read.length + first.length < need
  · rw [if_pos hmore]
    have hlast : 0 < last.length := by omega
    obtain ⟨reader', phase, htook', hbytes', hreceive⟩ := ih last.length (by omega)
      (c := { c with reader, phase := .header (read ++ first) need }) rfl
      (by rw [List.length_append]; omega) hlast hrest rfl
    refine ⟨reader', phase, htook.trans htook', hbytes', ?_⟩
    rw [← List.append_assoc]
    exact hreceive
  · rw [if_neg hmore]
    obtain rfl : last = [] := List.eq_nil_of_length_eq_zero (by omega)
    rw [List.append_nil]
    exact ⟨reader, c.phase, htook, hrest, rfl⟩

theorem receive_control {opcode : UInt8} {read bytes rest : List UInt8} {key : Option (Bytes 4)}
    (hphase : c.phase = .control opcode read bytes.length key)
    (hbytes : c.reader.bytes = bytes ++ rest) :
    ∃ reader, c.reader.Took bytes reader ∧ reader.bytes = rest ∧
      c.receive target w buf =
        ({ c with reader, phase := .control opcode (read ++ bytes) 0 key } :
          Connection σ K).receive target w buf := by
  induction hn : bytes.length using Nat.strong_induction_on generalizing c read bytes with
  | _ n ih =>
  by_cases hempty : bytes = []
  · subst hempty
    refine ⟨c.reader, ⟨rfl, rfl, rfl⟩, hbytes, ?_⟩
    rw [List.append_nil, ← List.length_nil (α := UInt8), ← hphase]
  · obtain ⟨first, last, reader, hfill, rfl, hfirst, hrest, htook⟩ :=
      Reader.fill_part hbytes (List.length_pos_iff.mpr hempty)
    have hlen : (first ++ last).length - first.length = last.length := by
      rw [List.length_append]
      omega
    have hturn : c.turn target w buf =
        .again { c with reader, phase := .control opcode (read ++ first) last.length key } buf := by
      unfold Connection.turn
      simp only [hphase, hfill, if_pos (List.length_pos_iff.mpr hempty), hlen]
    rw [List.length_append] at hn
    obtain ⟨reader', htook', hbytes', hreceive⟩ := ih last.length (by omega)
      (c := { c with reader, phase := .control opcode (read ++ first) last.length key }) rfl hrest
        rfl
    refine ⟨reader', htook.trans htook', hbytes', ?_⟩
    rw [receive_eq, hturn, ← List.append_assoc]
    exact hreceive

theorem take_setField {buf data : List UInt8} {filled : Nat}
    (h : filled + data.length ≤ buf.length) :
    (setField buf ⟨filled, filled + data.length⟩ data).take (filled + data.length) =
        buf.take filled ++ data ∧
      (setField buf ⟨filled, filled + data.length⟩ data).length = buf.length := by
  constructor
  · unfold setField
    apply List.take_left'
    rw [List.length_append, List.length_take]
    dsimp only
    omega
  · exact length_setField (Nat.le_add_right _ _) h (by dsimp only; omega)

theorem unmask_append (key : Option (Bytes 4)) (offset : Nat) (data data' : List UInt8) :
    (Connection.unmask key offset (data ++ data')).1 = (Connection.unmask key offset data).1 ++
        (Connection.unmask key (Connection.unmask key offset data).2 data').1 := by
  cases key with
  | none => rfl
  | some key => exact congrArg Prod.fst (applyMask_append key offset data data')

theorem length_unmask (key : Option (Bytes 4)) (offset : Nat) (data : List UInt8) :
    (Connection.unmask key offset data).1.length = data.length := by
  cases key with
  | none => rfl
  | some key => exact length_applyMask key offset data

theorem unmask_unmask (key : Option (Bytes 4)) (offset : Nat) (data : List UInt8) :
    (Connection.unmask key offset (Connection.unmask key offset data).1).1 = data := by
  cases key with
  | none => rfl
  | some key => exact applyMask_applyMask key offset data

/-- A payload arrives, in any number of reads, and stands unmasked behind what the buffer has of the
message. -/
theorem receive_payload {bytes rest : List UInt8} {key : Option (Bytes 4)} {offset : Nat}
    {fin : Bool} (hphase : c.phase = .payload bytes.length key offset fin)
    (hroom : c.filled + bytes.length ≤ buf.length) (hbytes : c.reader.bytes = bytes ++ rest) :
    ∃ reader offset' buf', c.reader.Took bytes reader ∧ reader.bytes = rest ∧
      buf'.length = buf.length ∧
      buf'.take (c.filled + bytes.length) =
        buf.take c.filled ++ (Connection.unmask key offset bytes).1 ∧
      c.receive target w buf =
        ({ c with
            reader
            filled := c.filled + bytes.length
            phase := .payload 0 key offset' fin } : Connection σ K).receive target w buf' := by
  induction hn : bytes.length using Nat.strong_induction_on generalizing c bytes offset buf with
  | _ n ih =>
  by_cases hempty : bytes = []
  · subst hempty
    obtain rfl : 0 = n := hn
    refine ⟨c.reader, offset, buf, ⟨rfl, rfl, rfl⟩, hbytes, rfl, ?_, ?_⟩
    · rw [Nat.add_zero, List.eq_nil_of_length_eq_zero (length_unmask key offset []),
        List.append_nil]
    · rw [Nat.add_zero, ← List.length_nil (α := UInt8), ← hphase]
  · obtain ⟨first, last, reader, hfill, rfl, hfirst, hrest, htook⟩ :=
      Reader.fill_part hbytes (List.length_pos_iff.mpr hempty)
    have hpos : (first ++ last).length ≠ 0 := fun h => hempty (List.eq_nil_of_length_eq_zero h)
    have hlen : (first ++ last).length - first.length = last.length := by
      rw [List.length_append]
      omega
    have hturn : c.turn target w buf =
        .again
          { c with
            reader
            filled := c.filled + first.length
            phase := .payload last.length key (Connection.unmask key offset first).2 fin }
          (setField buf ⟨c.filled, c.filled + first.length⟩
            (Connection.unmask key offset first).1) := by
      unfold Connection.turn
      simp only [hphase, hfill, if_neg hpos, hlen]
    rw [List.length_append] at hn hroom
    have hdata := length_unmask key offset first
    have hfits : c.filled + (Connection.unmask key offset first).1.length ≤ buf.length := by omega
    obtain ⟨htake, hlength⟩ := take_setField hfits
    rw [hdata] at htake hlength
    obtain ⟨reader', offset', buf', htook', hbytes', hlength', htake', hreceive⟩ := ih last.length
      (by omega)
      (show ({ c with
        reader
        filled := c.filled + first.length
        phase := .payload last.length key (Connection.unmask key offset first).2 fin } :
          Connection σ K).phase = _ from rfl)
      (show c.filled + first.length + last.length ≤
        (setField buf ⟨c.filled, c.filled + first.length⟩
        (Connection.unmask key offset first).1).length by omega) hrest rfl
    refine ⟨reader', offset', buf', htook.trans htook', hbytes', hlength'.trans hlength, ?_, ?_⟩
    · rw [← hn, ← Nat.add_assoc, htake', htake, unmask_append, List.append_assoc]
    · rw [receive_eq, hturn, ← hn, ← Nat.add_assoc]
      exact hreceive

/-! ### Frames -/

/-- How long a header is by its first two bytes. -/
def Prefix.headerLen (p : Prefix) : Nat := 2 + extendedLenBytes p.len7 + if p.masked then 4 else 0

theorem headerRead_grows {first second : UInt8} {p : Prefix}
    (hdecoded : decodePrefix first second = (.ok p : Except (Error K) Prefix))
    (hlen : 2 < p.headerLen) :
    Connection.headerRead target c [first, second] 2 buf =
      .again { c with phase := .header [first, second] p.headerLen } buf := by
  have hfull : 2 + extendedLenBytes p.len7 + (if p.masked then 4 else 0) > 2 := hlen
  simp only [Connection.headerRead, if_true, List.getD_cons_zero, List.getD_cons_succ, hdecoded,
    bind, Except.bind]
  rw [if_pos hfull]
  rfl

theorem headerRead_done {read : List UInt8} {need : Nat} {next : Phase} {p : Prefix}
    (hdecoded : decodePrefix (read.getD 0 0) (read.getD 1 0) = (.ok p : Except (Error K) Prefix))
    (hlen : need = p.headerLen)
    (hnext : Connection.beginFrame target c read buf.length = .ok next) :
    Connection.headerRead target c read need buf = .again { c with phase := next } buf := by
  unfold Connection.headerRead
  by_cases hneed : need = 2
  · have hfull : ¬2 + extendedLenBytes p.len7 + (if p.masked then 4 else 0) > 2 := by
      unfold Prefix.headerLen at hlen
      omega
    simp only [if_pos hneed, hdecoded, bind, Except.bind]
    rw [if_neg hfull, hnext]
  · simp only [if_neg hneed, hnext]

theorem receive_encodeHeader {fin : Bool} {opcode : UInt8} {len : Nat} {key : Option (Bytes 4)}
    {rest : List UInt8} {next : Phase} (hopcode : opcode ∈ knownOpcodes) (hphase : c.phase = .start)
    (hbytes : c.reader.bytes = encodeHeader fin opcode len key ++ rest)
    (hnext : Connection.beginFrame target c (encodeHeader fin opcode len key) buf.length =
      .ok next) :
    ∃ reader, c.reader.Took (encodeHeader fin opcode len key) reader ∧ reader.bytes = rest ∧
      c.receive target w buf =
        ({ c with reader, phase := next } : Connection σ K).receive target w buf := by
  have hdecoded := decodePrefix_encode (K := K) fin key.isSome hopcode len
  have hextended := length_extended len
  rw [encodeHeader_eq] at hbytes hnext ⊢
  generalize (if fin then 0x80 ||| opcode else opcode) = first at *
  generalize ((if key.isSome then 0x80 else 0x00) ||| len7 len : UInt8) = second at *
  generalize hmore : extended len ++ keyBytes key = more at *
  have hlength : ({ fin, opcode, masked := key.isSome, len7 := len7 len } : Prefix).headerLen =
      2 + more.length := by
    rw [← hmore, List.length_append, hextended]
    cases key with
    | none => rfl
    | some key => simp [keyBytes, Prefix.headerLen, Nat.add_assoc]
  obtain ⟨reader, phase, htook, hrest, hreceive⟩ :
      ∃ reader phase, c.reader.Took ([first, second] : List UInt8) reader ∧
        reader.bytes = more ++ rest ∧ c.receive target w buf =
          (Connection.headerRead target { c with reader, phase } [first, second] 2 buf).finish
            target w := receive_header hphase rfl (Nat.zero_lt_succ _) hbytes
  rw [hreceive]
  by_cases hshort : more = []
  · subst hshort
    refine ⟨reader, htook, hrest, ?_⟩
    have hdone : Connection.headerRead target { c with reader, phase } [first, second] 2 buf =
        .again { c with reader, phase := next } buf := headerRead_done hdecoded hlength.symm hnext
    rw [hdone]
    rfl
  · have hpos := List.length_pos_iff.mpr hshort
    rw [headerRead_grows hdecoded (by omega)]
    let opened : Connection σ K := { c with
      reader
      phase := .header [first, second]
        ({ fin, opcode, masked := key.isSome, len7 := len7 len } : Prefix).headerLen }
    have hopened : opened.phase = .header [first, second]
        ({ fin, opcode, masked := key.isSome, len7 := len7 len } : Prefix).headerLen := rfl
    have hneed : ([first, second] : List UInt8).length + more.length =
        ({ fin, opcode, masked := key.isSome, len7 := len7 len } : Prefix).headerLen := hlength.symm
    obtain ⟨reader', phase', htook', hrest', hreceive'⟩ :
        ∃ reader' phase', reader.Took more reader' ∧ reader'.bytes = rest ∧
          opened.receive target w buf =
            (Connection.headerRead target { c with reader := reader', phase := phase' }
              ([first, second] ++ more)
              ({ fin, opcode, masked := key.isSome, len7 := len7 len } : Prefix).headerLen
                buf).finish
              target w := receive_header hopened hneed hpos hrest
    have hdone : Connection.headerRead target { c with reader := reader', phase := phase' }
        ([first, second] ++ more)
        ({ fin, opcode, masked := key.isSome, len7 := len7 len } : Prefix).headerLen buf =
          .again { c with reader := reader', phase := next } buf :=
            headerRead_done hdecoded rfl hnext
    refine ⟨reader', htook.trans htook', hrest', ?_⟩
    rw [hdone] at hreceive'
    exact hreceive'

end Microtun.Ws
