import Microtun.Firmware.Programmed

/-! However a payload is cut into chunks, the sink programs it word by word. -/

namespace Microtun.Firmware

open Stm32FirmwareSink

variable {chip : Chip} {layout : Layout chip} {σ ε : Type} {F : NorFlash σ ε}
  {contents : σ → Nat → Option UInt8} {initial : Nat → Option UInt8} {sink : Stm32FirmwareSink σ}
  {received done rest bytes : List UInt8}

/-! ### The vector table -/

/-- The first bytes of what was received are captured, and are checked once there are enough. -/
structure Captured (active : Partition) (sink : Stm32FirmwareSink σ) (received : List UInt8) :
    Prop where
  size : sink.vector.length = 8
  length : sink.vectorLen = min 8 received.length
  vector : sink.vector.take (min 8 received.length) = received.take 8
  checked : sink.vectorChecked = decide (8 ≤ received.length)
  valid : 8 ≤ received.length → ValidVector active (received.take 8)

/-- A vector table that came with these bytes is refused. -/
def Refuses (active : Partition) (received : List UInt8) : Prop :=
  8 ≤ received.length ∧ ¬ValidVector active (received.take 8)

/-- What the capture changes of a sink. -/
def captured (sink : Stm32FirmwareSink σ) (vector : List UInt8) (vectorLen : Nat) (checked : Bool) :
    Stm32FirmwareSink σ :=
  { sink with vector := vector, vectorLen := vectorLen, vectorChecked := checked }

theorem captureVector_spec {active : Partition} (h : Captured active sink received) :
    (Refuses active (received ++ bytes) →
      captureVector active sink bytes = (fail .invalidVectorTable : Sinking ε _)) ∧
    (¬Refuses active (received ++ bytes) → ∃ vector vectorLen checked,
      captureVector active sink bytes =
        (.ok (captured sink vector vectorLen checked) : Sinking ε _) ∧
      Captured active (captured sink vector vectorLen checked) (received ++ bytes)) := by
  by_cases hlong : 8 ≤ received.length
  · have htake : (received ++ bytes).take 8 = received.take 8 := List.take_append_of_le_length hlong
    have hlength : 8 ≤ (received ++ bytes).length := by
      rw [List.length_append]
      omega
    refine ⟨fun ⟨_, hbad⟩ => absurd (htake ▸ h.valid hlong) hbad, fun _ => ?_⟩
    refine ⟨sink.vector, sink.vectorLen, sink.vectorChecked, ?_, ?_⟩
    · rw [captureVector, if_pos (by rw [h.checked, decide_eq_true hlong]; rfl)]
      rfl
    · have hmin : min 8 (received ++ bytes).length = min 8 received.length := by omega
      exact ⟨h.size, by rw [hmin]; exact h.length, by rw [hmin, htake]; exact h.vector,
        by rw [decide_eq_true hlength, ← decide_eq_true hlong]; exact h.checked, fun _ =>
          htake ▸ h.valid hlong⟩
  · have hmin : min 8 received.length = received.length := by omega
    have hshort : received.take 8 = received := List.take_of_length_le (by omega)
    have hvector : sink.vector.take received.length = received := by
      rw [← hmin, h.vector, hshort]
    obtain ⟨part, hpart⟩ : ∃ part, bytes.take (min (8 - received.length) bytes.length) = part :=
      ⟨_, rfl⟩
    have hpartlen : part.length = min (8 - received.length) bytes.length := by
      rw [← hpart, List.length_take]
      omega
    have hfront : received ++ part = (received ++ bytes).take 8 := by
      rw [List.take_append, hshort, ← hpart, ← List.take_eq_take_min]
    have hroom : received.length + part.length ≤ sink.vector.length := by
      rw [h.size]
      omega
    obtain ⟨vector, hcopied⟩ : ∃ vector, sink.vector.take received.length ++ part ++
      sink.vector.drop (received.length + part.length) = vector := ⟨_, rfl⟩
    have hcopy : copyAt sink.vector received.length part = .ok vector := by
      rw [copyAt_ok hroom, hcopied]
    have hsize : vector.length = 8 := by
      rw [← hcopied, length_copied hroom, h.size]
    have htake : vector.take (received.length + part.length) = (received ++ bytes).take 8 := by
      rw [← hcopied, take_copied hvector rfl, hfront]
    have hlen : received.length + part.length = min 8 (received ++ bytes).length := by
      rw [List.length_append]
      omega
    have hcapture : captureVector active sink bytes =
        (if received.length + part.length = vector.length then do
          (captured sink vector (received.length + part.length) false).validateVector active
          return captured sink vector (received.length + part.length) true
        else return captured sink vector (received.length + part.length) false : Sinking ε _) := by
      have hne : received.length ≠ 8 := by omega
      have hchecked : sink.vectorChecked = false := h.checked.trans (decide_eq_false hlong)
      rw [captureVector, hchecked, h.length, hmin, h.size]
      have htaken : bytes.take part.length = part := by rw [hpartlen, hpart]
      simp only [Bool.false_or, beq_iff_eq, hne, if_false, ← hpartlen, htaken, hcopy]
      rfl
    rw [hcapture, hsize]
    by_cases hfull : received.length + part.length = 8
    · have hall : vector = (received ++ bytes).take 8 := by
        rw [← htake, hfull, List.take_of_length_le (by omega)]
      have hlength : 8 ≤ (received ++ bytes).length := by omega
      rw [if_pos hfull, validateVector]
      simp only [captured, hall]
      constructor
      · rintro ⟨-, hbad⟩
        rw [if_neg hbad]
        rfl
      · intro hgood
        have hvalid : ValidVector active ((received ++ bytes).take 8) :=
          Decidable.of_not_not fun hbad => hgood ⟨hlength, hbad⟩
        rw [if_pos hvalid]
        refine ⟨_, _, true, rfl, ?_, hlen, ?_, (decide_eq_true hlength).symm, fun _ => hvalid⟩
        · rw [← hall, hsize]
        · simp only
          rw [← hlen, hfull, List.take_take, Nat.min_self]
    · have hlength : ¬8 ≤ (received ++ bytes).length := by omega
      rw [if_neg hfull]
      refine ⟨fun hbad => absurd hbad.1 hlength, fun _ =>
        ⟨vector, _, false, rfl, hsize, hlen, ?_, ?_, fun h8 => absurd h8 hlength⟩⟩
      · rw [← hlen]
        exact htake
      · exact (decide_eq_false hlength).symm

/-! ### Words -/

/-- Words were programmed, and less than a word is pending. -/
structure Pending (chip : Chip) (layout : Layout chip) (contents : σ → Nat → Option UInt8)
    (initial : Nat → Option UInt8) (sink : Stm32FirmwareSink σ) (done rest : List UInt8) :
      Prop where
  short : rest.length < chip.WRITE_SIZE
  pendingLen : sink.pendingLen = rest.length
  size : sink.pending.length = chip.WRITE_SIZE
  pending : sink.pending.take rest.length = rest
  programmed : Programmed chip layout contents initial sink done

/-- What the words change of a sink. -/
def carried (sink : Stm32FirmwareSink σ) (flash : σ) (written erased : Nat) (pending : List UInt8)
    (pendingLen : Nat) (calls : List FlashCall) : Stm32FirmwareSink σ :=
  { sink with
    flash := flash, writtenOffset := written, erasedUntil := erased, pending :=
      pending, pendingLen := pendingLen
    calls := calls }

/-- A sink that is left with the vector table and the offset of another one. -/
def Carried (sink sink' : Stm32FirmwareSink σ) : Prop :=
  ∃ flash written erased pending pendingLen calls, sink' =
    carried sink flash written erased pending pendingLen calls

theorem Carried.refl (sink : Stm32FirmwareSink σ) : Carried sink sink := ⟨_, _, _, _, _, _, rfl⟩

theorem Carried.trans {s s' s'' : Stm32FirmwareSink σ} (h : Carried s s') (h' : Carried s' s'') :
    Carried s s'' := by
  obtain ⟨_, _, _, _, _, _, rfl⟩ := h
  obtain ⟨_, _, _, _, _, _, rfl⟩ := h'
  exact ⟨_, _, _, _, _, _, rfl⟩

theorem Programmed.of_eq {sink' : Stm32FirmwareSink σ}
    (h : Programmed chip layout contents initial sink done) (hflash : sink'.flash = sink.flash)
    (hwritten : sink'.writtenOffset = sink.writtenOffset)
    (herased : sink'.erasedUntil = sink.erasedUntil) (hcalls : sink'.calls = sink.calls) :
    Programmed chip layout contents initial sink' done := by
  cases sink
  cases sink'
  simp only at hflash hwritten herased hcalls
  subst hflash hwritten herased hcalls
  exact { h with }

/-- The word that is pending is filled, and is programmed once it is full. -/
theorem fillPending_spec (hF : F.Reliable chip layout.size contents)
    (h : Pending chip layout contents initial sink done rest)
    (hroom : done.length + rest.length + bytes.length ≤ layout.active) : ∃ sink' done' rest' bytes',
      fillPending chip layout.activePartition layout.dfuPartition F sink bytes =
        .ok (sink', bytes') ∧
      Carried sink sink' ∧ Pending chip layout contents initial sink' done' rest' ∧
      done' ++ rest' ++ bytes' = done ++ rest ++ bytes ∧ (rest' = [] ∨ bytes' = []) := by
  rw [fillPending, h.pendingLen]
  by_cases hnone : rest = []
  · subst hnone
    exact ⟨sink, done, [], bytes, if_neg (fun hne => hne rfl), .refl _, h, rfl, .inl rfl⟩
  · have hshort := h.short
    rw [if_pos (fun hzero => hnone (List.length_eq_zero_iff.mp hzero))]
    obtain ⟨part, hpart⟩ : ∃ part, bytes.take (min (chip.WRITE_SIZE - rest.length) bytes.length) =
      part := ⟨_, rfl⟩
    have hpartlen : part.length = min (chip.WRITE_SIZE - rest.length) bytes.length := by
      rw [← hpart, List.length_take]
      omega
    have htaken : bytes.take part.length = part := by rw [hpartlen, hpart]
    have hsplit : part ++ bytes.drop part.length = bytes := by
      have := List.take_append_drop part.length bytes
      rwa [htaken] at this
    have hcopyroom : rest.length + part.length ≤ sink.pending.length := by
      rw [h.size]
      omega
    obtain ⟨pending, hcopied⟩ : ∃ pending, sink.pending.take rest.length ++ part ++
      sink.pending.drop (rest.length + part.length) = pending := ⟨_, rfl⟩
    have hcopy : copyAt sink.pending rest.length part = .ok pending := by
      rw [copyAt_ok hcopyroom, hcopied]
    have hsize : pending.length = chip.WRITE_SIZE := by
      rw [← hcopied, length_copied hcopyroom, h.size]
    have htake : pending.take (rest.length + part.length) = rest ++ part := by
      rw [← hcopied, take_copied h.pending rfl]
    have hsink : Programmed chip layout contents initial
        { sink with pending := pending, pendingLen := rest.length + part.length } done :=
      h.programmed.of_eq rfl rfl rfl rfl
    simp only [← hpartlen, htaken, hcopy]
    by_cases hfull : rest.length + part.length = chip.WRITE_SIZE
    · have hword : pending = rest ++ part := by
        rw [← htake, List.take_of_length_le (by omega)]
      have hpartle : part.length ≤ bytes.length := by omega
      obtain ⟨flash, written, erased, calls, hwrite, hprogrammed⟩ :=
        writeAligned_spec hF hsink (by rw [hsize]) (by rw [hsize]; omega)
      refine ⟨{ moved { sink with pending := pending, pendingLen := rest.length + part.length }
        flash written erased
        calls with pendingLen := 0, pending := List.replicate pending.length 0xff },
          done ++ pending, [], bytes.drop part.length, ?_, ⟨_, _, _, _, _, _, rfl⟩,
          ⟨chip.write_pos, rfl, ?_, rfl,
          hprogrammed.of_eq rfl rfl rfl rfl⟩, ?_, .inl rfl⟩
      · refine bind_eq_ok.mpr ⟨pending, rfl, ?_⟩
        rw [if_pos hfull]
        exact bind_eq_ok.mpr ⟨_, hwrite, rfl⟩
      · simp only [List.length_replicate]
        exact hsize
      · rw [hword, List.append_nil, List.append_assoc, List.append_assoc, List.append_assoc, hsplit]
    · have hall : part.length = bytes.length := by omega
      have hnil : bytes.drop part.length = [] := by rw [hall, List.drop_length]
      have hbytes : part = bytes := by rw [← htaken, hall, List.take_length]
      refine ⟨_, done, rest ++ part, bytes.drop part.length, ?_,
        ⟨sink.flash, sink.writtenOffset, sink.erasedUntil, pending, rest.length + part.length,
        sink.calls, rfl⟩, ⟨?_, ?_, hsize, ?_, hsink⟩, ?_, .inr hnil⟩
      · refine bind_eq_ok.mpr ⟨pending, rfl, ?_⟩
        rw [if_neg hfull]
        rfl
      · rw [List.length_append]
        omega
      · exact List.length_append.symm
      · rw [List.length_append]
        exact htake
      · rw [hnil, hbytes, List.append_nil, List.append_assoc]

theorem writeWords_spec (hF : F.Reliable chip layout.size contents)
    (h : Pending chip layout contents initial sink done rest) (hone : rest = [] ∨ bytes = [])
    (hroom : done.length + rest.length + bytes.length ≤ layout.active) : ∃ sink' done' bytes',
      writeWords chip layout.activePartition layout.dfuPartition F sink bytes =
        .ok (sink', bytes') ∧
      Carried sink sink' ∧ Pending chip layout contents initial sink' done' rest ∧
      done' ++ rest ++ bytes' = done ++ rest ++ bytes ∧ bytes'.length < chip.WRITE_SIZE ∧
      (rest = [] ∨ bytes' = []) := by
  have hpos := chip.write_pos
  have hdivmod := Nat.div_add_mod' bytes.length chip.WRITE_SIZE
  have hmod := Nat.mod_lt bytes.length hpos
  rw [writeWords]
  by_cases hzero : bytes.length / chip.WRITE_SIZE * chip.WRITE_SIZE = 0
  · exact ⟨sink, done, bytes, if_neg (fun hne => hne hzero), .refl _, h, rfl, by omega, hone⟩
  · have hnone : rest = [] := hone.resolve_right (by rintro rfl; exact hzero (by simp))
    subst hnone
    have hlength : (bytes.take (bytes.length / chip.WRITE_SIZE * chip.WRITE_SIZE)).length =
        bytes.length / chip.WRITE_SIZE * chip.WRITE_SIZE := List.length_take_of_le (by omega)
    obtain ⟨flash, written, erased, calls, hwrite, hprogrammed⟩ :=
      writeAligned_spec hF h.programmed
        (by rw [hlength]; exact Nat.dvd_mul_left _ _) (by rw [hlength]; omega)
    refine ⟨_, _, bytes.drop (bytes.length / chip.WRITE_SIZE * chip.WRITE_SIZE), ?_,
      ⟨flash, written, erased, sink.pending, sink.pendingLen, calls, rfl⟩,
      ⟨hpos, h.pendingLen, h.size, rfl, hprogrammed⟩, ?_, ?_, .inl rfl⟩
    · rw [if_pos hzero]
      exact bind_eq_ok.mpr ⟨_, hwrite, rfl⟩
    · rw [List.append_nil, List.append_nil, List.append_assoc, List.take_append_drop]
    · rw [List.length_drop]
      omega

theorem keepPending_spec (h : Pending chip layout contents initial sink done rest)
    (hone : rest = [] ∨ bytes = []) (hlength : bytes.length < chip.WRITE_SIZE) :
    ∃ sink', keepPending sink bytes = (.ok sink' : Sinking ε _) ∧ Carried sink sink' ∧
      Pending chip layout contents initial sink' done (rest ++ bytes) := by
  rw [keepPending]
  by_cases hbytes : bytes = []
  · subst hbytes
    rw [List.append_nil]
    exact ⟨sink, if_neg (fun hne => hne rfl), .refl _, h⟩
  · have hnone := hone.resolve_right hbytes
    subst hnone
    have hroom : 0 + bytes.length ≤ sink.pending.length := by
      rw [h.size]
      omega
    obtain ⟨pending, hcopied⟩ : ∃ pending,
      sink.pending.take 0 ++ bytes ++ sink.pending.drop (0 + bytes.length) = pending := ⟨_, rfl⟩
    refine ⟨{ sink with pending := pending, pendingLen := bytes.length }, ?_,
      ⟨sink.flash, sink.writtenOffset, sink.erasedUntil, pending, bytes.length, sink.calls, rfl⟩,
      ⟨hlength, rfl, ?_, ?_, h.programmed.of_eq rfl rfl rfl rfl⟩⟩
    · rw [if_pos hbytes, copyAt_ok hroom, hcopied]
      rfl
    · rw [← h.size, ← length_copied hroom, hcopied]
    · have htake : _ = [] ++ bytes := take_copied h.pending rfl
      rw [List.length_nil, hcopied, Nat.zero_add] at htake
      exact htake

/-! ### Calls -/

/-- What the sink holds after a part of the payload. -/
structure Holding (chip : Chip) (layout : Layout chip) (contents : σ → Nat → Option UInt8)
    (initial : Nat → Option UInt8) (sink : Stm32FirmwareSink σ) (received : List UInt8) : Prop where
  logical : sink.logicalOffset = received.length
  captured : Captured layout.activePartition sink received
  pending : ∃ done rest, received = done ++ rest ∧
    Pending chip layout contents initial sink done rest

theorem Captured.of_carried {active : Partition} {sink' : Stm32FirmwareSink σ}
    (h : Captured active sink received) (hcarried : Carried sink sink') :
    Captured active sink' received := by
  obtain ⟨_, _, _, _, _, _, rfl⟩ := hcarried
  exact { h with }

theorem Pending.of_captured {vector : List UInt8} {vectorLen : Nat} {checked : Bool}
    (h : Pending chip layout contents initial sink done rest) :
    Pending chip layout contents initial (captured sink vector vectorLen checked) done rest :=
  { h with programmed := h.programmed.of_eq rfl rfl rfl rfl }

theorem holding_new (flash : σ) : Holding chip layout contents (contents flash) (new chip flash)
    [] where
  logical := rfl
  captured := ⟨rfl, rfl, rfl, rfl, fun h => absurd h (by decide)⟩
  pending := by
    refine ⟨[], [], rfl, chip.write_pos, rfl, List.length_replicate, rfl, ?_⟩
    exact {
      written := rfl
      words := Nat.dvd_zero _
      sectors := Nat.dvd_zero _
      erased_le := Nat.zero_le _
      le_erased := Nat.le_refl _
      stored := fun i hlow hhigh => absurd hhigh (Nat.not_lt.mpr hlow)
      free := fun i hlow hhigh => absurd hhigh (Nat.not_lt.mpr hlow)
      others := fun _ _ => rfl
      careful := .nil
      erases := fun i hlow hhigh => absurd hhigh (Nat.not_lt.mpr hlow)
      covers := List.forall_mem_nil _
      programs := List.forall_mem_nil _ }

/-- A chunk that fits, and with which the vector table is not refused, is received. -/
theorem write_ok (hF : F.Reliable chip layout.size contents)
    (h : Holding chip layout contents initial sink received)
    (hroom : (received ++ bytes).length ≤ layout.active)
    (hvector : ¬Refuses layout.activePartition (received ++ bytes)) :
    ∃ sink', write chip layout.activePartition layout.dfuPartition F sink received.length bytes =
      .ok sink' ∧ Holding chip layout contents initial sink' (received ++ bytes) := by
  obtain ⟨done, rest, rfl, hpending⟩ := h.pending
  have hactive := layout.active_lt
  have hlengths := hroom
  rw [List.length_append, List.length_append] at hlengths
  have hmod : bytes.length % 2 ^ 32 = bytes.length := Nat.mod_eq_of_lt (by omega)
  obtain ⟨vector, vectorLen, checked, hcapture, hcaptured⟩ :=
    (captureVector_spec (ε := ε) h.captured).2 hvector
  obtain ⟨sink₁, done₁, rest₁, bytes₁, hfill, hcarried₁, hpending₁, hsplit₁, hone₁⟩ :=
    fillPending_spec hF (hpending.of_captured) hlengths
  have hlengths₁ := congrArg List.length hsplit₁
  simp only [List.length_append] at hlengths₁
  obtain ⟨sink₂, done₂, bytes₂, hwords, hcarried₂, hpending₂, hsplit₂, hshort, hone₂⟩ :=
    writeWords_spec hF hpending₁ hone₁ (by omega)
  obtain ⟨sink₃, hkeep, hcarried₃, hpending₃⟩ := keepPending_spec (ε := ε) hpending₂ hone₂ hshort
  have hcarried := hcarried₁.trans (hcarried₂.trans hcarried₃)
  refine ⟨{ sink₃ with logicalOffset := (done ++ rest).length + bytes.length }, ?_, ?_⟩
  · rw [write, if_neg (fun hne => hne h.logical.symm), hmod]
    simp only [layout.len_activePartition]
    rw [if_neg (by rw [List.length_append]; omega), if_neg (by rw [List.length_append]; omega)]
    refine bind_eq_ok.mpr ⟨_, hcapture, bind_eq_ok.mpr ⟨_, hfill, bind_eq_ok.mpr ⟨_, hwords, ?_⟩⟩⟩
    exact bind_eq_ok.mpr ⟨_, hkeep, rfl⟩
  · refine ⟨List.length_append.symm, { hcaptured.of_carried hcarried with }, done₂, rest₁ ++ bytes₂,
      ?_, { hpending₃ with programmed := hpending₃.programmed.of_eq rfl rfl rfl rfl }⟩
    rw [← List.append_assoc, hsplit₂, hsplit₁]

/-- A chunk with which the vector table is refused, or that is too long, is not received. -/
theorem write_fails (h : Holding chip layout contents initial sink received)
    (hbad : Refuses layout.activePartition (received ++ bytes) ∨
      bytes.length < 2 ^ 32 ∧ layout.active < (received ++ bytes).length) :
    ∃ e, write chip layout.activePartition layout.dfuPartition F sink received.length bytes =
      fail e := by
  rw [write, if_neg (fun hne => hne h.logical.symm)]
  simp only [layout.len_activePartition]
  split
  · exact ⟨_, rfl⟩
  next hwide =>
    split
    · exact ⟨_, rfl⟩
    next hshort =>
      rcases hbad with hbad | ⟨hlength, hlong⟩
      · rw [(captureVector_spec h.captured).1 hbad]
        exact ⟨_, rfl⟩
      · rw [Nat.mod_eq_of_lt hlength] at hshort
        rw [List.length_append] at hlong
        exact absurd hlong hshort

/-- At the end the last word is filled with `0xff`. -/
theorem finish_ok (hF : F.Reliable chip layout.size contents)
    (h : Holding chip layout contents initial sink received)
    (hroom : received.length ≤ layout.active) (hlong : 8 ≤ received.length) :
    ∃ sink' padding, finish chip layout.activePartition layout.dfuPartition F sink = .ok sink' ∧
      padding < chip.WRITE_SIZE ∧
      Programmed chip layout contents initial sink' (received ++ List.replicate padding 0xff) := by
  obtain ⟨done, rest, rfl, hpending⟩ := h.pending
  have hshort := hpending.short
  have hlengths := hroom
  rw [List.length_append] at hlengths
  have hvectorLen : ¬sink.vectorLen ≠ sink.vector.length := by
    rw [h.captured.length, h.captured.size, Nat.min_eq_left hlong]
    exact fun hne => hne rfl
  have hchecked : sink.vectorChecked = true := h.captured.checked.trans (decide_eq_true hlong)
  rw [finish, if_neg hvectorLen]
  have hunchecked : ¬(!sink.vectorChecked) = true := by
    rw [hchecked]
    decide
  simp only [if_neg hunchecked, pure_bind]
  by_cases hnone : rest = []
  · subst hnone
    refine ⟨sink, 0, if_neg (fun hne => hne hpending.pendingLen), chip.write_pos, ?_⟩
    rw [List.append_nil, List.replicate_zero, List.append_nil]
    exact hpending.programmed
  · have hfill : fillAt sink.pending rest.length sink.pending.length 0xff =
        .ok (rest ++ List.replicate (chip.WRITE_SIZE - rest.length) 0xff) := by
      rw [fillAt, if_pos ⟨by rw [hpending.size]; omega, Nat.le_refl _⟩, hpending.pending,
        List.drop_length, List.append_nil, hpending.size]
      rfl
    obtain ⟨word, hword⟩ : ∃ word, rest ++ List.replicate (chip.WRITE_SIZE - rest.length) 0xff =
      word := ⟨_, rfl⟩
    have hsize : word.length = chip.WRITE_SIZE := by
      rw [← hword, List.length_append, List.length_replicate]
      omega
    have hfits : done.length + chip.WRITE_SIZE ≤ layout.active := by
      obtain ⟨a, ha⟩ := hpending.programmed.words
      obtain ⟨b, hb⟩ := layout.words layout.active (by simp)
      have hrest : 0 < rest.length := List.length_pos_iff.mpr hnone
      have hab : a < b := by
        refine Nat.lt_of_mul_lt_mul_left (a := chip.WRITE_SIZE) ?_
        omega
      rw [ha, hb, ← Nat.mul_succ]
      exact Nat.mul_le_mul_left _ hab
    have hsink : Programmed chip layout contents initial { sink with pending := word } done :=
      hpending.programmed.of_eq rfl rfl rfl rfl
    obtain ⟨flash, written, erased, calls, hwrite, hprogrammed⟩ :=
      writeAligned_spec hF hsink (by rw [hsize]) (by rw [hsize]; exact hfits)
    refine ⟨{ moved { sink with pending := word } flash written erased calls with pendingLen := 0 },
      chip.WRITE_SIZE - rest.length, ?_, ?_, ?_⟩
    · rw [if_pos (fun hzero => hnone (List.length_eq_zero_iff.mp (hpending.pendingLen ▸ hzero)))]
      refine bind_eq_ok.mpr ⟨word, ?_, bind_eq_ok.mpr ⟨_, hwrite, rfl⟩⟩
      rw [hpending.pendingLen, hfill, hword]
      rfl
    · have := List.length_pos_iff.mpr hnone
      omega
    · rw [List.append_assoc, hword]
      exact hprogrammed.of_eq rfl rfl rfl rfl

theorem finish_short (h : Holding chip layout contents initial sink received)
    (hshort : received.length < 8) :
    finish chip layout.activePartition layout.dfuPartition F sink = fail .invalidVectorTable := by
  rw [finish, if_pos]
  rw [h.captured.length, h.captured.size]
  omega

/-! ### Payloads -/

theorem not_refuses_of_append {active : Partition} {front back : List UInt8}
    (h : ¬Refuses active (front ++ back)) : ¬Refuses active front := by
  rintro ⟨hlong, hbad⟩
  refine h ⟨?_, ?_⟩
  · rw [List.length_append]
    omega
  · rwa [List.take_append_of_le_length hlong]

theorem writeAll_ok (hF : F.Reliable chip layout.size contents) {chunks : List (List UInt8)}
    (h : Holding chip layout contents initial sink received)
    (hroom : (received ++ chunks.flatten).length ≤ layout.active)
    (hlong : 8 ≤ (received ++ chunks.flatten).length)
    (hvector : ¬Refuses layout.activePartition (received ++ chunks.flatten)) : ∃ sink' padding,
      writeAll chip layout.activePartition layout.dfuPartition F sink received.length chunks =
        .ok sink' ∧ padding < chip.WRITE_SIZE ∧ Programmed chip layout contents initial sink'
        (received ++ chunks.flatten ++ List.replicate padding 0xff) := by
  induction chunks generalizing sink received with
  | nil =>
    rw [List.flatten_nil, List.append_nil] at hroom hlong ⊢
    exact finish_ok hF h hroom hlong
  | cons chunk chunks ih =>
    rw [List.flatten_cons, ← List.append_assoc] at hroom hlong hvector ⊢
    have hchunk : (received ++ chunk).length ≤ layout.active := by
      rw [List.length_append] at hroom
      omega
    obtain ⟨sink₁, hwrite, hholding⟩ := write_ok hF h hchunk (not_refuses_of_append hvector)
    obtain ⟨sink', padding, hrest, hpadding, hprogrammed⟩ := ih hholding hroom hlong hvector
    refine ⟨sink', padding, ?_, hpadding, hprogrammed⟩
    rw [List.length_append] at hrest
    exact bind_eq_ok.mpr ⟨sink₁, hwrite, hrest⟩

theorem writeAll_fails (hF : F.Reliable chip layout.size contents) {chunks : List (List UInt8)}
    (h : Holding chip layout contents initial sink received) (hreceived : received.length < 8)
    (hbad : Refuses layout.activePartition (received ++ chunks.flatten) ∨
      (received ++ chunks.flatten).length < 8) :
    ∃ e, writeAll chip layout.activePartition layout.dfuPartition F sink received.length chunks =
      fail e := by
  induction chunks generalizing sink received with
  | nil => exact ⟨_, finish_short h hreceived⟩
  | cons chunk chunks ih =>
    rw [List.flatten_cons, ← List.append_assoc] at hbad
    have hfail (hfails : ∃ e, write chip layout.activePartition layout.dfuPartition F sink
      received.length chunk =
        fail e) : ∃ e, writeAll chip layout.activePartition layout.dfuPartition F sink
          received.length
          (chunk :: chunks) = fail e := by
      obtain ⟨e, hwrite⟩ := hfails
      rw [writeAll, hwrite]
      exact ⟨e, rfl⟩
    by_cases hlong : 8 ≤ (received ++ chunk).length
    · -- this chunk completes the vector table
      refine hfail (write_fails h (.inl ⟨hlong, ?_⟩))
      rcases hbad with ⟨-, hbad⟩ | hshort
      · rwa [List.take_append_of_le_length hlong] at hbad
      · rw [List.length_append] at hshort
        omega
    · by_cases hroom : (received ++ chunk).length ≤ layout.active
      · obtain ⟨sink₁, hwrite, hholding⟩ := write_ok hF h hroom fun hrefuses => hlong hrefuses.1
        obtain ⟨e, hrest⟩ := ih hholding (by omega) hbad
        rw [List.length_append] at hrest
        refine ⟨e, ?_⟩
        rw [writeAll, hwrite]
        exact hrest
      · refine hfail (write_fails h (.inr ⟨?_, by omega⟩))
        rw [List.length_append] at hlong
        omega

/-- A payload with a valid vector table that fits is programmed, however it is cut: every call
succeeds, DFU holds the payload and `0xff` up to the end of its last word, the rest of the flash but
for sectors of DFU is as it was, every word was programmed once and in a sector that was erased
before, and no sector was erased twice or after one of its words was programmed. With a vector table
that is not valid some call fails. -/
theorem sink_programs_payload {chip : Chip} {layout : Layout chip} {F : NorFlash σ ε}
    {contents : σ → Nat → Option UInt8} (hF : F.Reliable chip layout.size contents) (flash : σ)
    (chunks : List (List UInt8)) :
    let payload := chunks.flatten
    let ran := (new chip flash).writeAll chip layout.activePartition layout.dfuPartition F 0 chunks
    (8 ≤ payload.length → payload.length ≤ layout.activePartition.len →
      ValidVector layout.activePartition (payload.take 8) →
      ∃ sink padding, ran = .ok sink ∧
        padding < chip.WRITE_SIZE ∧ chip.WRITE_SIZE ∣ payload.length + padding ∧
        (∀ i, i < payload.length + padding →
          contents sink.flash (layout.dfuPartition.flashOffset chip + i) =
          (payload ++ List.replicate padding 0xff)[i]?) ∧
        (∀ i, i < layout.dfuPartition.flashOffset chip ∨
            layout.dfuPartition.flashOffset chip + layout.dfuPartition.len ≤ i →
          contents sink.flash i = contents flash i) ∧
        Careful chip layout sink.calls) ∧
    (¬(8 ≤ payload.length ∧ ValidVector layout.activePartition (payload.take 8)) →
      ∃ e, ran = fail e) := by
  intro payload ran
  have hnew : Holding chip layout contents (contents flash) (new chip flash) [] := holding_new flash
  refine ⟨fun hlong hroom hvalid => ?_, fun hbad => ?_⟩
  · rw [layout.len_activePartition] at hroom
    obtain ⟨sink, padding, hran, hpadding, hprogrammed⟩ :=
      writeAll_ok hF hnew hroom hlong fun hrefuses => hrefuses.2 hvalid
    rw [List.nil_append] at hprogrammed
    have hlength : (payload ++ List.replicate padding 0xff).length = payload.length + padding := by
      rw [List.length_append, List.length_replicate]
    refine ⟨sink, padding, hran, hpadding, hlength ▸ hprogrammed.words, fun i hi => ?_, fun i hi =>
      ?_, hprogrammed.careful⟩
    · rw [layout.flashOffset_dfuPartition, hprogrammed.stored _ (Nat.le_add_right _ _)
        (Nat.add_lt_add_left (hlength ▸ hi) _), Nat.add_sub_cancel_left]
    · rw [layout.flashOffset_dfuPartition, layout.len_dfuPartition] at hi
      have := hprogrammed.erased_le
      exact hprogrammed.others i (by omega)
  · refine writeAll_fails hF hnew (by decide) ?_
    by_cases hlong : 8 ≤ payload.length
    · exact .inl ⟨hlong, fun hvalid => hbad ⟨hlong, hvalid⟩⟩
    · exact .inr (Nat.not_le.mp hlong)

/-! ### The board -/

def stm32h753 : Chip where
  FLASH_BASE := 0x08000000
  WRITE_SIZE := 32
  MAX_ERASE_SIZE := 128 * 1024
  write_pos := by decide
  erase_pos := by decide

def memoryMap : Layout stm32h753 where
  bootloader := 128 * 1024
  state := 128 * 1024
  active := 768 * 1024
  dfu := 896 * 1024
  configuration := 128 * 1024
  words := by decide
  sectors := by decide
  larger := by decide
  fits := by decide

/-- A flash by its contents, with the checks of the driver. -/
def norFlash (chip : Chip) (size : Nat) : NorFlash (Nat → Option UInt8) String where
  capacity _ := size
  erase contents start stop :=
    if start % chip.MAX_ERASE_SIZE ≠ 0 ∨
      stop % chip.MAX_ERASE_SIZE ≠ 0 then (.error "Unaligned", contents)
    else if size < stop ∨ stop < start then (.error "Size", contents)
    else (.ok (), fun i => if start ≤ i ∧ i < stop then none else contents i)
  write contents offset bytes :=
    if offset % chip.WRITE_SIZE ≠ 0 ∨
      bytes.length % chip.WRITE_SIZE ≠ 0 then (.error "Unaligned", contents)
    else if size < offset + bytes.length then (.error "Size", contents)
    else if (List.range bytes.length).any fun k =>
      (contents (offset + k)).isSome then (.error "Seq", contents)
    else (.ok (), fun i =>
      if offset ≤ i ∧ i < offset + bytes.length then bytes[i - offset]? else contents i)
  read contents offset buffer :=
    (.ok (), (List.range buffer.length).map fun k => (contents (offset + k)).getD 0xff, contents)

theorem norFlash_reliable (chip : Chip) (size : Nat) :
    (norFlash chip size).Reliable chip size fun contents => contents where
  erase contents start stop hstart hstop hlt hsize := by
    have haligned : ¬(start % chip.MAX_ERASE_SIZE ≠ 0 ∨ stop % chip.MAX_ERASE_SIZE ≠ 0) := by
      rw [Nat.mod_eq_zero_of_dvd hstart, Nat.mod_eq_zero_of_dvd hstop]
      decide
    have hbounds : ¬(size < stop ∨ stop < start) := by omega
    exact ⟨_, (if_neg haligned).trans (if_neg hbounds), fun i => rfl⟩
  write contents offset bytes hoffset hlength hsize hfree := by
    have haligned : ¬(offset % chip.WRITE_SIZE ≠ 0 ∨ bytes.length % chip.WRITE_SIZE ≠ 0) := by
      rw [Nat.mod_eq_zero_of_dvd hoffset, Nat.mod_eq_zero_of_dvd hlength]
      decide
    have herased : ¬((List.range bytes.length).any fun k => (contents (offset + k)).isSome) =
        true := by
      rw [List.any_eq_true]
      rintro ⟨k, hk, hsome⟩
      rw [hfree _ (Nat.le_add_right _ _) (Nat.add_lt_add_left (List.mem_range.mp hk) _)] at hsome
      cases hsome
    exact ⟨_, (if_neg haligned).trans ((if_neg (Nat.not_lt.mpr hsize)).trans (if_neg herased)),
      fun i => rfl⟩

theorem sink_programs_vector : ∃ sink padding,
    writeAll stm32h753 memoryMap.activePartition memoryMap.dfuPartition
      (norFlash stm32h753 memoryMap.size)
        (new stm32h753 fun _ => some 0) 0 [[0, 0, 8], [], [0x24, 1, 1, 4, 8]] = .ok sink ∧
      padding < stm32h753.WRITE_SIZE ∧ stm32h753.WRITE_SIZE ∣ 8 + padding ∧
      Careful stm32h753 memoryMap sink.calls := by
  obtain ⟨sink, padding, hran, hpadding, hwords, -, -, hcareful⟩ :=
    (sink_programs_payload (norFlash_reliable stm32h753 memoryMap.size) (fun _ => some 0)
      [[0, 0, 8], [], [0x24, 1, 1, 4, 8]]).1 (by decide) (by decide) (by decide)
  exact ⟨sink, padding, hran, hpadding, hwords, hcareful⟩

end Microtun.Firmware
