import Microtun.Firmware.Sink
import Microtun.Lib.Except
import Mathlib.Data.List.Basic

/-! What the sink does to a flash: every word is programmed once, in a sector that was erased
before. -/

namespace Microtun.Firmware

/-- The partitions of `memory.x`, by their lengths. -/
structure Layout (chip : Chip) where
  bootloader : Nat
  state : Nat
  active : Nat
  dfu : Nat
  configuration : Nat
  words : ∀ n ∈ [bootloader, state, active, dfu, configuration], chip.WRITE_SIZE ∣ n
  sectors : ∀ n ∈ [bootloader, state, active, dfu, configuration], chip.MAX_ERASE_SIZE ∣ n
  larger : active ≤ dfu
  fits : chip.FLASH_BASE + (bootloader + state + active + dfu + configuration) < 2 ^ 32

namespace Layout

variable {chip : Chip} (layout : Layout chip)

def size : Nat := layout.bootloader + layout.state + layout.active + layout.dfu +
    layout.configuration

/-- The partition that the linker symbols of ACTIVE bound. -/
def activePartition : Partition where
  start := chip.FLASH_BASE + layout.bootloader + layout.state
  stop := chip.FLASH_BASE + layout.bootloader + layout.state + layout.active

/-- The partition that the linker symbols of DFU bound. -/
def dfuPartition : Partition where
  start := layout.activePartition.stop
  stop := layout.activePartition.stop + layout.dfu

/-- Where DFU begins in the flash. -/
def offset : Nat := layout.bootloader + layout.state + layout.active

@[simp] theorem len_activePartition : layout.activePartition.len = layout.active := by
  simp only [Partition.len, activePartition]
  omega

@[simp] theorem len_dfuPartition : layout.dfuPartition.len = layout.dfu := by
  simp only [Partition.len, dfuPartition]
  omega

@[simp] theorem flashOffset_dfuPartition : layout.dfuPartition.flashOffset chip =
    layout.offset := by
  simp only [Partition.flashOffset, dfuPartition, activePartition, offset]
  omega

theorem word_offset : chip.WRITE_SIZE ∣ layout.offset :=
  Nat.dvd_add (Nat.dvd_add (layout.words _ (by simp)) (layout.words _ (by simp)))
    (layout.words _ (by simp))

theorem sector_offset : chip.MAX_ERASE_SIZE ∣ layout.offset :=
  Nat.dvd_add (Nat.dvd_add (layout.sectors _ (by simp)) (layout.sectors _ (by simp)))
    (layout.sectors _ (by simp))

theorem offset_add_dfu : layout.offset + layout.dfu ≤ layout.size := Nat.le_add_right _ _

theorem addU32_offset {n : Nat} (h : n ≤ layout.dfu) :
    addU32 (layout.dfuPartition.flashOffset chip) n = layout.offset + n := by
  have hfits := layout.fits
  rw [flashOffset_dfuPartition, addU32, Nat.mod_eq_of_lt]
  rw [offset]
  omega

theorem active_lt : layout.active < 2 ^ 32 := by
  have := layout.fits
  omega

end Layout

/-! ### Flash -/

/-- A flash that does what its driver says: `none` is erased, and only what is erased can be
programmed. -/
structure NorFlash.Reliable {σ ε : Type} (F : NorFlash σ ε) (chip : Chip) (size : Nat)
    (contents : σ → Nat → Option UInt8) : Prop where
  erase : ∀ flash start stop, chip.MAX_ERASE_SIZE ∣ start → chip.MAX_ERASE_SIZE ∣ stop →
    start < stop →
    stop ≤ size → ∃ flash', F.erase flash start stop = (.ok (), flash') ∧
      ∀ i, contents flash' i = if start ≤ i ∧ i < stop then none else contents flash i
  write : ∀ flash offset bytes, chip.WRITE_SIZE ∣ offset → chip.WRITE_SIZE ∣ bytes.length →
    offset + bytes.length ≤ size →
    (∀ i, offset ≤ i → i < offset + bytes.length → contents flash i = none) →
    ∃ flash', F.write flash offset bytes = (.ok (), flash') ∧
      ∀ i, contents flash' i =
        if offset ≤ i ∧ i < offset + bytes.length then bytes[i - offset]? else contents flash i

/-- A call erases or programs a byte. -/
def FlashCall.Covers : FlashCall → Nat → Prop
  | .erase start stop, i => start ≤ i ∧ i < stop
  | .write offset bytes, i => offset ≤ i ∧ i < offset + bytes.length
  | .read .., _ => False

/-- A call programs a byte. -/
def FlashCall.Programs : FlashCall → Nat → Prop
  | .write offset bytes, i => offset ≤ i ∧ i < offset + bytes.length
  | _, _ => False

variable (chip : Chip) (layout : Layout chip)

/-- What may be done to a flash after what was done to it: to erase a sector of DFU that was neither
erased nor programmed, and to program words of DFU that were not programmed, in sectors that were
erased. -/
def Allowed (before : List FlashCall) : FlashCall → Prop
  | .erase start stop =>
    chip.MAX_ERASE_SIZE ∣ start ∧ stop = start + chip.MAX_ERASE_SIZE ∧
    layout.offset ≤ start ∧ stop ≤ layout.offset + layout.dfu ∧
    ∀ i, start ≤ i → i < stop → ∀ call ∈ before, ¬call.Covers i
  | .write offset bytes =>
    chip.WRITE_SIZE ∣ offset ∧ chip.WRITE_SIZE ∣ bytes.length ∧
    layout.offset ≤ offset ∧ offset + bytes.length ≤ layout.offset + layout.dfu ∧
    ∀ i, offset ≤ i → i < offset + bytes.length →
      (let sector := i / chip.MAX_ERASE_SIZE * chip.MAX_ERASE_SIZE
       .erase sector (sector + chip.MAX_ERASE_SIZE) ∈ before) ∧
      ∀ call ∈ before, ¬call.Programs i
  | .read .. => False

/-- Everything that was done was allowed after what was done before it. -/
inductive Careful : List FlashCall → Prop where
  | nil : Careful []
  | append {before : List FlashCall} {call : FlashCall} :
    Careful before → Allowed chip layout before call → Careful (before ++ [call])

variable {chip layout} {σ ε : Type} {F : NorFlash σ ε} {contents : σ → Nat → Option UInt8}
  {initial : Nat → Option UInt8} {sink : Stm32FirmwareSink σ} {done bytes : List UInt8}

/-- The words that were programmed hold `done`, and the sectors from there on that were erased are
free. -/
structure Programmed (chip : Chip) (layout : Layout chip) (contents : σ → Nat → Option UInt8)
    (initial : Nat → Option UInt8) (sink : Stm32FirmwareSink σ) (done : List UInt8) : Prop where
  written : sink.writtenOffset = done.length
  words : chip.WRITE_SIZE ∣ done.length
  sectors : chip.MAX_ERASE_SIZE ∣ sink.erasedUntil
  erased_le : sink.erasedUntil ≤ layout.dfu
  le_erased : done.length ≤ sink.erasedUntil
  stored : ∀ i, layout.offset ≤ i → i < layout.offset + done.length →
    contents sink.flash i = done[i - layout.offset]?
  free : ∀ i, layout.offset + done.length ≤ i → i < layout.offset + sink.erasedUntil →
    contents sink.flash i = none
  others : ∀ i, i < layout.offset ∨ layout.offset + sink.erasedUntil ≤ i → contents sink.flash i =
    initial i
  careful : Careful chip layout sink.calls
  erases : ∀ i, layout.offset ≤ i → i < layout.offset + sink.erasedUntil →
    let sector := i / chip.MAX_ERASE_SIZE * chip.MAX_ERASE_SIZE
    .erase sector (sector + chip.MAX_ERASE_SIZE) ∈ sink.calls
  covers : ∀ call ∈ sink.calls, ∀ i, call.Covers i → i < layout.offset + sink.erasedUntil
  programs : ∀ call ∈ sink.calls, ∀ i, call.Programs i → i < layout.offset + done.length

theorem sector_eq {size start i : Nat} (hstart : size ∣ start) (hlow : start ≤ i)
    (hhigh : i < start + size) : i / size * size = start := by
  obtain ⟨k, rfl⟩ := hstart
  have hsize : 0 < size := by omega
  have hdiv : i / size = k := by
    apply Nat.div_eq_of_lt_le
    · rw [Nat.mul_comm]
      exact hlow
    · rw [Nat.add_mul, Nat.mul_comm k, Nat.one_mul]
      exact hhigh
  rw [hdiv, Nat.mul_comm]

theorem Programmed.erase (hF : F.Reliable chip layout.size contents)
    (h : Programmed chip layout contents initial sink done)
    (hroom : sink.erasedUntil + chip.MAX_ERASE_SIZE ≤ layout.dfu) :
    ∃ flash, F.erase sink.flash (layout.offset + sink.erasedUntil)
        (layout.offset + (sink.erasedUntil + chip.MAX_ERASE_SIZE)) = (.ok (), flash) ∧
      Programmed chip layout contents initial { sink with
        flash := flash
        erasedUntil := sink.erasedUntil + chip.MAX_ERASE_SIZE
        calls := sink.calls ++ [.erase (layout.offset + sink.erasedUntil)
          (layout.offset + (sink.erasedUntil + chip.MAX_ERASE_SIZE))] } done := by
  have hpos := chip.erase_pos
  have hsize := layout.offset_add_dfu
  have hstart : chip.MAX_ERASE_SIZE ∣ layout.offset + sink.erasedUntil :=
    Nat.dvd_add layout.sector_offset h.sectors
  have hstop : chip.MAX_ERASE_SIZE ∣ layout.offset + (sink.erasedUntil + chip.MAX_ERASE_SIZE) :=
    Nat.dvd_add layout.sector_offset (Nat.dvd_add h.sectors (Nat.dvd_refl _))
  obtain ⟨flash, herase, hcontents⟩ := hF.erase sink.flash _ _ hstart hstop (by omega) (by omega)
  have hle := h.le_erased
  refine ⟨flash, herase, ?_⟩
  exact {
    written := h.written
    words := h.words
    sectors := Nat.dvd_add h.sectors (Nat.dvd_refl _)
    erased_le := hroom
    le_erased := by simp only; omega
    stored := by
      intro i hlow hhigh
      simp only
      rw [hcontents, if_neg (by omega), h.stored i hlow hhigh]
    free := by
      intro i hlow hhigh
      simp only at hhigh ⊢
      rw [hcontents]
      split
      · rfl
      · exact h.free i hlow (by omega)
    others := by
      intro i hi
      simp only at hi ⊢
      rw [hcontents, if_neg (by omega), h.others i (by omega)]
    careful := by
      refine .append h.careful
        ⟨hstart, by omega, by omega, by omega, fun i hlow _ call hcall hcovers => ?_⟩
      have := h.covers call hcall i hcovers
      omega
    erases := by
      intro i hlow hhigh
      simp only at hhigh ⊢
      by_cases hi : i < layout.offset + sink.erasedUntil
      · exact List.mem_append_left _ (h.erases i hlow hi)
      · rw [sector_eq hstart (by omega) (by omega), Nat.add_assoc]
        exact List.mem_append_right _ (List.mem_singleton_self _)
    covers := by
      intro call hcall i hcovers
      simp only at hcall ⊢
      rcases List.mem_append.mp hcall with hcall | hcall
      · have := h.covers call hcall i hcovers
        omega
      · rw [List.mem_singleton.mp hcall] at hcovers
        exact hcovers.2
    programs := by
      intro call hcall i hprograms
      rcases List.mem_append.mp hcall with hcall | hcall
      · exact h.programs call hcall i hprograms
      · rw [List.mem_singleton.mp hcall] at hprograms
        exact hprograms.elim }

theorem Programmed.write (hF : F.Reliable chip layout.size contents)
    (h : Programmed chip layout contents initial sink done)
    (hwords : chip.WRITE_SIZE ∣ bytes.length)
    (hroom : done.length + bytes.length ≤ sink.erasedUntil) :
    ∃ flash, F.write sink.flash (layout.offset + done.length) bytes = (.ok (), flash) ∧
      Programmed chip layout contents initial { sink with
        flash := flash
        writtenOffset := done.length + bytes.length
        calls := sink.calls ++ [.write (layout.offset + done.length) bytes] } (done ++ bytes) := by
  have hsize := layout.offset_add_dfu
  have herased := h.erased_le
  have hoffset : chip.WRITE_SIZE ∣ layout.offset + done.length :=
    Nat.dvd_add layout.word_offset h.words
  obtain ⟨flash, hwrite, hcontents⟩ := hF.write sink.flash _ bytes hoffset hwords (by omega)
    fun i hlow hhigh => h.free i hlow (by omega)
  refine ⟨flash, hwrite, ?_⟩
  exact {
    written := List.length_append.symm
    words := by
      rw [List.length_append]
      exact Nat.dvd_add h.words hwords
    sectors := h.sectors
    erased_le := h.erased_le
    le_erased := by
      rw [List.length_append]
      exact hroom
    stored := by
      intro i hlow hhigh
      rw [List.length_append] at hhigh
      simp only
      rw [hcontents]
      split
      next hi =>
        rw [List.getElem?_append_right (by omega), Nat.sub_sub]
      next hi =>
        rw [h.stored i hlow (by omega), List.getElem?_append_left (by omega)]
    free := by
      intro i hlow hhigh
      rw [List.length_append] at hlow
      simp only at hhigh ⊢
      rw [hcontents, if_neg (by omega), h.free i (by omega) hhigh]
    others := by
      intro i hi
      simp only at hi ⊢
      rw [hcontents, if_neg (by omega), h.others i hi]
    careful := by
      refine .append h.careful ⟨hoffset, hwords, by omega, by omega, fun i hlow hhigh => ⟨?_, ?_⟩⟩
      · exact h.erases i (by omega) (by omega)
      · intro call hcall hprograms
        have := h.programs call hcall i hprograms
        omega
    erases := fun i hlow hhigh => List.mem_append_left _ (h.erases i hlow hhigh)
    covers := by
      intro call hcall i hcovers
      simp only at hcall ⊢
      rcases List.mem_append.mp hcall with hcall | hcall
      · exact h.covers call hcall i hcovers
      · rw [List.mem_singleton.mp hcall] at hcovers
        exact Nat.lt_of_lt_of_le hcovers.2 (by omega)
    programs := by
      intro call hcall i hprograms
      rw [List.length_append]
      rcases List.mem_append.mp hcall with hcall | hcall
      · have := h.programs call hcall i hprograms
        omega
      · rw [List.mem_singleton.mp hcall] at hprograms
        exact Nat.lt_of_lt_of_le hprograms.2 (by omega) }

/-! ### Sectors and words -/

open Stm32FirmwareSink

/-- What the flash operations change of a sink. -/
def moved (sink : Stm32FirmwareSink σ) (flash : σ) (written erased : Nat) (calls : List FlashCall) :
    Stm32FirmwareSink σ :=
  { sink with flash := flash, writtenOffset := written, erasedUntil := erased, calls := calls }

theorem ensureErased_spec (hF : F.Reliable chip layout.size contents) (stop : Nat)
    (h : Programmed chip layout contents initial sink done) (hstop : stop ≤ layout.dfu) :
    ∃ flash erased calls, ensureErased chip layout.dfuPartition F sink stop =
        .ok (moved sink flash sink.writtenOffset erased calls) ∧
      Programmed chip layout contents initial (moved sink flash sink.writtenOffset erased calls)
        done ∧ stop ≤ erased := by
  induction hn : stop - sink.erasedUntil using Nat.strongRecOn generalizing sink with
  | ind n ih =>
    rw [ensureErased]
    by_cases herased : sink.erasedUntil < stop
    · have hpos := chip.erase_pos
      have hdfu : chip.MAX_ERASE_SIZE ∣ layout.dfu := layout.sectors _ (by simp)
      -- DFU ends with a sector, so there is one more
      have hroom : sink.erasedUntil + chip.MAX_ERASE_SIZE ≤ layout.dfu := by
        obtain ⟨a, ha⟩ := h.sectors
        obtain ⟨b, hb⟩ := hdfu
        have hab : a < b := by
          refine Nat.lt_of_mul_lt_mul_left (a := chip.MAX_ERASE_SIZE) ?_
          omega
        rw [ha, hb, ← Nat.mul_succ]
        exact Nat.mul_le_mul_left _ hab
      have hfits := layout.fits
      obtain ⟨flash, herase, hnext⟩ := h.erase hF hroom
      obtain ⟨flash', erased, calls, hrest, hprogrammed, hle⟩ :=
        ih (stop - (sink.erasedUntil + chip.MAX_ERASE_SIZE)) (by omega) hnext rfl
      refine ⟨flash', erased, calls, ?_, hprogrammed, hle⟩
      rw [if_pos herased]
      simp only [layout.addU32_offset hroom, layout.addU32_offset h.erased_le, herase,
        layout.len_dfuPartition]
      rw [if_neg (by omega), if_neg (by omega)]
      exact hrest
    · exact ⟨sink.flash, sink.erasedUntil, sink.calls, if_neg herased, h, Nat.not_lt.mp herased⟩

theorem writeAligned_spec (hF : F.Reliable chip layout.size contents)
    (h : Programmed chip layout contents initial sink done)
    (hwords : chip.WRITE_SIZE ∣ bytes.length) (hroom : done.length + bytes.length ≤ layout.active) :
    ∃ flash written erased calls,
      writeAligned chip layout.activePartition layout.dfuPartition F sink bytes =
        .ok (moved sink flash written erased calls) ∧
      Programmed chip layout contents initial (moved sink flash written erased calls)
        (done ++ bytes) := by
  have hactive := layout.active_lt
  have hlarger := layout.larger
  have hlength : bytes.length % 2 ^ 32 = bytes.length := Nat.mod_eq_of_lt (by omega)
  obtain ⟨flash, erased, calls, herase, herased, hle⟩ :=
    ensureErased_spec hF (done.length + bytes.length) h
    (by omega)
  obtain ⟨flash', hwrite, hprogrammed⟩ := herased.write hF hwords hle
  refine ⟨flash', _, erased, _, ?_, hprogrammed⟩
  rw [writeAligned, if_neg (by rw [Nat.mod_eq_zero_of_dvd hwords]; exact fun h => h rfl), h.written,
    hlength]
  simp only [layout.len_activePartition]
  rw [if_neg (by omega), if_neg (by omega)]
  refine bind_eq_ok.mpr ⟨_, herase, ?_⟩
  have hoffset : addU32 (layout.dfuPartition.flashOffset chip) done.length =
      layout.offset + done.length :=
    layout.addU32_offset (by omega)
  simp only [moved, h.written, hoffset] at hwrite ⊢
  rw [hwrite]
  rfl

end Microtun.Firmware
