import Microtun.Mcuboot
import Mathlib.Data.List.Basic

/-! A TLV area byte by byte.  Its parts may arrive in any pieces: a piece does what its bytes do one
after the other. -/

namespace Microtun.Mcuboot

namespace TlvArea

variable {area area' : TlvArea} {found found' : FoundTlvs} {input : List UInt8}

/-- How many bytes the present part of the area still lacks. -/
def room (area : TlvArea) : Nat :=
  if area.info.length < 4 then 4 - area.info.length
  else if area.entryHeader.length < 4 then 4 - area.entryHeader.length
  else area.entryLen - area.entryFill

/-- An area between two bytes: every part that was complete has been acted on, and the entry that is
open ends within the area. -/
structure Steady (area : TlvArea) : Prop where
  info : area.info.length ≤ 4
  entryHeader : area.entryHeader.length ≤ 4
  unknown : area.info.length < 4 → area.total = none
  fresh : area.info.length < 4 → area.entryHeader = []
  known : area.info.length = 4 → area.total.isSome = true
  unfinished : area.entryHeader.length = 4 → area.entryFill < area.entryLen
  within : ∀ total, area.total = some total → area.entryHeader.length = 4 →
    area.consumed + (area.entryLen - area.entryFill) ≤ total
  early : area.info.length < 4 → area.consumed = area.info.length
  bounded : ∀ total, area.total = some total → area.consumed ≤ total
  expected : ∀ total, area.total = some total →
    ∀ expected, area.expectedTotal = some expected → total = expected

theorem steady_new (kind : TlvAreaKind) (magic : Nat) (expected : Option Nat) :
    (new kind magic expected).Steady :=
  ⟨by simp [new], by simp [new], by simp [new], by simp [new], by simp [new], by simp [new],
    by simp [new], by simp [new], by simp [new], by simp [new]⟩

theorem Steady.room_pos (h : area.Steady) : 0 < area.room := by
  unfold room
  by_cases hi : area.info.length < 4
  · rw [if_pos hi]
    omega
  · rw [if_neg hi]
    by_cases hh : area.entryHeader.length < 4
    · rw [if_pos hh]
      omega
    · rw [if_neg hh]
      have := h.unfinished (by have := h.entryHeader; omega)
      omega

/-- The area with more of its start. -/
def withInfo (area : TlvArea) (bytes : List UInt8) : TlvArea :=
  { area with info := area.info ++ bytes, consumed := area.consumed + bytes.length }

/-- The area with more of an entry's type and length. -/
def withEntryHeader (area : TlvArea) (bytes : List UInt8) : TlvArea :=
  { area with
    entryHeader := area.entryHeader ++ bytes
    consumed := area.consumed + bytes.length }

/-- The area with more of an entry's value. -/
def withEntryValue (area : TlvArea) (bytes : List UInt8) : TlvArea :=
  { area with
    entryValue := if area.entryCollect then area.entryValue ++ bytes else area.entryValue
    entryFill := area.entryFill + bytes.length
    consumed := area.consumed + bytes.length }

theorem feedInfo_short {bytes : List UInt8} (h : area.info.length + bytes.length < 4) :
    area.feedInfo bytes = .ok (area.withInfo bytes) := by
  unfold feedInfo
  simp only [List.length_append]
  rw [if_neg (by omega)]
  rfl

theorem feedInfo_append (xs ys : List UInt8) :
    area.feedInfo (xs ++ ys) = (area.withInfo xs).feedInfo ys := by
  simp [feedInfo, withInfo, List.append_assoc, Nat.add_assoc]

theorem feedEntryHeader_short {total : Nat} {bytes : List UInt8}
    (h : area.entryHeader.length + bytes.length < 4) :
    area.feedEntryHeader found total bytes = .ok (area.withEntryHeader bytes, found) := by
  unfold feedEntryHeader
  simp only [List.length_append]
  rw [if_neg (by omega)]
  rfl

theorem feedEntryHeader_append {total : Nat} (xs ys : List UInt8) :
    area.feedEntryHeader found total (xs ++ ys) =
      (area.withEntryHeader xs).feedEntryHeader found total ys := by
  simp [feedEntryHeader, withEntryHeader, List.append_assoc, Nat.add_assoc]

theorem feedEntryValue_short {bytes : List UInt8}
    (h : area.entryFill + bytes.length < area.entryLen) :
    area.feedEntryValue found bytes = .ok (area.withEntryValue bytes, found) := by
  unfold feedEntryValue
  simp only
  rw [if_neg (by omega)]
  rfl

theorem feedEntryValue_append (xs ys : List UInt8) :
    area.feedEntryValue found (xs ++ ys) = (area.withEntryValue xs).feedEntryValue found ys := by
  cases hc : area.entryCollect <;>
    simp [feedEntryValue, withEntryValue, hc, List.append_assoc, Nat.add_assoc]

/-- What the bytes of one round do. -/
def part (area : TlvArea) (found : FoundTlvs) (bytes : List UInt8) :
    Except Error (TlvArea × FoundTlvs) :=
  if area.info.length < 4 then do
    let area ← area.feedInfo bytes
    .ok (area, found)
  else
    match area.total with
    | none => .error .invalidTlvAreaSize
    | some total =>
      if area.entryHeader.length < 4 then
        if total - area.consumed < 4 - area.entryHeader.length then .error .truncatedTlv
        else area.feedEntryHeader found total bytes
      else area.feedEntryValue found bytes

theorem feedRound_eq (area : TlvArea) (found : FoundTlvs) (input : List UInt8) :
    area.feedRound found input = (do
      let (area', found') ← area.part found (input.take (min area.room input.length))
      .ok (area', found', min area.room input.length)) := by
  unfold feedRound part room
  by_cases hi : area.info.length < 4
  · simp only [if_pos hi]
    cases area.feedInfo (input.take (min (4 - area.info.length) input.length)) <;> rfl
  · simp only [if_neg hi]
    cases area.total with
    | none => rfl
    | some total =>
      by_cases hh : area.entryHeader.length < 4
      · simp only [if_pos hh]
        by_cases ht : total - area.consumed < 4 - area.entryHeader.length
        · simp only [if_pos ht]
          rfl
        · simp only [if_neg ht]
      · simp only [if_neg hh]

theorem part_append (h : area.Steady) {xs : List UInt8} (hlt : xs.length < area.room)
    (hne : xs ≠ []) :
    (∀ ys, area.part found (xs ++ ys) = .error .truncatedTlv) ∨
      ∃ area', area'.Steady ∧ area'.isComplete = false ∧ area'.room = area.room - xs.length ∧
        ∀ ys, area.part found (xs ++ ys) =
          if ys.isEmpty then .ok (area', found) else area'.part found ys := by
  have hpos : 0 < xs.length := List.length_pos_iff.mpr hne
  unfold room at hlt ⊢
  by_cases hi : area.info.length < 4
  · -- the start of the area
    rw [if_pos hi] at hlt
    have hnone := h.unknown hi
    have hi' : (area.withInfo xs).info.length < 4 := by simp [withInfo]; omega
    refine .inr ⟨area.withInfo xs, ?_, ?_, ?_, ?_⟩
    · have hno : ∀ total, (area.withInfo xs).total ≠ some total := fun total ht =>
        absurd (hnone.symm.trans ht) (by simp)
      exact ⟨by omega, h.entryHeader, fun _ => hnone, fun _ => h.fresh hi, fun h4 => by omega,
        h.unfinished, fun total ht => absurd ht (hno total),
        fun _ => by simp [withInfo, h.early hi], fun total ht => absurd ht (hno total),
        fun total ht => absurd ht (hno total)⟩
    · unfold isComplete
      rw [show (area.withInfo xs).total = none from hnone]
      rfl
    · rw [if_pos hi', if_pos hi]
      simp [withInfo]
      omega
    · intro ys
      unfold part
      rw [if_pos hi, if_pos hi', feedInfo_append]
      cases ys with
      | nil => rw [feedInfo_short (by simpa [withInfo] using hi')]; simp [withInfo]; rfl
      | cons y ys => rfl
  · have hfour : area.info.length = 4 := by have := h.info; omega
    obtain ⟨total, ht⟩ := Option.isSome_iff_exists.mp (h.known hfour)
    rw [if_neg hi] at hlt
    by_cases hh : area.entryHeader.length < 4
    · -- the type and length of an entry
      rw [if_pos hh] at hlt
      by_cases hroom : total - area.consumed < 4 - area.entryHeader.length
      · left
        intro ys
        unfold part
        simp only [if_neg hi, ht, if_pos hh, if_pos hroom]
      · have hh' : (area.withEntryHeader xs).entryHeader.length < 4 := by
          simp [withEntryHeader]; omega
        refine .inr ⟨area.withEntryHeader xs, ?_, ?_, ?_, ?_⟩
        · refine ⟨h.info, by omega, h.unknown, fun h4 => absurd h4 hi, h.known, fun h4 => by omega,
            fun _ _ h4 => by omega, fun h4 => absurd h4 hi, ?_, h.expected⟩
          intro total' ht'
          obtain rfl : total' = total := Option.some.inj (ht'.symm.trans ht)
          simp [withEntryHeader]
          omega
        · unfold isComplete
          rw [show (area.withEntryHeader xs).total = some total from ht]
          simp [withEntryHeader]
          omega
        · have hi'' : ¬(area.withEntryHeader xs).info.length < 4 := hi
          rw [if_neg hi'', if_pos hh', if_neg hi, if_pos hh]
          simp [withEntryHeader]
          omega
        · intro ys
          unfold part
          have hi'' : ¬(area.withEntryHeader xs).info.length < 4 := hi
          have ht' : (area.withEntryHeader xs).total = some total := ht
          have hroom' : ¬total - (area.withEntryHeader xs).consumed <
              4 - (area.withEntryHeader xs).entryHeader.length := by
            simp [withEntryHeader]; omega
          simp only [if_neg hi, if_neg hi'', ht, ht', if_pos hh, if_pos hh', if_neg hroom,
            if_neg hroom', feedEntryHeader_append]
          cases ys with
          | nil =>
            rw [feedEntryHeader_short (by simpa [withEntryHeader] using hh')]
            simp [withEntryHeader]
          | cons y ys => rfl
    · -- the value of an entry
      have hheader : area.entryHeader.length = 4 := by have := h.entryHeader; omega
      have hwithin := h.within total ht hheader
      rw [if_neg hh] at hlt
      have hlt' : (area.withEntryValue xs).entryFill < (area.withEntryValue xs).entryLen := by
        simp [withEntryValue]; omega
      refine .inr ⟨area.withEntryValue xs, ?_, ?_, ?_, ?_⟩
      · have hwithin' : area.consumed + xs.length ≤ total := by omega
        refine ⟨h.info, h.entryHeader, h.unknown, h.fresh, h.known, fun _ => hlt', ?_,
          fun h4 => absurd h4 hi, ?_, h.expected⟩
        · intro total' ht' _
          obtain rfl : total' = total := Option.some.inj (ht'.symm.trans ht)
          simp [withEntryValue]
          omega
        · intro total' ht'
          obtain rfl : total' = total := Option.some.inj (ht'.symm.trans ht)
          exact hwithin'
      · unfold isComplete
        rw [show (area.withEntryValue xs).total = some total from ht]
        simp [withEntryValue]
        omega
      · have hi'' : ¬(area.withEntryValue xs).info.length < 4 := hi
        have hh'' : ¬(area.withEntryValue xs).entryHeader.length < 4 := hh
        rw [if_neg hi'', if_neg hh'', if_neg hi, if_neg hh]
        simp [withEntryValue]
        omega
      · intro ys
        unfold part
        have hi'' : ¬(area.withEntryValue xs).info.length < 4 := hi
        have hh'' : ¬(area.withEntryValue xs).entryHeader.length < 4 := hh
        have ht' : (area.withEntryValue xs).total = some total := ht
        simp only [if_neg hi, if_neg hi'', ht, ht', if_neg hh, if_neg hh'', feedEntryValue_append]
        cases ys with
        | nil =>
          rw [feedEntryValue_short (by simpa [withEntryValue] using hlt')]
          cases hc : area.entryCollect <;> simp [withEntryValue, hc]
        | cons y ys => rfl

theorem finishEntry_steady (hfour : area.info.length = 4) (hknown : area.total.isSome = true)
    (hbounded : ∀ total, area.total = some total → area.consumed ≤ total)
    (hexpected : ∀ total, area.total = some total →
      ∀ expected, area.expectedTotal = some expected → total = expected)
    (h : area.finishEntry found = .ok (area', found')) :
    area'.Steady ∧ area'.consumed = area.consumed := by
  unfold finishEntry at h
  cases hr : record area.kind area.entryType area.entryValue found with
  | error e => simp [hr, bind, Except.bind] at h
  | ok found1 =>
    simp only [hr, bind, Except.bind, Except.ok.injEq, Prod.mk.injEq] at h
    obtain ⟨rfl, -⟩ := h
    exact ⟨⟨Nat.le_of_eq hfour, by simp, fun h4 => by simp at h4; omega, fun _ => rfl,
      fun _ => hknown, by simp, by simp, fun h4 => by simp at h4; omega, hbounded, hexpected⟩, rfl⟩

theorem part_steady (h : area.Steady) {bytes : List UInt8} (hle : bytes.length ≤ area.room)
    (hne : bytes ≠ []) (hok : area.part found bytes = .ok (area', found')) :
    area'.Steady ∧ area'.consumed = area.consumed + bytes.length := by
  have hpos : 0 < bytes.length := List.length_pos_iff.mpr hne
  unfold room at hle
  unfold part at hok
  by_cases hi : area.info.length < 4
  · rw [if_pos hi] at hok hle
    unfold feedInfo at hok
    simp only [List.length_append] at hok
    by_cases hfull : area.info.length + bytes.length = 4
    · rw [if_pos hfull] at hok
      by_cases hm : ofLeBytes (field (area.info ++ bytes) ⟨0, 2⟩) ≠ area.expectedMagic
      · simp [if_pos hm, bind, Except.bind] at hok
      rw [if_neg hm] at hok
      by_cases ht : ofLeBytes (field (area.info ++ bytes) ⟨2, 4⟩) < 4
      · simp [if_pos ht, bind, Except.bind] at hok
      rw [if_neg ht] at hok
      by_cases he : area.expectedTotal.any
        (fun expected => ofLeBytes (field (area.info ++ bytes) ⟨2, 4⟩) != expected)
      · simp only [if_pos he, bind, Except.bind, reduceCtorEq] at hok
      simp only [if_neg he, bind, Except.bind, Except.ok.injEq, Prod.mk.injEq] at hok
      obtain ⟨rfl, -⟩ := hok
      have hearly := h.early hi
      refine ⟨⟨by simp; omega, h.entryHeader, fun h4 => by simp at h4; omega,
        fun _ => h.fresh hi, fun _ => rfl, h.unfinished, fun _ _ h4 => ?_,
        fun h4 => by simp at h4; omega, ?_, ?_⟩, rfl⟩
      · simp [h.fresh hi] at h4
      · intro total hsome
        obtain rfl := Option.some.inj hsome
        simp
        omega
      · intro total hsome expected hexp
        obtain rfl := Option.some.inj hsome
        simpa [show area.expectedTotal = some expected from hexp] using he
    · rw [if_neg hfull] at hok
      simp only [bind, Except.bind, Except.ok.injEq, Prod.mk.injEq] at hok
      obtain ⟨rfl, -⟩ := hok
      have hnone := h.unknown hi
      refine ⟨⟨by simp; omega, h.entryHeader, fun _ => hnone, fun _ => h.fresh hi,
        fun h4 => by simp at h4; omega, h.unfinished, fun _ _ h4 => ?_,
        fun _ => by simp [h.early hi], ?_, ?_⟩, rfl⟩
      · simp [h.fresh hi] at h4
      · intro total hsome
        exact absurd (hnone.symm.trans hsome) (by simp)
      · intro total hsome
        exact absurd (hnone.symm.trans hsome) (by simp)
  · have hfour : area.info.length = 4 := by have := h.info; omega
    obtain ⟨total, ht⟩ := Option.isSome_iff_exists.mp (h.known hfour)
    have hknown := h.known hfour
    rw [if_neg hi] at hle
    simp only [if_neg hi, ht] at hok
    by_cases hh : area.entryHeader.length < 4
    · rw [if_pos hh] at hok hle
      by_cases hroom : total - area.consumed < 4 - area.entryHeader.length
      · simp [if_pos hroom] at hok
      rw [if_neg hroom] at hok
      unfold feedEntryHeader at hok
      simp only [List.length_append] at hok
      by_cases hfull : area.entryHeader.length + bytes.length = 4
      · rw [if_pos hfull] at hok
        by_cases hlen : ofLeBytes (field (area.entryHeader ++ bytes) ⟨2, 4⟩) >
            total - (area.consumed + bytes.length)
        · simp [if_pos hlen] at hok
        rw [if_neg hlen] at hok
        by_cases hc : (collects (ofLeBytes (field (area.entryHeader ++ bytes) ⟨0, 2⟩)) &&
            decide (ofLeBytes (field (area.entryHeader ++ bytes) ⟨2, 4⟩) > 64)) = true
        · simp only [if_pos hc, reduceCtorEq] at hok
        rw [if_neg hc] at hok
        by_cases hz : ofLeBytes (field (area.entryHeader ++ bytes) ⟨2, 4⟩) = 0
        · rw [if_pos hz] at hok
          refine finishEntry_steady ?_ ?_ ?_ ?_ hok
          · exact hfour
          · exact hknown
          · intro total' ht'
            obtain rfl : total' = total := Option.some.inj (ht'.symm.trans ht)
            simp
            omega
          · exact h.expected
        · simp only [if_neg hz, Except.ok.injEq, Prod.mk.injEq] at hok
          obtain ⟨rfl, -⟩ := hok
          refine ⟨⟨h.info, by simp; omega, h.unknown, fun h4 => absurd h4 hi, h.known,
            fun _ => by simp; omega, ?_, fun h4 => absurd h4 hi, ?_, h.expected⟩, rfl⟩
          · intro total' ht' _
            obtain rfl : total' = total := Option.some.inj (ht'.symm.trans ht)
            simp
            omega
          · intro total' ht'
            obtain rfl : total' = total := Option.some.inj (ht'.symm.trans ht)
            simp
            omega
      · simp only [if_neg hfull, Except.ok.injEq, Prod.mk.injEq] at hok
        obtain ⟨rfl, -⟩ := hok
        refine ⟨⟨h.info, by simp; omega, h.unknown, fun h4 => absurd h4 hi, h.known,
          fun h4 => ?_, fun _ _ h4 => ?_, fun h4 => absurd h4 hi, ?_, h.expected⟩, rfl⟩
        · simp at h4; omega
        · simp at h4; omega
        · intro total' ht'
          obtain rfl : total' = total := Option.some.inj (ht'.symm.trans ht)
          simp
          omega
    · have hheader : area.entryHeader.length = 4 := by have := h.entryHeader; omega
      have hwithin := h.within total ht hheader
      rw [if_neg hh] at hok hle
      unfold feedEntryValue at hok
      simp only at hok
      by_cases hfull : area.entryFill + bytes.length = area.entryLen
      · rw [if_pos hfull] at hok
        refine finishEntry_steady ?_ ?_ ?_ ?_ hok
        · exact hfour
        · exact hknown
        · intro total' ht'
          obtain rfl : total' = total := Option.some.inj (ht'.symm.trans ht)
          simp
          omega
        · exact h.expected
      · simp only [if_neg hfull, Except.ok.injEq, Prod.mk.injEq] at hok
        obtain ⟨rfl, -⟩ := hok
        refine ⟨⟨h.info, h.entryHeader, h.unknown, h.fresh, h.known, fun _ => by simp; omega, ?_,
          fun h4 => absurd h4 hi, ?_, h.expected⟩, rfl⟩
        · intro total' ht' _
          obtain rfl : total' = total := Option.some.inj (ht'.symm.trans ht)
          simp
          omega
        · intro total' ht'
          obtain rfl : total' = total := Option.some.inj (ht'.symm.trans ht)
          simp
          omega

/-- What one byte does. -/
def step (s : TlvArea × FoundTlvs) (byte : UInt8) : Except Error (TlvArea × FoundTlvs) :=
  s.1.part s.2 [byte]

/-- The area byte by byte, up to its end, and how many bytes that took. -/
def run (s : TlvArea × FoundTlvs) : List UInt8 → Except Error (TlvArea × FoundTlvs × Nat)
  | [] => .ok (s.1, s.2, 0)
  | byte :: bytes =>
    if s.1.isComplete then .ok (s.1, s.2, 0)
    else do
      let s ← step s byte
      let (area, found, n) ← run s bytes
      .ok (area, found, n + 1)

/-- A part does what its bytes do, and the area does not end before it does. -/
theorem run_part (h : area.Steady) (hopen : area.isComplete = false) {xs : List UInt8}
    (hne : xs ≠ []) (hle : xs.length ≤ area.room) (ys : List UInt8) :
    run (area, found) (xs ++ ys) = (do
      let s ← area.part found xs
      let (area', found', n) ← run s ys
      .ok (area', found', n + xs.length)) := by
  induction xs generalizing area with
  | nil => exact absurd rfl hne
  | cons byte xs ih =>
    rw [List.cons_append, run, if_neg (by simp [hopen])]
    unfold step
    cases xs with
    | nil =>
      cases area.part found [byte] <;> rfl
    | cons x xs =>
      have hlt : [byte].length < area.room := by simp at hle ⊢; omega
      obtain herr | ⟨area1, h1, hopen1, hroom1, hpart⟩ :=
        part_append h hlt (List.cons_ne_nil byte [])
      · have h0 := herr []
        have h1 := herr (x :: xs)
        rw [List.append_nil] at h0
        rw [List.singleton_append] at h1
        rw [h0, h1]
        rfl
      · have h0 := hpart []
        have hxs := hpart (x :: xs)
        rw [List.append_nil, if_pos List.isEmpty_nil] at h0
        rw [List.singleton_append, if_neg (by simp)] at hxs
        have hrest := ih h1 hopen1 (List.cons_ne_nil x xs) (by simp at hle hroom1 ⊢; omega)
        rw [h0, hxs]
        simp only [bind, Except.bind] at hrest ⊢
        rw [hrest]
        cases area1.part found (x :: xs) with
        | error e => rfl
        | ok s =>
          cases hr : run s ys with
          | error e => simp only [hr]
          | ok r => simp [hr, Nat.add_assoc]

theorem feedLoop_eq (h : area.Steady) {fuel : Nat} (hfuel : input.length ≤ fuel) (offset : Nat) :
    feedLoop fuel area found input offset = (do
      let (area', found', n) ← run (area, found) input
      .ok (area', found', offset + n)) := by
  induction fuel generalizing area found input offset with
  | zero =>
    obtain rfl := List.length_eq_zero_iff.mp (Nat.le_zero.mp hfuel)
    rfl
  | succ fuel ih =>
    unfold feedLoop
    cases hinput : input with
    | nil => rfl
    | cons byte rest =>
      by_cases hc : area.isComplete = true
      · simp only [List.isEmpty_cons, Bool.false_or, if_pos hc]
        rw [run, if_pos hc]
        rfl
      · rw [if_neg (by simp [hc]), ← hinput]
        have hroom := h.room_pos
        have hpos : 0 < input.length := by simp [hinput]
        have htake : (input.take (min area.room input.length)).length =
            min area.room input.length := by simp
        have hne : input.take (min area.room input.length) ≠ [] := by
          apply List.ne_nil_of_length_pos
          omega
        have hrun := @run_part _ found h (by simpa using hc) _ hne (by omega)
          (input.drop (min area.room input.length))
        rw [List.take_append_drop, htake] at hrun
        rw [feedRound_eq, hrun]
        cases hp : area.part found (input.take (min area.room input.length)) with
        | error e => rfl
        | ok s =>
          obtain ⟨area1, found1⟩ := s
          obtain ⟨h1, -⟩ := part_steady h (by omega) hne hp
          have hloop := @ih _ found1 (input.drop (min area.room input.length)) h1
            (by simp; omega) (offset + min area.room input.length)
          simp only [bind, Except.bind] at hloop ⊢
          rw [hloop]
          cases run (area1, found1) (input.drop (min area.room input.length)) with
          | error e => rfl
          | ok r => simp [Nat.add_assoc, Nat.add_comm r.2.2]

theorem feed_eq (h : area.Steady) (input : List UInt8) :
    area.feed found input = run (area, found) input := by
  unfold feed
  rw [feedLoop_eq h (Nat.le_succ _)]
  cases run (area, found) input with
  | error e => rfl
  | ok r => simp [bind, Except.bind]

/-- What an area is told at its start, it keeps. -/
structure Same (area area' : TlvArea) : Prop where
  kind : area'.kind = area.kind
  expectedMagic : area'.expectedMagic = area.expectedMagic
  expectedTotal : area'.expectedTotal = area.expectedTotal
  total : area.info.length = 4 → area'.total = area.total ∧ area'.info = area.info

theorem Same.refl (area : TlvArea) : area.Same area := ⟨rfl, rfl, rfl, fun _ => ⟨rfl, rfl⟩⟩

theorem Same.trans {area1 area2 area3 : TlvArea} (h : area1.Same area2) (h' : area2.Same area3) :
    area1.Same area3 := by
  refine ⟨h'.kind.trans h.kind, h'.expectedMagic.trans h.expectedMagic,
    h'.expectedTotal.trans h.expectedTotal, fun hi => ?_⟩
  obtain ⟨ht, hinfo⟩ := h.total hi
  obtain ⟨ht', hinfo'⟩ := h'.total (hinfo ▸ hi)
  exact ⟨ht'.trans ht, hinfo'.trans hinfo⟩

theorem finishEntry_same (h : area.finishEntry found = .ok (area', found')) : area.Same area' := by
  unfold finishEntry at h
  cases hr : record area.kind area.entryType area.entryValue found with
  | error e => simp [hr, bind, Except.bind] at h
  | ok found1 =>
    simp only [hr, bind, Except.bind, Except.ok.injEq, Prod.mk.injEq] at h
    obtain ⟨rfl, -⟩ := h
    exact ⟨rfl, rfl, rfl, fun _ => ⟨rfl, rfl⟩⟩

theorem feedInfo_same (hi : area.info.length < 4) {bytes : List UInt8}
    (h : area.feedInfo bytes = .ok area') : area.Same area' := by
  unfold feedInfo at h
  grind [Same]

theorem feedEntryHeader_same {total : Nat} {bytes : List UInt8}
    (h : area.feedEntryHeader found total bytes = .ok (area', found')) : area.Same area' := by
  unfold feedEntryHeader at h
  simp only at h
  split at h
  · split at h
    · cases h
    · split at h
      · cases h
      · split at h
        · have hs := finishEntry_same h
          exact ⟨hs.kind, hs.expectedMagic, hs.expectedTotal, hs.total⟩
        · cases h
          exact ⟨rfl, rfl, rfl, fun _ => ⟨rfl, rfl⟩⟩
  · cases h
    exact ⟨rfl, rfl, rfl, fun _ => ⟨rfl, rfl⟩⟩

theorem feedEntryValue_same {bytes : List UInt8}
    (h : area.feedEntryValue found bytes = .ok (area', found')) : area.Same area' := by
  unfold feedEntryValue at h
  simp only at h
  split at h
  · have hs := finishEntry_same h
    exact ⟨hs.kind, hs.expectedMagic, hs.expectedTotal, hs.total⟩
  · cases h
    exact ⟨rfl, rfl, rfl, fun _ => ⟨rfl, rfl⟩⟩

theorem part_same {bytes : List UInt8} (h : area.part found bytes = .ok (area', found')) :
    area.Same area' := by
  unfold part at h
  by_cases hi : area.info.length < 4
  · rw [if_pos hi] at h
    cases hf : area.feedInfo bytes with
    | error e => simp [hf, bind, Except.bind] at h
    | ok a =>
      simp only [hf, bind, Except.bind, Except.ok.injEq, Prod.mk.injEq] at h
      exact h.1 ▸ feedInfo_same hi hf
  · rw [if_neg hi] at h
    cases ht : area.total with
    | none => simp [ht] at h
    | some total =>
      simp only [ht] at h
      by_cases hh : area.entryHeader.length < 4
      · rw [if_pos hh] at h
        by_cases hr : total - area.consumed < 4 - area.entryHeader.length
        · simp [if_pos hr] at h
        · rw [if_neg hr] at h
          exact feedEntryHeader_same h
      · rw [if_neg hh] at h
        exact feedEntryValue_same h

/-- An area after some of its bytes. -/
structure Ran (area : TlvArea) (input : List UInt8) (area' : TlvArea) (n : Nat) : Prop where
  steady : area'.Steady
  consumed : area'.consumed = area.consumed + n
  le : n ≤ input.length
  ended : n < input.length → area'.isComplete = true
  same : area.Same area'

theorem run_spec (h : area.Steady) {n : Nat}
    (hrun : run (area, found) input = .ok (area', found', n)) : Ran area input area' n := by
  induction input generalizing area found n with
  | nil =>
    simp only [run, Except.ok.injEq, Prod.mk.injEq] at hrun
    obtain ⟨rfl, -, rfl⟩ := hrun
    exact ⟨h, rfl, Nat.le_refl _, fun hlt => absurd hlt (by simp), .refl _⟩
  | cons byte bytes ih =>
    rw [run] at hrun
    by_cases hc : area.isComplete = true
    · simp only [if_pos hc, Except.ok.injEq, Prod.mk.injEq] at hrun
      obtain ⟨rfl, -, rfl⟩ := hrun
      exact ⟨h, rfl, Nat.zero_le _, fun _ => hc, .refl _⟩
    · rw [if_neg hc] at hrun
      cases hstep : step (area, found) byte with
      | error e => simp [hstep, bind, Except.bind] at hrun
      | ok s =>
        obtain ⟨area1, found1⟩ := s
        have hroom : 1 ≤ area.room := h.room_pos
        have hle : [byte].length ≤ area.room := hroom
        obtain ⟨h1, hconsumed⟩ := part_steady h hle (List.cons_ne_nil byte []) hstep
        have hsame := part_same hstep
        cases hrest : run (area1, found1) bytes with
        | error e => simp [hstep, hrest, bind, Except.bind] at hrun
        | ok r =>
          obtain ⟨area2, found2, m⟩ := r
          simp only [hstep, hrest, bind, Except.bind, Except.ok.injEq, Prod.mk.injEq] at hrun
          obtain ⟨rfl, rfl, rfl⟩ := hrun
          have hr := ih h1 hrest
          have hle := hr.le
          refine ⟨hr.steady, ?_, by simp; omega, fun hlt => hr.ended (by simp at hlt; omega),
            hsame.trans hr.same⟩
          rw [hr.consumed, hconsumed]
          simp
          omega

/-- An area whose size is known from the start lacks bytes exactly while it is not complete. -/
theorem Steady.consumed_lt (h : area.Steady) {expected : Nat}
    (hexp : area.expectedTotal = some expected) (hfour : 4 ≤ expected) :
    area.consumed < expected ↔ area.isComplete = false := by
  unfold isComplete
  by_cases hi : area.info.length < 4
  · have := h.early hi
    simp [h.unknown hi]
    omega
  · obtain ⟨total, ht⟩ := Option.isSome_iff_exists.mp (h.known (by have := h.info; omega))
    obtain rfl := h.expected total ht expected hexp
    have := h.bounded total ht
    simp [ht]
    omega

end TlvArea

end Microtun.Mcuboot
