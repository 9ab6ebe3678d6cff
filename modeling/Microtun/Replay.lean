import Mathlib.Data.List.Induction
import Mathlib.Data.Nat.ModEq
import Mathlib.Order.Bounds.Basic

/-! The anti-replay window of `replay.rs`: a ring of 64-bit words in which block `b` of counters
`64 * b` to `64 * b + 63` occupies word `b % words`, and the highest counter accepted so far.

Counters are natural numbers: every `u64` counter is one, and no step of the window can overflow,
since the window only divides counters, compares them, and adds at most `words` to a block
number. -/

namespace Microtun

/-- Bits of one bitmap word. -/
def wordBits : Nat := 64

/-- The sliding-window replay filter with `words` words. -/
structure ReplayWindow (words : Nat) where
  bitmap : Vector (BitVec 64) words
  /-- The highest counter accepted so far, or `none` before the first. -/
  top : Option Nat
deriving DecidableEq

namespace ReplayWindow

variable {words : Nat}

/-- The usable trailing window: one word of the ring is always being recycled. -/
def window (words : Nat) : Nat := wordBits * (words - 1)

def new (words : Nat) : ReplayWindow words := ⟨Vector.replicate words 0, none⟩

def getBit (w : ReplayWindow words) (counter : Nat) : Bool :=
  let blk := counter / wordBits % words
  let bit := counter % wordBits
  match w.bitmap[blk]? with
  | some word => (word >>> bit) &&& 1#64 == 1#64
  | none => false

def setBit (w : ReplayWindow words) (counter : Nat) : Bool × ReplayWindow words :=
  let blk := counter / wordBits % words
  let bit := counter % wordBits
  match w.bitmap[blk]? with
  | some word => (true, ⟨w.bitmap.setIfInBounds blk (word ||| 1#64 <<< bit), w.top⟩)
  | none => (false, w)

/-- The loop of the advance: zero the word of block `topIndex + i` for each `i` in turn, giving
up when the ring has no such word. -/
def clearBlocks (w : ReplayWindow words) (topIndex : Nat) : List Nat → Bool × ReplayWindow words
  | [] => (true, w)
  | i :: rest =>
    let blk := (topIndex + i) % words
    match w.bitmap[blk]? with
    | some _ => clearBlocks ⟨w.bitmap.setIfInBounds blk 0, w.top⟩ topIndex rest
    | none => (false, w)

/-- Record `counter` and make it the highest one, if the ring has a word for it. -/
def setTop (w : ReplayWindow words) (counter : Nat) : Bool × ReplayWindow words :=
  let (ok, w) := w.setBit counter
  if ok then (true, ⟨w.bitmap, some counter⟩) else (false, w)

/-- `true`, with the counter recorded, if `counter` is new and within the window; `false` if it is
replayed or too old. -/
def checkAndUpdate (w : ReplayWindow words) (counter : Nat) : Bool × ReplayWindow words :=
  let index := counter / wordBits
  match w.top with
  | none => setTop ⟨Vector.replicate words 0, w.top⟩ counter
  | some top =>
    if counter > top then
      let topIndex := top / wordBits
      let diff := min (index - topIndex) words
      let (ok, w) := w.clearBlocks topIndex (List.range' 1 diff)
      if ok then w.setTop counter else (false, w)
    else if top - counter > window words then
      (false, w)
    else if w.getBit counter then
      (false, w)
    else
      w.setBit counter

/-! ### Bits of the ring -/

theorem and_one_beq (x : BitVec 64) : (x &&& 1#64 == 1#64) = x.getLsbD 0 := by
  rw [BitVec.and_one_eq_setWidth_ofBool_getLsbD]
  cases x.getLsbD 0 <;> decide

theorem getBit_eq (w : ReplayWindow words) (counter : Nat) : w.getBit counter =
      (w.bitmap[counter / wordBits % words]?.getD 0).getLsbD (counter % wordBits) := by
  simp only [getBit]
  cases w.bitmap[counter / wordBits % words]? with
  | none => simp
  | some word => simp [and_one_beq]

/-- `w'` is `w` with the bit of `counter` set: a bit of `w'` is set if it was, or if its counter
has the ring word and the bit of `counter`. -/
def BitSet (w w' : ReplayWindow words) (counter : Nat) : Prop :=
  ∀ c, w'.getBit c = (w.getBit c || (decide (c / wordBits % words = counter / wordBits % words) &&
    decide (c % wordBits = counter % wordBits)))

theorem setBit_spec (hw : 0 < words) (w : ReplayWindow words) (counter : Nat) :
    ∃ bitmap, w.setBit counter = (true, ⟨bitmap, w.top⟩) ∧ BitSet w ⟨bitmap, w.top⟩ counter := by
  have hblk : counter / wordBits % words < words := Nat.mod_lt _ hw
  have hword : w.bitmap[counter / wordBits % words]? = some w.bitmap[counter / wordBits % words] :=
    Vector.getElem?_eq_getElem hblk
  generalize w.bitmap[counter / wordBits % words] = word at hword
  refine ⟨_, by simp only [setBit, hword]; rfl, fun c => ?_⟩
  rw [getBit_eq, getBit_eq]
  simp only [Vector.getElem?_setIfInBounds]
  have hc : c % wordBits < 64 := Nat.mod_lt _ (by decide)
  by_cases hb : counter / wordBits % words = c / wordBits % words
  · rw [if_pos hb, if_pos hblk, ← hb, hword]
    simp only [Option.getD_some, BitVec.getLsbD_or, BitVec.getLsbD_shiftLeft, hc, decide_true,
      Bool.true_and, BitVec.getLsbD_one]
    congr 1
    rw [Bool.eq_iff_iff]
    simp only [Bool.and_eq_true, Bool.not_eq_true', decide_eq_false_iff_not, decide_eq_true_eq]
    omega
  · rw [if_neg hb]
    simp [Ne.symm hb]

theorem setTop_spec (hw : 0 < words) (w : ReplayWindow words) (counter : Nat) :
    ∃ bitmap, w.setTop counter = (true, ⟨bitmap, some counter⟩) ∧
      BitSet w ⟨bitmap, some counter⟩ counter := by
  obtain ⟨bitmap, hrun, hset⟩ := setBit_spec hw w counter
  exact ⟨bitmap, by simp [setTop, hrun], hset⟩

/-- Clearing the blocks at the given offsets from `topIndex` succeeds and zeroes exactly the bits
of the counters whose ring word is one of theirs. -/
theorem clearBlocks_spec (hw : 0 < words) (topIndex : Nat) (offsets : List Nat)
    (w : ReplayWindow words) : ∃ bitmap, w.clearBlocks topIndex offsets = (true, ⟨bitmap, w.top⟩) ∧
      ∀ c, getBit ⟨bitmap, w.top⟩ c = (w.getBit c &&
        !decide (∃ i ∈ offsets, (topIndex + i) % words = c / wordBits % words)) := by
  induction offsets generalizing w with
  | nil => exact ⟨w.bitmap, rfl, fun c => by simp⟩
  | cons i rest ih =>
    have hblk : (topIndex + i) % words < words := Nat.mod_lt _ hw
    have hword : w.bitmap[(topIndex + i) % words]? = some w.bitmap[(topIndex + i) % words] :=
      Vector.getElem?_eq_getElem hblk
    obtain ⟨bitmap, hrun, hbits⟩ := ih ⟨w.bitmap.setIfInBounds ((topIndex + i) % words) 0, w.top⟩
    refine ⟨bitmap, by simp only [clearBlocks, hword]; exact hrun, fun c => ?_⟩
    rw [hbits, getBit_eq, getBit_eq]
    simp only [Vector.getElem?_setIfInBounds, List.mem_cons, exists_eq_or_imp]
    by_cases hb : (topIndex + i) % words = c / wordBits % words
    · rw [if_pos hb, if_pos hblk]
      simp [hb]
    · rw [if_neg hb]
      simp [hb]

/-! ### The window as a set of accepted counters -/

/-- What the window accepts after `accepted`: a counter not accepted before that is the first one,
above the greatest accepted one, or at most the window behind it. -/
def Admits (words : Nat) (accepted : List Nat) (counter : Nat) : Prop :=
  counter ∉ accepted ∧
    (accepted = [] ∨ ∃ greatest, IsGreatest {a | a ∈ accepted} greatest ∧
      (counter > greatest ∨ greatest - counter ≤ 64 * (words - 1)))

/-- The window `w` stands for the counters in `accepted`: `top` is the greatest of them, and the
bit of every counter in the last `words` blocks says whether it is one of them. -/
structure Tracks (w : ReplayWindow words) (accepted : List Nat) : Prop where
  empty : w.top = none → accepted = []
  top : ∀ t, w.top = some t → IsGreatest {a | a ∈ accepted} t
  bits : ∀ t, w.top = some t → ∀ c, c / wordBits ≤ t / wordBits →
    t / wordBits < c / wordBits + words → (w.getBit c = true ↔ c ∈ accepted)

theorem Tracks.new (words : Nat) : Tracks (ReplayWindow.new words) [] where
  empty _ := rfl
  top _ h := nomatch h
  bits _ h := nomatch h

/-- Two block numbers less than the ring size apart share a ring word only if they are equal. -/
theorem block_eq_of_mod_eq {a b : Nat} (h : a % words = b % words) (hle : a ≤ b)
    (hlt : b < a + words) : a = b := by
  have hdvd : words ∣ b - a := (Nat.modEq_iff_dvd' hle).mp h
  rcases Nat.eq_zero_or_pos (b - a) with hz | hpos
  · omega
  · have := Nat.le_of_dvd hpos hdvd
    omega

theorem eq_of_block_bit {a b : Nat} (hblk : a / wordBits = b / wordBits)
    (hbit : a % wordBits = b % wordBits) : a = b := by
  rw [← Nat.div_add_mod a wordBits, ← Nat.div_add_mod b wordBits, hblk, hbit]

theorem BitSet.mem_iff {w w' : ReplayWindow words} {counter c : Nat} {accepted : List Nat}
    (h : BitSet w w' counter) (hblk : c / wordBits % words = counter / wordBits % words →
      c / wordBits = counter / wordBits) (hbits : w.getBit c = true ↔ c ∈ accepted) :
    w'.getBit c = true ↔ c ∈ counter :: accepted := by
  rw [h c, List.mem_cons, Bool.or_eq_true, hbits, or_comm]
  simp only [Bool.and_eq_true, decide_eq_true_eq]
  refine or_congr ⟨fun ⟨hmod, hbit⟩ => eq_of_block_bit (hblk hmod) hbit, ?_⟩ Iff.rfl
  rintro rfl
  exact ⟨rfl, rfl⟩

section Step

variable {w : ReplayWindow words} {accepted : List Nat}

theorem Tracks.first (hw : 0 < words) (htop : w.top = none) (counter : Nat) :
    ∃ w', w.checkAndUpdate counter = (true, w') ∧ Tracks w' [counter] := by
  obtain ⟨bitmap, hrun, hset⟩ := setTop_spec hw ⟨Vector.replicate words 0, w.top⟩ counter
  refine ⟨_, by simp only [checkAndUpdate, htop] at hrun ⊢; exact hrun, ?_⟩
  refine ⟨fun h => (nomatch h), fun t ht => ?_, fun t ht c hle hlt => ?_⟩
  · cases ht
    exact ⟨by simp, fun a ha => le_of_eq (by simpa using ha)⟩
  · cases ht
    refine hset.mem_iff (fun hmod => block_eq_of_mod_eq hmod hle hlt) ?_
    rw [getBit_eq]
    simp only [Vector.getElem?_replicate]
    split <;> simp

/-- A counter above the highest one is accepted; the blocks between the two are empty. -/
theorem Tracks.advance (hw : 0 < words) (h : Tracks w accepted) {top counter : Nat}
    (htop : w.top = some top) (hgt : counter > top) :
    ∃ w', w.checkAndUpdate counter = (true, w') ∧ Tracks w' (counter :: accepted) := by
  obtain ⟨cleared, hclear, hzero⟩ := clearBlocks_spec hw (top / wordBits)
    (List.range' 1 (min (counter / wordBits - top / wordBits) words)) w
  obtain ⟨bitmap, hrun, hset⟩ := setTop_spec hw ⟨cleared, w.top⟩ counter
  have hgreat := h.top top htop
  have hdiv : top / wordBits ≤ counter / wordBits := Nat.div_le_div_right (le_of_lt hgt)
  have hcall : w.checkAndUpdate counter = (true, ⟨bitmap, some counter⟩) := by
    simp only [checkAndUpdate, htop, if_pos hgt] at hclear hrun ⊢
    simp only [hclear, if_true]
    exact hrun
  refine ⟨_, hcall, fun h => (nomatch h), fun t ht => ?_, fun t ht c hle hlt => ?_⟩
  · cases ht
    refine ⟨by simp, fun a ha => ?_⟩
    rcases List.mem_cons.mp ha with rfl | ha
    · exact le_rfl
    · exact le_trans (hgreat.2 ha) (le_of_lt hgt)
  · cases ht
    refine hset.mem_iff (fun hmod => block_eq_of_mod_eq hmod hle hlt) ?_
    rw [hzero c, Bool.and_eq_true, Bool.not_eq_true', decide_eq_false_iff_not]
    by_cases hblk : c / wordBits ≤ top / wordBits
    · -- A block that was live before the advance and still is: no cleared block shares its word.
      rw [h.bits top htop c hblk (by omega)]
      refine and_iff_left ?_
      rintro ⟨i, hi, hmod⟩
      rw [List.mem_range'_1] at hi
      have := block_eq_of_mod_eq hmod.symm (by omega) (by omega)
      omega
    · -- A block the advance has entered: its word was cleared, and nothing in it was accepted.
      constructor
      · rintro ⟨-, hnot⟩
        refine absurd ?_ hnot
        rcases Nat.le_total (counter / wordBits - top / wordBits) words with hjump | hjump
        · refine ⟨c / wordBits - top / wordBits, ?_, by rw [Nat.add_sub_cancel' (by omega)]⟩
          rw [List.mem_range'_1, Nat.min_eq_left hjump]
          omega
        · -- The jump is at least the ring, so every word was cleared.
          refine ⟨(c / wordBits - top / wordBits - 1) % words + 1, ?_, ?_⟩
          · have := Nat.mod_lt (c / wordBits - top / wordBits - 1) hw
            rw [List.mem_range'_1, Nat.min_eq_right hjump]
            omega
          · rw [← Nat.add_assoc, Nat.add_right_comm, Nat.add_mod_mod]
            congr 1
            omega
      · intro hmem
        have := Nat.div_le_div_right (c := wordBits) (hgreat.2 hmem)
        omega

/-- A counter at or below the highest one is accepted exactly when it lies inside the trailing
window and was not accepted before. -/
theorem Tracks.behind (hw : 0 < words) (h : Tracks w accepted) {top counter : Nat}
    (htop : w.top = some top) (hle : counter ≤ top) :
    ((w.checkAndUpdate counter).1 = true ↔
      counter ∉ accepted ∧ top - counter ≤ 64 * (words - 1)) ∧
    Tracks (w.checkAndUpdate counter).2
      (if (w.checkAndUpdate counter).1 = true then counter :: accepted else accepted) := by
  simp only [checkAndUpdate, htop, if_neg (Nat.not_lt.mpr hle)]
  by_cases hold : top - counter > window words
  · rw [if_pos hold]
    unfold window wordBits at hold
    exact ⟨⟨fun h => (nomatch h), fun ⟨_, hin⟩ => by omega⟩, h⟩
  rw [if_neg hold]
  -- The window ends one block short of the ring, so the block of `counter` is still live.
  have hlive : top / wordBits < counter / wordBits + words := by
    unfold window wordBits at hold
    unfold wordBits
    omega
  have hdiv : counter / wordBits ≤ top / wordBits := Nat.div_le_div_right hle
  have hin : top - counter ≤ 64 * (words - 1) := by
    unfold window wordBits at hold
    omega
  by_cases hbit : w.getBit counter = true
  · rw [if_pos hbit]
    have hmem := (h.bits top htop counter hdiv hlive).mp hbit
    exact ⟨⟨fun h => (nomatch h), fun ⟨hnot, _⟩ => absurd hmem hnot⟩, h⟩
  · rw [if_neg hbit]
    have hmem := mt (h.bits top htop counter hdiv hlive).mpr hbit
    obtain ⟨bitmap, hrun, hset⟩ := setBit_spec hw w counter
    rw [hrun]
    refine ⟨⟨fun _ => ⟨hmem, hin⟩, fun _ => rfl⟩, fun hnone => ?_, fun t ht => ?_,
      fun t ht c hcle hclt => ?_⟩
    · exact absurd (hnone.symm.trans htop) (by simp)
    · obtain rfl : top = t := Option.some.inj (htop.symm.trans ht)
      have hgreat := h.top top htop
      refine ⟨List.mem_cons_of_mem _ hgreat.1, fun a ha => ?_⟩
      rcases List.mem_cons.mp ha with rfl | ha
      · exact hle
      · exact hgreat.2 ha
    · obtain rfl : top = t := Option.some.inj (htop.symm.trans ht)
      refine hset.mem_iff (fun hmod => ?_) (h.bits top htop c hcle hclt)
      rcases Nat.le_total (c / wordBits) (counter / wordBits) with hcc | hcc
      · exact block_eq_of_mod_eq hmod hcc (by omega)
      · exact (block_eq_of_mod_eq hmod.symm hcc (by omega)).symm

/-- One call decides `Admits` and keeps the correspondence with the accepted counters. -/
theorem Tracks.step (hw : 0 < words) (h : Tracks w accepted) (counter : Nat) :
    ((w.checkAndUpdate counter).1 = true ↔ Admits words accepted counter) ∧
    Tracks (w.checkAndUpdate counter).2
      (if (w.checkAndUpdate counter).1 = true then counter :: accepted else accepted) := by
  cases htop : w.top with
  | none =>
    obtain ⟨w', hrun, htracks⟩ := Tracks.first hw htop counter
    obtain rfl := h.empty htop
    rw [hrun]
    exact ⟨⟨fun _ => ⟨by simp, Or.inl rfl⟩, fun _ => rfl⟩, htracks⟩
  | some top =>
    have hgreat := h.top top htop
    by_cases hgt : counter > top
    · obtain ⟨w', hrun, htracks⟩ := h.advance hw htop hgt
      rw [hrun]
      refine ⟨⟨fun _ => ⟨fun hmem => ?_, Or.inr ⟨top, hgreat, Or.inl hgt⟩⟩, fun _ => rfl⟩, htracks⟩
      exact absurd (hgreat.2 hmem) (by omega)
    · obtain ⟨hiff, htracks⟩ := h.behind hw htop (Nat.le_of_not_lt hgt)
      refine ⟨hiff.trans ⟨fun ⟨hnot, hin⟩ => ⟨hnot, Or.inr ⟨top, hgreat, Or.inr hin⟩⟩, ?_⟩, htracks⟩
      rintro ⟨hnot, rfl | ⟨g, hg, hcase⟩⟩
      · exact absurd hgreat.1 (by simp)
      · obtain rfl := hg.unique hgreat
        exact ⟨hnot, hcase.resolve_left hgt⟩

end Step

/-! ### Whole runs -/

/-- One call, with the accepted counters remembered beside the window. -/
def feed (state : ReplayWindow words × List Nat) (counter : Nat) :
    ReplayWindow words × List Nat :=
  let (ok, w) := state.1.checkAndUpdate counter
  (w, if ok then counter :: state.2 else state.2)

/-- The window after a sequence of calls on a fresh one, with the counters it accepted. -/
def feedAll (words : Nat) (counters : List Nat) : ReplayWindow words × List Nat :=
  counters.foldl feed (new words, [])

theorem feedAll_tracks (hw : 0 < words) (counters : List Nat) :
    Tracks (feedAll words counters).1 (feedAll words counters).2 ∧
      (feedAll words counters).2.Nodup := by
  induction counters using List.reverseRecOn with
  | nil => exact ⟨Tracks.new words, List.nodup_nil⟩
  | append_singleton counters counter ih =>
    have hsnoc : feedAll words (counters ++ [counter]) =
        feed (feedAll words counters) counter := by
      simp [feedAll, List.foldl_append]
    obtain ⟨hiff, htracks⟩ := ih.1.step hw counter
    rw [hsnoc]
    refine ⟨htracks, ?_⟩
    simp only [feed]
    split
    · rename_i hok
      exact List.nodup_cons.mpr ⟨(hiff.mp hok).1, ih.2⟩
    · exact ih.2

/-- After any sequence of calls on a fresh window, the next call accepts exactly the counters that
`Admits` names, and no counter has been accepted twice. -/
theorem checkAndUpdate_exact (words : Nat) (hw : 1 ≤ words) (counters : List Nat) (counter : Nat) :
    (((feedAll words counters).1.checkAndUpdate counter).1 = true ↔
      Admits words (feedAll words counters).2 counter) ∧ (feedAll words counters).2.Nodup := by
  obtain ⟨htracks, hnodup⟩ := feedAll_tracks hw counters
  exact ⟨(htracks.step hw counter).1, hnodup⟩

/-- A run over three words that jumps past the whole ring and then fills in behind the jump. -/
theorem checkAndUpdate_exact_jump : 1 ≤ 3 ∧
    (((feedAll 3 [5, 3, 1000, 872, 872, 871]).1.checkAndUpdate 999).1 = true ↔
      Admits 3 (feedAll 3 [5, 3, 1000, 872, 872, 871]).2 999) ∧
    (feedAll 3 [5, 3, 1000, 872, 872, 871]).2 = [872, 1000, 3, 5] :=
  ⟨by decide, (checkAndUpdate_exact 3 (by decide) _ 999).1, by decide⟩

end ReplayWindow

end Microtun
