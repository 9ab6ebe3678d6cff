import Microtun.Config
import Microtun.Noise
import Microtun.Replay
import Mathlib.Data.List.AList

/-! Established sessions, `session.rs`, and the map from wire indices to session slots,
`session_index.rs`.  Peers and slots are named by their positions in their tables. -/

namespace Microtun

/-- Which side of the handshake created a session. -/
inductive Role where
  | initiator
  | responder
deriving DecidableEq, Repr

/-- A live session. -/
structure Session (replayWords : Nat) where
  peer : Nat
  tSend : Key
  tRecv : Key
  nSend : Nat
  replay : ReplayWindow replayWords
  localIndex : UInt32
  remoteIndex : UInt32
  role : Role
  created : Nat
  rekeyAfter : Nat
  confirmed : Bool
  rekeyTriggered : Bool
  /-- The number of the session among all that were ever established.  The code has no such field
  and does not read it: it only names the session in the log of a run. -/
  serial : Nat

namespace Session

variable {replayWords : Nat}

def new (keys : Noise.TransportKeys) (role : Role) (localIndex remoteIndex : UInt32) (now : Nat) :
    Session replayWords where
  peer := 0
  tSend := keys.send
  tRecv := keys.recv
  nSend := 0
  replay := .new replayWords
  localIndex
  remoteIndex
  role
  created := now
  rekeyAfter := rekeyAfterTime
  confirmed := role = .initiator
  rekeyTriggered := false
  serial := 0

/-- When the initiator should rekey. -/
def rekeyDeadline (s : Session replayWords) : Nat :=
  saturatingAdd s.created (if s.rekeyAfter < rejectAfterTime then s.rekeyAfter else rekeyAfterTime)

def expired (s : Session replayWords) (now : Nat) : Bool :=
  rejectAfterTime ≤ saturatingSince now s.created ∨ rejectAfterMessages ≤ s.nSend

/-- May this session encrypt one more message? -/
def canSend (s : Session replayWords) (now : Nat) : Bool := !s.expired now && s.confirmed

end Session

/-- The map from wire indices to slots.  The inline map is bounded by its capacity. -/
structure SessionIndexMap (backend : Backend) (maxSessions : Nat) where
  byIndex : AList fun _ : UInt32 => Nat
  fits : backend = .inline → byIndex.entries.length ≤ maxSessions

namespace SessionIndexMap

variable {backend : Backend} {maxSessions : Nat} {R : Type} [RngCore R]

def maxRandomAttempts : Nat := 32

def new (backend : Backend) (maxSessions : Nat) : SessionIndexMap backend maxSessions :=
  ⟨∅, fun _ => Nat.zero_le _⟩

def slotFor (m : SessionIndexMap backend maxSessions) (index : UInt32) : Option Nat :=
  m.byIndex.lookup index

/-- Draw an index that is not in use. -/
def randomUnused (m : SessionIndexMap backend maxSessions) :
    (attempts : Nat) → R → Except Error UInt32 × R
  | 0, rng => (.error .sessionIndexGenerationFailed, rng)
  | attempts + 1, rng =>
    let (index, rng) := RngCore.nextU32 rng
    if (m.slotFor index).isSome then m.randomUnused attempts rng else (.ok index, rng)

def insert (m : SessionIndexMap backend maxSessions) (index : UInt32) (slot : Nat) :
    Except Error Unit × SessionIndexMap backend maxSessions :=
  if maxSessions ≤ slot then (.error .sessionIndexGenerationFailed, m)
  else if (m.slotFor index).isSome then (.error .sessionIndexGenerationFailed, m)
  else if full : backend = .inline ∧ maxSessions ≤ m.byIndex.entries.length then
    (.error .sessionIndexGenerationFailed, m)
  else
    (.ok (), {
      byIndex := m.byIndex.insert index slot
      fits := by
        intro hb
        have herase : (List.kerase index m.byIndex.entries).length ≤ m.byIndex.entries.length :=
          (List.kerase_sublist index _).length_le
        have hlen : ¬maxSessions ≤ m.byIndex.entries.length := fun h => full ⟨hb, h⟩
        show (List.kerase index m.byIndex.entries).length + 1 ≤ maxSessions
        omega })

/-- Take an index out of the map. -/
def erase (m : SessionIndexMap backend maxSessions) (index : UInt32) :
    SessionIndexMap backend maxSessions where
  byIndex := m.byIndex.erase index
  fits := fun hb => (List.kerase_sublist index _).length_le.trans (m.fits hb)

/-- Move a slot from one index to another. -/
def replace (m : SessionIndexMap backend maxSessions) (old new : UInt32) (slot : Nat) :
    Except Error Unit × SessionIndexMap backend maxSessions :=
  if maxSessions ≤ slot then (.error .sessionIndexGenerationFailed, m)
  else if m.slotFor old ≠ some slot then (.error .internalInvariant, m)
  else if old = new then (.ok (), m)
  else if (m.slotFor new).isSome then (.error .sessionIndexGenerationFailed, m)
  else
    match (m.erase old).insert new slot with
    | (.ok (), m) => (.ok (), m)
    | (.error _, m) =>
      match m.insert old slot with
      | (.error _, m) => (.error .internalInvariant, m)
      | (.ok (), m) => (.error .sessionIndexGenerationFailed, m)

def remove (m : SessionIndexMap backend maxSessions) (index : UInt32) (slot : Nat) :
    Except Error Unit × SessionIndexMap backend maxSessions :=
  if m.slotFor index ≠ some slot then (.error .internalInvariant, m) else (.ok (), m.erase index)

variable {m m' : SessionIndexMap backend maxSessions} {index : UInt32} {slot : Nat}

@[simp] theorem slotFor_new (i : UInt32) : (new backend maxSessions).slotFor i = none := rfl

@[simp] theorem slotFor_erase (i : UInt32) :
    (m.erase index).slotFor i = if i = index then none else m.slotFor i := by
  simp only [slotFor, erase]
  split
  · subst i
    exact AList.lookup_erase _ _
  · exact AList.lookup_erase_ne ‹_›

theorem randomUnused_unused {attempts : Nat} {rng : R}
    (h : (m.randomUnused attempts rng).1 = .ok index) : m.slotFor index = none := by
  induction attempts generalizing rng with
  | zero => cases h
  | succ attempts ih =>
    simp only [randomUnused] at h
    split at h
    · exact ih h
    · rename_i hnone
      obtain rfl : (RngCore.nextU32 rng).1 = index := Except.ok.inj h
      simpa using hnone

theorem insert_ok (h : m.insert index slot = (.ok (), m')) :
    slot < maxSessions ∧ m.slotFor index = none ∧
      ∀ i, m'.slotFor i = if i = index then some slot else m.slotFor i := by
  unfold insert at h
  split at h
  · simp at h
  split at h
  · simp at h
  rename_i hslot hnone
  split at h
  · simp at h
  · obtain rfl := (Prod.mk.inj h).2
    refine ⟨by omega, by simpa using hnone, fun i => ?_⟩
    simp only [slotFor]
    split
    · subst i
      exact AList.lookup_insert _
    · exact AList.lookup_insert_ne ‹_›

theorem insert_error {e : Error} (h : m.insert index slot = (.error e, m')) : m' = m := by
  unfold insert at h
  split at h
  · exact (Prod.mk.inj h).2.symm
  split at h
  · exact (Prod.mk.inj h).2.symm
  split at h
  · exact (Prod.mk.inj h).2.symm
  · simp at h

/-- Replacing the index of a slot in range by an unused one succeeds. -/
theorem replace_unused {old new : UInt32} (hs : slot < maxSessions)
    (hold : m.slotFor old = some slot) (hnew : m.slotFor new = none) :
    ∃ m', m.replace old new slot = (.ok (), m') ∧
      ∀ i, m'.slotFor i = if i = new then some slot else if i = old then none else m.slotFor i := by
  have hne : old ≠ new := by
    rintro rfl
    simp [hold] at hnew
  have hgone : (m.erase old).slotFor new = none := by
    rw [slotFor_erase, if_neg hne.symm, hnew]
  have hroom : ¬(backend = .inline ∧ maxSessions ≤ (m.erase old).byIndex.entries.length) := by
    rintro ⟨hb, hle⟩
    have hmem : old ∈ m.byIndex.keys := by
      have : (m.byIndex.lookup old).isSome := by rw [← slotFor, hold]; rfl
      exact AList.mem_keys.mp (AList.lookup_isSome.mp this)
    have hlen := m.fits hb
    have hlt : (m.erase old).byIndex.entries.length < m.byIndex.entries.length := by
      have hkeys : (m.byIndex.entries.keys).length = m.byIndex.entries.length := by
        simp [List.keys]
      have herase : ((m.byIndex.erase old).keys).length = m.byIndex.keys.length - 1 := by
        rw [AList.keys_erase]
        exact List.length_erase_of_mem hmem
      have hpos : 0 < m.byIndex.keys.length := List.length_pos_of_mem hmem
      have hkeys' : (m.byIndex.erase old).keys.length = (m.byIndex.erase old).entries.length := by
        simp [AList.keys, List.keys]
      have hkeys'' : m.byIndex.keys.length = m.byIndex.entries.length := by
        simp [AList.keys, List.keys]
      show (m.byIndex.erase old).entries.length < _
      omega
    omega
  have hins : ∃ m', (m.erase old).insert new slot = (.ok (), m') := by
    unfold insert
    rw [if_neg (by omega), if_neg (by simp [hgone]), dif_neg hroom]
    exact ⟨_, rfl⟩
  obtain ⟨m', hm'⟩ := hins
  refine ⟨m', ?_, fun i => ?_⟩
  · rw [replace, if_neg (by omega), if_neg (by simp [hold]), if_neg hne, if_neg (by simp [hnew]),
      hm']
  · rw [(insert_ok hm').2.2 i, slotFor_erase]

end SessionIndexMap

end Microtun
