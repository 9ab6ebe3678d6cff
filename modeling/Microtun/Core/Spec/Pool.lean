import Microtun.Core.View

/-! What the slot pool and the peer table do to the tables. -/

namespace Microtun

open Hoare
open Function (update update_self update_of_ne)

variable {cap : Capacities} {R P : Type} [Crypto] {w : World cap R P}

omit [Crypto] in
/-- Freeing a slot whose owner is there and whose wire index leads to it. -/
theorem freeSlot_linked {s : Nat} (hs : s < cap.maxSessions)
    (howned : ∀ p, (w.tables.slot s).owner = some p → w.tables.Installed p)
    (hindexed : ∀ i, (w.tables.slot s).localIndex = some i → w.tables.slotFor i = some s) :
    wpx (freeSlot s) (fun r w' => r = .ok () ∧ w'.tables = w.tables.clear s) w := by
  refine wpx_watch ?_
  rw [wpx_tryCore]
  obtain ⟨x, hx⟩ := Core.slot_of_lt (c := w.core) hs
  have hxt := tables_slot hx
  cases howner : x.owner with
  | none =>
    obtain rfl := Tables.holder_none howner
    have hrun : Core.freeSlot s w.core = (.ok (), w.core.setSlot s .free) := by
      simp [Core.freeSlot, hx, Slot.owner, Slot.localIndex]
    have htables : World.tables ⟨w.core.setSlot s .free, w.log, w.established⟩ =
        w.tables.clear s := by
      rw [tables_setSlot hs, Tables.clear_free hxt, Tables.setSlot]
      show { w.tables with slot := update w.tables.slot s .free } = w.tables
      rw [← hxt, Function.update_eq_self]
    rw [hrun]
    exact ⟨by simp, rfl, htables⟩
  | some p =>
    have howner' : (w.tables.slot s).owner = some p := by rw [hxt, howner]
    obtain ⟨i, hi⟩ := Tables.owner_localIndex howner
    obtain ⟨m, hm⟩ := Option.isSome_iff_exists.mp (howned p howner')
    obtain ⟨e, he, rfl⟩ := peer_of_tables hm
    have hfor : w.core.sessionIndices.slotFor i = some s := hindexed i (by rw [hxt, hi])
    have hrun : Core.freeSlot s w.core = (.ok (),
        (Core.setPeer { w.core with sessionIndices := w.core.sessionIndices.erase i } p
          (some { e with sessions := e.sessions.unlink s })).setSlot s .free) := by
      have he' : ({ w.core with sessionIndices := w.core.sessionIndices.erase i } :
          Core cap R P).peer p = some e := he
      simp [Core.freeSlot, hx, howner, he, hi, SessionIndexMap.remove, hfor, Core.modifyPeer, he']
    rw [hrun]
    refine ⟨by simp, rfl, ?_⟩
    rw [tables_setSlot hs, tables_setPeer (Core.lt_of_peer he),
      Tables.clear_of_owner howner' (by rw [hxt, hi]) hm]
    have hindex : (w.core.sessionIndices.erase i).slotFor =
        update w.core.sessionIndices.slotFor i none := by
      funext j
      rw [SessionIndexMap.slotFor_erase]
      by_cases hj : j = i <;> simp [hj]
    show (({ w.tables with slotFor := (w.core.sessionIndices.erase i).slotFor }.setPeer p _).setSlot
      s .free) = _
    rw [hindex]
    rfl

theorem freeSlot_spec (hI : w.tables.Inv) {s : Nat} (hs : s < cap.maxSessions) :
    wpx (freeSlot s) (fun r w' => r = .ok () ∧ w'.tables = w.tables.clear s) w := by
  refine freeSlot_linked hs (fun p hp => ?_) fun i hi => (hI.links.index i s).mpr hi
  obtain ⟨m, hm⟩ := hI.links.owner_peer hp
  simp [Tables.Installed, hm]

theorem allocVictim_lt (hI : w.tables.Inv) {now s : Nat} {occupied : Bool}
    (h : w.core.allocVictim now = some (s, occupied)) :
    s < cap.maxSessions ∧ (occupied = false → w.tables.slot s = .free) := by
  have hlen : w.core.slots.toList.length = cap.maxSessions := Vector.length_toList
  unfold Core.allocVictim at h
  split at h
  · rename_i i hfind
    cases h
    obtain ⟨hlt, hfree, -⟩ := List.findIdx?_eq_some_iff_getElem.mp hfind
    rw [hlen] at hlt
    refine ⟨hlt, fun _ => ?_⟩
    have hslot : w.core.slot s = some w.core.slots[s] := by simp [Core.slot, hlt]
    rw [tables_slot hslot]
    simp only [Vector.getElem_toList] at hfree
    cases hcase : w.core.slots[s] with
    | free => rfl
    | initiating i => simp [hcase, Slot.isFree] at hfree
    | established sess => simp [hcase, Slot.isFree] at hfree
  split at h
  · rename_i i hfind
    cases h
    obtain ⟨hlt, -, -⟩ := List.findIdx?_eq_some_iff_getElem.mp hfind
    exact ⟨hlen ▸ hlt, by simp⟩
  split at h
  · rename_i i hprev
    cases h
    refine ⟨?_, by simp⟩
    obtain ⟨o, ho, hbind⟩ := List.exists_of_findSome?_eq_some hprev
    obtain ⟨e, rfl, hprevious⟩ := Option.bind_eq_some_iff.mp hbind
    obtain ⟨p, hp⟩ := List.mem_iff_getElem?.mp ho
    have hpeer : w.core.peer p = some e := by
      rw [Vector.getElem?_toList] at hp
      simp [Core.peer, hp]
    have hheld := (hI.links.linked p e.member (tables_peer hpeer) s .live).mp (Or.inr hprevious)
    have hne : w.tables.slot s ≠ .free := by
      intro hfree
      simp [hfree, Slot.holder] at hheld
    exact Core.lt_of_slot (slot_of_tables rfl hne)
  · obtain ⟨i, hi, heq⟩ := Option.map_eq_some_iff.mp h
    cases heq
    refine ⟨?_, by simp⟩
    obtain ⟨x, hx, rfl⟩ := Option.map_eq_some_iff.mp hi
    obtain ⟨⟨o, j⟩, hmem, hval⟩ := List.mem_filterMap.mp (minByKey_spec hx).1
    have hj := (List.mem_zipIdx' hmem).1
    rw [hlen] at hj
    cases o with
    | free => cases hval
    | initiating _ => cases hval
    | established sess =>
      dsimp only at hval
      split at hval
      · split at hval
        · cases hval
        · cases hval
          exact hj
      · cases hval
        exact hj

theorem allocSlot_spec (hI : w.tables.Inv) (now : Nat) :
    wpx (allocSlot now) (fun r w' => (r = .ok none ∧ w' = w) ∨
      ∃ s, r = .ok (some s) ∧ s < cap.maxSessions ∧ w'.tables = w.tables.clear s) w := by
  unfold allocSlot
  simp only [wpx_bind, wpx_getCore, then_ok]
  cases hvictim : w.core.allocVictim now with
  | none => simp
  | some x =>
    obtain ⟨s, occupied⟩ := x
    obtain ⟨hlt, hfree⟩ := allocVictim_lt hI hvictim
    cases occupied with
    | false =>
      refine wpx_pure.mpr (Or.inr ⟨s, rfl, hlt, ?_⟩)
      rw [Tables.clear_free (hfree rfl)]
    | true =>
      simp only [if_true, wpx_bind]
      refine wpx_mono (freeSlot_spec hI hlt) ?_
      rintro r w' ⟨rfl, hw'⟩
      exact wpx_pure.mpr (Or.inr ⟨s, rfl, hlt, hw'⟩)

end Microtun
