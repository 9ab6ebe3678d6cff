import Microtun.Config
import Microtun.Lib.OptionPool

/-! Inner packets parked until a lookup or a handshake completes, `pending.rs`. -/

namespace Microtun

/-- What a parked packet waits for. -/
inductive Wait where
  | resolve (id : Nat)
  | handshake (peer : Nat)
deriving DecidableEq, Repr

structure PendingPacket where
  packet : List UInt8
  wait : Wait
  deadline : Nat
deriving DecidableEq, Repr

/-- The pool of parked packets. -/
structure PendingPool (maxPackets : Nat) where
  slots : Vector (Option PendingPacket) maxPackets
deriving DecidableEq, Repr

namespace PendingPool

variable {maxPackets : Nat}

def new (maxPackets : Nat) : PendingPool maxPackets := ⟨Vector.replicate maxPackets none⟩

def get (p : PendingPool maxPackets) (i : Nat) : Option PendingPacket := p.slots[i]?.join

def set (p : PendingPool maxPackets) (i : Nat) (packet : Option PendingPacket) :
    PendingPool maxPackets :=
  ⟨p.slots.setIfInBounds i packet⟩

/-- The first position whose packet satisfies the predicate. -/
def position (p : PendingPool maxPackets) (pred : PendingPacket → Bool) : Option Nat :=
  p.slots.toList.findIdx? fun o => o.any pred

/-- Park a packet.  A full pool gives up the packet closest to its deadline. -/
def park (p : PendingPool maxPackets) (packet : List UInt8) (wait : Wait) (deadline : Nat) :
    Bool × PendingPool maxPackets :=
  if maxInnerSize < packet.length then (false, p)
  else
    let entry : PendingPacket := ⟨packet, wait, deadline⟩
    match p.slots.toList.findIdx? Option.isNone with
    | some i => (true, p.set i (some entry))
    | none =>
      match minPosition (fun _ => true) (fun o => (o.map (·.deadline)).getD 0)
          p.slots.toList with
      | some i => (true, p.set i (some entry))
      | none => (false, p)

/-- Take the first packet that satisfies the predicate. -/
def takeIf (p : PendingPool maxPackets) (pred : PendingPacket → Bool) :
    Option PendingPacket × PendingPool maxPackets :=
  match p.position pred with
  | some i => (p.get i, p.set i none)
  | none => (none, p)

def dropIf (p : PendingPool maxPackets) (pred : PendingPacket → Bool) : PendingPool maxPackets :=
  ⟨p.slots.map fun o => if o.any pred then none else o⟩

def nextDeadline (p : PendingPool maxPackets) : Option Nat :=
  (p.slots.toList.filterMap (Option.map (·.deadline))).min?

/-- Drop one packet whose deadline has passed. -/
def expireOne (p : PendingPool maxPackets) (now : Nat) : Bool × PendingPool maxPackets :=
  match p.position fun packet => packet.deadline ≤ now with
  | some i => (true, p.set i none)
  | none => (false, p)

/-! ### What is parked -/

/-- The parked packets. -/
def packets (p : PendingPool maxPackets) : List PendingPacket := p.slots.toList.reduceOption

variable {p : PendingPool maxPackets}

theorem toList_set (i : Nat) (o : Option PendingPacket) :
    (p.set i o).slots.toList = p.slots.toList.set i o := by
  simp [set, Vector.toList_setIfInBounds]

theorem getElem?_toList_eq {i : Nat} {q : PendingPacket} (h : p.get i = some q) :
    p.slots.toList[i]? = some (some q) := by
  rw [Vector.getElem?_toList]
  exact Option.join_eq_some_iff.mp h

/-- Parking adds the packet, in the place of at most one other, or does nothing. -/
theorem park_packets (packet : List UInt8) (wait : Wait) (deadline : Nat) :
    (p.park packet wait deadline).2 = p ∨ ∃ rest, rest.Sublist p.packets ∧
      (p.park packet wait deadline).2.packets.Perm (⟨packet, wait, deadline⟩ :: rest) := by
  have hset : ∀ i < maxPackets, ∃ rest, rest.Sublist p.packets ∧
      (p.set i (some ⟨packet, wait, deadline⟩)).packets.Perm
        (⟨packet, wait, deadline⟩ :: rest) := by
    intro i hi
    have := OptionPool.reduceOption_set_some (l := p.slots.toList) (i := i) (by simpa using hi)
      (⟨packet, wait, deadline⟩ : PendingPacket)
    rwa [← toList_set] at this
  unfold park
  split
  · exact Or.inl rfl
  dsimp only
  split
  · rename_i i hi
    obtain ⟨hlt, -, -⟩ := List.findIdx?_eq_some_iff_getElem.mp hi
    exact Or.inr (hset i (by simpa using hlt))
  split
  · rename_i i hi
    refine Or.inr (hset i ?_)
    obtain ⟨x, hx, rfl⟩ := Option.map_eq_some_iff.mp hi
    have hmem := (List.mem_filter.mp (minByKey_spec hx).1).1
    simpa using (List.mem_zipIdx' hmem).1
  · exact Or.inl rfl

/-- Taking a packet takes it out, and there is none only if none fits. -/
theorem takeIf_packets (pred : PendingPacket → Bool) :
    (p.takeIf pred = (none, p) ∧ ∀ q ∈ p.packets, pred q = false) ∨
      ∃ q, (p.takeIf pred).1 = some q ∧ pred q = true ∧
        p.packets.Perm (q :: (p.takeIf pred).2.packets) := by
  unfold takeIf
  cases hpos : p.position pred with
  | none =>
    refine Or.inl ⟨rfl, fun q hq => ?_⟩
    exact List.findIdx?_eq_none_iff.mp hpos (some q) (List.reduceOption_mem_iff.mp hq)
  | some i =>
    obtain ⟨hlt, hany, -⟩ := List.findIdx?_eq_some_iff_getElem.mp hpos
    cases hget : p.get i with
    | none =>
      have hlist : p.slots.toList[i] = none := by
        have : p.slots[i]?.join = none := hget
        rw [← Vector.getElem?_toList, List.getElem?_eq_getElem hlt] at this
        simpa using this
      simp [hlist] at hany
    | some q =>
      have hlist := getElem?_toList_eq hget
      refine Or.inr ⟨q, hget, ?_, ?_⟩
      · rw [List.getElem?_eq_getElem hlt] at hlist
        rw [Option.some.inj hlist] at hany
        exact hany
      · have := OptionPool.reduceOption_perm_set_none hlist
        rwa [← toList_set] at this

theorem dropIf_packets (pred : PendingPacket → Bool) :
    (p.dropIf pred).packets = p.packets.filter fun q => !pred q := by
  rw [packets, dropIf, Vector.toList_map]
  exact OptionPool.reduceOption_map_drop _ _

theorem expireOne_packets (now : Nat) :
    ((p.expireOne now) = (false, p) ∧ ∀ q ∈ p.packets, now < q.deadline) ∨
      ∃ q, (p.expireOne now).1 = true ∧ q.deadline ≤ now ∧
        p.packets.Perm (q :: (p.expireOne now).2.packets) := by
  unfold expireOne
  cases hpos : p.position fun packet => packet.deadline ≤ now with
  | none =>
    refine Or.inl ⟨rfl, fun q hq => ?_⟩
    have := List.findIdx?_eq_none_iff.mp hpos (some q) (List.reduceOption_mem_iff.mp hq)
    simpa using this
  | some i =>
    obtain ⟨hlt, hany, -⟩ := List.findIdx?_eq_some_iff_getElem.mp hpos
    cases hq : p.slots.toList[i] with
    | none => simp [hq] at hany
    | some q =>
      refine Or.inr ⟨q, rfl, by simpa [hq] using hany, ?_⟩
      have := OptionPool.reduceOption_perm_set_none (l := p.slots.toList) (i := i) (a := q)
        (by rw [List.getElem?_eq_getElem hlt, hq])
      rwa [← toList_set] at this

end PendingPool

end Microtun
