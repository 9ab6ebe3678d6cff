import Microtun.Ws.Connection
import Microtun.Ws.Frame

/-! What a sender puts on the wire: one whole frame for each message, with the next masking key. -/

namespace Microtun.Ws

variable {σ K α β : Type} {w : Writer σ K} {s s' s'' : Sender σ}

theorem run_bind_eq (x : SendM σ K α) (f : α → SendM σ K β) (s : Sender σ) :
    (x >>= f).run.run s =
      match (x.run.run s).1 with
      | .ok a => (f a).run.run (x.run.run s).2
      | .error e => (.error e, (x.run.run s).2) := by
  change (ExceptT.bindCont f (x s).1) (x s).2 = match (x s).1 with
    | .ok a => f a (x s).2
    | .error e => (.error e, (x s).2)
  cases (x s).1 with
  | ok a => rfl
  | error e => rfl

theorem run_bind_ok {x : SendM σ K α} {f : α → SendM σ K β} {b : β}
    (h : (x >>= f).run.run s = (.ok b, s'')) :
    ∃ a s', x.run.run s = (.ok a, s') ∧ (f a).run.run s' = (.ok b, s'') := by
  rw [run_bind_eq] at h
  cases hx : (x.run.run s).1 with
  | ok a =>
    rw [hx] at h
    exact ⟨a, _, Prod.ext hx rfl, h⟩
  | error e =>
    rw [hx] at h
    exact absurd (Prod.mk.inj h).1 (by simp)

theorem run_bind {x : SendM σ K α} {f : α → SendM σ K β} {a : α}
    (hx : x.run.run s = (.ok a, s')) : (x >>= f).run.run s = (f a).run.run s' := by
  rw [run_bind_eq, hx]

/-- The frame of a message. -/
def frame (opcode : UInt8) (payload : List UInt8) (key : Option (Bytes 4)) : List UInt8 :=
  encodeHeader true opcode payload.length key ++ (Connection.unmask key 0 payload).1

/-- The sender has written these bytes and is otherwise as it was. -/
structure Sender.Wrote (w : Writer σ K) (s : Sender σ) (bytes : List UInt8) (s' : Sender σ) :
    Prop where
  written : w.written s'.writer = w.written s.writer ++ bytes
  role : s'.role = s.role
  mask : s'.mask = s.mask
  closed : s'.closed = s.closed

theorem Sender.Wrote.trans {first second : List UInt8} (h : s.Wrote w first s')
    (h' : s'.Wrote w second s'') : s.Wrote w (first ++ second) s'' :=
  ⟨by rw [h'.written, h.written, List.append_assoc], h'.role.trans h.role, h'.mask.trans h.mask,
    h'.closed.trans h.closed⟩

theorem transport_ok {step : σ → Except K Unit × σ}
    (h : (transport step).run.run s = (.ok (), s')) :
    (step s.writer).1 = .ok () ∧ s' = { s with writer := (step s.writer).2 } := by
  change transport step s = _ at h
  unfold transport at h
  split at h
  · next writer heq =>
    cases h
    rw [heq]
    exact ⟨rfl, rfl⟩
  · cases h

theorem writeAll_ok {bytes : List UInt8} (h : (writeAll w bytes).run.run s = (.ok (), s')) :
    s.Wrote w bytes s' := by
  obtain ⟨hok, rfl⟩ := transport_ok h
  exact ⟨w.written_writeAll _ _ hok, rfl, rfl, rfl⟩

theorem flush_ok (h : (flush w).run.run s = (.ok (), s')) : s.Wrote w [] s' := by
  obtain ⟨-, rfl⟩ := transport_ok h
  exact ⟨(w.written_flush _).trans (List.append_nil _).symm, rfl, rfl, rfl⟩

theorem writeMasked_ok {key : Bytes 4} {offset : Nat} {payload : List UInt8}
    (h : (writeMasked w key offset payload).run.run s = (.ok (), s')) :
    s.Wrote w (applyMask key offset payload).1 s' := by
  induction hn : payload.length using Nat.strong_induction_on generalizing payload offset s with
  | _ n ih =>
  rw [writeMasked] at h
  by_cases hempty : payload = []
  · rw [if_pos hempty] at h
    cases h
    subst hempty
    exact ⟨(List.append_nil _).symm, rfl, rfl, rfl⟩
  · rw [if_neg hempty] at h
    obtain ⟨_, s1, hpart, hrest⟩ := run_bind_ok h
    have hlen := List.length_pos_iff.mpr hempty
    have hdrop : (payload.drop maskChunkLen).length < n := by
      rw [List.length_drop, maskChunkLen]
      omega
    have hsplit := applyMask_append key offset (payload.take maskChunkLen)
      (payload.drop maskChunkLen)
    rw [List.take_append_drop] at hsplit
    rw [hsplit]
    exact (writeAll_ok hpart).trans (ih _ hdrop hrest rfl)

theorem writePayload_ok {key : Option (Bytes 4)} {payload : List UInt8}
    (h : (writePayload w key payload).run.run s = (.ok (), s')) :
    s.Wrote w (Connection.unmask key 0 payload).1 s' := by
  cases key with
  | none => exact writeAll_ok h
  | some key => exact writeMasked_ok h

theorem nextKey_ok {key : Option (Bytes 4)}
    (h : (nextKey : SendM σ K _).run.run s = (.ok key, s')) :
    key = s.mask.map (·.key.1) ∧ s'.mask = s.mask.map (·.key.2) ∧ s'.writer = s.writer ∧
      s'.role = s.role ∧ s'.closed = s.closed := by
  change nextKey s = _ at h
  unfold nextKey at h
  split at h
  · next hmask =>
    cases h
    simp only [hmask, Option.map_none, and_self]
  · next masker hmask =>
    cases h
    simp only [hmask, Option.map_some, and_self]

/-- The sender has written a frame, and goes on with the next key. -/
structure Sender.SentFrame (w : Writer σ K) (s : Sender σ) (opcode : UInt8) (payload : List UInt8)
    (s' : Sender σ) : Prop where
  written : w.written s'.writer =
    w.written s.writer ++ frame opcode payload (s.mask.map (·.key.1))
  role : s'.role = s.role
  mask : s'.mask = s.mask.map (·.key.2)
  closed : s'.closed = s.closed

theorem sendFrame_ok {opcode : UInt8} {payload : List UInt8}
    (h : (sendFrame w opcode payload).run.run s = (.ok (), s')) :
    s.SentFrame w opcode payload s' := by
  obtain ⟨key, s1, hkey, h⟩ := run_bind_ok h
  obtain ⟨_, s2, hheader, h⟩ := run_bind_ok h
  obtain ⟨_, s3, hpayload, hflush⟩ := run_bind_ok h
  obtain ⟨rfl, hmask, hwriter, hrole, hclosed⟩ := nextKey_ok hkey
  have hwrote := ((writeAll_ok hheader).trans (writePayload_ok hpayload)).trans (flush_ok hflush)
  rw [List.append_nil] at hwrote
  refine ⟨?_, hwrote.role.trans hrole, hwrote.mask.trans hmask, hwrote.closed.trans hclosed⟩
  rw [hwrote.written, hwriter]
  rfl

/-! ### A transport that does not fail -/

theorem transport_reliable {step : σ → Except K Unit × σ} (h : ∀ io, (step io).1 = .ok ())
    (s : Sender σ) : ∃ s', (transport step).run.run s = (.ok (), s') := by
  change ∃ s', transport step s = (.ok (), s')
  unfold transport
  split
  · exact ⟨_, rfl⟩
  · next heq =>
    have hok := h s.writer
    rw [heq] at hok
    cases hok

section

variable (hw : w.Reliable)

include hw

theorem writeAll_reliable (s : Sender σ) (bytes : List UInt8) :
    ∃ s', (writeAll w bytes).run.run s = (.ok (), s') :=
  transport_reliable (fun io => hw.1 io bytes) s

theorem flush_reliable (s : Sender σ) : ∃ s', (flush w).run.run s = (.ok (), s') :=
  transport_reliable hw.2 s

theorem writeMasked_reliable (s : Sender σ) (key : Bytes 4) (offset : Nat) (payload : List UInt8) :
    ∃ s', (writeMasked w key offset payload).run.run s = (.ok (), s') := by
  induction hn : payload.length using Nat.strong_induction_on generalizing payload offset s with
  | _ n ih =>
  rw [writeMasked]
  by_cases hempty : payload = []
  · rw [if_pos hempty]
    exact ⟨s, rfl⟩
  · rw [if_neg hempty]
    obtain ⟨s1, hpart⟩ :=
      writeAll_reliable hw s (applyMask key offset (payload.take maskChunkLen)).1
    have hlen := List.length_pos_iff.mpr hempty
    have hdrop : (payload.drop maskChunkLen).length < n := by
      rw [List.length_drop, maskChunkLen]
      omega
    obtain ⟨s2, hrest⟩ := ih _ hdrop s1 (applyMask key offset (payload.take maskChunkLen)).2 _ rfl
    exact ⟨s2, (run_bind hpart).trans hrest⟩

theorem sendFrame_reliable (s : Sender σ) (opcode : UInt8) (payload : List UInt8) :
    ∃ s', (sendFrame w opcode payload).run.run s = (.ok (), s') := by
  have hkey : ∃ key s1, (nextKey : SendM σ K _).run.run s = (.ok key, s1) := by
    change ∃ key s1, nextKey s = (.ok key, s1)
    unfold nextKey
    split
    · exact ⟨_, _, rfl⟩
    · exact ⟨_, _, rfl⟩
  obtain ⟨key, s1, hkey⟩ := hkey
  obtain ⟨s2, hheader⟩ := writeAll_reliable hw s1 (encodeHeader true opcode payload.length key)
  have hpayload : ∃ s3, (writePayload w key payload).run.run s2 = (.ok (), s3) := by
    cases key with
    | none => exact writeAll_reliable hw s2 payload
    | some key => exact writeMasked_reliable hw s2 key 0 payload
  obtain ⟨s3, hpayload⟩ := hpayload
  obtain ⟨s4, hflush⟩ := flush_reliable hw s3
  exact ⟨s4, (run_bind hkey).trans ((run_bind hheader).trans ((run_bind hpayload).trans hflush))⟩

end

end Microtun.Ws
