/-! Byte sinks that may fail, as a parameter: what a write that succeeds has written. -/

namespace Microtun

universe u v

/-- A sink behind `embedded_io_async::Write`, and the bytes that it has taken.  A `write_all` that
succeeds has written all of its bytes, and a flush writes none. -/
structure Writer (σ : Type u) (E : Type v) where
  writeAll : σ → List UInt8 → Except E Unit × σ
  flush : σ → Except E Unit × σ
  written : σ → List UInt8
  written_writeAll : ∀ io bytes, (writeAll io bytes).1 = .ok () →
    written (writeAll io bytes).2 = written io ++ bytes
  written_flush : ∀ io, written (flush io).2 = written io

namespace Writer

variable {σ : Type u} {E : Type v} {w : Writer σ E}

/-- The sink after a write, if that succeeds. -/
def put (w : Writer σ E) (io : σ) (bytes : List UInt8) : Except E σ :=
  match w.writeAll io bytes with
  | (.ok (), io) => .ok io
  | (.error e, _) => .error e

theorem written_put {io io' : σ} {bytes : List UInt8} (h : w.put io bytes = .ok io') :
    w.written io' = w.written io ++ bytes := by
  have hwritten := w.written_writeAll io bytes
  unfold put at h
  split at h
  · next heq =>
    rw [heq] at hwritten
    cases h
    exact hwritten rfl
  · cases h

/-- No write and no flush fails. -/
def Reliable (w : Writer σ E) : Prop :=
  (∀ io bytes, (w.writeAll io bytes).1 = .ok ()) ∧ ∀ io, (w.flush io).1 = .ok ()

theorem put_reliable (hw : w.Reliable) (io : σ) (bytes : List UInt8) :
    w.put io bytes = .ok (w.writeAll io bytes).2 := by
  have hok := hw.1 io bytes
  unfold put
  split
  · next heq => rw [heq]
  · next heq =>
    rw [heq] at hok
    cases hok

/-- A sink that keeps what it takes and never fails. -/
def collecting (E : Type v) : Writer (List UInt8) E where
  writeAll io bytes := (.ok (), io ++ bytes)
  flush io := (.ok (), io)
  written io := io
  written_writeAll _ _ _ := rfl
  written_flush _ := rfl

theorem reliable_collecting (E : Type v) : (collecting E).Reliable := ⟨fun _ _ => rfl, fun _ => rfl⟩

end Writer

end Microtun
