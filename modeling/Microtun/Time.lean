import Mathlib.Algebra.Group.Nat.Defs
import Mathlib.Order.Basic
import Mathlib.Data.Option.Basic
import Mathlib.Order.Lattice

/-! Monotonic time.  Instants and durations are milliseconds, kept as natural numbers; additions
saturate at the largest `u64`, subtractions at zero. -/

namespace Microtun

/-- The largest number of milliseconds an instant can hold. -/
def maxMillis : Nat := 2 ^ 64 - 1

/-- `instant + d`, saturating. -/
def saturatingAdd (instant d : Nat) : Nat := min (instant + d) maxMillis

/-- The time elapsed since `earlier`, saturating at zero. -/
def saturatingSince (instant earlier : Nat) : Nat := instant - earlier

theorem le_saturatingAdd {instant : Nat} (h : instant ≤ maxMillis) (d : Nat) :
    instant ≤ saturatingAdd instant d := by
  simp only [saturatingAdd]
  omega

/-- The earlier of two optional deadlines. -/
def minDeadline : Option Nat → Option Nat → Option Nat
  | some a, some b => some (min a b)
  | some a, none => some a
  | none, b => b

/-- `bound` is no later than the deadline `at`. -/
def NotAfter (bound : Option Nat) (deadline : Option Nat) : Prop :=
  ∀ d, deadline = some d → ∃ b, bound = some b ∧ b ≤ d

theorem NotAfter.refl (bound : Option Nat) : NotAfter bound bound := fun d h => ⟨d, h, le_rfl⟩

theorem notAfter_none (bound : Option Nat) : NotAfter bound none := fun d h => by cases h

theorem notAfter_minDeadline {bound a b : Option Nat} :
    NotAfter bound (minDeadline a b) ↔ NotAfter bound a ∧ NotAfter bound b := by
  cases a with
  | none =>
    cases b with
    | none => simp [minDeadline, notAfter_none]
    | some y => simp [minDeadline, notAfter_none]
  | some x =>
    cases b with
    | none => simp [minDeadline, notAfter_none]
    | some y =>
      simp only [NotAfter, minDeadline, Option.some.injEq, forall_eq']
      constructor
      · rintro ⟨b, rfl, hb⟩
        exact ⟨⟨b, rfl, le_trans hb (min_le_left _ _)⟩, b, rfl, le_trans hb (min_le_right _ _)⟩
      · rintro ⟨⟨b, hb, hx⟩, b', hb', hy⟩
        obtain rfl : b = b' := Option.some.inj (hb.symm.trans hb')
        exact ⟨b, hb, le_min hx hy⟩

/-- A cached lower bound on the next deadline; `none` is infinitely far away. -/
structure TimerCache where
  at_ : Option Nat
deriving DecidableEq, Repr

namespace TimerCache

def new : TimerCache := ⟨none⟩

def get (t : TimerCache) : Option Nat := t.at_

/-- Lower the bound to `instant` unless it is already at or before it. -/
def arm (t : TimerCache) (instant : Nat) : TimerCache :=
  match t.at_ with
  | none => ⟨some instant⟩
  | some current => if instant < current then ⟨some instant⟩ else t

/-- Replace the bound with an exactly computed value. -/
def setExact (_ : TimerCache) (instant : Option Nat) : TimerCache := ⟨instant⟩

@[simp] theorem get_setExact (t : TimerCache) (instant : Option Nat) :
    (t.setExact instant).get = instant := rfl

/-- Arming lowers the bound to the new deadline and keeps it below every other one. -/
theorem notAfter_arm {t : TimerCache} {instant : Nat} {deadline : Option Nat} :
    NotAfter t.get deadline → NotAfter (t.arm instant).get deadline := by
  intro h d hd
  obtain ⟨b, hb, hle⟩ := h d hd
  simp only [get] at hb
  simp only [arm, hb]
  split
  · exact ⟨instant, rfl, by omega⟩
  · exact ⟨b, hb, hle⟩

theorem notAfter_arm_self (t : TimerCache) (instant : Nat) :
    NotAfter (t.arm instant).get (some instant) := by
  rintro _ ⟨⟩
  simp only [arm]
  split
  · exact ⟨instant, rfl, le_rfl⟩
  · rename_i current hc
    split
    · exact ⟨instant, rfl, le_rfl⟩
    · exact ⟨current, hc, by omega⟩

theorem arm_idem (t : TimerCache) (instant : Nat) :
    (t.arm instant).arm instant = t.arm instant := by
  obtain ⟨_ | current⟩ := t
  · simp [arm]
  · by_cases h : instant < current <;> simp [arm, h]

end TimerCache

end Microtun
