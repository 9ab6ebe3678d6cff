/-! Text of one-byte characters. -/

namespace Microtun

theorem utf8ByteSize_ofList {cs : List Char} (h : ∀ c ∈ cs, c.utf8Size = 1) :
    (String.ofList cs).utf8ByteSize = cs.length := by
  induction cs with
  | nil => rfl
  | cons c cs ih =>
    obtain ⟨hc, hcs⟩ := List.forall_mem_cons.mp h
    rw [String.ofList_cons, String.utf8ByteSize_append, String.utf8ByteSize_singleton, hc, ih hcs,
      List.length_cons, Nat.add_comm]

/-- The digits of a number are one-byte characters. -/
theorem utf8Size_toDigits {b n : Nat} (hb : 1 < b) (hb' : b ≤ 16) :
    ∀ c ∈ Nat.toDigits b n, c.utf8Size = 1 := by
  induction n using Nat.strongRecOn with
  | ind n ih =>
    have hdigit : ∀ d < 16, (Nat.digitChar d).utf8Size = 1 := by decide
    intro c hc
    rw [Nat.toDigits_eq_if hb] at hc
    split at hc
    · rename_i hn
      rw [List.mem_singleton.mp hc]
      exact hdigit n (Nat.lt_of_lt_of_le hn hb')
    · rename_i hn
      rcases List.mem_append.mp hc with hc | hc
      · exact ih (n / b) (Nat.div_lt_self (by omega) hb) c hc
      · rw [List.mem_singleton.mp hc]
        exact hdigit (n % b) (Nat.lt_of_lt_of_le (Nat.mod_lt n (by omega)) hb')

end Microtun
