import Microtun.Lib.Ascii
import Microtun.Noise

/-! The textual form of a key, `key.rs`: standard base64 with padding, and strict decoding. -/

namespace Microtun

def keyTextLen : Nat := 44

def base64Alphabet : List Char :=
  "ABCDEFGHIJKLMNOPQRSTUVWXYZabcdefghijklmnopqrstuvwxyz0123456789+/".toList

/-- The character of six bits. -/
def base64Char (n : Nat) : Char := base64Alphabet.getD (n % 64) 'A'

def base64Value (c : Char) : Option Nat := base64Alphabet.idxOf? c

/-- Three bytes in four characters, the last group padded. -/
def encodeBase64 : List UInt8 → List Char
  | a :: b :: c :: rest =>
    let n := a.toNat * 65536 + b.toNat * 256 + c.toNat
    base64Char (n / 262144) :: base64Char (n / 4096) :: base64Char (n / 64) :: base64Char n ::
      encodeBase64 rest
  | [a, b] =>
    let n := a.toNat * 1024 + b.toNat * 4
    [base64Char (n / 4096), base64Char (n / 64), base64Char n, '=']
  | [a] =>
    let n := a.toNat * 16
    [base64Char (n / 64), base64Char n, '=', '=']
  | [] => []

/-- The bytes of base64 text whose padding is canonical and whose unused bits are zero. -/
def decodeBase64 : List Char → Option (List UInt8)
  | [] => some []
  | [a, b, '=', '='] => do
    let n := (← base64Value a) * 64 + (← base64Value b)
    if n % 16 = 0 then some [.ofNat (n / 16)] else none
  | [a, b, c, '='] => do
    let n := (← base64Value a) * 4096 + (← base64Value b) * 64 + (← base64Value c)
    if n % 4 = 0 then some [.ofNat (n / 1024), .ofNat (n / 4 % 256)] else none
  | a :: b :: c :: d :: rest => do
    let n := (← base64Value a) * 262144 + (← base64Value b) * 4096 + (← base64Value c) * 64 +
      (← base64Value d)
    let later ← decodeBase64 rest
    some (.ofNat (n / 65536) :: .ofNat (n / 256 % 256) :: .ofNat (n % 256) :: later)
  | _ => none

def encodeKey (key : Key) : String := String.ofList (encodeBase64 key.toList)

def decodeKey (text : String) : Option Key :=
  if text.utf8ByteSize ≠ keyTextLen then none
  else match decodeBase64 text.toList with
    | some bytes => if bytes.length = 32 then some (.ofList 32 bytes) else none
    | none => none

/-! ### Round trip -/

theorem base64Value_base64Char (n : Nat) : base64Value (base64Char n) = some (n % 64) := by
  have h : ∀ i : Fin 64, base64Value (base64Alphabet.getD i 'A') = some i.val := by decide +kernel
  exact h ⟨n % 64, Nat.mod_lt n (by decide)⟩

theorem base64Char_ne_pad (n : Nat) : base64Char n ≠ '=' := by
  have h : ∀ i : Fin 64, base64Alphabet.getD i 'A' ≠ '=' := by decide +kernel
  exact h ⟨n % 64, Nat.mod_lt n (by decide)⟩

theorem utf8Size_base64Char (n : Nat) : (base64Char n).utf8Size = 1 := by
  have h : ∀ i : Fin 64, (base64Alphabet.getD i 'A').utf8Size = 1 := by decide +kernel
  exact h ⟨n % 64, Nat.mod_lt n (by decide)⟩

theorem ofNat_toNat_eq {n : Nat} {a : UInt8} (h : n = a.toNat) : UInt8.ofNat n = a := by
  rw [h, UInt8.ofNat_toNat]

/-- The bytes come back from their text, group by group. -/
theorem decodeBase64_encodeBase64 (bytes : List UInt8) :
    decodeBase64 (encodeBase64 bytes) = some bytes := by
  induction bytes using encodeBase64.induct with
  | case1 a b c rest ih =>
    have ha := a.toNat_lt
    have hb := b.toNat_lt
    have hc := c.toNat_lt
    rw [encodeBase64, decodeBase64, base64Value_base64Char, base64Value_base64Char,
      base64Value_base64Char, base64Value_base64Char, ih]
    · -- four sextets make up the three bytes again
      have hn : ∀ n < 2 ^ 24, n / 262144 % 64 * 262144 + n / 4096 % 64 * 4096 + n / 64 % 64 * 64 +
          n % 64 = n := by
        intro n hn
        omega
      simp only [Option.bind_eq_bind, Option.bind_some, Option.some.injEq, List.cons.injEq,
        and_true]
      rw [hn _ (by omega)]
      exact ⟨ofNat_toNat_eq (by omega), ofNat_toNat_eq (by omega), ofNat_toNat_eq (by omega)⟩
    · exact fun h => absurd h (base64Char_ne_pad _)
    · exact fun h => absurd h (base64Char_ne_pad _)
  | case2 a b =>
    have ha := a.toNat_lt
    have hb := b.toNat_lt
    rw [encodeBase64, decodeBase64, base64Value_base64Char, base64Value_base64Char,
      base64Value_base64Char]
    · have hn : ∀ n < 2 ^ 18, n / 4096 % 64 * 4096 + n / 64 % 64 * 64 + n % 64 = n := by
        intro n hn
        omega
      simp only [Option.bind_eq_bind, Option.bind_some]
      rw [hn _ (by omega), if_pos (by omega), ofNat_toNat_eq (a := a) (by omega),
        ofNat_toNat_eq (a := b) (by omega)]
    · exact fun h => absurd h (base64Char_ne_pad _)
  | case3 a =>
    have ha := a.toNat_lt
    have hn : a.toNat * 16 / 64 % 64 * 64 + a.toNat * 16 % 64 = a.toNat * 16 := by omega
    rw [encodeBase64, decodeBase64, base64Value_base64Char, base64Value_base64Char]
    simp only [Option.bind_eq_bind, Option.bind_some]
    rw [hn, if_pos (by omega), ofNat_toNat_eq (a := a) (by omega)]
  | case4 => rfl

theorem length_encodeBase64 (bytes : List UInt8) :
    (encodeBase64 bytes).length = (bytes.length + 2) / 3 * 4 := by
  induction bytes using encodeBase64.induct with
  | case1 a b c rest ih =>
    simp only [encodeBase64, List.length_cons, ih]
    omega
  | case2 a b => simp [encodeBase64]
  | case3 a => simp [encodeBase64]
  | case4 => rfl

theorem utf8Size_encodeBase64 (bytes : List UInt8) : ∀ c ∈ encodeBase64 bytes, c.utf8Size = 1 := by
  have hpad : '='.utf8Size = 1 := rfl
  induction bytes using encodeBase64.induct with
  | case1 a b c rest ih =>
    simp only [encodeBase64, List.forall_mem_cons, utf8Size_base64Char, true_and]
    exact ih
  | case2 a b => simp [encodeBase64, utf8Size_base64Char, hpad]
  | case3 a => simp [encodeBase64, utf8Size_base64Char, hpad]
  | case4 => exact nofun

theorem utf8ByteSize_encodeKey (key : Key) : (encodeKey key).utf8ByteSize = keyTextLen := by
  rw [encodeKey, utf8ByteSize_ofList (utf8Size_encodeBase64 _), length_encodeBase64,
    Vector.length_toList]
  rfl

theorem decodeKey_encodeKey (key : Key) : decodeKey (encodeKey key) = some key := by
  rw [decodeKey, if_neg (fun h => h (utf8ByteSize_encodeKey key)), encodeKey, String.toList_ofList,
    decodeBase64_encodeBase64]
  simp only [Vector.length_toList, if_true, Bytes.ofList_toList]

end Microtun
