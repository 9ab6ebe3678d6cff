import Microtun.Lib.Ascii
import Microtun.Net
import Mathlib.Data.Bool.AllAny

/-! The text forms of addresses, socket addresses and prefixes, as the standard library and the
`cidr` crate print them, and how long they get. -/

namespace Microtun

/-- The flow information of an endpoint, which its text does not have. -/
def SocketAddr.flowinfo : SocketAddr → BitVec 32
  | .v4 .. => 0
  | .v6 _ _ flowinfo _ => flowinfo

/-- The endpoint that its text parses to. -/
def SocketAddr.withoutFlowinfo : SocketAddr → SocketAddr
  | .v4 address port => .v4 address port
  | .v6 address port _ scopeId => .v6 address port 0 scopeId

namespace Display

def decimal (n : Nat) : List Char := Nat.toDigits 10 n
def hexadecimal (n : Nat) : List Char := Nat.toDigits 16 n

def octet (a : BitVec 32) (i : Nat) : Nat := (a >>> (8 * (3 - i))).toNat % 256

/-- `Display` of `Ipv4Addr`. -/
def ipv4 (a : BitVec 32) : List Char :=
  decimal (octet a 0) ++ '.' :: decimal (octet a 1) ++ '.' :: decimal (octet a 2) ++
    '.' :: decimal (octet a 3)

def segments (a : BitVec 128) : List Nat :=
  (List.range 8).map fun i => (a >>> (16 * (7 - i))).toNat % 65536

structure Span where
  start : Nat
  len : Nat
deriving DecidableEq, Repr

/-- The run of zeros that ends with the segment `i`. -/
def Span.extend (current : Span) (i : Nat) : Span :=
  ⟨if current.len = 0 then i else current.start, current.len + 1⟩

/-- The loop that finds the first longest run of zero segments; the next segment has the index `i`.
-/
def zeroes (longest current : Span) (i : Nat) : List Nat → Span
  | [] => longest
  | segment :: rest =>
    if segment = 0 then
      let current := current.extend i
      zeroes (if longest.len < current.len then current else longest) current (i + 1) rest
    else zeroes longest ⟨0, 0⟩ (i + 1) rest

/-- A part of an address, its segments separated by colons. -/
def subslice : List Nat → List Char
  | [] => []
  | first :: tail => hexadecimal first ++ tail.flatMap fun segment => ':' :: hexadecimal segment

/-- `Display` of `Ipv6Addr`. -/
def ipv6 (a : BitVec 128) : List Char :=
  if a >>> 32 = 0xffff then "::ffff:".toList ++ ipv4 (a.setWidth 32)
  else
    let longest := zeroes ⟨0, 0⟩ ⟨0, 0⟩ 0 (segments a)
    if 1 < longest.len then
      subslice ((segments a).take longest.start) ++ "::".toList ++
        subslice ((segments a).drop (longest.start + longest.len))
    else subslice (segments a)

/-- `Display` of `IpAddr`. -/
def ipAddr : IpAddr → List Char
  | .v4 address => ipv4 address
  | .v6 address => ipv6 address

/-- `Display` of `SocketAddr`. -/
def socketAddr : SocketAddr → List Char
  | .v4 address port => ipv4 address ++ ':' :: decimal port.toNat
  | .v6 address port _ scopeId =>
    '[' :: ipv6 address ++ (if scopeId = 0 then [] else '%' :: decimal scopeId.toNat) ++
      ']' :: ':' :: decimal port.toNat

/-- The alternate `Display` of `IpCidr`, which has the length also of a host prefix. -/
def ipCidr : IpCidr → List Char
  | .v4 cidr => ipv4 cidr.firstAddress ++ '/' :: decimal cidr.networkLength
  | .v6 cidr => ipv6 cidr.firstAddress ++ '/' :: decimal cidr.networkLength

/-! ### Lengths -/

theorem length_decimal_le {n k : Nat} (hk : 0 < k) (h : n < 10 ^ k) : (decimal n).length ≤ k :=
  (Nat.length_toDigits_le_iff (by decide) hk).mpr h

theorem length_hexadecimal_le {n : Nat} (h : n < 65536) : (hexadecimal n).length ≤ 4 :=
  (Nat.length_toDigits_le_iff (by decide) (by decide)).mpr h

theorem octet_lt (a : BitVec 32) (i : Nat) : octet a i < 10 ^ 3 :=
  Nat.lt_trans (Nat.mod_lt _ (by decide)) (by decide)

theorem length_ipv4_le (a : BitVec 32) : (ipv4 a).length ≤ 15 := by
  have h := fun i => length_decimal_le (by decide) (octet_lt a i)
  have := h 0
  have := h 1
  have := h 2
  have := h 3
  simp only [ipv4, List.length_append, List.length_cons]
  omega

theorem segments_lt (a : BitVec 128) : ∀ segment ∈ segments a, segment < 65536 := by
  intro segment h
  obtain ⟨i, -, rfl⟩ := List.mem_map.mp h
  exact Nat.mod_lt _ (by decide)

theorem length_segments (a : BitVec 128) : (segments a).length = 8 := by
  rw [segments, List.length_map, List.length_range]

theorem Span.extend_le (current : Span) {i : Nat} (h : current.start + current.len ≤ i) :
    (current.extend i).start + (current.extend i).len ≤ i + 1 := by
  unfold extend
  simp only
  split <;> omega

/-- A run of zeros lies among the segments that the loop has seen. -/
theorem zeroes_le (longest current : Span) {i : Nat} (hlongest : longest.start + longest.len ≤ i)
    (hcurrent : current.start + current.len ≤ i) (rest : List Nat) :
    (zeroes longest current i rest).start + (zeroes longest current i rest).len ≤
      i + rest.length := by
  induction rest generalizing longest current i with
  | nil => exact hlongest
  | cons segment rest ih =>
    unfold zeroes
    rw [List.length_cons, Nat.add_comm rest.length, ← Nat.add_assoc]
    split
    · have hgrown := current.extend_le hcurrent
      refine ih _ _ ?_ hgrown
      split
      · exact hgrown
      · exact Nat.le_succ_of_le hlongest
    · exact ih _ _ (by omega) (by simp)

/-- Four digits and a colon for each segment, and no colon for the first. -/
theorem length_subslice_le (chunk : List Nat) (h : ∀ segment ∈ chunk, segment < 65536) :
    (subslice chunk).length ≤ 5 * chunk.length - 1 := by
  cases chunk with
  | nil => exact Nat.le_refl 0
  | cons first tail =>
    obtain ⟨hfirst, htail⟩ := List.forall_mem_cons.mp h
    have hrest : (tail.flatMap fun segment => ':' :: hexadecimal segment).length ≤
        5 * tail.length := by
      clear h
      induction tail with
      | nil => exact Nat.le_refl 0
      | cons segment tail ih =>
        obtain ⟨hsegment, htail⟩ := List.forall_mem_cons.mp htail
        have := length_hexadecimal_le hsegment
        have := ih htail
        simp only [List.flatMap_cons, List.length_append, List.length_cons]
        omega
    have := length_hexadecimal_le hfirst
    simp only [subslice, List.length_append, List.length_cons]
    omega

theorem length_ipv6_le (a : BitVec 128) : (ipv6 a).length ≤ 39 := by
  unfold ipv6
  split
  · have := length_ipv4_le (a.setWidth 32)
    have : "::ffff:".toList.length = 7 := rfl
    rw [List.length_append]
    omega
  · have hsegments := length_segments a
    have hlt := segments_lt a
    have hspan := zeroes_le ⟨0, 0⟩ ⟨0, 0⟩ (Nat.le_refl 0) (Nat.le_refl 0)
      (segments a)
    simp only
    generalize zeroes ⟨0, 0⟩ ⟨0, 0⟩ 0 (segments a) = longest at hspan
    split
    · have hbefore := length_subslice_le ((segments a).take longest.start)
        fun s hs => hlt s (List.mem_of_mem_take hs)
      have hafter := length_subslice_le ((segments a).drop (longest.start + longest.len))
        fun s hs => hlt s (List.mem_of_mem_drop hs)
      have : "::".toList.length = 2 := rfl
      rw [List.length_take] at hbefore
      rw [List.length_drop] at hafter
      rw [List.length_append, List.length_append]
      omega
    · have := length_subslice_le _ hlt
      omega

/-! ### All characters take one byte -/

theorem utf8Size_decimal (n : Nat) : ∀ c ∈ decimal n, c.utf8Size = 1 :=
  utf8Size_toDigits (by decide) (by decide)

theorem utf8Size_hexadecimal (n : Nat) : ∀ c ∈ hexadecimal n, c.utf8Size = 1 :=
  utf8Size_toDigits (by decide) (by decide)

theorem utf8Size_ipv4 (a : BitVec 32) : ∀ c ∈ ipv4 a, c.utf8Size = 1 := by
  have hdot : '.'.utf8Size = 1 := rfl
  simp only [ipv4, List.forall_mem_append, List.forall_mem_cons, hdot, true_and]
  exact ⟨⟨⟨utf8Size_decimal _, utf8Size_decimal _⟩, utf8Size_decimal _⟩, utf8Size_decimal _⟩

theorem utf8Size_subslice (chunk : List Nat) : ∀ c ∈ subslice chunk, c.utf8Size = 1 := by
  have hcolon : ':'.utf8Size = 1 := rfl
  cases chunk with
  | nil => exact nofun
  | cons first tail =>
    simp only [subslice, List.forall_mem_append]
    refine ⟨utf8Size_hexadecimal first, fun c hc => ?_⟩
    obtain ⟨segment, -, hc⟩ := List.mem_flatMap.mp hc
    rcases List.mem_cons.mp hc with rfl | hc
    · exact hcolon
    · exact utf8Size_hexadecimal segment c hc

theorem utf8Size_ipv6 (a : BitVec 128) : ∀ c ∈ ipv6 a, c.utf8Size = 1 := by
  unfold ipv6
  split
  · rw [List.forall_mem_append]
    exact ⟨List.all_iff_forall_prop.mp (by decide), utf8Size_ipv4 _⟩
  · simp only
    split
    · rw [List.forall_mem_append, List.forall_mem_append]
      exact ⟨⟨utf8Size_subslice _, List.all_iff_forall_prop.mp (by decide)⟩, utf8Size_subslice _⟩
    · exact utf8Size_subslice _

theorem utf8Size_socketAddr (e : SocketAddr) : ∀ c ∈ socketAddr e, c.utf8Size = 1 := by
  have hcolon : ':'.utf8Size = 1 := rfl
  cases e with
  | v4 address port =>
    simp only [socketAddr, List.forall_mem_append, List.forall_mem_cons, hcolon, true_and]
    exact ⟨utf8Size_ipv4 address, utf8Size_decimal _⟩
  | v6 address port flowinfo scopeId =>
    have hopen : '['.utf8Size = 1 := rfl
    have hclose : ']'.utf8Size = 1 := rfl
    have hpercent : '%'.utf8Size = 1 := rfl
    simp only [socketAddr, List.cons_append, List.forall_mem_append, List.forall_mem_cons, hcolon,
      hopen, hclose, true_and]
    refine ⟨⟨utf8Size_ipv6 address, ?_⟩, utf8Size_decimal _⟩
    split
    · exact nofun
    · rw [List.forall_mem_cons]
      exact ⟨hpercent, utf8Size_decimal _⟩

theorem utf8Size_ipCidr (cidr : IpCidr) : ∀ c ∈ ipCidr cidr, c.utf8Size = 1 := by
  have hslash : '/'.utf8Size = 1 := rfl
  cases cidr with
  | v4 cidr =>
    simp only [ipCidr, List.forall_mem_append, List.forall_mem_cons, hslash, true_and]
    exact ⟨utf8Size_ipv4 _, utf8Size_decimal _⟩
  | v6 cidr =>
    simp only [ipCidr, List.forall_mem_append, List.forall_mem_cons, hslash, true_and]
    exact ⟨utf8Size_ipv6 _, utf8Size_decimal _⟩

end Display

end Microtun
