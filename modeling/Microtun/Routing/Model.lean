import Microtun.Error
import Microtun.PrefixTrie.Model

/-! The cryptokey routing cache of `routing.rs`: routes live in stable slots, and a prefix trie maps
each distinct prefix to the slot of its incumbent owner.  Other owners of the same prefix stay in
the slots until the incumbent goes. -/

namespace Microtun

/-- A route. -/
structure Entry where
  cidr : IpCidr
  peer : Nat
  pinned : Bool
  lastUsed : Nat
  insertionOrder : Nat
deriving DecidableEq, Repr

/-- The first element with the smallest key. -/
def minByKey {α : Type} (f : α → Nat) : List α → Option α
  | [] => none
  | x :: xs =>
    match minByKey f xs with
    | none => some x
    | some y => if f x ≤ f y then some x else some y

/-- The position of the first element with the smallest key among those that match. -/
def minPosition {α : Type} (p : α → Bool) (key : α → Nat) (l : List α) : Option Nat :=
  (minByKey (fun x => key x.1) (l.zipIdx.filter fun x => p x.1)).map (·.2)

section MinByKey

variable {α : Type} {f : α → Nat}

theorem minByKey_eq_none {l : List α} : minByKey f l = none ↔ l = [] := by
  cases l with
  | nil => simp [minByKey]
  | cons x xs =>
    simp only [minByKey, reduceCtorEq, iff_false]
    split
    · simp
    · split <;> simp

theorem minByKey_spec {l : List α} {x : α} (h : minByKey f l = some x) :
    x ∈ l ∧ ∀ y ∈ l, f x ≤ f y := by
  induction l generalizing x with
  | nil => cases h
  | cons a as ih =>
    simp only [minByKey] at h
    cases hmin : minByKey f as with
    | none =>
      rw [hmin] at h
      obtain rfl : a = x := Option.some.inj h
      rw [minByKey_eq_none.mp hmin]
      simp
    | some b =>
      rw [hmin] at h
      obtain ⟨hb, hle⟩ := ih hmin
      simp only at h
      split at h
      · obtain rfl : a = x := Option.some.inj h
        refine ⟨List.mem_cons_self, fun y hy => ?_⟩
        rcases List.mem_cons.mp hy with rfl | hy
        · exact Nat.le_refl _
        · exact Nat.le_trans ‹_› (hle y hy)
      · obtain rfl : b = x := Option.some.inj h
        refine ⟨List.mem_cons_of_mem _ hb, fun y hy => ?_⟩
        rcases List.mem_cons.mp hy with rfl | hy
        · omega
        · exact hle y hy

theorem minPosition_spec {p : α → Bool} {l : List α} {i : Nat} (h : minPosition p f l = some i) :
    ∃ a, l[i]? = some a ∧ p a = true := by
  obtain ⟨⟨a, j⟩, hx, rfl⟩ := Option.map_eq_some_iff.mp h
  obtain ⟨hmem, hp⟩ := List.mem_filter.mp (minByKey_spec hx).1
  exact ⟨a, List.mem_zipIdx_iff_getElem?.mp hmem, hp⟩

end MinByKey

/-- The route cache with `maxRoutes` slots. -/
structure RouteCache (maxRoutes : Nat) where
  entries : Vector (Option Entry) maxRoutes
  len : Nat
  trie : PrefixTrie Nat maxRoutes
  nextInsertionOrder : Nat
deriving DecidableEq, Repr

namespace RouteCache

variable {maxRoutes : Nat}

def new (maxRoutes : Nat) (backend : Backend) : RouteCache maxRoutes :=
  ⟨Vector.replicate maxRoutes none, 0, .new maxRoutes backend, 0⟩

/-- The entry in a slot. -/
def entry (c : RouteCache maxRoutes) (index : Nat) : Option Entry := c.entries[index]?.join

/-- Put an entry into a slot, or empty it. -/
def setEntry (c : RouteCache maxRoutes) (index : Nat) (e : Option Entry) : RouteCache maxRoutes :=
  { c with entries := c.entries.setIfInBounds index e }

/-- The slot of the winning entry of a longest-prefix match. -/
def bestMatch (c : RouteCache maxRoutes) (ip : IpAddr) : Except Panic (Option Nat) :=
  c.trie.lookup ip

/-- The peer that owns the address, with its entry marked as used. -/
def lookup (c : RouteCache maxRoutes) (ip : IpAddr) (now : Nat) :
    Except Panic (Option Nat × RouteCache maxRoutes) := do
  match ← c.bestMatch ip with
  | none => return (none, c)
  | some index =>
    match c.entry index with
    | none => return (none, c)
    | some e => return (some e.peer, c.setEntry index (some { e with lastUsed := now }))

/-- The peer that owns the address. -/
def lookupReadonly (c : RouteCache maxRoutes) (ip : IpAddr) : Except Panic (Option Nat) := do
  match ← c.bestMatch ip with
  | none => return none
  | some index => return (c.entry index).map (·.peer)

/-- The slot that holds exactly the route. -/
def find (c : RouteCache maxRoutes) (cidr : IpCidr) (peer : Nat) : Option Nat :=
  c.entries.toList.findIdx? fun o => o.any fun e => e.cidr = cidr ∧ e.peer = peer

def firstFree (c : RouteCache maxRoutes) : Option Nat :=
  c.entries.toList.findIdx? Option.isNone

/-- Insert or refresh a route without evicting another one. -/
def insert (c : RouteCache maxRoutes) (cidr : IpCidr) (peer : Nat) (pinned : Bool) (now : Nat) :
    Except Panic (Except Error Unit × RouteCache maxRoutes) :=
  match c.find cidr peer with
  | some index =>
    match c.entry index with
    | some e =>
      return (.ok (), c.setEntry index (some { e with pinned := pinned, lastUsed := now }))
    | none => throw .index
  | none =>
    match c.firstFree with
    | none => return (.error .routeCacheFull, c)
    | some index => do
      let e : Entry := ⟨cidr, peer, pinned, now, c.nextInsertionOrder⟩
      let finish (c : RouteCache maxRoutes) : RouteCache maxRoutes :=
        { c.setEntry index (some e) with
          len := c.len + 1
          nextInsertionOrder := (c.nextInsertionOrder + 1) % 2 ^ 64 }
      match ← c.trie.get cidr with
      | some _ => return (.ok (), finish c)
      | none =>
        match ← c.trie.insert cidr index with
        | (.error _, trie) => return (.error .routeCacheFull, { c with trie })
        | (.ok (some _), trie) => return (.error .internalInvariant, { c with trie })
        | (.ok none, trie) => return (.ok (), finish { c with trie })

/-- Unused slots. -/
def availableSlots (c : RouteCache maxRoutes) : Nat := maxRoutes - c.len

/-- Slots owned by the peer. -/
def peerRouteCount (c : RouteCache maxRoutes) (peer : Nat) : Nat :=
  (c.entries.toList.reduceOption.filter fun e => e.peer = peer).length

/-- The oldest other owner of the prefix of the slot `index`. -/
def replacement (c : RouteCache maxRoutes) (index : Nat) (cidr : IpCidr) : Option Nat :=
  let candidates := c.entries.toList.zipIdx.filterMap fun (candidate, candidateIndex) =>
    if candidateIndex = index then none
    else
      match candidate with
      | none => none
      | some e => if e.cidr = cidr then some (e.insertionOrder, candidateIndex) else none
  (minByKey (·.1) candidates).map (·.2)

/-- Take the prefix of the slot `index`, its incumbent, from the trie, and promote `replacement`. -/
def promote (c : RouteCache maxRoutes) (index : Nat) (cidr : IpCidr) (replacement : Option Nat) :
    Except Panic (Except Error Unit × RouteCache maxRoutes) := do
  match ← c.trie.remove cidr with
  | (some removed, trie) =>
    if removed = index then
      match replacement with
      | none => return (.ok (), { c with trie })
      | some replacement =>
        match ← trie.insert cidr replacement with
        | (.ok none, trie) => return (.ok (), { c with trie })
        | (_, trie) =>
          let (_, trie) ← trie.insert cidr index
          return (.error .internalInvariant, { c with trie })
    else
      let (_, trie) ← trie.insert cidr removed
      return (.error .internalInvariant, { c with trie })
  | (none, trie) => return (.error .internalInvariant, { c with trie })

/-- Empty the slot `index` if it still holds the entry `e`, and put the trie back else. -/
def clearSlot (c : RouteCache maxRoutes) (index : Nat) (e : Entry) (wasIncumbent : Bool)
    (nextLen : Nat) : Except Panic (Except Error Unit × RouteCache maxRoutes) :=
  if (c.entry index).all fun current => current.peer ≠ e.peer ∨ current.cidr ≠ e.cidr then do
    if wasIncumbent then
      let (_, trie) ← c.trie.remove e.cidr
      let (_, trie) ← trie.insert e.cidr index
      return (.error .internalInvariant, { c with trie })
    else return (.error .internalInvariant, c)
  else return (.ok (), { c.setEntry index none with len := nextLen })

/-- The body of the loop of `remove_peer`. -/
def removeSlot (c : RouteCache maxRoutes) (peer index : Nat) :
    Except Panic (Except Error Unit × RouteCache maxRoutes) :=
  match c.entry index with
  | none => return (.ok (), c)
  | some e =>
    if e.peer ≠ peer then return (.ok (), c)
    else do
      let nextLen := c.len - 1
      let wasIncumbent : Bool := (← c.trie.get e.cidr) = some index
      if wasIncumbent then
        match ← c.promote index e.cidr (c.replacement index e.cidr) with
        | (.error error, c) => return (.error error, c)
        | (.ok (), c) => c.clearSlot index e wasIncumbent nextLen
      else c.clearSlot index e wasIncumbent nextLen

def removeLoop (peer : Nat) :
    List Nat → RouteCache maxRoutes → Except Panic (Except Error Unit × RouteCache maxRoutes)
  | [], c => return (.ok (), c)
  | index :: rest, c => do
    match ← c.removeSlot peer index with
    | (.ok (), c) => removeLoop peer rest c
    | (.error error, c) => return (.error error, c)

/-- Drop every route of the peer. -/
def removePeer (c : RouteCache maxRoutes) (peer : Nat) :
    Except Panic (Except Error Unit × RouteCache maxRoutes) :=
  removeLoop peer (List.range maxRoutes) c

end RouteCache

end Microtun
