import Microtun.Net

/-! The path-compressed prefix trie of `prefix_trie.rs`, in both of its storage modes: the inline
pool of node pairs of allocation-free builds, and the growing vector with a free list of builds with
an allocator.  Every `expect`, `assert` and index of the source is an explicit panic here, and the
loops of the source, whose progress depends on the shape of the trie, run on fuel whose exhaustion
is a panic of its own. -/

namespace Microtun

/-- How a run of the source can abort. -/
inductive Panic where
  | expect (message : String)
  | assertion (message : String)
  | index
  /-- A loop ran longer than the bound the model gives it. -/
  | diverges
deriving DecidableEq, Repr

@[simp] theorem ok_bind {α β : Type} (a : α) (f : α → Except Panic β) :
    (Except.ok a >>= f) = f a := rfl

/-- The two child slots of a node, indexed by an address bit.  A node is named by its index in the
pool. -/
structure Children where
  zero : Option Nat
  one : Option Nat
deriving DecidableEq, Repr

namespace Children

def get (c : Children) : Bool → Option Nat
  | false => c.zero
  | true => c.one

def set (c : Children) (b : Bool) (child : Option Nat) : Children :=
  match b with
  | false => ⟨child, c.one⟩
  | true => ⟨c.zero, child⟩

/-- The child of a node that has exactly one. -/
def only : Children → Option Nat
  | ⟨some only, none⟩ => some only
  | ⟨none, some only⟩ => some only
  | _ => none

def empty : Children := ⟨none, none⟩

@[simp] theorem get_empty (b : Bool) : empty.get b = none := by cases b <;> rfl

theorem get_set (c : Children) (b b' : Bool) (child : Option Nat) :
    (c.set b child).get b' = if b' = b then child else c.get b' := by
  cases b <;> cases b' <;> rfl

@[simp] theorem get_set_self (c : Children) (b : Bool) (child : Option Nat) :
    (c.set b child).get b = child := by simp [get_set]

@[simp] theorem set_set (c : Children) (b : Bool) (x y : Option Nat) :
    (c.set b x).set b y = c.set b y := by cases b <;> rfl

theorem only_set_none (c : Children) (b : Bool) : (c.set b none).only = c.get (!b) := by
  rcases c with ⟨_ | i, _ | j⟩ <;> cases b <;> rfl

@[simp] theorem set_get (c : Children) (b : Bool) : c.set b (c.get b) = c := by cases b <;> rfl

end Children

/-- Bit `i` of `bits`, counted from the most significant one, as the choice of a child. -/
def bit (bits : BitVec 128) (i : Nat) : Bool := (bits >>> (127 - i)) &&& 1#128 == 1#128

/-- The length of the common prefix of `a` and `b`, capped at `max`. -/
def commonLen (a b : BitVec 128) (max : Nat) : Nat := min (a ^^^ b).clz.toNat max

/-- Shifts that tolerate a count of 128. -/
def shl (bits : BitVec 128) (n : Nat) : BitVec 128 := if n ≥ 128 then 0 else bits <<< n

def shr (bits : BitVec 128) (n : Nat) : BitVec 128 := if n ≥ 128 then 0 else bits >>> n

/-- Zero every bit of `bits` past the first `len`. -/
def mask (bits : BitVec 128) (len : Nat) : BitVec 128 :=
  if len = 0 then 0
  else if len ≥ 128 then bits
  else bits &&& (~~~0#128 <<< (128 - len))

/-- A node: the run of bits that leads into it, its children, and the value of the prefix that ends
at it, if one was inserted.  The length is a `u8` in the source; it never exceeds 128. -/
structure Node (V : Type) where
  bits : BitVec 128
  len : Nat
  children : Children
  value : Option V
deriving DecidableEq, Repr

def Node.new {V : Type} (bits : BitVec 128) (len : Nat) : Node V :=
  ⟨mask bits len, len, .empty, none⟩

/-! ### The allocation-free pool -/

/-- Two node slots and the bits that say which of them are live. -/
structure NodePair (V : Type) where
  nodes : Vector (Node V) 2
  occupied : BitVec 8
deriving DecidableEq, Repr

namespace NodePair

variable {V : Type}

def empty : NodePair V := ⟨Vector.replicate 2 (Node.new 0 0), 0⟩

def get (p : NodePair V) (slot : Nat) : Option (Node V) :=
  if p.occupied &&& (1#8 <<< slot) = 0 then none else p.nodes[slot]?

/-- Writing through the source's `get_mut`. -/
def modify (p : NodePair V) (slot : Nat) (f : Node V → Node V) : Option (NodePair V) :=
  (p.get slot).map fun node => ⟨p.nodes.setIfInBounds slot (f node), p.occupied⟩

def firstFree (p : NodePair V) : Option Nat :=
  [0, 1].find? fun slot => p.occupied &&& (1#8 <<< slot) = 0

def occupy (p : NodePair V) (slot : Nat) (node : Node V) : Except Panic (NodePair V) :=
  if p.occupied &&& (1#8 <<< slot) = 0 then
    .ok ⟨p.nodes.setIfInBounds slot node, p.occupied ||| (1#8 <<< slot)⟩
  else .error (.assertion "self.occupied & bit == 0")

def release (p : NodePair V) (slot : Nat) : Except Panic (NodePair V) :=
  if p.occupied &&& (1#8 <<< slot) = 0 then .error (.assertion "released trie node must be live")
  else .ok ⟨p.nodes.setIfInBounds slot (Node.new 0 0), p.occupied &&& ~~~(1#8 <<< slot)⟩

end NodePair

/-- The two roots, which are always present, two slots for each prefix, and the number of slots in
use. -/
structure NodePool (V : Type) (maxPrefixes : Nat) where
  roots : Vector (Node V) 2
  pairs : Vector (NodePair V) maxPrefixes
  used : Nat
deriving DecidableEq, Repr

namespace NodePool

variable {V : Type} {maxPrefixes : Nat}

def new (maxPrefixes : Nat) : NodePool V maxPrefixes :=
  ⟨Vector.replicate 2 (Node.new 0 0), Vector.replicate maxPrefixes .empty, 0⟩

def get (p : NodePool V maxPrefixes) (id : Nat) : Option (Node V) :=
  if id < 2 then p.roots[id]?
  else do
    let pair ← p.pairs[(id - 2) / 2]?
    pair.get ((id - 2) % 2)

/-- Writing through the source's `get_mut`. -/
def modify (p : NodePool V maxPrefixes) (id : Nat) (f : Node V → Node V) :
    Option (NodePool V maxPrefixes) :=
  if id < 2 then do
    let node ← p.roots[id]?
    return { p with roots := p.roots.setIfInBounds id (f node) }
  else do
    let pair ← p.pairs[(id - 2) / 2]?
    let pair ← pair.modify ((id - 2) % 2) f
    return { p with pairs := p.pairs.setIfInBounds ((id - 2) / 2) pair }

/-- The source saturates the product at the width of an index; an array of `maxPrefixes` pairs
cannot be that large. -/
def available (p : NodePool V maxPrefixes) : Nat := maxPrefixes * 2 - p.used

/-- The first pair with a free slot, and that slot. -/
def firstFree (p : NodePool V maxPrefixes) : Option (Nat × Nat) :=
  p.pairs.toList.zipIdx.findSome? fun (pair, index) =>
    pair.firstFree.map fun slot => (index, slot)

def alloc (p : NodePool V maxPrefixes) (node : Node V) :
    Except Panic (Option (Nat × NodePool V maxPrefixes)) :=
  match p.firstFree with
  | none => .ok none
  | some (index, slot) =>
    match p.pairs[index]? with
    | none => .error .index
    | some pair => do
      let pair ← pair.occupy slot node
      return some (2 + index * 2 + slot,
        { p with pairs := p.pairs.setIfInBounds index pair, used := p.used + 1 })

def release (p : NodePool V maxPrefixes) (id : Nat) : Except Panic (NodePool V maxPrefixes) :=
  if id < 2 then .error (.assertion "trie roots are never released")
  else
    match p.pairs[(id - 2) / 2]? with
    | none => .error (.expect "valid trie node id")
    | some pair => do
      let pair ← pair.release ((id - 2) % 2)
      return { p with pairs := p.pairs.setIfInBounds ((id - 2) / 2) pair, used := p.used - 1 }

end NodePool

/-! ### Both storage modes -/

/-- Which of the two builds of the engine is modelled: without or with the `alloc` feature. -/
inductive Backend where
  | inline
  | alloc
deriving DecidableEq, Repr

/-- The storage of a trie. -/
inductive NodeStore (V : Type) (maxPrefixes : Nat) where
  | pool (nodes : NodePool V maxPrefixes)
  /-- The nodes and, last freed first, the nodes available for reuse. -/
  | heap (nodes : List (Node V)) (free : List Nat)
deriving DecidableEq, Repr

/-- A path-compressed binary trie from IPv4 and IPv6 prefixes to `V`. -/
structure PrefixTrie (V : Type) (maxPrefixes : Nat) where
  nodes : NodeStore V maxPrefixes
deriving DecidableEq, Repr

/-- Returned by an insertion when the node pool is exhausted. -/
inductive CapacityError where
  | exhausted
deriving DecidableEq, Repr

def v4Root : Nat := 0

def v6Root : Nat := 1

namespace NodeStore

variable {V : Type} {maxPrefixes : Nat}

def new (maxPrefixes : Nat) : Backend → NodeStore V maxPrefixes
  | .inline => pool (NodePool.new maxPrefixes)
  | .alloc => heap [Node.new 0 0, Node.new 0 0] []

def get : NodeStore V maxPrefixes → Nat → Option (Node V)
  | pool p, id => p.get id
  | heap nodes _, id => nodes[id]?

/-- Reading by indexing. -/
def index (s : NodeStore V maxPrefixes) (id : Nat) : Except Panic (Node V) :=
  match s.get id with
  | some node => .ok node
  | none => .error (.expect "valid live trie node id")

/-- Writing by indexing. -/
def modify (s : NodeStore V maxPrefixes) (id : Nat) (f : Node V → Node V) :
    Except Panic (NodeStore V maxPrefixes) :=
  match s with
  | pool p =>
    match p.modify id f with
    | some p => .ok (pool p)
    | none => .error (.expect "valid live trie node id")
  | heap nodes free =>
    match nodes[id]? with
    | some node => .ok (heap (nodes.set id (f node)) free)
    | none => .error .index

def checkCapacity : NodeStore V maxPrefixes → Nat → Bool
  | pool p, needed => p.available ≥ needed
  | heap _ _, _ => true

/-- Take a free node or grow the pool. -/
def alloc (s : NodeStore V maxPrefixes) (bits : BitVec 128) (len : Nat) :
    Except Panic (Nat × NodeStore V maxPrefixes) :=
  match s with
  | pool p => do
    match ← p.alloc (Node.new bits len) with
    | some (id, p) => return (id, pool p)
    | none => throw (.expect "capacity was checked before allocation")
  | heap nodes (id :: free) =>
    if id < nodes.length then .ok (id, heap (nodes.set id (Node.new bits len)) free)
    else .error .index
  | heap nodes [] => .ok (nodes.length, heap (nodes ++ [Node.new bits len]) [])

def release (s : NodeStore V maxPrefixes) (id : Nat) :
    Except Panic (NodeStore V maxPrefixes) :=
  match s with
  | pool p => pool <$> p.release id
  | heap nodes free => .ok (heap nodes (id :: free))

/-- Can a path of a removal grow no more?  Allocation-free builds keep it in 128 entries. -/
def pathFull : NodeStore V maxPrefixes → List (Nat × Bool) → Bool
  | pool _, path => path.length ≥ 128
  | heap _ _, _ => false

end NodeStore

/-- The bits of an address at the most significant end of a word, its length, and the root of its
family. -/
def key : IpAddr → BitVec 128 × Nat × Nat
  | .v4 a => (a.setWidth 128 <<< 96, 32, v4Root)
  | .v6 a => (a, 128, v6Root)

namespace PrefixTrie

variable {V : Type} {maxPrefixes : Nat}

def new (maxPrefixes : Nat) (backend : Backend) : PrefixTrie V maxPrefixes :=
  ⟨.new maxPrefixes backend⟩

/-- The end of an insertion: the key leaves the edge of `child`, a child of `node`, after `shared`
of its bits, so a node `mid` is put on that edge. -/
def splitEdge (s : NodeStore V maxPrefixes) (node child : Nat) (branch : Bool)
    (cbits : BitVec 128) (clen : Nat) (rest : BitVec 128) (remaining shared : Nat) (value : V) :
    Except Panic (Except CapacityError (Option V) × NodeStore V maxPrefixes) := do
  let endsHere := shared = remaining
  if s.checkCapacity (if endsHere then 1 else 2) then
    let (mid, s) ← s.alloc cbits shared
    let s ← s.modify child fun c => { c with bits := shl cbits shared }
    let s ← s.modify child fun c => { c with len := clen - shared }
    let childBranch := bit (← s.index child).bits 0
    let s ← s.modify mid fun m => { m with children := m.children.set childBranch (some child) }
    let s ← s.modify node fun m => { m with children := m.children.set branch (some mid) }
    if endsHere then
      let s ← s.modify mid fun m => { m with value := some value }
      return (.ok none, s)
    else
      let (leaf, s) ← s.alloc (shl rest shared) (remaining - shared)
      let s ← s.modify leaf fun m => { m with value := some value }
      let leafBranch := bit (← s.index leaf).bits 0
      let s ← s.modify mid fun m => { m with children := m.children.set leafBranch (some leaf) }
      return (.ok none, s)
  else return (.error .exhausted, s)

def insertLoop (key : BitVec 128) (klen : Nat) (value : V) :
    Nat → NodeStore V maxPrefixes → Nat → Nat →
      Except Panic (Except CapacityError (Option V) × NodeStore V maxPrefixes)
  | 0, _, _, _ => throw .diverges
  | fuel + 1, s, node, pos => do
    if pos = klen then
      let old := (← s.index node).value
      let s ← s.modify node fun m => { m with value := some value }
      return (.ok old, s)
    else
      let branch := bit key pos
      match (← s.index node).children.get branch with
      | none =>
        if s.checkCapacity 1 then
          let (leaf, s) ← s.alloc (shl key pos) (klen - pos)
          let s ← s.modify leaf fun m => { m with value := some value }
          let s ← s.modify node fun m => { m with children := m.children.set branch (some leaf) }
          return (.ok none, s)
        else return (.error .exhausted, s)
      | some child =>
        let c ← s.index child
        let remaining := klen - pos
        let rest := shl key pos
        let shared := commonLen rest c.bits (min c.len remaining)
        if shared = c.len then insertLoop key klen value fuel s child (pos + c.len)
        else splitEdge s node child branch c.bits c.len rest remaining shared value

/-- Insert `value` for `net`, returning the value stored for exactly this prefix before. -/
def insert (t : PrefixTrie V maxPrefixes) (net : IpCidr) (value : V) :
    Except Panic (Except CapacityError (Option V) × PrefixTrie V maxPrefixes) := do
  let (key, _, root) := key net.firstAddress
  let klen := net.networkLength
  let (result, s) ← insertLoop key klen value (klen + 1) t.nodes root 0
  return (result, ⟨s⟩)

/-- The length of the edge into `child` if the key, of which `rem` bits are left, follows it. -/
def edgeMatch (s : NodeStore V maxPrefixes) (child : Nat) (key : BitVec 128) (rem : Nat) :
    Option Nat := do
  let c ← s.get child
  if c.len ≤ rem ∧ commonLen key c.bits c.len = c.len then some c.len else none

def lookupLoop (s : NodeStore V maxPrefixes) (key : BitVec 128) (klen : Nat) :
    Nat → Nat → Nat → Option V → Except Panic (Option V)
  | 0, _, _, _ => throw .diverges
  | fuel + 1, node, pos, best =>
    if pos < klen then
      match s.get node with
      | none => .ok none
      | some n =>
        match n.children.get (bit key pos) with
        | none => .ok best
        | some child =>
          match edgeMatch s child (shl key pos) (klen - pos) with
          | none => .ok best
          | some step =>
            if pos + step > klen then .ok none
            else
              match s.get child with
              | none => .ok none
              | some c => lookupLoop s key klen fuel child (pos + step) (c.value.or best)
    else .ok best

/-- The value of the most specific inserted prefix that contains `addr`. -/
def lookup (t : PrefixTrie V maxPrefixes) (addr : IpAddr) : Except Panic (Option V) :=
  let (key, klen, root) := key addr
  match t.nodes.get root with
  | none => .ok none
  | some r => lookupLoop t.nodes key klen (klen + 1) root 0 r.value

def getLoop (s : NodeStore V maxPrefixes) (key : BitVec 128) (klen : Nat) :
    Nat → Nat → Nat → Except Panic (Option V)
  | 0, _, _ => throw .diverges
  | fuel + 1, node, pos =>
    match s.get node with
    | none => .ok none
    | some n =>
      if pos < klen then
        match n.children.get (bit key pos) with
        | none => .ok none
        | some child =>
          match edgeMatch s child (shl key pos) (klen - pos) with
          | none => .ok none
          | some step =>
            if pos + step > klen then .ok none else getLoop s key klen fuel child (pos + step)
      else .ok n.value

/-- The value stored for exactly `net`. -/
def get (t : PrefixTrie V maxPrefixes) (net : IpCidr) : Except Panic (Option V) :=
  let (key, _, root) := key net.firstAddress
  let klen := net.networkLength
  getLoop t.nodes key klen (klen + 1) root 0

/-- Join the edge of `node` onto that of its only child and put the child in its place. -/
def mergeIntoChild (s : NodeStore V maxPrefixes) (parent : Nat) (branch : Bool)
    (node child : Nat) : Except Panic (NodeStore V maxPrefixes) := do
  let n ← s.index node
  let s ← s.modify child fun c =>
      { c with bits := n.bits ||| shr c.bits n.len, len := c.len + n.len }
  let s ← s.modify parent fun p => { p with children := p.children.set branch (some child) }
  s.release node

/-- After a leaf was removed below `parent`: merge it away if nothing else keeps it. -/
def mergeParent (s : NodeStore V maxPrefixes) :
    List (Nat × Bool) → Except Panic (NodeStore V maxPrefixes)
  | (parent, _) :: (grand, grandBranch) :: _ => do
    let p ← s.index parent
    if p.value.isNone then
      match p.children.only with
      | some only => mergeIntoChild s grand grandBranch parent only
      | none => return s
    else return s
  | _ => return s

/-- The end of a removal at `node`, reached along `path`, the last step first. -/
def detach (s : NodeStore V maxPrefixes) (node : Nat) (path : List (Nat × Bool)) :
    Except Panic (Option V × NodeStore V maxPrefixes) := do
  let n ← s.index node
  match n.value with
  | none => return (none, s)
  | some value =>
    let s ← s.modify node fun m => { m with value := none }
    match path with
    | [] => return (some value, s)
    | (parent, branch) :: _ =>
      match n.children.zero, n.children.one with
      | some _, some _ => return (some value, s)
      | some only, none | none, some only =>
        let s ← mergeIntoChild s parent branch node only
        return (some value, s)
      | none, none =>
        let s ← s.modify parent fun p => { p with children := p.children.set branch none }
        let s ← s.release node
        let s ← mergeParent s path
        return (some value, s)

def removeLoop (key : BitVec 128) (klen : Nat) (s : NodeStore V maxPrefixes) :
    Nat → Nat → Nat → List (Nat × Bool) → Except Panic (Option V × NodeStore V maxPrefixes)
  | 0, _, _, _ => throw .diverges
  | fuel + 1, node, pos, path => do
    if pos < klen then
      let branch := bit key pos
      match (← s.index node).children.get branch with
      | none => return (none, s)
      | some child =>
        match edgeMatch s child (shl key pos) (klen - pos) with
        | none => return (none, s)
        | some step =>
          if s.pathFull path then throw (.expect "an IP prefix has at most 128 edges")
          else removeLoop key klen s fuel child (pos + step) ((node, branch) :: path)
    else detach s node path

/-- Remove and return the value stored for exactly `net`, merging edges back together. -/
def remove (t : PrefixTrie V maxPrefixes) (net : IpCidr) :
    Except Panic (Option V × PrefixTrie V maxPrefixes) := do
  let (key, _, root) := key net.firstAddress
  let klen := net.networkLength
  let (value, s) ← removeLoop key klen t.nodes (klen + 1) root 0 []
  return (value, ⟨s⟩)

end PrefixTrie

end Microtun
