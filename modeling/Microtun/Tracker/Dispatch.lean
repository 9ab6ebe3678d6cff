import Microtun.Lib.HashMap
import Microtun.Peer

/-! The subscriber index of remote connections, `KeyedDispatcher` in `registry.rs`.  Each operation
runs under one lock, so a run is a list of operations. -/

namespace Microtun.Tracker

inductive RegistryChangeKind where
  | changed
  | removed
deriving DecidableEq, Repr

structure RegistryChange where
  publicKey : Key
  kind : RegistryChangeKind
deriving DecidableEq, Repr

/-- The invalidations a connection has not written yet, one for each key. -/
structure KeyedDispatchQueue where
  pending : HashMap Key RegistryChangeKind
  closed : Bool
deriving DecidableEq

namespace KeyedDispatchQueue

def new : KeyedDispatchQueue := ⟨∅, false⟩

def push (q : KeyedDispatchQueue) (change : RegistryChange) : KeyedDispatchQueue :=
  if q.closed then q else { q with pending := q.pending.insert change.publicKey change.kind }

def remove (q : KeyedDispatchQueue) (publicKey : Key) : KeyedDispatchQueue :=
  { q with pending := q.pending.erase publicKey }

def close (q : KeyedDispatchQueue) : KeyedDispatchQueue := { q with closed := true }

/-- One turn of `recv`, when `publicKey` is the pending key that the map lists first. -/
def recv (q : KeyedDispatchQueue) (publicKey : Key) : Option RegistryChange × KeyedDispatchQueue :=
  if q.closed then (none, q)
  else match q.pending.lookup publicKey with
    | none => (none, q)
    | some kind => (some ⟨publicKey, kind⟩, q.remove publicKey)

end KeyedDispatchQueue

structure DispatchConnection where
  caller : Key
  watched : HashSet Key
  queue : KeyedDispatchQueue
deriving DecidableEq

structure KeyedDispatchState where
  nextId : UInt64
  connections : HashMap UInt64 DispatchConnection
  byKey : Index Key UInt64
  byCaller : Index Key UInt64

namespace KeyedDispatchState

def empty : KeyedDispatchState := ⟨0, ∅, ∅, ∅⟩

def setConnection (s : KeyedDispatchState) (id : UInt64) (c : DispatchConnection) :
    KeyedDispatchState :=
  { s with connections := s.connections.insert id c }

def subscribe (s : KeyedDispatchState) (caller : Key) : UInt64 × KeyedDispatchState :=
  (s.nextId, { s with
    nextId := s.nextId + 1
    connections := s.connections.insert s.nextId ⟨caller, ∅, .new⟩
    byCaller := s.byCaller.file caller s.nextId })

def watch (s : KeyedDispatchState) (id : UInt64) (publicKey : Key) : KeyedDispatchState :=
  match s.connections.lookup id with
  | none => s
  | some c =>
    if c.queue.closed ∨ publicKey ∈ c.watched then s
    else { s.setConnection id { c with watched := c.watched.insert publicKey () } with
      byKey := s.byKey.file publicKey id }

def unwatch (s : KeyedDispatchState) (id : UInt64) (publicKey : Key) : KeyedDispatchState :=
  match s.connections.lookup id with
  | none => s
  | some c =>
    if publicKey ∉ c.watched then s
    else { s.setConnection id { c with
        watched := c.watched.erase publicKey
        queue := c.queue.remove publicKey } with
      byKey := s.byKey.release publicKey id }

/-- What dropping the last handle of a subscription does. -/
def remove (s : KeyedDispatchState) (id : UInt64) : KeyedDispatchState :=
  match s.connections.lookup id with
  | none => s
  | some c => { s with
      connections := s.connections.erase id
      byCaller := s.byCaller.release c.caller id
      byKey := s.byKey.releaseAll c.watched.keys id }

/-- Close the connections of a caller that is no longer configured and forget what they watch. -/
def disconnect (s : KeyedDispatchState) (caller : Key) : KeyedDispatchState :=
  let callerConnections := match s.byCaller.lookup caller with
    | none => []
    | some ids => ids.keys
  let closedWatches := callerConnections.filterMap fun id =>
    (s.connections.lookup id).map fun c => (id, c.watched)
  let connections := callerConnections.foldl
    (fun m id => m.modify id fun c => { c with watched := ∅, queue := c.queue.close }) s.connections
  let byKey := closedWatches.foldl (fun m w => m.releaseAll w.2.keys w.1) s.byKey
  { s with connections, byKey }

def deliver (change : RegistryChange) (c : DispatchConnection) : DispatchConnection :=
  -- a removed caller is disconnected, not sent the change
  if change.kind = .removed ∧ c.caller = change.publicKey then c
  else { c with queue := c.queue.push change }

def dispatchPeer (s : KeyedDispatchState) (change : RegistryChange) : KeyedDispatchState :=
  let s := if change.kind = .removed then s.disconnect change.publicKey else s
  match s.byKey.lookup change.publicKey with
  | none => s
  | some subscribers => { s with
      connections := subscribers.keys.foldl (fun m id => m.modify id (deliver change))
        s.connections }

/-- The connection takes one pending change to write it. -/
def recv (s : KeyedDispatchState) (id : UInt64) (publicKey : Key) : KeyedDispatchState :=
  { s with connections := s.connections.modify id fun c =>
    { c with queue := (c.queue.recv publicKey).2 } }

/-- The connection `id` watches the key. -/
def Watches (s : KeyedDispatchState) (id : UInt64) (publicKey : Key) : Prop :=
  ∃ c, s.connections.lookup id = some c ∧ publicKey ∈ c.watched

/-- The connection `id` is there and its queue is closed. -/
def Closed (s : KeyedDispatchState) (id : UInt64) : Prop :=
  ∃ c, s.connections.lookup id = some c ∧ c.queue.closed = true

/-- The maps agree with the connections, and no queue holds a change its connection no longer
watches. -/
structure Indexed (s : KeyedDispatchState) : Prop where
  byKey : ∀ k id, s.byKey.Filed k id ↔ s.Watches id k
  byKey_tight : s.byKey.Tight
  byCaller : ∀ caller id, s.byCaller.Filed caller id ↔
    ∃ c, s.connections.lookup id = some c ∧ c.caller = caller
  byCaller_tight : s.byCaller.Tight
  pending : ∀ id c, s.connections.lookup id = some c → c.queue.closed = false →
    ∀ k ∈ c.queue.pending, k ∈ c.watched
  closed : ∀ id c, s.connections.lookup id = some c → c.queue.closed = true → c.watched = ∅

theorem indexed_empty : Indexed empty where
  byKey k id := iff_of_false (Index.not_filed_empty k id) fun ⟨_, h, _⟩ => nomatch h
  byKey_tight := Index.tight_empty
  byCaller k id := iff_of_false (Index.not_filed_empty k id) fun ⟨_, h, _⟩ => nomatch h
  byCaller_tight := Index.tight_empty
  pending _ _ h := nomatch h
  closed _ _ h := nomatch h

/-! ### One operation -/

variable {s : KeyedDispatchState}

theorem lookup_setConnection (s : KeyedDispatchState) (id id' : UInt64) (c : DispatchConnection) :
    (s.setConnection id c).connections.lookup id' =
      if id' = id then some c else s.connections.lookup id' :=
  HashMap.lookup_insert_eq_ite _ _ _ _

/-- A change of one connection that keeps its caller, with the key index following. -/
theorem Indexed.set (h : s.Indexed) {id : UInt64} {c : DispatchConnection}
    (c' : DispatchConnection) (byKey : Index Key UInt64)
    (hc : s.connections.lookup id = some c) (hcaller : c'.caller = c.caller) (htight : byKey.Tight)
    (hfiled : ∀ k id', byKey.Filed k id' ↔
      if id' = id then k ∈ c'.watched else s.byKey.Filed k id')
    (hpending : c'.queue.closed = false → ∀ k ∈ c'.queue.pending, k ∈ c'.watched)
    (hclosed : c'.queue.closed = true → c'.watched = ∅) :
    Indexed { s.setConnection id c' with byKey } where
  byKey k id' := by
    rw [hfiled]
    unfold Watches
    simp only [lookup_setConnection]
    by_cases hid : id' = id
    · subst hid
      simp
    · simp only [if_neg hid]
      exact h.byKey k id'
  byKey_tight := htight
  byCaller caller id' := by
    show s.byCaller.Filed caller id' ↔ _
    rw [h.byCaller]
    simp only [lookup_setConnection]
    by_cases hid : id' = id
    · subst hid
      simp [hc, hcaller]
    · simp [hid]
  byCaller_tight := h.byCaller_tight
  pending id' d hd := by
    simp only [lookup_setConnection] at hd
    by_cases hid : id' = id
    · rw [if_pos hid] at hd
      exact Option.some.inj hd ▸ hpending
    · exact h.pending id' d (by rwa [if_neg hid] at hd)
  closed id' d hd := by
    simp only [lookup_setConnection] at hd
    by_cases hid : id' = id
    · rw [if_pos hid] at hd
      exact Option.some.inj hd ▸ hclosed
    · exact h.closed id' d (by rwa [if_neg hid] at hd)

theorem Indexed.subscribe (h : s.Indexed) (hfresh : s.nextId ∉ s.connections) (caller : Key) :
    (s.subscribe caller).2.Indexed := by
  have hnone : s.connections.lookup s.nextId = none := AList.lookup_eq_none.mpr hfresh
  have hlookup : ∀ id, (s.subscribe caller).2.connections.lookup id =
      if id = s.nextId then some ⟨caller, ∅, .new⟩ else s.connections.lookup id :=
    fun id => HashMap.lookup_insert_eq_ite _ _ _ _
  constructor
  case byKey =>
    intro k id
    show s.byKey.Filed k id ↔ _
    rw [h.byKey]
    unfold Watches
    rw [hlookup]
    by_cases hid : id = s.nextId
    · subst hid
      simp [hnone, AList.notMem_empty]
    · simp [hid]
  case byKey_tight => exact h.byKey_tight
  case byCaller =>
    intro k id
    show (s.byCaller.file caller s.nextId).Filed k id ↔ _
    rw [Index.filed_file, h.byCaller, hlookup]
    by_cases hid : id = s.nextId
    · subst hid
      simp [hnone, eq_comm]
    · simp [hid]
  case byCaller_tight => exact Index.tight_file h.byCaller_tight _ _
  case pending =>
    intro id c hc
    rw [hlookup] at hc
    by_cases hid : id = s.nextId
    · rw [if_pos hid] at hc
      rw [← Option.some.inj hc]
      exact fun _ k hk => absurd hk (AList.notMem_empty k)
    · exact h.pending id c (by rwa [if_neg hid] at hc)
  case closed =>
    intro id c hc
    rw [hlookup] at hc
    by_cases hid : id = s.nextId
    · rw [if_pos hid] at hc
      rw [← Option.some.inj hc]
      exact fun _ => rfl
    · exact h.closed id c (by rwa [if_neg hid] at hc)

theorem Indexed.watch (h : s.Indexed) (id : UInt64) (publicKey : Key) :
    (s.watch id publicKey).Indexed := by
  unfold KeyedDispatchState.watch
  cases hc : s.connections.lookup id with
  | none => exact h
  | some c =>
    by_cases hskip : c.queue.closed ∨ publicKey ∈ c.watched
    · simp only [if_pos hskip]
      exact h
    · have hopen : c.queue.closed = false := by simpa using fun hcl => hskip (.inl hcl)
      simp only [if_neg hskip]
      refine h.set _ _ hc (by rfl) (Index.tight_file h.byKey_tight _ _) ?_ ?_ ?_
      · intro k id'
        rw [Index.filed_file]
        by_cases hid : id' = id
        · subst hid
          simp [h.byKey, Watches, hc, or_comm]
        · simp [hid]
      · intro _ k hk
        exact (AList.mem_insert _).mpr (.inr (h.pending id c hc hopen k hk))
      · exact fun hcl => absurd hcl (by simp [hopen])

theorem Indexed.unwatch (h : s.Indexed) (id : UInt64) (publicKey : Key) :
    (s.unwatch id publicKey).Indexed := by
  unfold KeyedDispatchState.unwatch
  cases hc : s.connections.lookup id with
  | none => exact h
  | some c =>
    by_cases hskip : publicKey ∉ c.watched
    · simp only [if_pos hskip]
      exact h
    · simp only [if_neg hskip]
      refine h.set _ _ hc (by rfl) (Index.tight_release h.byKey_tight _ _) ?_ ?_ ?_
      · intro k id'
        rw [Index.filed_release]
        by_cases hid : id' = id
        · subst hid
          simp [h.byKey, Watches, hc, and_comm]
        · simp [hid]
      · intro hopen k hk
        obtain ⟨hne, hk⟩ := AList.mem_erase.mp hk
        exact AList.mem_erase.mpr ⟨hne, h.pending id c hc hopen k hk⟩
      · intro hcl
        show c.watched.erase publicKey = ∅
        rw [h.closed id c hc hcl]
        exact HashSet.eq_empty_of_forall_notMem fun k hk =>
          AList.notMem_empty k (AList.mem_erase.mp hk).2

theorem Indexed.remove (h : s.Indexed) (id : UInt64) : (s.remove id).Indexed := by
  unfold KeyedDispatchState.remove
  cases hc : s.connections.lookup id with
  | none => exact h
  | some c =>
    have hlookup : ∀ id', (s.connections.erase id).lookup id' =
        if id' = id then none else s.connections.lookup id' :=
      fun id' => HashMap.lookup_erase_eq_ite _ _ _
    constructor
    case byKey =>
      intro k id'
      show (s.byKey.releaseAll c.watched.keys id).Filed k id' ↔ _
      rw [Index.filed_releaseAll, h.byKey]
      unfold Watches
      simp only [hlookup]
      by_cases hid : id' = id
      · subst hid
        simp [hc, AList.mem_keys]
      · simp [hid]
    case byKey_tight => exact Index.tight_releaseAll h.byKey_tight _ _
    case byCaller =>
      intro k id'
      show (s.byCaller.release c.caller id).Filed k id' ↔ _
      rw [Index.filed_release, h.byCaller]
      simp only [hlookup]
      by_cases hid : id' = id
      · subst hid
        simp [hc, eq_comm]
      · simp [hid]
    case byCaller_tight => exact Index.tight_release h.byCaller_tight _ _
    case pending =>
      intro id' d hd
      simp only [hlookup] at hd
      by_cases hid : id' = id
      · exact nomatch (if_pos hid).symm.trans hd
      · exact h.pending id' d (by rwa [if_neg hid] at hd)
    case closed =>
      intro id' d hd
      simp only [hlookup] at hd
      by_cases hid : id' = id
      · exact nomatch (if_pos hid).symm.trans hd
      · exact h.closed id' d (by rwa [if_neg hid] at hd)

/-! ### Dispatch -/

/-- What a dispatched change does to a connection. -/
def afterDispatch (change : RegistryChange) (c : DispatchConnection) : DispatchConnection :=
  if change.kind = .removed ∧ c.caller = change.publicKey then
    { c with watched := ∅, queue := { c.queue with closed := true } }
  else if c.queue.closed = false ∧ change.publicKey ∈ c.watched then
    { c with queue := { c.queue with
      pending := c.queue.pending.insert change.publicKey change.kind } }
  else c

/-- What disconnecting a caller does to a connection. -/
def afterDisconnect (caller : Key) (c : DispatchConnection) : DispatchConnection :=
  if c.caller = caller then { c with watched := ∅, queue := c.queue.close } else c

theorem Indexed.lookup_disconnect (h : s.Indexed) (caller : Key) (id : UInt64) :
    (s.disconnect caller).connections.lookup id =
      (s.connections.lookup id).map (afterDisconnect caller) := by
  have hids := h.byCaller caller id
  have hkeep : (¬ ∃ c, s.connections.lookup id = some c ∧ c.caller = caller) →
      s.connections.lookup id = (s.connections.lookup id).map (afterDisconnect caller) := by
    intro hno
    cases hc : s.connections.lookup id with
    | none => rfl
    | some c => simp [afterDisconnect, show ¬ c.caller = caller from fun e => hno ⟨c, hc, e⟩]
  unfold disconnect
  cases hl : s.byCaller.lookup caller with
  | none =>
    refine hkeep fun hex => ?_
    obtain ⟨ids, hids, -⟩ := hids.mpr hex
    exact nomatch hl.symm.trans hids
  | some ids =>
    show ((ids.keys.foldl _ s.connections)).lookup id = _
    rw [HashMap.lookup_foldl_modify _ ids.keys ids.keys_nodup]
    have hmem : id ∈ ids.keys ↔ ∃ c, s.connections.lookup id = some c ∧ c.caller = caller := by
      rw [← hids, ← AList.mem_keys]
      exact ⟨fun hid => ⟨ids, hl, hid⟩, fun ⟨_, hl', hid⟩ =>
        Option.some.inj (hl'.symm.trans hl) ▸ hid⟩
    by_cases hid : id ∈ ids.keys
    · obtain ⟨c, hc, hcaller⟩ := hmem.mp hid
      simp [hid, hc, afterDisconnect, hcaller]
    · rw [if_neg hid]
      exact hkeep (hid ∘ hmem.mpr)

theorem Indexed.filed_disconnect (h : s.Indexed) (caller k : Key) (id : UInt64) :
    (s.disconnect caller).byKey.Filed k id ↔
      ∃ c, s.connections.lookup id = some c ∧ c.caller ≠ caller ∧ k ∈ c.watched := by
  unfold disconnect
  show Index.Filed (List.foldl _ s.byKey _) k id ↔ _
  rw [Index.filed_foldl_releaseAll, h.byKey]
  have hids := h.byCaller caller id
  simp only [List.mem_filterMap, Option.map_eq_some_iff]
  constructor
  · rintro ⟨⟨c, hc, hk⟩, hw⟩
    refine ⟨c, hc, fun hcaller => ?_, hk⟩
    obtain ⟨ids, hl, hid⟩ := hids.mpr ⟨c, hc, hcaller⟩
    simp only [hl] at hw
    exact hw (id, c.watched) ⟨id, AList.mem_keys.mp hid, c, hc, rfl⟩ rfl hk
  · rintro ⟨c, hc, hcaller, hk⟩
    refine ⟨⟨c, hc, hk⟩, ?_⟩
    rintro _ ⟨id', hid', d, hd, rfl⟩ (rfl : id' = id) _
    cases hl : s.byCaller.lookup caller with
    | none => simp [hl] at hid'
    | some ids =>
      simp only [hl] at hid'
      obtain ⟨c', hc', hcaller'⟩ := hids.mp ⟨ids, hl, AList.mem_keys.mpr hid'⟩
      exact hcaller (Option.some.inj (hc.symm.trans hc') ▸ hcaller')

theorem tight_disconnect (h : s.byKey.Tight) (caller : Key) : (s.disconnect caller).byKey.Tight :=
  Index.tight_foldl_releaseAll h _

/-- A change of the connections that keeps callers and opens no queue keeps the maps in
agreement. -/
theorem Indexed.map (h : s.Indexed) {s' : KeyedDispatchState}
    (f : UInt64 → DispatchConnection → DispatchConnection)
    (hlookup : ∀ id, s'.connections.lookup id = (s.connections.lookup id).map (f id))
    (hcaller : ∀ id c, (f id c).caller = c.caller) (hbyCaller : s'.byCaller = s.byCaller)
    (hfiled : ∀ k id, s'.byKey.Filed k id ↔
      ∃ c, s.connections.lookup id = some c ∧ k ∈ (f id c).watched)
    (htight : s'.byKey.Tight)
    (hpending : ∀ id c, s.connections.lookup id = some c → (f id c).queue.closed = false →
      ∀ k ∈ (f id c).queue.pending, k ∈ (f id c).watched)
    (hclosed : ∀ id c, s.connections.lookup id = some c → (f id c).queue.closed = true →
      (f id c).watched = ∅) : s'.Indexed where
  byKey k id := by
    rw [hfiled]
    simp [Watches, hlookup]
  byKey_tight := htight
  byCaller caller id := by
    rw [hbyCaller, h.byCaller]
    simp [hlookup, hcaller]
  byCaller_tight := hbyCaller ▸ h.byCaller_tight
  pending id d hd := by
    rw [hlookup] at hd
    obtain ⟨c, hc, rfl⟩ := Option.map_eq_some_iff.mp hd
    exact hpending id c hc
  closed id d hd := by
    rw [hlookup] at hd
    obtain ⟨c, hc, rfl⟩ := Option.map_eq_some_iff.mp hd
    exact hclosed id c hc

theorem Indexed.recv (h : s.Indexed) (id : UInt64) (publicKey : Key) :
    (s.recv id publicKey).Indexed := by
  have hqueue : ∀ q : KeyedDispatchQueue, (q.recv publicKey).2.closed = q.closed ∧
      ∀ k ∈ (q.recv publicKey).2.pending, k ∈ q.pending := by
    intro q
    unfold KeyedDispatchQueue.recv
    by_cases hcl : q.closed = true
    · simp [hcl]
    · cases hl : q.pending.lookup publicKey with
      | none => simp [hcl]
      | some kind => simp [hcl, KeyedDispatchQueue.remove]
  refine h.map (fun id' c => if id' = id then { c with queue := (c.queue.recv publicKey).2 }
    else c) ?_ ?_ rfl ?_ h.byKey_tight ?_ ?_
  · intro id'
    show (s.connections.modify id _).lookup id' = _
    rw [HashMap.lookup_modify]
    by_cases hid : id' = id <;> simp [hid]
  · intro id' c
    by_cases hid : id' = id <;> simp [hid]
  · intro k id'
    show s.byKey.Filed k id' ↔ _
    rw [h.byKey]
    refine exists_congr fun c => and_congr_right fun _ => ?_
    by_cases hid : id' = id <;> simp [hid]
  · intro id' c hc hopen k hk
    by_cases hid : id' = id
    · simp only [if_pos hid, hqueue] at hopen hk ⊢
      exact h.pending id' c hc hopen k ((hqueue _).2 k hk)
    · simp only [if_neg hid] at hopen hk ⊢
      exact h.pending id' c hc hopen k hk
  · intro id' c hc hcl
    by_cases hid : id' = id
    · simp only [if_pos hid, hqueue] at hcl ⊢
      exact h.closed id' c hc hcl
    · simp only [if_neg hid] at hcl ⊢
      exact h.closed id' c hc hcl

theorem Indexed.disconnect (h : s.Indexed) (caller : Key) : (s.disconnect caller).Indexed := by
  have hwatched : ∀ c k, k ∈ (afterDisconnect caller c).watched ↔
      c.caller ≠ caller ∧ k ∈ c.watched := by
    intro c k
    unfold afterDisconnect
    by_cases hc : c.caller = caller <;> simp [hc, AList.notMem_empty]
  refine h.map (fun _ => afterDisconnect caller) (h.lookup_disconnect caller) ?_ rfl ?_
    (tight_disconnect h.byKey_tight caller) ?_ ?_
  · intro _ c
    unfold afterDisconnect
    by_cases hc : c.caller = caller <;> simp [hc]
  · intro k id
    rw [h.filed_disconnect]
    simp [hwatched]
  · intro id c hc hopen k hk
    unfold afterDisconnect at hopen hk ⊢
    by_cases hcaller : c.caller = caller
    · simp [hcaller, KeyedDispatchQueue.close] at hopen
    · simp only [if_neg hcaller] at hopen hk ⊢
      exact h.pending id c hc hopen k hk
  · intro id c hc hcl
    unfold afterDisconnect at hcl ⊢
    by_cases hcaller : c.caller = caller
    · simp [hcaller]
    · simp only [if_neg hcaller] at hcl ⊢
      exact h.closed id c hc hcl

/-- The loop over the subscribers of a key. -/
def publish (s : KeyedDispatchState) (change : RegistryChange) : KeyedDispatchState :=
  match s.byKey.lookup change.publicKey with
  | none => s
  | some subscribers => { s with
      connections := subscribers.keys.foldl (fun m id => m.modify id (deliver change))
        s.connections }

theorem dispatchPeer_eq (s : KeyedDispatchState) (change : RegistryChange) :
    s.dispatchPeer change =
      (if change.kind = .removed then s.disconnect change.publicKey else s).publish change := rfl

theorem Indexed.lookup_publish (h : s.Indexed) (change : RegistryChange) (id : UInt64) :
    (s.publish change).connections.lookup id = (s.connections.lookup id).map fun c =>
      if change.publicKey ∈ c.watched then deliver change c else c := by
  have hids := h.byKey change.publicKey id
  unfold publish
  cases hl : s.byKey.lookup change.publicKey with
  | none =>
    show s.connections.lookup id = _
    cases hc : s.connections.lookup id with
    | none => rfl
    | some c =>
      have hno : change.publicKey ∉ c.watched := by
        intro hk
        obtain ⟨ids, hids, -⟩ := hids.mpr ⟨c, hc, hk⟩
        exact nomatch hl.symm.trans hids
      simp [hno]
  | some ids =>
    show (ids.keys.foldl _ s.connections).lookup id = _
    rw [HashMap.lookup_foldl_modify _ ids.keys ids.keys_nodup]
    have hmem : id ∈ ids.keys ↔ s.Watches id change.publicKey := by
      rw [← hids, ← AList.mem_keys]
      exact ⟨fun hid => ⟨ids, hl, hid⟩, fun ⟨_, hl', hid⟩ =>
        Option.some.inj (hl'.symm.trans hl) ▸ hid⟩
    cases hc : s.connections.lookup id with
    | none => simp
    | some c =>
      have hwatch : id ∈ ids.keys ↔ change.publicKey ∈ c.watched := by
        rw [hmem]
        simp [Watches, hc]
      by_cases hk : change.publicKey ∈ c.watched
      · simp [hwatch.mpr hk, hk]
      · simp [hwatch.not.mpr hk, hk]

/-- A dispatched change reaches the open connections that watch its key and no others, except that
the removal of a caller closes the connections of that caller. -/
theorem Indexed.lookup_dispatchPeer (h : s.Indexed) (change : RegistryChange) (id : UInt64) :
    (s.dispatchPeer change).connections.lookup id =
      (s.connections.lookup id).map (afterDispatch change) := by
  rw [dispatchPeer_eq]
  by_cases hrem : change.kind = .removed
  · rw [if_pos hrem, (h.disconnect change.publicKey).lookup_publish, h.lookup_disconnect,
      Option.map_map]
    cases hc : s.connections.lookup id with
    | none => rfl
    | some c =>
      have hclosed := h.closed id c hc
      refine congrArg some ?_
      simp only [Function.comp_apply, afterDisconnect, afterDispatch, deliver, hrem, true_and]
      by_cases hcaller : c.caller = change.publicKey
      · simp [hcaller, AList.notMem_empty, KeyedDispatchQueue.close]
      · simp only [if_neg hcaller]
        by_cases hk : change.publicKey ∈ c.watched
        · cases hopen : c.queue.closed with
          | true => exact absurd (hclosed hopen ▸ hk) (AList.notMem_empty _)
          | false => simp [hk, KeyedDispatchQueue.push, hopen, hrem]
        · simp [hk]
  · rw [if_neg hrem, h.lookup_publish]
    cases hc : s.connections.lookup id with
    | none => rfl
    | some c =>
      have hclosed := h.closed id c hc
      refine congrArg some ?_
      simp only [afterDispatch, deliver, hrem, false_and, if_false]
      by_cases hk : change.publicKey ∈ c.watched
      · cases hopen : c.queue.closed with
        | true => exact absurd (hclosed hopen ▸ hk) (AList.notMem_empty _)
        | false => simp [hk, KeyedDispatchQueue.push, hopen]
      · simp [hk]

theorem Indexed.publish (h : s.Indexed) (change : RegistryChange) : (s.publish change).Indexed := by
  have hother : (s.publish change).byKey = s.byKey ∧ (s.publish change).byCaller = s.byCaller := by
    unfold KeyedDispatchState.publish
    cases s.byKey.lookup change.publicKey <;> exact ⟨rfl, rfl⟩
  have hdeliver : ∀ c, (deliver change c).caller = c.caller ∧
    (deliver change c).watched = c.watched ∧
      (deliver change c).queue.closed = c.queue.closed ∧
      ∀ k ∈ (deliver change c).queue.pending, k = change.publicKey ∨ k ∈ c.queue.pending := by
    intro c
    unfold deliver KeyedDispatchQueue.push
    by_cases hskip : change.kind = .removed ∧ c.caller = change.publicKey
    · simp +contextual [hskip]
    · by_cases hcl : c.queue.closed = true <;> simp +contextual [hskip, hcl]
  refine h.map (fun _ => _) (h.lookup_publish change) ?_ hother.2 ?_ (hother.1 ▸ h.byKey_tight) ?_
    ?_
  · intro _ c
    by_cases hk : change.publicKey ∈ c.watched <;> simp [hk, hdeliver]
  · intro k id
    rw [hother.1, h.byKey]
    refine exists_congr fun c => and_congr_right fun _ => ?_
    by_cases hk : change.publicKey ∈ c.watched <;> simp [hk, hdeliver]
  · intro id c hc hopen k hk
    by_cases hw : change.publicKey ∈ c.watched
    · simp only [if_pos hw, hdeliver] at hopen hk ⊢
      cases (hdeliver c).2.2.2 k hk with
      | inl hkey => exact hkey ▸ hw
      | inr hold => exact h.pending id c hc hopen k hold
    · simp only [if_neg hw] at hopen hk ⊢
      exact h.pending id c hc hopen k hk
  · intro id c hc hcl
    by_cases hw : change.publicKey ∈ c.watched
    · simp only [if_pos hw, hdeliver] at hcl ⊢
      exact h.closed id c hc hcl
    · simp only [if_neg hw] at hcl ⊢
      exact h.closed id c hc hcl

theorem Indexed.dispatchPeer (h : s.Indexed) (change : RegistryChange) :
    (s.dispatchPeer change).Indexed := by
  rw [dispatchPeer_eq]
  by_cases hrem : change.kind = .removed
  · rw [if_pos hrem]
    exact (h.disconnect _).publish change
  · rw [if_neg hrem]
    exact h.publish change

/-! ### Runs -/

/-- An operation on the dispatcher. -/
inductive Op where
  | subscribe (caller : Key)
  | watch (id : UInt64) (publicKey : Key)
  | unwatch (id : UInt64) (publicKey : Key)
  | drop (id : UInt64)
  | dispatchPeer (change : RegistryChange)
  | recv (id : UInt64) (publicKey : Key)

def step (s : KeyedDispatchState) : Op → KeyedDispatchState
  | .subscribe caller => (s.subscribe caller).2
  | .watch id publicKey => s.watch id publicKey
  | .unwatch id publicKey => s.unwatch id publicKey
  | .drop id => s.remove id
  | .dispatchPeer change => s.dispatchPeer change
  | .recv id publicKey => s.recv id publicKey

def run (ops : List Op) : KeyedDispatchState := ops.foldl step empty

def Op.opens : Op → Bool
  | .subscribe _ => true
  | _ => false

/-- How many of the operations open a connection. -/
def subscribes (ops : List Op) : Nat := ops.countP Op.opens

/-- What an operation may make of a connection: it keeps its caller, and stays closed. -/
def Kept (f : DispatchConnection → DispatchConnection) : Prop :=
  ∀ c, (f c).caller = c.caller ∧ (c.queue.closed = true → (f c).queue.closed = true)

/-- An id keeps its connection until it is dropped, and a subscription gives out the next one. -/
theorem Indexed.lookup_step (h : s.Indexed) (op : Op) (id : UInt64) :
    (∃ f, Kept f ∧ (s.step op).connections.lookup id = (s.connections.lookup id).map f) ∨
      (op = .drop id ∧ (s.step op).connections.lookup id = none) ∨
      ∃ caller, op = .subscribe caller ∧ id = s.nextId ∧
        (s.step op).connections.lookup id = some ⟨caller, ∅, .new⟩ := by
  have hsame : ∀ {t : KeyedDispatchState}, t.connections.lookup id = s.connections.lookup id →
      ∃ f, Kept f ∧ t.connections.lookup id = (s.connections.lookup id).map f :=
    fun ht => ⟨fun c => c, fun c => ⟨rfl, fun h => h⟩, by rw [ht, Option.map_id']⟩
  have hset : ∀ {id' c c'} (f : DispatchConnection → DispatchConnection), Kept f → f c = c' →
      s.connections.lookup id' = some c →
      ∃ f, Kept f ∧ (s.setConnection id' c').connections.lookup id =
        (s.connections.lookup id).map f := by
    rintro id' c _ f hf rfl hc
    by_cases hid : id = id'
    · exact ⟨f, hf, by rw [lookup_setConnection, if_pos hid, hid, hc, Option.map_some]⟩
    · exact hsame ((lookup_setConnection s id' id (f c)).trans (if_neg hid))
  cases op with
  | subscribe caller =>
    have hlookup : (s.subscribe caller).2.connections.lookup id =
        if id = s.nextId then some ⟨caller, ∅, .new⟩ else s.connections.lookup id :=
      HashMap.lookup_insert_eq_ite _ _ _ _
    by_cases hid : id = s.nextId
    · exact .inr (.inr ⟨caller, rfl, hid, hlookup.trans (if_pos hid)⟩)
    · exact .inl (hsame (hlookup.trans (if_neg hid)))
  | watch id' k =>
    left
    simp only [step, KeyedDispatchState.watch]
    cases hc : s.connections.lookup id' with
    | none => exact hsame rfl
    | some c =>
      by_cases hskip : c.queue.closed ∨ k ∈ c.watched
      · simp only [if_pos hskip]
        exact hsame rfl
      · simp only [if_neg hskip]
        exact hset (fun c => { c with watched := c.watched.insert k () })
          (fun c => ⟨rfl, fun h => h⟩) (by rfl) hc
  | unwatch id' k =>
    left
    simp only [step, KeyedDispatchState.unwatch]
    cases hc : s.connections.lookup id' with
    | none => exact hsame rfl
    | some c =>
      by_cases hskip : k ∉ c.watched
      · simp only [if_pos hskip]
        exact hsame rfl
      · simp only [if_neg hskip]
        exact hset (fun c => { c with watched := c.watched.erase k, queue := c.queue.remove k })
          (fun c => ⟨rfl, fun h => h⟩) (by rfl) hc
  | drop id' =>
    simp only [step, KeyedDispatchState.remove]
    cases hc : s.connections.lookup id' with
    | none => exact .inl (hsame rfl)
    | some c =>
      by_cases hid : id = id'
      · exact .inr (.inl ⟨congrArg Op.drop hid.symm,
          (HashMap.lookup_erase_eq_ite _ _ _).trans (if_pos hid)⟩)
      · exact .inl (hsame ((HashMap.lookup_erase_eq_ite _ _ _).trans (if_neg hid)))
  | dispatchPeer change =>
    refine .inl ⟨afterDispatch change, fun c => ?_, h.lookup_dispatchPeer change id⟩
    unfold afterDispatch
    by_cases hgone : change.kind = .removed ∧ c.caller = change.publicKey
    · simp [hgone]
    · by_cases hopen : c.queue.closed = false ∧ change.publicKey ∈ c.watched <;>
        simp [hgone, hopen]
  | recv id' k =>
    left
    by_cases hid : id = id'
    · refine ⟨fun c => { c with queue := (c.queue.recv k).2 }, fun c => ⟨rfl, fun hcl => ?_⟩,
        (HashMap.lookup_modify _ _ _ _).trans (if_pos hid)⟩
      simp [KeyedDispatchQueue.recv, hcl]
    · exact hsame ((HashMap.lookup_modify _ _ _ _).trans (if_neg hid))

/-- A connection was there before, no less closed, or was just given its id. -/
theorem Indexed.lookup_before (h : s.Indexed) {op : Op} {id : UInt64} {d : DispatchConnection}
    (hd : (s.step op).connections.lookup id = some d) : (∃ c, s.connections.lookup id = some c ∧
      (c.queue.closed = true → d.queue.closed = true)) ∨
      (id = s.nextId ∧ ∃ caller, op = .subscribe caller) := by
  rcases h.lookup_step op id with ⟨f, hf, heq⟩ | ⟨-, hnone⟩ | ⟨caller, hop, hid, -⟩
  · rw [heq] at hd
    obtain ⟨c, hc, rfl⟩ := Option.map_eq_some_iff.mp hd
    exact .inl ⟨c, hc, (hf c).2⟩
  · rw [hnone] at hd
    cases hd
  · exact .inr ⟨hid, caller, hop⟩

theorem Indexed.step (h : s.Indexed) (op : Op) (hfresh : s.nextId ∉ s.connections) :
    (s.step op).Indexed := by
  cases op with
  | subscribe caller => exact h.subscribe hfresh caller
  | watch id k => exact h.watch id k
  | unwatch id k => exact h.unwatch id k
  | drop id => exact h.remove id
  | dispatchPeer change => exact h.dispatchPeer change
  | recv id k => exact h.recv id k

theorem nextId_step (s : KeyedDispatchState) (op : Op) :
    (s.step op).nextId = if op.opens then s.nextId + 1 else s.nextId := by
  cases op with
  | subscribe caller => rfl
  | watch id k =>
    show (s.watch id k).nextId = s.nextId
    unfold KeyedDispatchState.watch
    cases s.connections.lookup id with
    | none => rfl
    | some c => by_cases hskip : c.queue.closed ∨ k ∈ c.watched <;> simp [hskip, setConnection]
  | unwatch id k =>
    show (s.unwatch id k).nextId = s.nextId
    unfold KeyedDispatchState.unwatch
    cases s.connections.lookup id with
    | none => rfl
    | some c => by_cases hskip : k ∉ c.watched <;> simp [hskip, setConnection]
  | drop id =>
    show (s.remove id).nextId = s.nextId
    unfold KeyedDispatchState.remove
    cases s.connections.lookup id <;> rfl
  | dispatchPeer change =>
    show (s.dispatchPeer change).nextId = s.nextId
    rw [dispatchPeer_eq]
    have hpublish : ∀ s : KeyedDispatchState, (s.publish change).nextId = s.nextId := by
      intro s
      unfold KeyedDispatchState.publish
      cases s.byKey.lookup change.publicKey <;> rfl
    rw [hpublish]
    by_cases hrem : change.kind = .removed <;> simp [hrem, KeyedDispatchState.disconnect]
  | recv id k => rfl

/-- After `n` subscriptions the ids in use are below `n`, the next one. -/
structure Numbered (s : KeyedDispatchState) (n : Nat) : Prop where
  nextId : s.nextId.toNat = n
  below : ∀ id c, s.connections.lookup id = some c → id.toNat < n

theorem Numbered.fresh {n : Nat} (h : s.Numbered n) : s.nextId ∉ s.connections := by
  intro hmem
  obtain ⟨c, hc⟩ := Option.isSome_iff_exists.mp (AList.lookup_isSome.mpr hmem)
  have hlt := h.below s.nextId c hc
  rw [h.nextId] at hlt
  exact Nat.lt_irrefl n hlt

theorem Numbered.step {n : Nat} (h : s.Numbered n) (hs : s.Indexed) (op : Op)
    (hn : n + subscribes [op] < 2 ^ 64) : (s.step op).Numbered (n + subscribes [op]) := by
  have hnext := nextId_step s op
  have hcount : subscribes [op] = if op.opens then 1 else 0 := by
    cases op <;> rfl
  constructor
  · rw [hnext, hcount]
    by_cases hop : op.opens = true
    · rw [hcount, if_pos hop] at hn
      rw [if_pos hop, if_pos hop, UInt64.toNat_add, h.nextId]
      exact Nat.mod_eq_of_lt hn
    · rw [if_neg hop, if_neg hop, h.nextId, Nat.add_zero]
  · intro id d hd
    cases hs.lookup_before hd with
    | inl hold =>
      obtain ⟨c, hc, -⟩ := hold
      exact Nat.lt_add_right _ (h.below id c hc)
    | inr hnew =>
      obtain ⟨rfl, caller, rfl⟩ := hnew
      rw [h.nextId]
      exact Nat.lt_succ_self n

theorem subscribes_append (ops more : List Op) :
    subscribes (ops ++ more) = subscribes ops + subscribes more := List.countP_append

theorem run_append (ops : List Op) (op : Op) : run (ops ++ [op]) = (run ops).step op :=
  List.foldl_append

theorem indexed_run {ops : List Op} (h : subscribes ops < 2 ^ 64) :
    (run ops).Indexed ∧ (run ops).Numbered (subscribes ops) := by
  induction ops using List.reverseRecOn with
  | nil => exact ⟨indexed_empty, rfl, fun _ _ h => nomatch h⟩
  | append_singleton ops op ih =>
    rw [subscribes_append] at h ⊢
    obtain ⟨hs, hn⟩ := ih (by omega)
    rw [run_append]
    exact ⟨hs.step op hn.fresh, hn.step hs op h⟩

/-- A connection that is closed stays closed until it is dropped, and its id does not come back. -/
theorem closed_run {ops : List Op} {id : UInt64} (hid : (run ops).Closed id) (later : List Op)
    (h : subscribes (ops ++ later) < 2 ^ 64) (d : DispatchConnection)
    (hd : (run (ops ++ later)).connections.lookup id = some d) : d.queue.closed = true := by
  induction later using List.reverseRecOn generalizing d with
  | nil =>
    obtain ⟨c, hc, hcl⟩ := hid
    rw [List.append_nil, hc] at hd
    exact Option.some.inj hd ▸ hcl
  | append_singleton later op ih =>
    rw [← List.append_assoc, subscribes_append] at h
    rw [← List.append_assoc, run_append] at hd
    obtain ⟨hs, hn⟩ := @indexed_run (ops ++ later) (by omega)
    cases hs.lookup_before hd with
    | inl hold =>
      obtain ⟨c, hc, hcl⟩ := hold
      exact hcl (ih (by omega) c hc)
    | inr hnew =>
      -- the id was given out before the closed connection had it
      obtain ⟨rfl, -⟩ := hnew
      obtain ⟨c, hc, -⟩ := hid
      have hlt := (indexed_run (by rw [subscribes_append] at h; omega)).2.below _ c hc
      rw [hn.nextId, subscribes_append] at hlt
      omega

/-- The id that a subscription gives out is filed under its caller until it is dropped. -/
theorem filed_run (ops : List Op) (caller : Key) {later : List Op}
    (hdrop : .drop ((run ops).subscribe caller).1 ∉ later)
    (h : subscribes (ops ++ .subscribe caller :: later) < 2 ^ 64) :
    (run (ops ++ .subscribe caller :: later)).byCaller.Filed caller
      ((run ops).subscribe caller).1 := by
  refine ((indexed_run h).1.byCaller caller _).mpr ?_
  induction later using List.reverseRecOn with
  | nil =>
    rw [run_append]
    exact ⟨⟨caller, ∅, .new⟩, (HashMap.lookup_insert_eq_ite _ _ _ _).trans (if_pos rfl), rfl⟩
  | append_singleton later op ih =>
    rw [List.mem_append, not_or] at hdrop
    rw [← List.cons_append, ← List.append_assoc, subscribes_append] at h
    obtain ⟨c, hc, hcaller⟩ := ih hdrop.1 (by omega)
    rw [← List.cons_append, ← List.append_assoc, run_append]
    have hrun := @indexed_run (ops ++ .subscribe caller :: later) (by omega)
    rcases hrun.1.lookup_step op ((run ops).subscribe caller).1 with
      ⟨f, hf, heq⟩ | ⟨hop, -⟩ | ⟨_, -, hid, -⟩
    · exact ⟨f c, by rw [heq, hc, Option.map_some], (hf c).1.trans hcaller⟩
    · exact absurd (List.mem_singleton.mpr hop.symm) hdrop.2
    · -- The id is below the next one.
      have hlt := hrun.2.below _ c hc
      rw [hid, hrun.2.nextId] at hlt
      exact absurd hlt (Nat.lt_irrefl _)

/-- After every run with fewer than 2⁶⁴ subscriptions the three maps and the queues agree, a
dispatched change reaches the open connections that watch its key and no others, except that the
removal of a caller closes its connections, and a closed connection never watches again. -/
theorem index_invariant (ops : List Op) (h : subscribes ops < 2 ^ 64) : (run ops).Indexed ∧
      (∀ change id, ((run ops).dispatchPeer change).connections.lookup id =
        ((run ops).connections.lookup id).map (afterDispatch change)) ∧
      ∀ later id, subscribes (ops ++ later) < 2 ^ 64 → (run ops).Closed id →
        ∀ k, ¬ (run (ops ++ later)).Watches id k := by
  have hs := (indexed_run h).1
  refine ⟨hs, fun change id => hs.lookup_dispatchPeer change id, ?_⟩
  intro later id hlater hid k hwatch
  obtain ⟨d, hd, hk⟩ := hwatch
  have hempty := (indexed_run hlater).1.closed id d hd (closed_run hid later hlater d hd)
  exact AList.notMem_empty k (hempty ▸ hk)

/-- A caller with two connections is removed: the one that watches a key is filed under both keys,
is closed, and does not watch again. -/
theorem index_invariant_two :
    let a := Bytes.zero 32
    let b := Bytes.ofList 32 [1]
    let ops := [.subscribe a, .subscribe a, .watch 1 b]
    (run ops).byKey.Filed b 1 ∧ (run ops).byCaller.Filed a 1 ∧
      (run (ops ++ [.dispatchPeer ⟨a, .removed⟩])).Closed 1 ∧
      ¬ (run (ops ++ [.dispatchPeer ⟨a, .removed⟩] ++ [.watch 1 b])).Watches 1 b := by
  intro a b ops
  obtain ⟨hindexed, hdispatch, -⟩ := index_invariant ops (by decide)
  have htest : ((run ops).connections.lookup 1).any (fun c => c.caller = a ∧ b ∈ c.watched) =
      true := by
    decide +kernel
  obtain ⟨c, hc, htest⟩ := (Option.any_eq_true _ _).mp htest
  obtain ⟨hcaller, hb⟩ := of_decide_eq_true htest
  have hafter : (afterDispatch ⟨a, .removed⟩ c).queue.closed = true := by
    rw [afterDispatch, if_pos ⟨rfl, hcaller⟩]
  have hclosed : (run (ops ++ [.dispatchPeer ⟨a, .removed⟩])).Closed 1 :=
    ⟨_, (hdispatch ⟨a, .removed⟩ 1).trans (congrArg _ hc), hafter⟩
  have hgone := (index_invariant (ops ++ [.dispatchPeer ⟨a, .removed⟩]) (by decide)).2.2
  exact ⟨(hindexed.byKey b 1).mpr ⟨c, hc, hb⟩, (hindexed.byCaller a 1).mpr ⟨c, hc, hcaller⟩,
    hclosed, hgone [.watch 1 b] 1 (by decide) hclosed b⟩

end KeyedDispatchState

end Microtun.Tracker
