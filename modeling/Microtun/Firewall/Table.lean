import Microtun.Firewall
import Mathlib.Data.List.Nodup

/-! Runs of the firewall, and its table: counts, limits, and whose flows a peer can displace. -/

namespace Microtun.Firewall

variable {maxPeers : Nat}

/-- A call of the firewall. -/
inductive Op where
  | observeOutbound (peer : Nat) (packet : List UInt8) (now : Nat)
  | allowsInbound (peer : Nat) (packet : List UInt8) (now : Nat)
  | removePeer (peer : Nat)
deriving DecidableEq, Repr

/-- What a call returns and leaves behind.  Only `allowsInbound` returns something. -/
def Op.run (f : Firewall maxPeers) : Op → Bool × Firewall maxPeers
  | observeOutbound peer packet now => (false, f.observeOutbound peer packet now)
  | allowsInbound peer packet now => f.allowsInbound peer packet now
  | removePeer peer => (false, f.removePeer peer)

/-- The firewall after a sequence of calls. -/
def after (f : Firewall maxPeers) (ops : List Op) : Firewall maxPeers :=
  ops.foldl (fun f op => (op.run f).2) f

@[simp] theorem after_nil (f : Firewall maxPeers) : f.after [] = f := rfl

@[simp] theorem after_cons (f : Firewall maxPeers) (op : Op) (ops : List Op) :
    f.after (op :: ops) = (op.run f).2.after ops := rfl

@[simp] theorem after_append (f : Firewall maxPeers) (ops ops' : List Op) :
    f.after (ops ++ ops') = (f.after ops).after ops' := List.foldl_append

/-- The number of flows of a peer. -/
def owned (f : Firewall maxPeers) (peer : Nat) : Nat := f.entries.countP fun e => e.peer = peer

/-- A flow is live if it has not expired. -/
def Entry.Live (now : Nat) (e : Entry) : Prop := now < e.expires

instance (now : Nat) (e : Entry) : Decidable (e.Live now) := inferInstanceAs (Decidable (_ < _))

variable {f : Firewall maxPeers} {peer now : Nat} {packet : List UInt8}

/-! ### What a call can do -/

theorem modify_refreshed {pos : Nat} {e : Entry} {parsed : Parsed} (h : f.entries[pos]? = some e) :
    f.entries.modify pos (fun e => f.refreshed e parsed now) =
      f.entries.set pos (f.refreshed e parsed now) := by
  obtain ⟨hlt, rfl⟩ := List.getElem?_eq_some_iff.mp h
  rw [List.modify_eq_set_getElem?]
  simp [h]

/-- The entry of a new flow. -/
def newEntry (f : Firewall maxPeers) (peer : Nat) (key : FlowKey) (now : Nat) : Entry :=
  ⟨peer, key, saturatingAdd now (f.effectiveTimeout ⟨peer, key, now, now, false⟩), now, false⟩

/-- Admit a new flow to a table without expired ones. -/
def track (f : Firewall maxPeers) (peer : Nat) (key : FlowKey) (now : Nat) : Firewall maxPeers :=
  let (pushed, g) :=
    if f.peerCount peer < f.maxEntriesPerPeer then f.push (f.newEntry peer key now) else (false, f)
  if pushed then g
  else
    match f.fairVictim peer with
    | some victim => f.replace victim (f.newEntry peer key now)
    | none => f

/-- Nothing is done for a packet that is of no flow or of no live one, a live flow is refreshed, and
a packet that may open a flow is admitted to the table. -/
theorem observeOutbound_cases (f : Firewall maxPeers) (peer : Nat) (packet : List UInt8)
    (now : Nat) :
    (f.observeOutbound peer packet now = f ∧ ∀ parsed, peer < maxPeers →
      parseFlow packet = some parsed → parsed.kind ≠ .error →
      ∀ e ∈ f.entries, e.peer = peer → e.flow = parsed.key → ¬e.Live now) ∨
    (∃ pos e parsed, parseFlow packet = some parsed ∧ parsed.kind ≠ .error ∧
      f.entries[pos]? = some e ∧ e.peer = peer ∧ e.Live now ∧ e.flow = parsed.key ∧
      f.observeOutbound peer packet now =
        { f with entries := f.entries.set pos (f.refreshed e parsed now) }) ∨
    (∃ parsed, peer < maxPeers ∧ parseFlow packet = some parsed ∧ parsed.opensNewFlow = true ∧
      (∀ e ∈ f.entries, e.peer = peer → e.flow = parsed.key → ¬e.Live now) ∧
      f.observeOutbound peer packet now = (f.collectExpired now).track peer parsed.key now) := by
  unfold observeOutbound
  split
  · exact Or.inl ⟨rfl, fun _ hlt => by omega⟩
  rename_i hpeer
  cases hparse : parseFlow packet with
  | none => exact Or.inl ⟨rfl, by rintro _ _ ⟨⟩⟩
  | some parsed =>
    dsimp only
    split
    · rename_i herr
      refine Or.inl ⟨rfl, fun parsed' _ h hne => ?_⟩
      obtain rfl : parsed = parsed' := Option.some.inj h
      exact absurd herr hne
    rename_i hne
    cases hfind : f.entries.findIdx? fun e =>
        e.peer = peer ∧ now < e.expires ∧ e.flow = parsed.key with
    | some pos =>
      obtain ⟨hlt, hpos, -⟩ := List.findIdx?_eq_some_iff_getElem.mp hfind
      obtain ⟨hp, hlive, hflow⟩ := of_decide_eq_true hpos
      have hget : f.entries[pos]? = some f.entries[pos] := List.getElem?_eq_getElem hlt
      refine Or.inr (Or.inl ⟨pos, f.entries[pos], parsed, rfl, hne, hget, hp, hlive, hflow, ?_⟩)
      dsimp only
      rw [modify_refreshed hget]
    | none =>
      have hdead : ∀ e ∈ f.entries, e.peer = peer → e.flow = parsed.key → ¬e.Live now := by
        intro e he hp hflow hlive
        have := List.findIdx?_eq_none_iff.mp hfind e he
        simp [hp, hflow, show now < e.expires from hlive] at this
      dsimp only
      split
      · refine Or.inl ⟨rfl, fun parsed' _ h _ => ?_⟩
        obtain rfl : parsed = parsed' := Option.some.inj h
        exact hdead
      · rename_i hopens
        refine Or.inr (Or.inr ⟨parsed, by omega, rfl, by simpa using hopens, hdead, rfl⟩)

/-- An inbound packet is refused, an error about a live flow is admitted, or the reverse of a live
flow refreshes it. -/
theorem reverse_cases {f : Firewall maxPeers} {peer now : Nat} {parsed : Parsed}
    (herr : parsed.kind ≠ .error) (hecho : parsed.kind ≠ .echoRequest)
    (hsyn : ∀ flags, parsed.kind = .tcp flags → ¬Parsed.isBareSyn flags)
    {r : Bool × Firewall maxPeers}
    (hr : r = (match f.entries.findIdx? fun e =>
      e.peer = peer ∧ now < e.expires ∧ parsed.key.isReverseOf e.flow with
    | none => (false, f)
    | some pos => (true,
      { f with entries := f.entries.modify pos fun e => f.refreshed e parsed now }))) :
    r = (false, f) ∨ (∃ parsed' e, some parsed = some parsed' ∧ parsed'.kind = .error ∧
      e ∈ f.entries ∧ e.peer = peer ∧ e.Live now ∧ e.flow = parsed'.key ∧ r = (true, f)) ∨
    ∃ pos e parsed', some parsed = some parsed' ∧ parsed'.kind ≠ .error ∧
      parsed'.kind ≠ .echoRequest ∧ (∀ flags, parsed'.kind = .tcp flags → ¬Parsed.isBareSyn flags) ∧
      f.entries[pos]? = some e ∧ e.peer = peer ∧ e.Live now ∧ parsed'.key.isReverseOf e.flow =
        true ∧
      r = (true, { f with entries := f.entries.set pos (f.refreshed e parsed' now) }) := by
  subst hr
  cases hfind : f.entries.findIdx? fun e =>
      e.peer = peer ∧ now < e.expires ∧ parsed.key.isReverseOf e.flow with
  | none => exact Or.inl rfl
  | some pos =>
    obtain ⟨hlt, hpos, -⟩ := List.findIdx?_eq_some_iff_getElem.mp hfind
    obtain ⟨hp, hlive, hflow⟩ := of_decide_eq_true hpos
    have hget : f.entries[pos]? = some f.entries[pos] := List.getElem?_eq_getElem hlt
    refine Or.inr (Or.inr ⟨pos, f.entries[pos], parsed, rfl, herr, hecho, hsyn, hget, hp, hlive,
      hflow, ?_⟩)
    dsimp only
    rw [modify_refreshed hget]

theorem allowsInbound_cases (f : Firewall maxPeers) (peer : Nat) (packet : List UInt8) (now : Nat) :
    f.allowsInbound peer packet now = (false, f) ∨
    (∃ parsed e, parseFlow packet = some parsed ∧ parsed.kind = .error ∧ e ∈ f.entries ∧
      e.peer = peer ∧ e.Live now ∧ e.flow = parsed.key ∧
      f.allowsInbound peer packet now = (true, f)) ∨
    (∃ pos e parsed, parseFlow packet = some parsed ∧ parsed.kind ≠ .error ∧
      parsed.kind ≠ .echoRequest ∧ (∀ flags, parsed.kind = .tcp flags → ¬Parsed.isBareSyn flags) ∧
      f.entries[pos]? = some e ∧ e.peer = peer ∧ e.Live now ∧ parsed.key.isReverseOf e.flow = true ∧
      f.allowsInbound peer packet now =
        (true, { f with entries := f.entries.set pos (f.refreshed e parsed now) })) := by
  unfold allowsInbound
  cases hparse : parseFlow packet with
  | none => exact Or.inl rfl
  | some parsed =>
    dsimp only
    by_cases herr : parsed.kind = .error
    · rw [if_pos herr]
      cases hany : f.entries.any fun e =>
          decide (e.peer = peer ∧ now < e.expires ∧ e.flow = parsed.key) with
      | false => exact Or.inl rfl
      | true =>
        obtain ⟨e, he, hmatch⟩ := List.any_eq_true.mp hany
        obtain ⟨hp, hlive, hflow⟩ := of_decide_eq_true hmatch
        exact Or.inr (Or.inl ⟨parsed, e, rfl, herr, he, hp, hlive, hflow, rfl⟩)
    rw [if_neg herr]
    -- A connection attempt and an echo request are refused whatever the table holds.
    cases hkind : parsed.kind with
    | error => exact absurd hkind herr
    | echoRequest => exact Or.inl rfl
    | tcp flags =>
      cases hsyn : Parsed.isBareSyn flags with
      | true => exact Or.inl (if_pos hsyn)
      | false =>
        refine reverse_cases herr (by simp [hkind]) ?_ (if_neg (by simp [hsyn]))
        intro flags' h
        rw [hkind] at h
        cases h
        simp [hsyn]
    | udp => exact reverse_cases herr (by simp [hkind]) (by simp [hkind]) rfl
    | echoReply => exact reverse_cases herr (by simp [hkind]) (by simp [hkind]) rfl

/-! ### Counting -/

theorem peerCount_incrementPeer (q : Nat) : (f.incrementPeer peer).peerCount q =
    if q = peer ∧ peer < maxPeers then min (f.peerCount peer + 1) maxCount else f.peerCount q :=
  peerCount_setPeerCount ..

theorem peerCount_decrementPeer (q : Nat) : (f.decrementPeer peer).peerCount q =
    if q = peer ∧ peer < maxPeers then f.peerCount peer - 1 else f.peerCount q :=
  peerCount_setPeerCount ..

/-- Counting entries one by one changes nothing but the counts, and without saturation it adds up.
-/
theorem foldl_incrementPeer (l : List Entry) (f : Firewall maxPeers) :
    ∃ peerCounts, l.foldl (fun g e => g.incrementPeer e.peer) f = { f with peerCounts } ∧
      ∀ p < maxPeers, f.peerCount p + l.length ≤ maxCount →
        { f with peerCounts }.peerCount p = f.peerCount p + l.countP fun e => e.peer = p := by
  induction l generalizing f with
  | nil => exact ⟨f.peerCounts, rfl, fun _ _ _ => rfl⟩
  | cons e l ih =>
    obtain ⟨peerCounts, hfold, hcount⟩ := ih (f.incrementPeer e.peer)
    refine ⟨peerCounts, hfold, fun p hp hle => ?_⟩
    rw [List.length_cons] at hle
    have hstep : (f.incrementPeer e.peer).peerCount p =
        f.peerCount p + if e.peer = p then 1 else 0 := by
      rw [peerCount_incrementPeer]
      by_cases hep : e.peer = p
      · rw [if_pos ⟨hep.symm, hep ▸ hp⟩, hep, if_pos rfl]
        omega
      · rw [if_neg fun h => hep h.1.symm, if_neg hep, Nat.add_zero]
    have hle' : (f.incrementPeer e.peer).peerCount p + l.length ≤ maxCount := by
      rw [hstep]
      split <;> omega
    refine (hcount p hp hle').trans ?_
    rw [hstep, List.countP_cons]
    simp only [decide_eq_true_eq]
    omega

/-- Flows belong to peers that can be counted, and no flow is tracked twice. -/
structure Apart (f : Firewall maxPeers) : Prop where
  owners : ∀ e ∈ f.entries, e.peer < maxPeers
  flows : (f.entries.map fun e => (e.peer, e.flow)).Nodup

/-- The table: every peer has the count it is said to have, and the limits are kept. -/
structure Sound (f : Firewall maxPeers) : Prop extends Apart f where
  limit : f.maxEntries ≤ maxCount
  counts : ∀ p < maxPeers, f.peerCount p = f.owned p
  room : f.entries.length ≤ f.maxEntries
  quota : ∀ p, f.owned p ≤ f.maxEntriesPerPeer

theorem collectExpired_eq (f : Firewall maxPeers) (now : Nat) : ∃ peerCounts,
    f.collectExpired now =
      { f with entries := f.entries.filter fun e => now < e.expires, peerCounts } ∧
    (f.Sound → ∀ p < maxPeers, (f.collectExpired now).peerCount p =
      (f.collectExpired now).owned p) := by
  unfold collectExpired
  dsimp only
  split
  · obtain ⟨peerCounts, hfold, hcount⟩ := foldl_incrementPeer
      (f.entries.filter fun e => now < e.expires)
      { f with
        entries := f.entries.filter fun e => now < e.expires
        peerCounts := Vector.replicate maxPeers 0 }
    refine ⟨peerCounts, hfold, fun h p hp => ?_⟩
    have hzero : peerCount { f with
        entries := f.entries.filter fun e => now < e.expires
        peerCounts := Vector.replicate maxPeers 0 } p = 0 := by
      simp [peerCount, hp]
    have hlen : (f.entries.filter fun e => now < e.expires).length ≤ maxCount :=
      (List.length_filter_le _ _).trans (h.room.trans h.limit)
    have := hcount p hp (by omega)
    rw [hzero, Nat.zero_add] at this
    unfold rebuildPeerCounts
    dsimp only
    rw [hfold]
    exact this
  · rename_i hlen
    refine ⟨f.peerCounts, rfl, fun h p hp => ?_⟩
    have hsame : (f.entries.filter fun e => now < e.expires) = f.entries :=
      List.filter_sublist.eq_of_length (by omega)
    show f.peerCount p = List.countP _ (f.entries.filter fun e => now < e.expires)
    rw [hsame]
    exact h.counts p hp

theorem Apart.sublist (h : f.Apart) {g : Firewall maxPeers} (hsub : g.entries.Sublist f.entries) :
    g.Apart :=
  ⟨fun e he => h.owners e (hsub.mem he), (hsub.map _).nodup h.flows⟩

theorem Apart.collectExpired (h : f.Apart) (now : Nat) : (f.collectExpired now).Apart := by
  obtain ⟨peerCounts, heq, -⟩ := collectExpired_eq f now
  rw [heq]
  exact h.sublist List.filter_sublist

theorem Sound.collectExpired (h : f.Sound) (now : Nat) : (f.collectExpired now).Sound := by
  obtain ⟨peerCounts, heq, hcounts⟩ := collectExpired_eq f now
  have hsub : (f.entries.filter fun e => decide (now < e.expires)).Sublist f.entries :=
    List.filter_sublist
  refine ⟨h.toApart.collectExpired now, ?_, hcounts h, ?_, ?_⟩
  · rw [heq]
    exact h.limit
  · rw [heq]
    exact hsub.length_le.trans h.room
  · intro p
    rw [heq]
    exact (hsub.countP_le).trans (h.quota p)

theorem victimOwnedBy_spec {pos : Nat} (h : f.victimOwnedBy peer = some pos) :
    ∃ e, f.entries[pos]? = some e ∧ e.peer = peer := by
  obtain ⟨e, he, hp⟩ := minPosition_spec h
  exact ⟨e, he, of_decide_eq_true hp⟩

theorem largestOwner_spec {count owner : Nat} (h : f.largestOwner count = some owner) :
    owner < maxPeers ∧ count < f.peerCount owner := by
  have hfold : ∀ (l : List (Nat × Nat)) (best : Option Nat × Nat),
      (∀ x ∈ l, f.peerCounts.toList[x.2]? = some x.1) → count ≤ best.2 →
      (∀ p, best.1 = some p → f.peerCounts.toList[p]? = some best.2 ∧ count < best.2) →
      ∀ p, (l.foldl (fun best x => if best.2 < x.1 then (some x.2, x.1) else best) best).1 =
        some p →
        ∃ n, f.peerCounts.toList[p]? = some n ∧ count < n := by
    intro l
    induction l with
    | nil => exact fun best _ _ hbest p hp => ⟨best.2, hbest p hp⟩
    | cons x l ih =>
      intro best hl hle hbest p hp
      rw [List.foldl_cons] at hp
      have hl' : ∀ y ∈ l, f.peerCounts.toList[y.2]? = some y.1 :=
        fun y hy => hl y (List.mem_cons_of_mem _ hy)
      by_cases hlt : best.2 < x.1
      · rw [if_pos hlt] at hp
        refine ih (some x.2, x.1) hl' (by simp only; omega) ?_ p hp
        rintro q ⟨⟩
        exact ⟨hl x List.mem_cons_self, by simp only; omega⟩
      · rw [if_neg hlt] at hp
        exact ih best hl' hle hbest p hp
  obtain ⟨n, hget, hlt⟩ := hfold f.peerCounts.toList.zipIdx (none, count)
    (fun x hx => List.mem_zipIdx_iff_getElem?.mp hx) (Nat.le_refl _) (by rintro _ ⟨⟩) owner h
  rw [Vector.getElem?_toList] at hget
  obtain ⟨hbound, -⟩ := Vector.getElem?_eq_some_iff.mp hget
  refine ⟨hbound, ?_⟩
  rw [peerCount, hget]
  exact hlt

/-! ### Admission -/

/-- A new flow takes a free place, or the place of a flow of its own peer, or, in a full table, that
of a peer that has more. -/
theorem track_cases (f : Firewall maxPeers) (peer : Nat) (key : FlowKey) (now : Nat) :
    f.track peer key now = f ∨
    (f.peerCount peer < f.maxEntriesPerPeer ∧ f.entries.length < f.maxEntries ∧
      f.track peer key now =
        { f with entries := f.entries ++ [f.newEntry peer key now] }.incrementPeer peer) ∨
    (∃ pos old, f.entries[pos]? = some old ∧
      (old.peer = peer ∨ f.peerCount peer < f.maxEntriesPerPeer ∧
        f.maxEntries ≤ f.entries.length ∧ old.peer < maxPeers ∧
        f.peerCount peer < f.peerCount old.peer) ∧
      f.track peer key now = f.replace pos (f.newEntry peer key now)) := by
  have hvictim : ∀ r, r = (match f.fairVictim peer with
        | some victim => f.replace victim (f.newEntry peer key now)
        | none => f) →
      (f.peerCount peer < f.maxEntriesPerPeer → f.maxEntries ≤ f.entries.length) →
      r = f ∨ ∃ pos old, f.entries[pos]? = some old ∧
        (old.peer = peer ∨ f.peerCount peer < f.maxEntriesPerPeer ∧
          f.maxEntries ≤ f.entries.length ∧ old.peer < maxPeers ∧
          f.peerCount peer < f.peerCount old.peer) ∧
        r = f.replace pos (f.newEntry peer key now) := by
    rintro r rfl hfull
    cases hfair : f.fairVictim peer with
    | none => exact Or.inl rfl
    | some pos =>
      unfold fairVictim at hfair
      dsimp only at hfair
      split at hfair
      · obtain ⟨old, hold, hp⟩ := victimOwnedBy_spec hfair
        exact Or.inr ⟨pos, old, hold, Or.inl hp, rfl⟩
      rename_i hquota
      rcases Option.or_eq_some_iff.mp hfair with hother | ⟨-, hown⟩
      · obtain ⟨owner, howner, hpos⟩ := Option.bind_eq_some_iff.mp hother
        obtain ⟨old, hold, rfl⟩ := victimOwnedBy_spec hpos
        obtain ⟨hlt, hmore⟩ := largestOwner_spec howner
        exact Or.inr ⟨pos, old, hold, Or.inr ⟨by omega, hfull (by omega), hlt, hmore⟩, rfl⟩
      · obtain ⟨old, hold, hp⟩ := victimOwnedBy_spec hown
        exact Or.inr ⟨pos, old, hold, Or.inl hp, rfl⟩
  unfold track
  by_cases hquota : f.peerCount peer < f.maxEntriesPerPeer
  · by_cases hroom : f.maxEntries ≤ f.entries.length
    · rcases hvictim _ rfl (fun _ => hroom) with h | h
      · left
        simpa [hquota, push, hroom] using h
      · right
        right
        simpa [hquota, push, hroom] using h
    · right
      left
      refine ⟨hquota, by omega, ?_⟩
      simp [hquota, push, hroom, newEntry]
  · rcases hvictim _ rfl (fun h => absurd h hquota) with h | h
    · left
      simpa [hquota] using h
    · right
      right
      simpa [hquota] using h

theorem owned_set {pos : Nat} {old e : Entry} (h : f.entries[pos]? = some old) (p : Nat) :
    (f.entries.set pos e).countP (fun e => e.peer = p) + (if old.peer = p then 1 else 0) =
      f.owned p + if e.peer = p then 1 else 0 := by
  obtain ⟨hlt, rfl⟩ := List.getElem?_eq_some_iff.mp h
  have hset : (f.entries.set pos e).countP (fun e => e.peer = p) =
      (f.entries.eraseIdx pos).countP (fun e => e.peer = p) + if e.peer = p then 1 else 0 := by
    rw [(List.set_perm_cons_eraseIdx hlt e).countP_eq, List.countP_cons]
    simp only [decide_eq_true_eq]
  have hold : f.owned p = (f.entries.eraseIdx pos).countP (fun e => e.peer = p) +
      if f.entries[pos].peer = p then 1 else 0 := by
    rw [owned, ← (List.getElem_cons_eraseIdx_perm hlt).countP_eq, List.countP_cons]
    simp only [decide_eq_true_eq]
  omega

/-- Replacing an entry keeps the flows apart, if the new one is not there or takes the place of the
same flow. -/
theorem nodup_set {pos : Nat} {old e : Entry} (hold : f.entries[pos]? = some old)
    (h : (f.entries.map fun e => (e.peer, e.flow)).Nodup)
    (hnew : (old.peer, old.flow) = (e.peer, e.flow) ∨
      ∀ x ∈ f.entries, (x.peer, x.flow) ≠ (e.peer, e.flow)) :
    ((f.entries.set pos e).map fun e => (e.peer, e.flow)).Nodup := by
  obtain ⟨hlt, rfl⟩ := List.getElem?_eq_some_iff.mp hold
  have hperm := (List.getElem_cons_eraseIdx_perm hlt).map fun e : Entry => (e.peer, e.flow)
  have hset := (List.set_perm_cons_eraseIdx hlt e).map fun e : Entry => (e.peer, e.flow)
  have hcons := hperm.nodup_iff.mpr h
  rw [List.map_cons, List.nodup_cons] at hcons
  rw [hset.nodup_iff, List.map_cons, List.nodup_cons]
  refine ⟨fun hmem => ?_, hcons.2⟩
  rcases hnew with hsame | hnone
  · rw [← hsame] at hmem
    exact hcons.1 hmem
  · obtain ⟨x, hx, heq⟩ := List.mem_map.mp hmem
    exact hnone x (List.mem_of_mem_eraseIdx hx) heq

theorem Apart.set (h : f.Apart) {g : Firewall maxPeers} {pos : Nat} {old e : Entry}
    (hold : f.entries[pos]? = some old) (hg : g.entries = f.entries.set pos e)
    (hpeer : e.peer < maxPeers) (hnew : (old.peer, old.flow) = (e.peer, e.flow) ∨
      ∀ x ∈ f.entries, (x.peer, x.flow) ≠ (e.peer, e.flow)) : g.Apart := by
  refine ⟨fun x hx => ?_, hg ▸ nodup_set hold h.flows hnew⟩
  rw [hg] at hx
  rcases List.mem_or_eq_of_mem_set hx with hx | rfl
  · exact h.owners x hx
  · exact hpeer

theorem replace_entries {pos : Nat} {old e : Entry} (hold : f.entries[pos]? = some old) :
    (f.replace pos e).entries = f.entries.set pos e := by
  unfold replace
  rw [hold]
  dsimp only
  split <;> rfl

theorem Sound.replace (h : f.Sound) {pos : Nat} {old e : Entry} (hold : f.entries[pos]? = some old)
    (hpeer : e.peer < maxPeers) (hquota : old.peer = e.peer ∨ f.owned e.peer < f.maxEntriesPerPeer)
    (hnew : (old.peer, old.flow) = (e.peer, e.flow) ∨
      ∀ x ∈ f.entries, (x.peer, x.flow) ≠ (e.peer, e.flow)) : (f.replace pos e).Sound := by
  have hlen := h.room.trans h.limit
  have hmem := List.mem_of_getElem? hold
  have hcount : ∀ p, f.owned p ≤ f.entries.length := fun p => List.countP_le_length
  have hpos : 0 < f.owned old.peer := List.countP_pos_iff.mpr ⟨old, hmem, by simp⟩
  have hless : old.peer ≠ e.peer → f.owned e.peer + f.owned old.peer ≤ f.entries.length := by
    intro hne
    have hall : f.entries.length = f.owned e.peer +
        f.entries.countP fun x => decide ¬decide (x.peer = e.peer) = true :=
      List.length_eq_countP_add_countP _
    have hle : f.owned old.peer ≤
        f.entries.countP fun x => decide ¬decide (x.peer = e.peer) = true := by
      refine List.countP_mono_left fun x _ hx => ?_
      simp only [decide_eq_true_eq] at hx ⊢
      rw [hx]
      exact hne
    exact (Nat.add_le_add_left hle _).trans hall.ge
  have hapart := h.toApart.set hold (replace_entries (e := e) hold) hpeer hnew
  unfold Firewall.replace at hapart ⊢
  rw [hold] at hapart ⊢
  dsimp only at hapart ⊢
  split
  · rename_i hne
    rw [if_pos hne] at hapart
    refine ⟨hapart, h.limit, fun p hp => ?_, (List.length_set ..).trans_le h.room, fun p => ?_⟩
    · show ((f.decrementPeer old.peer).incrementPeer e.peer).peerCount p =
        (f.entries.set pos e).countP fun e => e.peer = p
      have hset := owned_set (e := e) hold p
      rw [peerCount_incrementPeer, peerCount_decrementPeer, peerCount_decrementPeer,
        h.counts p hp, h.counts e.peer hpeer, h.counts old.peer (h.owners old hmem)]
      have := hless hne
      have := hcount p
      by_cases hpe : p = e.peer
      · subst hpe
        rw [if_neg hne, if_pos rfl] at hset
        simp only [hpeer, and_true, if_true, Ne.symm hne, if_false, false_and]
        omega
      · by_cases hpo : p = old.peer
        · subst hpo
          rw [if_pos rfl, if_neg (Ne.symm hne)] at hset
          simp only [hpe, false_and, if_false, true_and, hp, if_true]
          omega
        · rw [if_neg (Ne.symm hpo), if_neg (Ne.symm hpe)] at hset
          simp only [hpe, hpo, false_and, if_false]
          omega
    · show (f.entries.set pos e).countP (fun e => e.peer = p) ≤ f.maxEntriesPerPeer
      have hset := owned_set (e := e) hold p
      have hq := h.quota p
      by_cases hpe : e.peer = p
      · subst hpe
        rcases hquota with heq | hlt
        · exact absurd heq hne
        · rw [if_neg hne, if_pos rfl] at hset
          omega
      · rw [if_neg hpe] at hset
        omega
  · rename_i hne
    rw [if_neg hne] at hapart
    have heq : old.peer = e.peer := not_not.mp hne
    have hsame : ∀ p, (f.entries.set pos e).countP (fun e => e.peer = p) = f.owned p := by
      intro p
      have hset := owned_set (e := e) hold p
      rw [heq] at hset
      omega
    refine ⟨hapart, h.limit, fun p hp => ?_, (List.length_set ..).trans_le h.room, fun p => ?_⟩
    · exact (h.counts p hp).trans (hsame p).symm
    · exact (hsame p).le.trans (h.quota p)

theorem Apart.refresh (h : f.Apart) {pos : Nat} {e : Entry} (he : f.entries[pos]? = some e)
    (parsed : Parsed) (now : Nat) :
    { f with entries := f.entries.set pos (f.refreshed e parsed now) }.Apart :=
  h.set he rfl (h.owners e (List.mem_of_getElem? he)) (Or.inl rfl)

theorem Sound.refresh (h : f.Sound) {pos : Nat} {e : Entry} (he : f.entries[pos]? = some e)
    (parsed : Parsed) (now : Nat) :
    { f with entries := f.entries.set pos (f.refreshed e parsed now) }.Sound := by
  have hrep := h.replace (e := f.refreshed e parsed now) he (h.owners e (List.mem_of_getElem? he))
    (Or.inl rfl) (Or.inl rfl)
  rw [Firewall.replace, he] at hrep
  simpa [refreshed] using hrep

theorem Apart.track (h : f.Apart) {key : FlowKey} (hpeer : peer < maxPeers)
    (hnew : ∀ x ∈ f.entries, (x.peer, x.flow) ≠ (peer, key)) : (f.track peer key now).Apart := by
  rcases track_cases f peer key now with heq | ⟨-, -, heq⟩ | ⟨pos, old, hold, -, heq⟩
  · rw [heq]
    exact h
  · rw [heq]
    refine ⟨fun e he => ?_, ?_⟩
    · rcases List.mem_append.mp he with he | he
      · exact h.owners e he
      · rw [List.mem_singleton.mp he]
        exact hpeer
    · show ((f.entries ++ [f.newEntry peer key now]).map fun e => (e.peer, e.flow)).Nodup
      rw [List.map_append, List.nodup_append]
      refine ⟨h.flows, by simp, fun x hx y hy => ?_⟩
      obtain ⟨e, he, rfl⟩ := List.mem_map.mp hx
      obtain rfl : y = (peer, key) := by simpa [newEntry] using hy
      exact hnew e he
  · rw [heq]
    exact h.set hold (replace_entries hold) hpeer (Or.inr hnew)

theorem Sound.track (h : f.Sound) {key : FlowKey} (hpeer : peer < maxPeers)
    (hnew : ∀ x ∈ f.entries, (x.peer, x.flow) ≠ (peer, key)) : (f.track peer key now).Sound := by
  have hapart : (f.track peer key now).Apart := h.toApart.track hpeer hnew
  rcases track_cases f peer key now with heq | ⟨hquota, hroom, heq⟩ | ⟨pos, old, hold, hwhy, heq⟩
  · rw [heq]
    exact h
  · rw [heq] at hapart ⊢
    rw [h.counts peer hpeer] at hquota
    have hlen := h.limit
    have howned : ∀ p, (f.entries ++ [f.newEntry peer key now]).countP (fun e => e.peer = p) =
        f.owned p + if peer = p then 1 else 0 := by
      intro p
      rw [List.countP_append]
      simp [owned, newEntry, List.countP_singleton]
    refine ⟨hapart, h.limit, fun p hp => ?_, ?_, fun p => ?_⟩
    · rw [peerCount_incrementPeer]
      show _ = List.countP _ (f.entries ++ [f.newEntry peer key now])
      rw [howned]
      have hle : f.owned p ≤ f.entries.length := List.countP_le_length
      by_cases hpp : p = peer
      · subst hpp
        rw [if_pos ⟨rfl, hp⟩, if_pos rfl]
        show min (f.peerCount p + 1) maxCount = _
        rw [h.counts p hp]
        omega
      · rw [if_neg fun h => hpp h.1, if_neg (Ne.symm hpp)]
        exact h.counts p hp
    · show (f.entries ++ [f.newEntry peer key now]).length ≤ f.maxEntries
      simp only [List.length_append, List.length_cons, List.length_nil]
      omega
    · show List.countP _ (f.entries ++ [f.newEntry peer key now]) ≤ f.maxEntriesPerPeer
      rw [howned]
      split
      · rename_i hpp
        subst hpp
        omega
      · exact h.quota p
  · rw [heq]
    refine h.replace hold hpeer ?_ (Or.inr hnew)
    rcases hwhy with hp | ⟨hquota, -⟩
    · exact Or.inl hp
    · rw [h.counts peer hpeer] at hquota
      exact Or.inr hquota

/-! ### Calls -/

/-- A property of the table that a call keeps if its parts do. -/
theorem run_induction {Q : Firewall maxPeers → Prop} (h : Q f)
    (hrefresh : ∀ pos e parsed now, f.entries[pos]? = some e →
      Q { f with entries := f.entries.set pos (f.refreshed e parsed now) })
    (htrack : ∀ peer key now, peer < maxPeers →
      (∀ x ∈ (f.collectExpired now).entries, (x.peer, x.flow) ≠ (peer, key)) →
      Q ((f.collectExpired now).track peer key now))
    (hremove : ∀ peer, Q (f.removePeer peer)) (op : Op) : Q (op.run f).2 := by
  cases op with
  | observeOutbound peer packet now =>
    show Q (f.observeOutbound peer packet now)
    rcases observeOutbound_cases f peer packet now with ⟨heq, -⟩ |
      ⟨pos, e, parsed, -, -, he, -, -, -, heq⟩ | ⟨parsed, hpeer, -, -, hdead, heq⟩
    · rw [heq]
      exact h
    · rw [heq]
      exact hrefresh pos e parsed now he
    · rw [heq]
      refine htrack peer parsed.key now hpeer fun x hx hsame => ?_
      obtain ⟨peerCounts, hcollect, -⟩ := collectExpired_eq f now
      rw [hcollect] at hx
      obtain ⟨hx, hlive⟩ := List.mem_filter.mp hx
      obtain ⟨hp, hflow⟩ := Prod.mk.inj hsame
      exact hdead x hx hp hflow (show now < x.expires by simpa using hlive)
  | allowsInbound peer packet now =>
    show Q (f.allowsInbound peer packet now).2
    rcases allowsInbound_cases f peer packet now with heq | ⟨_, _, _, _, _, _, _, _, heq⟩ |
      ⟨pos, e, parsed, -, -, -, -, he, -, -, -, heq⟩
    · rw [heq]
      exact h
    · rw [heq]
      exact h
    · rw [heq]
      exact hrefresh pos e parsed now he
  | removePeer peer => exact hremove peer

theorem Apart.run (h : f.Apart) (op : Op) : (op.run f).2.Apart :=
  run_induction h (fun _ _ parsed now he => h.refresh he parsed now)
    (fun _ _ now hpeer hnew => (h.collectExpired now).track hpeer hnew)
    (fun _ => h.sublist List.filter_sublist) op

theorem Sound.removePeer (h : f.Sound) (peer : Nat) : (f.removePeer peer).Sound := by
  have hsub : (f.entries.filter fun e => decide (e.peer ≠ peer)).Sublist f.entries :=
    List.filter_sublist
  refine ⟨h.toApart.sublist hsub, h.limit, fun p hp => ?_, hsub.length_le.trans h.room,
    fun p => (hsub.countP_le).trans (h.quota p)⟩
  show (f.removePeer peer).peerCount p = List.countP _ (f.entries.filter fun e => e.peer ≠ peer)
  rw [Firewall.removePeer, peerCount_setPeerCount, List.countP_filter]
  split
  · rename_i heq
    symm
    rw [List.countP_eq_zero]
    intro e _
    simp only [Bool.and_eq_true, decide_eq_true_eq]
    rintro ⟨hep, hne⟩
    exact hne (hep.trans heq.1)
  · rename_i hne
    refine (h.counts p hp).trans (List.countP_congr fun e _ => ?_)
    simp only [Bool.and_eq_true, decide_eq_true_eq]
    constructor
    · intro hep
      refine ⟨hep, fun heq => hne ⟨hep.symm.trans heq, ?_⟩⟩
      rw [← heq, hep]
      exact hp
    · exact fun hep => hep.1

theorem Sound.run (h : f.Sound) (op : Op) : (op.run f).2.Sound :=
  run_induction h (fun _ _ parsed now he => h.refresh he parsed now)
    (fun _ _ now hpeer hnew => (h.collectExpired now).track hpeer hnew) h.removePeer op

/-- The same limits and timeouts. -/
def SameSettings (f g : Firewall maxPeers) : Prop :=
  g = { f with entries := g.entries, peerCounts := g.peerCounts }

theorem SameSettings.trans {g h : Firewall maxPeers} (hg : f.SameSettings g)
    (hh : g.SameSettings h) : f.SameSettings h := by
  unfold SameSettings at *
  rw [hh]
  rw [hg]

theorem sameSettings_replace (pos : Nat) (e : Entry) : f.SameSettings (f.replace pos e) := by
  unfold replace
  split
  · rfl
  · dsimp only
    split <;> rfl

theorem sameSettings_collectExpired (now : Nat) : f.SameSettings (f.collectExpired now) := by
  obtain ⟨peerCounts, heq, -⟩ := collectExpired_eq f now
  rw [heq]
  rfl

theorem sameSettings_track (key : FlowKey) : f.SameSettings (f.track peer key now) := by
  rcases track_cases f peer key now with heq | ⟨-, -, heq⟩ | ⟨pos, old, -, -, heq⟩
  · rw [heq]
    rfl
  · rw [heq]
    rfl
  · rw [heq]
    exact sameSettings_replace ..

theorem sameSettings_run (op : Op) : f.SameSettings (op.run f).2 :=
  run_induction (f := f) (Q := fun g => f.SameSettings g) rfl (fun _ _ _ _ _ => rfl)
    (fun _ _ now _ _ => (sameSettings_collectExpired now).trans (sameSettings_track _))
      (fun _ => rfl) op

theorem sameSettings_after (ops : List Op) : f.SameSettings (f.after ops) := by
  induction ops generalizing f with
  | nil => rfl
  | cons op ops ih => exact (sameSettings_run op).trans ih

theorem Apart.after (h : f.Apart) (ops : List Op) : (f.after ops).Apart := by
  induction ops generalizing f with
  | nil => exact h
  | cons op ops ih => exact ih (h.run op)

theorem Sound.after (h : f.Sound) (ops : List Op) : (f.after ops).Sound := by
  induction ops generalizing f with
  | nil => exact h
  | cons op ops ih => exact ih (h.run op)

/-! ### Isolation -/

theorem mem_replace {pos : Nat} {old e x : Entry} (hold : f.entries[pos]? = some old)
    (hx : x ∈ f.entries) (hne : x ≠ old) : x ∈ (f.replace pos e).entries := by
  rw [replace_entries hold]
  obtain ⟨i, hi⟩ := List.mem_iff_getElem?.mp hx
  refine List.mem_iff_getElem?.mpr ⟨i, ?_⟩
  rw [List.getElem?_set_ne, hi]
  rintro rfl
  exact hne (Option.some.inj (hi.symm.trans hold))

/-- A live flow of another peer goes only from a full table, for a peer that is below its quota and
has fewer flows. -/
theorem Sound.isolated (h : f.Sound) {e : Entry} (he : e ∈ f.entries) (hlive : e.Live now)
    (hother : e.peer ≠ peer) (hgone : e ∉ (f.observeOutbound peer packet now).entries) :
    f.entries.length = f.maxEntries ∧ f.owned peer < f.maxEntriesPerPeer ∧
      f.owned peer < f.owned e.peer := by
  rcases observeOutbound_cases f peer packet now with ⟨heq, -⟩ |
    ⟨pos, old, parsed, -, -, hold, hp, -, -, heq⟩ | ⟨parsed, hpeer, -, -, -, heq⟩
  · rw [heq] at hgone
    exact absurd he hgone
  · rw [heq] at hgone
    refine absurd ?_ hgone
    obtain ⟨i, hi⟩ := List.mem_iff_getElem?.mp he
    refine List.mem_iff_getElem?.mpr ⟨i, ?_⟩
    show (f.entries.set pos (f.refreshed old parsed now))[i]? = some e
    rw [List.getElem?_set_ne, hi]
    rintro rfl
    obtain rfl : e = old := Option.some.inj (hi.symm.trans hold)
    exact hother hp
  obtain ⟨peerCounts, hcollect, -⟩ := collectExpired_eq f now
  have hsound := h.collectExpired now
  have hmem : e ∈ (f.collectExpired now).entries := by
    rw [hcollect]
    exact List.mem_filter.mpr ⟨he, by simpa using (show now < e.expires from hlive)⟩
  rw [heq] at hgone
  rcases track_cases (f.collectExpired now) peer parsed.key now with htrack | ⟨-, -, htrack⟩ |
    ⟨pos, old, hold, hwhy, htrack⟩
  · rw [htrack] at hgone
    exact absurd hmem hgone
  · rw [htrack] at hgone
    exact absurd (List.mem_append_left _ hmem) hgone
  rw [htrack] at hgone
  obtain rfl : e = old := by
    by_contra hne
    exact hgone (mem_replace hold hmem hne)
  rcases hwhy with hp | ⟨hquota, hfull, hlt, hmore⟩
  · exact absurd hp hother
  rw [hsound.counts peer hpeer] at hquota hmore
  rw [hsound.counts e.peer hlt] at hmore
  -- In a table that is full of live flows nothing has expired.
  have hsame : (f.entries.filter fun e => decide (now < e.expires)) = f.entries := by
    refine List.filter_sublist.eq_of_length ?_
    rw [hcollect] at hfull
    have hroom := h.room
    have hle : (f.entries.filter fun e => decide (now < e.expires)).length ≤ f.entries.length :=
      List.length_filter_le ..
    exact Nat.le_antisymm hle (hroom.trans hfull)
  rw [hcollect] at hfull hquota hmore
  simp only [owned, hsame] at hfull hquota hmore
  exact ⟨Nat.le_antisymm h.room hfull, hquota, hmore⟩

/-- After any calls, the counts are right, the limits are kept, no flow is tracked twice, and the
live flow of a peer is displaced only by a peer that has fewer and is below its quota, when the
table is full. -/
theorem table_invariant (maxPeers maxFlows maxEntries maxEntriesPerPeer udpTimeout icmpTimeout
    tcpTimeout tcpClosingTimeout : Nat) (hentries : maxEntries ≤ maxFlows)
      (hflows : maxFlows ≤ 65535)
    (ops : List Op) :
    let f := (withLimitsAndTimeouts maxPeers maxFlows maxEntries maxEntriesPerPeer udpTimeout
      icmpTimeout tcpTimeout tcpClosingTimeout).after ops
    (∀ p < maxPeers, f.peerCount p = f.owned p) ∧ f.entries.length ≤ maxEntries ∧
      (∀ p, f.owned p ≤ maxEntriesPerPeer) ∧
      (f.entries.map fun e => (e.peer, e.flow)).Nodup ∧
      ∀ r packet now, ∀ e ∈ f.entries, e.Live now → e.peer ≠ r →
        e ∉ (f.observeOutbound r packet now).entries →
        f.entries.length = maxEntries ∧ f.owned r < maxEntriesPerPeer ∧
          f.owned r < f.owned e.peer := by
  have hnew : (withLimitsAndTimeouts maxPeers maxFlows maxEntries maxEntriesPerPeer udpTimeout
      icmpTimeout tcpTimeout tcpClosingTimeout).Sound := by
    refine ⟨⟨by simp [withLimitsAndTimeouts], List.nodup_nil⟩, ?_, fun p hp => ?_, Nat.zero_le _,
      fun p => Nat.zero_le _⟩
    · show min maxEntries maxFlows ≤ 65535
      omega
    · simp [withLimitsAndTimeouts, peerCount, owned, hp]
  intro f
  have hsound : f.Sound := hnew.after ops
  have hsettings := sameSettings_after (f := withLimitsAndTimeouts maxPeers maxFlows maxEntries
    maxEntriesPerPeer udpTimeout icmpTimeout tcpTimeout tcpClosingTimeout) ops
  have hmax : f.maxEntries = maxEntries := by
    have : f.maxEntries = min maxEntries maxFlows := congrArg Firewall.maxEntries hsettings
    omega
  have hper : f.maxEntriesPerPeer ≤ maxEntriesPerPeer := by
    have : f.maxEntriesPerPeer = min (min maxEntriesPerPeer maxEntries) maxFlows :=
      congrArg Firewall.maxEntriesPerPeer hsettings
    omega
  refine ⟨hsound.counts, hmax ▸ hsound.room, fun p => (hsound.quota p).trans hper, hsound.flows,
    fun r packet now e he hlive hother hgone => ?_⟩
  obtain ⟨hfull, hquota, hmore⟩ := hsound.isolated he hlive hother hgone
  exact ⟨hfull.trans hmax, hquota.trans_le hper, hmore⟩

/-- A UDP datagram from 10.0.0.1 to 10.0.0.2. -/
def udpDatagram (srcPort dstPort : UInt8) : List UInt8 :=
  [0x45, 0, 0, 28, 0, 0, 0, 0, 64, 17, 0, 0, 10, 0, 0, 1, 10, 0, 0, 2,
    0, srcPort, 0, dstPort, 0, 8, 0, 0]

/-- Two flows of one peer and one of another fill a table of three; a third peer displaces the
oldest of the first. -/
theorem table_invariant_displaces :
    let f := (withLimitsAndTimeouts 4 3 3 2 60000 30000 1800000 30000).after
      [.observeOutbound 0 (udpDatagram 1 53) 0, .observeOutbound 0 (udpDatagram 2 53) 1,
        .observeOutbound 1 (udpDatagram 3 53) 2]
    ∃ e ∈ f.entries, e.Live 3 ∧ e.peer = 0 ∧
      e ∉ (f.observeOutbound 2 (udpDatagram 4 53) 3).entries ∧ f.owned 2 < f.owned 0 := by
  intro f
  let e : Entry := ⟨0, ⟨.v4 0x0a000001, .v4 0x0a000002, 17, 1, 53⟩, 60000, 0, false⟩
  have he : e ∈ f.entries := by decide
  have hgone : e ∉ (f.observeOutbound 2 (udpDatagram 4 53) 3).entries := by decide
  exact ⟨e, he, by decide, rfl, hgone, ((table_invariant 4 3 3 2 60000 30000 1800000 30000
    (by decide) (by decide) _).2.2.2.2 2 (udpDatagram 4 53) 3 e he (by decide) (by decide)
      hgone).2.2⟩

end Microtun.Firewall
