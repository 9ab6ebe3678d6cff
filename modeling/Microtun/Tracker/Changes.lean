import Microtun.Lib.Transducer
import Microtun.Tracker.Registry

/-! What the published registry announces and which endpoint it serves, over every sequence of
reloads and observations. -/

namespace Microtun.Tracker

namespace PublishedRegistry

def new (registry : Built) : PublishedRegistry := ⟨registry, ∅⟩

/-- A call of `SharedRegistry`. -/
inductive Call where
  | replace (registry : Built) (keys : List Key)
  | observeEndpoint (publicKey : Key) (endpoint : SocketAddr)

/-- The registry as a machine that answers a call with the changes it announces. -/
def shared : Transducer PublishedRegistry Call (List RegistryChange) where
  step
    | p, .replace registry keys => p.replace registry keys
    | p, .observeEndpoint publicKey endpoint => p.observeEndpoint publicKey endpoint

/-- A reload goes through the keys of both registries in some order. -/
def Call.Lawful (p : PublishedRegistry) : Call → Prop
  | .replace registry keys => p.Lists registry keys
  | .observeEndpoint .. => True

/-- What is to be announced for a key between two published states. -/
def announced (before after : PublishedRegistry) (k : Key) : List RegistryChange :=
  if before.served k = after.served k then []
  else [⟨k, if after.lookupKey k = none then .removed else .changed⟩]

/-- The configuration after some calls: the one of the last reload. -/
def configured (registry : Built) : List Call → Built
  | [] => registry
  | .replace registry _ :: calls => configured registry calls
  | .observeEndpoint .. :: calls => configured registry calls

/-- The last endpoint observed for a key since the key last appeared in the registry: the key was
there, no later reload left it out, and nothing was observed for it later. -/
def Observed (registry : Built) (calls : List Call) (k : Key) (endpoint : SocketAddr) : Prop :=
  ∃ before after, calls = before ++ .observeEndpoint k endpoint :: after ∧
    (configured registry before).val.lookupKey k ≠ none ∧
    ∀ call ∈ after, match call with
      | .replace registry _ => registry.val.lookupKey k ≠ none
      | .observeEndpoint publicKey _ => publicKey ≠ k

variable {p : PublishedRegistry} {k : Key}

/-! ### One call -/

/-- A key is served alike before and after exactly if the fields that `replace` compares agree. -/
theorem served_eq_iff {after : PublishedRegistry} {b a : PeerRecord} (hb : p.lookupKey k = some b)
    (ha : after.lookupKey k = some a) : p.served k = after.served k ↔ b.publicKey = a.publicKey ∧
      (p.observedEndpoints.lookup k).or b.endpoint =
      (after.observedEndpoints.lookup k).or a.endpoint ∧
      b.relay = a.relay ∧ b.persistentKeepalive = a.persistentKeepalive ∧
        b.address = a.address := by
  have hmillis : Function.Injective fun seconds : UInt16 => seconds.toNat * 1000 := fun x y h =>
    UInt16.toNat_inj.mp (Nat.eq_of_mul_eq_mul_right (by decide) h)
  have hkeepalive := (Option.map_injective hmillis).eq_iff (a := b.persistentKeepalive)
    (b := a.persistentKeepalive)
  rw [served_eq hb, served_eq ha, Option.some.injEq]
  simp only [PeerRecord.resolvedWithEndpoint, ResolvedPeer.mk.injEq, true_and, hkeepalive]
  exact and_congr_right fun _ => and_congr_right fun _ => and_congr_right fun _ => and_comm

theorem changeKind_eq (after : PublishedRegistry) (k : Key) :
    ((p.changeKind after k).map fun kind => (⟨k, kind⟩ : RegistryChange)).toList =
      p.announced after k := by
  unfold changeKind announced
  cases hb : p.lookupKey k with
  | none =>
    cases ha : after.lookupKey k with
    | none => rw [if_pos (by rw [served, served, hb, ha]; rfl)]; rfl
    | some a => rw [if_neg (by rw [served, served, hb, ha]; simp)]; rfl
  | some b =>
    cases ha : after.lookupKey k with
    | none => rw [if_neg (by rw [served, served, hb, ha]; simp)]; rfl
    | some a =>
      have hserved := served_eq_iff hb ha
      simp only
      by_cases hsame : p.served k = after.served k
      · have hfields := hserved.mp hsame
        rw [if_pos hsame, if_neg (by tauto)]
        rfl
      · have hfields := hserved.not.mp hsame
        rw [if_neg hsame, if_pos (by tauto)]
        simp

/-- The changes of one key among those that are announced for keys of a set. -/
theorem filter_changes (kind : Key → Option RegistryChangeKind) (k : Key) {keys : List Key}
    (hkeys : keys.Nodup) :
    (keys.filterMap fun k => (kind k).map fun c => (⟨k, c⟩ : RegistryChange)).filter
        (fun c => c.publicKey = k) =
      if k ∈ keys then ((kind k).map fun c => (⟨k, c⟩ : RegistryChange)).toList else [] := by
  induction keys with
  | nil => rfl
  | cons key keys ih =>
    obtain ⟨hnew, hrest⟩ := List.nodup_cons.mp hkeys
    by_cases hk : k = key
    · subst hk
      rw [if_neg hnew] at ih
      rw [if_pos (List.mem_cons_self ..)]
      cases hkind : kind k with
      | none => rw [List.filterMap_cons_none (by rw [hkind]; rfl), ih hrest]; rfl
      | some c =>
        rw [List.filterMap_cons_some (by rw [hkind]; rfl), List.filter_cons_of_pos (by simp),
          ih hrest]
        rfl
    · have hmem : k ∈ key :: keys ↔ k ∈ keys := by simp [hk]
      simp only [hmem]
      cases hkind : kind key with
      | none => rw [List.filterMap_cons_none (by rw [hkind]; rfl), ih hrest]
      | some c =>
        rw [List.filterMap_cons_some (by rw [hkind]; rfl),
          List.filter_cons_of_neg (by simp [Ne.symm hk]), ih hrest]

/-- A reload announces each key that is served otherwise, once, and no other one. -/
theorem changes_replace {registry : Built} {keys : List Key} (hkeys : p.Lists registry keys)
    (k : Key) : (p.replace registry keys).2.filter (fun c => c.publicKey = k) =
      p.announced (p.replace registry keys).1 k := by
  have hnodup : keys.Nodup := hkeys.nodup_iff.mpr (List.nodup_dedup _)
  show (keys.filterMap _).filter _ = p.announced (p.reloaded registry) k
  rw [filter_changes _ k hnodup, ← changeKind_eq]
  split
  · rfl
  · rename_i hmem
    rw [hkeys.mem_iff, Registry.mem_byKey_iff p.registry.sound,
      Registry.mem_byKey_iff registry.sound] at hmem
    simp only [not_or, Bool.not_eq_true, Option.isSome_eq_false_iff,
      Option.isNone_iff_eq_none] at hmem
    have hb : p.lookupKey k = none := hmem.1
    have ha : (p.reloaded registry).lookupKey k = none := hmem.2
    rw [changeKind, hb, ha]
    rfl

theorem announced_same {after : PublishedRegistry} (h : p.served k = after.served k) :
    p.announced after k = [] := if_pos h

/-- What an observation makes of the state. -/
def learn (p : PublishedRegistry) (publicKey : Key) (endpoint : SocketAddr) : PublishedRegistry :=
  { p with observedEndpoints := p.observedEndpoints.insert publicKey endpoint }

theorem served_learn {publicKey : Key} {endpoint : SocketAddr} (hk : k ≠ publicKey) :
    (p.learn publicKey endpoint).served k = p.served k := by
  have hlookup : (p.learn publicKey endpoint).lookupKey k = p.lookupKey k := rfl
  cases hrec : p.lookupKey k with
  | none => rw [served, served, hlookup, hrec]; rfl
  | some record =>
    rw [served_eq (hlookup.trans hrec), served_eq hrec]
    unfold learn
    rw [AList.lookup_insert_ne hk]

/-- An observation announces its key if it changes the endpoint in force, and nothing else. -/
theorem changes_observeEndpoint (publicKey : Key) (endpoint : SocketAddr) (k : Key) :
    (p.observeEndpoint publicKey endpoint).2.filter (fun c => c.publicKey = k) =
      p.announced (p.observeEndpoint publicKey endpoint).1 k := by
  unfold observeEndpoint
  cases hrec : p.lookupKey publicKey with
  | none => exact (announced_same rfl).symm
  | some record =>
    simp only
    by_cases hsame : p.observedEndpoints.lookup publicKey = some endpoint
    · rw [if_pos hsame]
      exact (announced_same rfl).symm
    rw [if_neg hsame]
    have hrec' : (p.learn publicKey endpoint).lookupKey publicKey = some record := hrec
    show List.filter _ (if _ then _ else _) = p.announced (p.learn publicKey endpoint) k
    by_cases hk : k = publicKey
    · subst hk
      have hserved := served_eq_iff hrec hrec'
      rw [show (p.learn k endpoint).observedEndpoints.lookup k =
        some endpoint from AList.lookup_insert _]
        at hserved
      by_cases heq : (p.observedEndpoints.lookup k).or record.endpoint = some endpoint
      · rw [if_neg (not_not.mpr heq), announced_same (hserved.mpr ⟨rfl, heq, rfl, rfl, rfl⟩)]
        rfl
      · have hne : p.served k ≠ (p.learn k endpoint).served k := fun h => heq (hserved.mp h).2.1
        rw [if_pos heq, announced, if_neg hne, hrec']
        simp
    · rw [announced_same (served_learn hk).symm]
      split
      · exact List.filter_cons_of_neg (by simp [Ne.symm hk])
      · rfl

/-! ### Runs -/

/-- One call announces each key that is served otherwise after it, once, and no other key. -/
theorem changes_step {call : Call} (hlawful : call.Lawful p) (k : Key) :
    (shared.step p call).2.filter (fun c => c.publicKey = k) = p.announced
    (shared.step p call).1 k := by
  cases call with
  | replace registry keys => exact changes_replace hlawful k
  | observeEndpoint publicKey endpoint => exact changes_observeEndpoint publicKey endpoint k

theorem configured_append (registry : Built) (before after : List Call) :
    configured registry (before ++ after) = configured (configured registry before) after := by
  induction before generalizing registry with
  | nil => rfl
  | cons call before ih =>
    cases call with
    | replace registry' keys => exact ih registry'
    | observeEndpoint publicKey endpoint => exact ih registry

/-- What a call does to the learned endpoint of a key. -/
theorem lookup_step (p : PublishedRegistry) (k : Key) : ∀ call,
    (shared.step p call).1.observedEndpoints.lookup k = match call with
      | .replace registry _ =>
        if registry.val.lookupKey k = none then none else p.observedEndpoints.lookup k
      | .observeEndpoint publicKey endpoint =>
        if publicKey = k ∧ p.lookupKey k ≠ none then some endpoint else p.observedEndpoints.lookup k
  | .replace registry keys => by
    show (p.reloaded registry).observedEndpoints.lookup k = _
    rw [reloaded, HashMap.lookup_retain]
    simp only
    cases registry.val.lookupKey k <;> simp
  | .observeEndpoint publicKey endpoint => by
    show (p.observeEndpoint publicKey endpoint).1.observedEndpoints.lookup k = _
    unfold observeEndpoint
    by_cases hk : publicKey = k
    · subst hk
      cases hrec : p.lookupKey publicKey with
      | none => simp
      | some record =>
        simp only
        by_cases hsame : p.observedEndpoints.lookup publicKey = some endpoint
        · rw [if_pos hsame]
          simp [hsame]
        · rw [if_neg hsame]
          simp
    · simp only [hk, false_and, if_false]
      cases p.lookupKey publicKey with
      | none => rfl
      | some record =>
        simp only
        split
        · rfl
        · exact AList.lookup_insert_ne (Ne.symm hk)

theorem registry_step (p : PublishedRegistry) (call : Call) :
    (shared.step p call).1.registry = configured p.registry [call] := by
  cases call with
  | replace registry keys => rfl
  | observeEndpoint publicKey endpoint =>
    show (p.observeEndpoint publicKey endpoint).1.registry = p.registry
    unfold observeEndpoint
    cases p.lookupKey publicKey with
    | none => rfl
    | some record =>
      simp only
      split <;> rfl

theorem registry_after (p : PublishedRegistry) (calls : List Call) :
    (shared.after p calls).registry = configured p.registry calls := by
  induction calls generalizing p with
  | nil => rfl
  | cons call calls ih =>
    rw [Transducer.after_cons, ih, registry_step, ← configured_append, List.singleton_append]

theorem Observed.configured {registry : Built} {calls : List Call} {endpoint : SocketAddr}
    (h : Observed registry calls k endpoint) :
    (configured registry calls).val.lookupKey k ≠ none := by
  obtain ⟨before, after, rfl, hpresent, hkept⟩ := h
  rw [configured_append]
  show (PublishedRegistry.configured (PublishedRegistry.configured registry before)
    after).val.lookupKey k ≠ none
  generalize PublishedRegistry.configured registry before = r at hpresent
  induction after generalizing r with
  | nil => exact hpresent
  | cons call after ih =>
    have hcall := hkept call (List.mem_cons_self ..)
    have hrest := fun c hc => hkept c (List.mem_cons_of_mem _ hc)
    cases call with
    | replace r' keys => exact ih hrest r' hcall
    | observeEndpoint publicKey e => exact ih hrest r hpresent

/-- The last call decides what is observed for a key, or leaves it. -/
theorem observed_concat (registry : Built) (calls : List Call) (call : Call) (k : Key)
    (endpoint : SocketAddr) : Observed registry (calls ++ [call]) k endpoint ↔ match call with
      | .replace r _ => r.val.lookupKey k ≠ none ∧ Observed registry calls k endpoint
      | .observeEndpoint publicKey e =>
        if publicKey = k then (configured registry calls).val.lookupKey k ≠ none ∧ e = endpoint
        else Observed registry calls k endpoint := by
  constructor
  · rintro ⟨before, after, heq, hpresent, hkept⟩
    rcases List.eq_nil_or_concat after with rfl | ⟨after, last, rfl⟩
    · obtain ⟨rfl, hcall⟩ := List.append_inj' heq rfl
      obtain rfl := List.singleton_inj.mp hcall
      simp only [if_true]
      exact ⟨hpresent, trivial⟩
    · have hsplit : calls ++ [call] = (before ++ .observeEndpoint k endpoint :: after) ++
          [last] := by
        rw [heq, List.concat_eq_append, List.append_assoc, List.cons_append]
      obtain ⟨rfl, hcall⟩ := List.append_inj' hsplit rfl
      obtain rfl := List.singleton_inj.mp hcall
      have hlast := hkept call (by simp)
      have hobserved : Observed registry (before ++ .observeEndpoint k endpoint :: after) k
          endpoint :=
        ⟨before, after, rfl, hpresent, fun c hc => hkept c (by simp [hc])⟩
      cases call with
      | replace r keys => exact ⟨hlast, hobserved⟩
      | observeEndpoint publicKey e =>
        simp only at hlast ⊢
        rwa [if_neg hlast]
  · have hextend : Observed registry calls k endpoint → (match call with
        | .replace r _ => r.val.lookupKey k ≠ none
        | .observeEndpoint publicKey _ => publicKey ≠ k) →
        Observed registry (calls ++ [call]) k endpoint := by
      rintro ⟨before, after, rfl, hpresent, hkept⟩ hlast
      refine ⟨before, after ++ [call], by simp, hpresent, fun c hc => ?_⟩
      rcases List.mem_append.mp hc with hc | hc
      · exact hkept c hc
      · obtain rfl := List.mem_singleton.mp hc
        exact hlast
    cases call with
    | replace r keys => exact fun h => hextend h.2 h.1
    | observeEndpoint publicKey e =>
      intro h
      simp only at h
      by_cases hk : publicKey = k
      · rw [if_pos hk] at h
        obtain ⟨hpresent, rfl⟩ := h
        subst hk
        exact ⟨calls, [], rfl, hpresent, nofun⟩
      · rw [if_neg hk] at h
        exact hextend h hk

/-- What is learned is what was observed last since the key appeared.  By induction on the calls. -/
theorem observed_iff (registry : Built) (calls : List Call) (k : Key) (endpoint : SocketAddr) :
    (shared.after (new registry) calls).observedEndpoints.lookup k = some endpoint ↔
      Observed registry calls k endpoint := by
  induction calls using List.reverseRecOn generalizing endpoint with
  | nil =>
    refine iff_of_false nofun ?_
    rintro ⟨before, after, heq, -⟩
    simp at heq
  | append_singleton calls call ih =>
    have hregistry : (shared.after (new registry) calls).lookupKey k =
        (configured registry calls).val.lookupKey k := by
      rw [lookupKey, registry_after]
      rfl
    rw [Transducer.after_append, Transducer.after_cons, Transducer.after_nil, lookup_step,
      observed_concat]
    cases call with
    | replace r keys =>
      simp only
      rw [← ih]
      split
      · rename_i hnone
        exact iff_of_false nofun fun h => h.1 hnone
      · rename_i hsome
        exact ⟨fun h => ⟨hsome, h⟩, fun h => h.2⟩
    | observeEndpoint publicKey e =>
      simp only [hregistry]
      by_cases hk : publicKey = k
      · rw [if_pos hk]
        by_cases hnone : (configured registry calls).val.lookupKey k = none
        · rw [if_neg (fun h => h.2 hnone), ih]
          exact iff_of_false (fun h => h.configured hnone) fun h => h.1 hnone
        · rw [if_pos ⟨hk, hnone⟩, Option.some.injEq]
          exact ⟨fun h => ⟨hnone, h⟩, fun h => h.2⟩
      · rw [if_neg hk, if_neg (fun h => hk h.1), ih]

/-- After any calls from the start, the keys with a learned endpoint are configured, the endpoint in
force is the one observed last since the key appeared or else the newest configured one, and the
next call announces each key that is served otherwise after it exactly once, as removed if it
disappeared, and no other key. -/
theorem changes_exact (registry : Built) (calls : List Call) :
    (∀ k ∈ (shared.after (new registry) calls).observedEndpoints,
      (shared.after (new registry) calls).lookupKey k ≠ none) ∧
    (∀ k record, (shared.after (new registry) calls).lookupKey k = some record →
      (configured registry calls).val.lookupKey k = some record ∧
      (∀ endpoint, Observed registry calls k endpoint →
        (shared.after (new registry) calls).effectiveEndpoint record = some endpoint) ∧
      ((∀ endpoint, ¬ Observed registry calls k endpoint) →
        (shared.after (new registry) calls).effectiveEndpoint record = record.endpoint)) ∧
    ∀ call, call.Lawful (shared.after (new registry) calls) → ∀ k,
      (shared.step (shared.after (new registry) calls) call).2.filter (fun c => c.publicKey = k) =
        (shared.after (new registry) calls).announced
          (shared.step (shared.after (new registry) calls) call).1 k := by
  have hlookup : ∀ k, (shared.after (new registry) calls).lookupKey k =
      (configured registry calls).val.lookupKey k := by
    intro k
    rw [lookupKey, registry_after]
    rfl
  refine ⟨fun k hk => ?_, fun k record hrec =>
    ⟨hlookup k ▸ hrec, fun endpoint h => ?_, fun h => ?_⟩, fun call hlawful k =>
    changes_step hlawful k⟩
  · obtain ⟨endpoint, h⟩ := Option.isSome_iff_exists.mp (AList.lookup_isSome.mpr hk)
    rw [hlookup]
    exact ((observed_iff registry calls k endpoint).mp h).configured
  · rw [effectiveEndpoint, lookupKey_publicKey hrec, (observed_iff registry calls k endpoint).mpr h]
    rfl
  · have hnone : (shared.after (new registry) calls).observedEndpoints.lookup k = none :=
      Option.eq_none_iff_forall_ne_some.mpr fun endpoint hsome =>
        h endpoint ((observed_iff ..).mp hsome)
    rw [effectiveEndpoint, lookupKey_publicKey hrec, hnone]
    rfl

namespace Sample

def peerKey : Key := Vector.replicate 32 1

def endpoint (port : BitVec 16) : SocketAddr := .v4 0x01020304#32 port

def record (port : BitVec 16) : PeerRecord :=
  .new peerKey (some (endpoint port)) none (.host (.v4 0x0a000001#32)) none

/-- The registry of one peer whose configured endpoint has a port. -/
def soleRegistry (port : BitVec 16) : Built where
  val := match Registry.build [record port] with
    | .ok (.ok registry) => registry
    | _ => .empty
  built := ⟨[record port], rfl⟩

end Sample

open Microtun.Tracker.PublishedRegistry.Sample

/-- A learned endpoint hides that the configured one changes. -/
theorem changes_exact_hidden :
    (shared.step (shared.after (new (soleRegistry 1)) [.observeEndpoint peerKey (endpoint 2)])
      (.replace (soleRegistry 3) [peerKey])).2.filter (fun c => c.publicKey = peerKey) = [] := by
  have hkeys : Call.Lawful
    (shared.after (new (soleRegistry 1)) [.observeEndpoint peerKey (endpoint 2)])
      (.replace (soleRegistry 3) [peerKey]) := .refl [peerKey]
  rw [(changes_exact (soleRegistry 1) _).2.2 _ hkeys peerKey]
  rfl

end PublishedRegistry

end Microtun.Tracker
