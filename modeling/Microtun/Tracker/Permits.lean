import Microtun.Lib.System
import Microtun.Tracker.Rpc

/-! The connections a peer holds and the entry that counts them, over the calls of `open_connection`
and `allow_request`, the drops of permits and the reloads in any order.  Each call reads the
configuration under one lock and the usage under another, with other calls in between. -/

namespace Microtun.Tracker

/-- The calls under way and the permits that are alive. -/
structure Accounting where
  app : AppState
  /-- Calls of `open_connection` that found the key configured and wait for the usage. -/
  opening : List (Key × Built)
  /-- Calls of `allow_request` likewise. -/
  requesting : List (Key × Built)
  permits : List Key
  /-- Permits being dropped, and whether their key was found configured. -/
  closing : List (Key × Bool)
  /-- The keys that were given a permit while not configured and have had one alive ever since. -/
  untracked : List Key

namespace Accounting

def Configured (s : Accounting) (k : Key) : Prop := s.app.published.lookupKey k ≠ none

/-- The permits of a key that are alive. -/
def live (s : Accounting) (k : Key) : Nat :=
  s.permits.count k + s.closing.countP fun c => c.1 = k

/-- The entry of the key records the permits alive; without an entry there is none. -/
def Exact (s : Accounting) (k : Key) : Prop :=
  match s.app.usage.lookup k with
  | some peer => peer.connections = s.live k
  | none => s.live k = 0

inductive Event where
  /-- `open_connection` reads the configuration; a key that is not there gets its permit. -/
  | openConnection (key : Key)
  | reserve (i now : Nat)
  /-- The drop of a permit reads the configuration. -/
  | drop (i : Nat)
  | release (i : Nat)
  | allowRequest (key : Key)
  | charge (i now : Nat)
  | reload (registry : Built)

def step (s : Accounting) : Event → Option Accounting
  | .openConnection key =>
    let config := s.app.published.registry
    if config.val.lookupKey key = none then
      some { s with permits := key :: s.permits, untracked := key :: s.untracked }
    else some { s with opening := (key, config) :: s.opening }
  | .reserve i now =>
    match s.opening[i]? with
    | none => none
    | some (key, config) =>
      match s.app.reserve config key now with
      | (true, app) => some { s with
          app, opening := s.opening.eraseIdx i, permits := key :: s.permits }
      | (false, app) => some { s with app, opening := s.opening.eraseIdx i }
  | .drop i =>
    match s.permits[i]? with
    | none => none
    | some key => some { s with
        permits := s.permits.eraseIdx i
        closing := (key, (s.app.published.registry.val.lookupKey key).isSome) :: s.closing }
  | .release i =>
    match s.closing[i]? with
    | none => none
    | some (key, configured) =>
      let s := { s with app := s.app.release configured key, closing := s.closing.eraseIdx i }
      some { s with untracked := s.untracked.filter fun k => s.live k ≠ 0 }
  | .allowRequest key =>
    let config := s.app.published.registry
    if config.val.lookupKey key = none then some s
    else some { s with requesting := (key, config) :: s.requesting }
  | .charge i now =>
    match s.requesting[i]? with
    | none => none
    | some (key, config) => some { s with
        app := (s.app.allowRequest config key now).2
        requesting := s.requesting.eraseIdx i }
  | .reload registry => some { s with
      app := { s.app with published := s.app.published.reloaded registry } }

/-- The accounts from the start of the Tracker on. -/
def accounts : System Accounting Event where
  init s := s.app.usage = ∅ ∧ s.opening = [] ∧ s.requesting = [] ∧ s.permits = [] ∧ s.closing = [] ∧
    s.untracked = []
  step := step

/-- A reload configures no key that was given a permit while not configured and still has one. -/
def Orderly (s : Accounting) : Event → Prop
  | .reload registry => ∀ k ∈ s.untracked, registry.val.lookupKey k = none
  | _ => True

end Accounting

/-! ### The entries -/

namespace AppState

variable {s : AppState} {config : Built} {key : Key} {now : Nat}

/-- The connections that are recorded for a key. -/
def recorded (s : AppState) (k : Key) : Nat := ((s.usage.lookup k).map (·.connections)).getD 0

theorem lookup_retained (k : Key) : (s.retainUsage config).lookup k =
    if s.recorded k ≠ 0 ∨ config.val.lookupKey k ≠ none then s.usage.lookup k else none := by
  unfold retainUsage recorded
  rw [HashMap.lookup_retain]
  cases s.usage.lookup k with
  | none => simp
  | some peer => simp [Option.isSome_iff_ne_none]

theorem recorded_retained (s : AppState) (config : Built) (k : Key) :
    (((s.retainUsage config).lookup k).map (·.connections)).getD 0 = s.recorded k := by
  rw [lookup_retained]
  by_cases hzero : s.recorded k = 0
  · split
    · rfl
    · exact hzero.symm
  · rw [if_pos (.inl hzero)]
    rfl

theorem connections_getD (s : AppState) (config : Built) (now : Nat) (k : Key) :
    (((s.retainUsage config).lookup k).getD (.new now)).connections = s.recorded k := by
  rw [← recorded_retained s config k]
  cases (s.retainUsage config).lookup k <;> rfl

theorem recorded_insert {usage : HashMap Key PeerUsage} {peer : PeerUsage} {app : AppState}
    (h : app.usage = usage.insert key peer) (k : Key) : app.recorded k =
      if k = key then peer.connections else ((usage.lookup k).map (·.connections)).getD 0 := by
  unfold recorded
  rw [h, HashMap.lookup_insert_eq_ite]
  split <;> rfl

/-- One connection more is recorded for the key if it is given, and none above the limit. -/
theorem reserve_spec (s : AppState) (config : Built) (key : Key) (now : Nat) :
    (s.reserve config key now).2.published = s.published ∧
    ((s.reserve config key now).1 = true → s.recorded key < maxConnectionsPerPeer) ∧
    ∀ k, (s.reserve config key now).2.recorded k =
      s.recorded k + if k = key then (s.reserve config key now).1.toNat else 0 := by
  have hpeer := connections_getD s config now key
  unfold reserve
  simp only
  generalize ((s.retainUsage config).lookup key).getD (.new now) = peer at hpeer
  by_cases hfull : maxConnectionsPerPeer ≤ peer.connections
  · rw [if_pos hfull]
    refine ⟨rfl, nofun, fun k => ?_⟩
    rw [recorded_insert rfl, recorded_retained]
    by_cases hk : k = key
    · rw [if_pos hk, if_pos hk, hk, hpeer]
      rfl
    · rw [if_neg hk, if_neg hk]
      rfl
  · rw [if_neg hfull]
    refine ⟨rfl, fun _ => hpeer ▸ Nat.lt_of_not_le hfull, fun k => ?_⟩
    rw [recorded_insert rfl, recorded_retained]
    by_cases hk : k = key
    · rw [if_pos hk, if_pos hk, hk, ← hpeer]
      rfl
    · rw [if_neg hk, if_neg hk]
      rfl

/-- One connection less is recorded, if there is one. -/
theorem release_spec (s : AppState) (configured : Bool) (key : Key) :
    (s.release configured key).published = s.published ∧
    ∀ k, (s.release configured key).recorded k = s.recorded k - if k = key then 1 else 0 := by
  unfold release
  cases hentry : s.usage.lookup key with
  | none =>
    refine ⟨rfl, fun k => ?_⟩
    by_cases hk : k = key
    · rw [hk, if_pos rfl, recorded, hentry]
      rfl
    · rw [if_neg hk]
      rfl
  | some peer =>
    have hpeer : s.recorded key = peer.connections := by rw [recorded, hentry]; rfl
    simp only
    split
    · refine ⟨rfl, fun k => ?_⟩
      rename_i hlast
      by_cases hk : k = key
      · rw [if_pos hk, hk, hpeer, hlast.1, recorded, AList.lookup_erase]
        rfl
      · rw [if_neg hk, recorded, AList.lookup_erase_ne hk]
        rfl
    · refine ⟨rfl, fun k => ?_⟩
      rw [recorded_insert rfl]
      by_cases hk : k = key
      · rw [if_pos hk, if_pos hk, hk, hpeer]
      · rw [if_neg hk, if_neg hk]
        rfl

/-- A request changes no record of connections, and leaves no entry of a key without both. -/
theorem allowRequest_recorded (now : Nat) (hkey : config.val.lookupKey key ≠ none) :
    (∀ k, (s.allowRequest config key now).2.recorded k = s.recorded k) ∧
      ∀ k, config.val.lookupKey k = none → s.recorded k = 0 →
        (s.allowRequest config key now).2.usage.lookup k = none := by
  have hpeer := connections_getD s config now key
  unfold allowRequest
  simp only [if_neg hkey]
  generalize ((s.retainUsage config).lookup key).getD (.new now) = peer at hpeer
  have hsame : (peer.allowRequest now).2.connections = s.recorded key := by
    rw [← hpeer]
    simp only [PeerUsage.allowRequest]
    split <;> rfl
  generalize peer.allowRequest now = r at hsame
  have hrecorded : ∀ (app : AppState), app.usage = (s.retainUsage config).insert key r.2 →
      ∀ k, app.recorded k = s.recorded k := by
    intro app happ k
    rw [recorded_insert happ, recorded_retained]
    by_cases hk : k = key
    · rw [if_pos hk, hk, hsame]
    · rw [if_neg hk]
  have hgone : ∀ k, config.val.lookupKey k = none → s.recorded k = 0 →
      ((s.retainUsage config).insert key r.2).lookup k = none := by
    intro k hnone hzero
    have hk : k ≠ key := fun h => hkey (h ▸ hnone)
    rw [HashMap.lookup_insert_eq_ite, if_neg hk, lookup_retained, if_neg]
    exact not_or.mpr ⟨not_not.mpr hzero, not_not.mpr hnone⟩
  obtain ⟨_ | _, peer'⟩ := r
  · exact ⟨hrecorded _ rfl, hgone⟩
  · exact ⟨hrecorded _ rfl, hgone⟩

end AppState

/-! ### Runs -/

namespace Accounting

open AppState

variable {s s' : Accounting} {k : Key}

theorem exact_iff : s.Exact k ↔ s.app.recorded k = s.live k := by
  unfold Exact recorded
  cases s.app.usage.lookup k with
  | none => exact eq_comm
  | some peer => exact Iff.rfl

theorem live_issued (s : Accounting) (key k : Key) :
    live { s with permits := key :: s.permits } k = s.live k + if k = key then 1 else 0 := by
  unfold live
  simp only [List.count_cons, beq_iff_eq, eq_comm (a := k)]
  omega

/-- A permit is alive as long as its drop has not reached the usage. -/
theorem live_dropping {i : Nat} {key : Key} (h : s.permits[i]? = some key) (configured : Bool)
    (k : Key) :
    live { s with
      permits := s.permits.eraseIdx i, closing := (key, configured) :: s.closing } k =
        s.live k := by
  obtain ⟨hi, rfl⟩ := List.getElem?_eq_some_iff.mp h
  have hperm := (List.getElem_cons_eraseIdx_perm hi).count_eq k
  unfold live
  simp only [List.count_cons, List.countP_cons, beq_iff_eq, decide_eq_true_eq] at hperm ⊢
  omega

theorem live_released {i : Nat} {c : Key × Bool} (h : s.closing[i]? = some c) (app : AppState)
    (k : Key) :
    live { s with app, closing := s.closing.eraseIdx i } k + (if k = c.1 then 1 else 0) =
      s.live k := by
  obtain ⟨hi, rfl⟩ := List.getElem?_eq_some_iff.mp h
  have hperm := (List.getElem_cons_eraseIdx_perm hi).countP_eq fun c => c.1 = k
  unfold live
  simp only [List.countP_cons, decide_eq_true_eq, eq_comm (b := k)] at hperm ⊢
  omega

/-- The permits that are recorded are alive, and there are others exactly of the untracked keys. -/
structure Counted (s : Accounting) : Prop where
  limit : ∀ k, s.app.recorded k ≤ maxConnectionsPerPeer
  recorded_le : ∀ k, s.app.recorded k ≤ s.live k
  untracked : ∀ k, k ∈ s.untracked ↔ s.app.recorded k < s.live k
  requesting : ∀ c ∈ s.requesting, c.2.val.lookupKey c.1 ≠ none

theorem Counted.congr (h : s.Counted) (hrecorded : ∀ k, s'.app.recorded k = s.app.recorded k)
    (hlive : ∀ k, s'.live k = s.live k) (huntracked : s'.untracked = s.untracked)
    (hrequesting : ∀ c ∈ s'.requesting, c.2.val.lookupKey c.1 ≠ none) : s'.Counted where
  limit k := by
    rw [hrecorded]
    exact h.limit k
  recorded_le k := by
    rw [hrecorded, hlive]
    exact h.recorded_le k
  untracked k := by
    rw [hrecorded, hlive, huntracked]
    exact h.untracked k
  requesting := hrequesting

theorem Counted.open (h : s.Counted) (key : Key) :
    Counted { s with permits := key :: s.permits, untracked := key :: s.untracked } where
  limit := h.limit
  recorded_le k := by
    show _ ≤ live { s with permits := key :: s.permits } k
    rw [live_issued]
    exact Nat.le_add_right_of_le (h.recorded_le k)
  untracked k := by
    have hle := h.recorded_le k
    show k ∈ key :: s.untracked ↔ _ < live { s with permits := key :: s.permits } k
    rw [live_issued, List.mem_cons, h.untracked]
    by_cases hk : k = key
    · simp only [hk, if_true, true_or, true_iff] at hle ⊢
      omega
    · simp only [hk, if_false, false_or, Nat.add_zero]
  requesting := h.requesting

theorem Counted.reserve (h : s.Counted) (i : Nat) (key : Key) (config : Built) (now : Nat)
    (hgiven : (s.app.reserve config key now).1 = true) :
    Counted { s with
      app := (s.app.reserve config key now).2
      opening := s.opening.eraseIdx i
      permits := key :: s.permits } := by
  obtain ⟨-, hlimit, hrecorded⟩ := reserve_spec s.app config key now
  rw [hgiven] at hlimit hrecorded
  have hlive := live_issued s key
  constructor
  · intro k
    have hk := h.limit k
    have hroom := hlimit rfl
    rw [hrecorded]
    split
    · rename_i heq
      rw [heq]
      exact hroom
    · exact hk
  · intro k
    have hk := h.recorded_le k
    show _ ≤ live { s with permits := key :: s.permits } k
    rw [hrecorded, hlive]
    exact Nat.add_le_add_right hk _
  · intro k
    show _ ↔ _ < live { s with permits := key :: s.permits } k
    rw [hrecorded, hlive, Bool.toNat_true, Nat.add_lt_add_iff_right]
    exact h.untracked k
  · exact h.requesting

theorem Counted.release (h : s.Counted) {i : Nat} {c : Key × Bool} (hc : s.closing[i]? = some c) :
    let t := { s with app := s.app.release c.2 c.1, closing := s.closing.eraseIdx i }
    Counted { t with untracked := s.untracked.filter fun k => t.live k ≠ 0 } := by
  intro t
  obtain ⟨-, hrecorded⟩ := AppState.release_spec s.app c.2 c.1
  have hlive : ∀ k, t.live k + (if k = c.1 then 1 else 0) = s.live k := live_released hc _
  constructor
  · intro k
    show t.app.recorded k ≤ _
    rw [hrecorded]
    exact (Nat.sub_le _ _).trans (h.limit k)
  · intro k
    show t.app.recorded k ≤ t.live k
    have hk := h.recorded_le k
    rw [hrecorded]
    have := hlive k
    omega
  · intro k
    show k ∈ s.untracked.filter (fun k => t.live k ≠ 0) ↔ t.app.recorded k < t.live k
    have hk := h.recorded_le k
    have hlive := hlive k
    rw [List.mem_filter, h.untracked, hrecorded, decide_eq_true_eq]
    omega
  · exact h.requesting

/-- Every call, drop and reload keeps the accounts. -/
theorem Counted.step (h : s.Counted) {e : Event} (hstep : s.step e = some s') : s'.Counted := by
  cases e with
  | openConnection key =>
    simp only [Accounting.step] at hstep
    split at hstep
    · obtain rfl := Option.some.inj hstep
      exact h.open key
    · obtain rfl := Option.some.inj hstep
      exact h.congr (fun _ => rfl) (fun _ => rfl) rfl h.requesting
  | reserve i now =>
    simp only [Accounting.step] at hstep
    split at hstep
    · exact nomatch hstep
    rename_i key config hopening
    have hspec := reserve_spec s.app config key now
    split at hstep
    · rename_i app hrun
      obtain rfl := Option.some.inj hstep
      have := h.reserve i key config now (by rw [hrun])
      rwa [hrun] at this
    · rename_i app hrun
      obtain rfl := Option.some.inj hstep
      rw [hrun] at hspec
      exact h.congr (fun k => by rw [hspec.2.2]; simp) (fun _ => rfl) rfl h.requesting
  | drop i =>
    simp only [Accounting.step] at hstep
    split at hstep
    · exact nomatch hstep
    rename_i key hpermit
    obtain rfl := Option.some.inj hstep
    exact h.congr (fun _ => rfl) (live_dropping hpermit _) rfl h.requesting
  | release i =>
    simp only [Accounting.step] at hstep
    split at hstep
    · exact nomatch hstep
    rename_i key configured hclosing
    obtain rfl := Option.some.inj hstep
    exact h.release hclosing
  | allowRequest key =>
    simp only [Accounting.step] at hstep
    split at hstep
    · obtain rfl := Option.some.inj hstep
      exact h
    · rename_i hkey
      obtain rfl := Option.some.inj hstep
      refine h.congr (fun _ => rfl) (fun _ => rfl) rfl fun c hc => ?_
      rcases List.mem_cons.mp hc with rfl | hc
      · exact hkey
      · exact h.requesting c hc
  | charge i now =>
    simp only [Accounting.step] at hstep
    split at hstep
    · exact nomatch hstep
    rename_i key config hrequest
    obtain rfl := Option.some.inj hstep
    have hkey := h.requesting _ (List.mem_of_getElem? hrequest)
    exact h.congr (allowRequest_recorded now hkey).1 (fun _ => rfl) rfl fun c hc =>
      h.requesting c (List.mem_of_mem_eraseIdx hc)
  | reload registry =>
    obtain rfl := Option.some.inj hstep
    exact h.congr (fun _ => rfl) (fun _ => rfl) rfl h.requesting

theorem counted_init (h : accounts.init s) : s.Counted := by
  obtain ⟨husage, -, hrequesting, hpermits, hclosing, huntracked⟩ := h
  have hrecorded : ∀ k, s.app.recorded k = 0 := fun k => by rw [recorded, husage]; rfl
  have hlive : ∀ k, s.live k = 0 := fun k => by rw [live, hpermits, hclosing]; rfl
  constructor
  · intro k
    rw [hrecorded]
    exact Nat.zero_le _
  · intro k
    rw [hrecorded]
    exact Nat.zero_le _
  · intro k
    rw [huntracked, hrecorded, hlive]
    exact iff_of_false List.not_mem_nil (Nat.lt_irrefl 0)
  · rw [hrequesting]
    exact fun _ h => nomatch h

theorem untracked_step {e : Event} (h : ∀ k ∈ s.untracked, ¬ s.Configured k)
    (horderly : s.Orderly e) (hstep : s.step e = some s') : ∀ k ∈ s'.untracked,
    ¬ s'.Configured k := by
  have hkeep : ∀ t : Accounting, t.app.published = s.app.published →
      (∀ k ∈ t.untracked, k ∈ s.untracked) → ∀ k ∈ t.untracked, ¬ t.Configured k := by
    intro t hpublished huntracked k hk
    unfold Configured
    rw [hpublished]
    exact h k (huntracked k hk)
  cases e with
  | openConnection key =>
    simp only [Accounting.step] at hstep
    split at hstep
    · rename_i hkey
      obtain rfl := Option.some.inj hstep
      intro k hk
      rcases List.mem_cons.mp hk with rfl | hk
      · exact not_not.mpr hkey
      · exact h k hk
    · obtain rfl := Option.some.inj hstep
      exact h
  | reserve i now =>
    simp only [Accounting.step] at hstep
    split at hstep
    · exact nomatch hstep
    rename_i key config hopening
    have hpublished := (reserve_spec s.app config key now).1
    split at hstep
    all_goals
      rename_i app hrun
      obtain rfl := Option.some.inj hstep
      rw [hrun] at hpublished
      exact hkeep _ hpublished fun _ hk => hk
  | drop i =>
    simp only [Accounting.step] at hstep
    split at hstep
    · exact nomatch hstep
    obtain rfl := Option.some.inj hstep
    exact h
  | release i =>
    simp only [Accounting.step] at hstep
    split at hstep
    · exact nomatch hstep
    obtain rfl := Option.some.inj hstep
    exact hkeep _ (AppState.release_spec ..).1 fun _ hk => (List.mem_filter.mp hk).1
  | allowRequest key =>
    simp only [Accounting.step] at hstep
    split at hstep
    all_goals
      obtain rfl := Option.some.inj hstep
      exact h
  | charge i now =>
    simp only [Accounting.step] at hstep
    split at hstep
    · exact nomatch hstep
    rename_i key config hrequest
    obtain rfl := Option.some.inj hstep
    exact hkeep _ (published_allowRequest config key now) fun _ hk => hk
  | reload registry =>
    obtain rfl := Option.some.inj hstep
    exact fun k hk => not_not.mpr (horderly k hk)

/-- The entry of a configured key is exact in a state reached as long as the key is not untracked.
So in every run whose reloads configure no key with a permit from a time when it was not configured,
the entries of all configured keys are exact, none has more connections than the limit, and a
request of a configured caller leaves no entry of a key that was not configured and has no
connection. -/
theorem connections_counted (s : Accounting) :
    (accounts.Reachable s → ∀ k, s.Configured k → (s.Exact k ↔ k ∉ s.untracked)) ∧
    (accounts.ReachableUnder Orderly s →
      (∀ k, s.Configured k → s.Exact k ∧ s.live k ≤ maxConnectionsPerPeer) ∧
      ∀ i now caller config s', s.requesting[i]? = some (caller, config) →
        s.step (.charge i now) = some s' →
        ∀ k peer, config.val.lookupKey k = none → s'.app.usage.lookup k = some peer →
          s'.live k ≠ 0) := by
  have hcounted : ∀ s, accounts.Reachable s → s.Counted := fun s h =>
    h.invariant (fun _ => counted_init) fun _ _ _ h hstep => h.step hstep
  have hexact : ∀ s, accounts.Reachable s → ∀ k, s.Exact k ↔ k ∉ s.untracked := by
    intro s h k
    have hle := (hcounted s h).recorded_le k
    rw [exact_iff, (hcounted s h).untracked]
    omega
  refine ⟨fun h k _ => hexact s h k, fun h => ⟨fun k hk => ?_, ?_⟩⟩
  · have huntracked : ∀ k ∈ s.untracked, ¬ s.Configured k :=
      h.invariant hcounted (fun s hs k hk => by rw [hs.2.2.2.2.2] at hk; exact nomatch hk)
        fun _ _ _ _ h horderly hstep => untracked_step h horderly hstep
    have hk := (hexact s h.reachable k).mpr fun hmem => huntracked k hmem hk
    exact ⟨hk, exact_iff.mp hk ▸ (hcounted s h.reachable).limit k⟩
  · intro i now caller config s' hrequest hstep k peer hnone hentry hdead
    have h := hcounted s h.reachable
    have hcaller := h.requesting _ (List.mem_of_getElem? hrequest)
    simp only [Accounting.step, hrequest] at hstep
    obtain rfl := Option.some.inj hstep
    have hzero : s.app.recorded k = 0 :=
      Nat.le_zero.mp ((h.recorded_le k).trans (Nat.le_of_eq hdead))
    have hgone := (allowRequest_recorded now hcaller).2 k hnone hzero
    exact nomatch hgone.symm.trans hentry

namespace Sample

def callerKey : Key := Vector.replicate 32 1

def otherKey : Key := Vector.replicate 32 2

def record (key : Key) : PeerRecord := .new key none none (.host (.v4 0x0a000001#32)) none

/-- The registry of the caller alone. -/
def callers : Built where
  val := match Registry.build [record callerKey] with
    | .ok (.ok registry) => registry
    | _ => .empty
  built := ⟨[record callerKey], rfl⟩

/-- The registry of the other peer alone. -/
def others : Built where
  val := match Registry.build [record otherKey] with
    | .ok (.ok registry) => registry
    | _ => .empty
  built := ⟨[record otherKey], rfl⟩

def start (registry : Built) : Accounting where
  app := ⟨⟨registry, ∅⟩, .empty, ∅, 0, ∅, 0, 0⟩
  opening := []
  requesting := []
  permits := []
  closing := []
  untracked := []

theorem init_start (registry : Built) : accounts.init (start registry) :=
    ⟨rfl, rfl, rfl, rfl, rfl, rfl⟩

/-- A permit is given before the caller is configured, and four more afterwards. -/
def drift : List Event :=
  [.openConnection callerKey, .reload callers, .openConnection callerKey, .reserve 0 0,
    .openConnection callerKey, .reserve 0 0, .openConnection callerKey, .reserve 0 0,
    .openConnection callerKey, .reserve 0 0]

end Sample

open Microtun.Tracker.Accounting.Sample

/-- The caller is removed between the two halves of its `open_connection`, and configured again. -/
theorem connections_counted_removed :
    ∃ s, accounts.ReachableUnder Orderly s ∧ s.Configured callerKey ∧ s.Exact callerKey ∧
      s.live callerKey = 1 := by
  have hrun : ∃ s, accounts.ReachableUnder Orderly s ∧
      (s.app.published.lookupKey callerKey).isSome = true ∧ s.live callerKey = 1 := by
    have hstart : accounts.ReachableUnder Orderly _ := .start (init_start callers)
    have hopen := hstart.next (e := Event.openConnection callerKey) trivial rfl
    have hremoved := hopen.next (e := Event.reload others) nofun rfl
    have hgiven := hremoved.next (e := Event.reserve 0 0) trivial rfl
    exact ⟨_, hgiven.next (e := Event.reload callers) nofun rfl, rfl, rfl⟩
  obtain ⟨s, hs, hsome, hlive⟩ := hrun
  have hconfigured : s.Configured callerKey := Option.isSome_iff_ne_none.mp hsome
  exact ⟨s, hs, hconfigured, (((connections_counted s).2 hs).1 callerKey hconfigured).1, hlive⟩

/-- A permit that was given uncounted lets its peer have five connections. -/
theorem permit_uncounted : ¬ ∀ s, accounts.Reachable s → ∀ k, s.Configured k →
      s.Exact k ∧ s.live k ≤ maxConnectionsPerPeer := by
  intro h
  have hrun : ∃ s, accounts.replay (start others) drift = some s ∧
      (s.app.published.lookupKey callerKey).isSome = true ∧ s.live callerKey = 5 :=
        ⟨_, rfl, rfl, rfl⟩
  obtain ⟨s, hreplay, hsome, hlive⟩ := hrun
  have hs := (System.Reachable.start (init_start others)).replay drift hreplay
  have hlimit := (h s hs callerKey (Option.isSome_iff_ne_none.mp hsome)).2
  rw [hlive] at hlimit
  exact absurd hlimit (by decide)

end Accounting

end Microtun.Tracker
