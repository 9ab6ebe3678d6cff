import Microtun.Core.Timers

/-! What the desk owes to others in every run: an initiation that waits has its lookup, and a peer
whose update was refused is reconciled later. -/

namespace Microtun

open Hoare Tables

section

variable {cap : Capacities} {R P : Type} {w w' : World cap R P} {config : Config} {start : Nat}

/-! ### Initiations that wait -/

/-- Every initiation that waits has its lookup: one in flight for the key of its sender, queued by
an authenticated initiation. -/
def Core.InitiationsHeld (c : Core cap R P) : Prop :=
  ∀ (i : Nat) (e : PendingInitiation), c.pendingInitiations[i]?.join = some e →
    ∃ r ∈ c.resolves, r.id = e.resolveId ∧ r.kind = .install .authenticatedInitiator ∧
      r.query = .byPublicKey e.consumed.sPubI

/-- Does the call bring an update that removes the lookup of an initiation that waits? -/
def Core.StrandedBy (c : Core cap R P) (call : Call) : Prop :=
  ∃ now update sink, call = .resolverEventCompleted now (.peerUpdated update) sink ∧
    c.Strands update

variable [Crypto]

theorem Called.held {call : Call} (h : Called w call w') (hstrands : ¬w.core.StrandedBy call)
    (hw : Held w.tables) : Held w'.tables := by
  have hflush : ∀ {now : Nat} {w1 : World cap R P}, Flushed now w1 w' → Held w1.tables →
      Held w'.tables := fun hflushed hheld => hflushed.all.held rfl hheld
  cases h with
  | sendInner hflushed h => exact hflush hflushed (h.held rfl hw)
  | receiveOuter hflushed h _ => exact hflush hflushed (h.held rfl hw)
  | fired hflushed h =>
    obtain ⟨answers, lapses, hsteps, -⟩ := h.steps
    exact hflush hflushed (hsteps.held rfl hw)
  | idle hflushed _ => exact hflush hflushed hw
  | resolved hflushed h =>
    obtain ⟨answers, hsteps, -⟩ := h.steps
    exact hflush hflushed (hsteps.held rfl hw)
  | @peerUpdated now update sink w1 _ strands hflushed h hstr _ =>
    have hnot : strands = false :=
      Bool.eq_false_iff.mpr fun hs => hstrands ⟨now, update, sink, rfl, hstr hs⟩
    exact hflush hflushed (h.held hnot hw)
  | setUnixTime h _ _ => exact h ▸ hw

variable [RngCore R] [RelayPolicy P]

theorem Run.held {trace : List (World cap R P × Call)} (h : Run cap config start trace w)
    (hstrands : ∀ before call, (before, call) ∈ trace → ¬before.core.StrandedBy call) :
    Held w.tables := by
  induction h with
  | new h =>
    obtain ⟨-, t, hblank, -, hsteps, -⟩ := new_spec h
    refine hsteps.held rfl fun i e he => ?_
    rw [hblank.initiations] at he
    cases he
  | call call hw h ih =>
    have hbefore := ih fun before call hmem => hstrands before call (List.mem_cons_of_mem _ hmem)
    exact (called_of_run hw.sound h).2.held (hstrands _ call List.mem_cons_self) hbefore

/-- No two initiations wait for one lookup. In every run in which no update says that a held peer is
gone while an initiation waits for the lookup of its key, every initiation that waits has its
lookup. -/
theorem Run.initiations_held {trace : List (World cap R P × Call)}
    (h : Run cap config start trace w) :
    (∀ (i j : Nat) (e e' : PendingInitiation), w.core.pendingInitiations[i]?.join = some e →
      w.core.pendingInitiations[j]?.join = some e' → e.resolveId = e'.resolveId → i = j) ∧
    ((∀ before call, (before, call) ∈ trace → ¬before.core.StrandedBy call) →
      w.core.InitiationsHeld) :=
  ⟨h.sound.inv.desk.slots, fun hstrands => h.held hstrands⟩

/-! ### Reconciliations that are owed -/

/-- The call brings an answer about a key: as an update of a held peer, or as the completion of a
reconciliation.  The last world is the one in which the answer is applied. -/
inductive Brings (w : World cap R P) (key : Key) (now : Nat) (outcome : ResolveOutcome) :
    Call → World cap R P → Prop
  | update (sink : Sink) :
    Brings w key now outcome (.resolverEventCompleted now (.peerUpdated ⟨key, outcome⟩) sink) w
  | completion {r : InflightResolve} (hr : r ∈ w.core.resolves) (hkind : r.kind = .reconcile)
    (hquery : r.query = .byPublicKey key) (sink : Sink) :
    Brings w key now outcome (.resolverEventCompleted now (.resolved ⟨r.id, outcome⟩) sink)
      (w.taking r.id)

/-- The call brings an answer about a key that ends without being installed. -/
def World.RefusedBy (w : World cap R P) (call : Call) (key : Key) : Prop :=
  ∃ now outcome v, Brings w key now outcome call v ∧ Refused v now key outcome

/-- The call brings an answer about a key that is committed, or that says that there is no such
peer. -/
def World.SettledBy (w : World cap R P) (call : Call) (key : Key) : Prop :=
  ∃ now outcome v, Brings w key now outcome call v ∧ ¬Refused v now key outcome

/-- The call gives a reconciliation back to a list that is full without it: an answer about the key
is refused, or its lookup expires. -/
def World.CrowdedBy (w : World cap R P) (call : Call) (key : Key) : Prop :=
  w.core.canOwe key = false ∧ (w.RefusedBy call key ∨ ∃ now sink, call = .handleTimeout now sink ∧
    ∃ r ∈ w.core.resolves, r.kind = .reconcile ∧ r.query = .byPublicKey key ∧ r.deadline ≤ now)

/-- A reconciliation of the key is listed, or its lookup is in flight. -/
def Core.OwesTo (c : Core cap R P) (key : Key) : Prop :=
  (∃ o ∈ c.pendingReconciles, o.publicKey = key) ∨
    ∃ r ∈ c.resolves, r.live = true ∧ r.query = .byPublicKey key

omit [Crypto] [RngCore R] [RelayPolicy P] in
theorem Tables.OwedTo.owesTo {key : Key} (h : OwedTo w.tables key) : w.core.OwesTo key := by
  rcases h with h | ⟨r, hr, hkind, hquery⟩
  · exact Or.inl h
  · exact Or.inr ⟨r, hr, by simp [InflightResolve.live, hkind], hquery⟩

omit [RngCore R] [RelayPolicy P] in
/-- An obligation stays while the peer is held, and one comes from a refused answer. -/
theorem Called.owedTo {call : Call} {key : Key} (h : Called w call w')
    (hholds : w.core.holds key = true) (hroom : ¬w.CrowdedBy call key)
    (howed : OwedTo w.tables key ∧ ¬w.SettledBy call key ∨ w.RefusedBy call key) :
    OwedTo w'.tables key := by
  have hflush : ∀ {now : Nat} {w1 : World cap R P}, Flushed now w1 w' → OwedTo w1.tables key →
      OwedTo w'.tables key := fun hflushed hk => hflushed.all.owedTo (by rintro ⟨⟩) hk
  -- A refused answer finds room, and leaves an obligation.
  have hcan : w.RefusedBy call key → w.core.canOwe key = true := by
    intro hrefused
    by_contra hno
    exact hroom ⟨Bool.eq_false_iff.mpr hno, Or.inl hrefused⟩
  have hstays : (∀ now event sink, call ≠ .resolverEventCompleted now event sink) →
      OwedTo w.tables key := by
    intro hcall
    rcases howed with ⟨h, -⟩ | ⟨now, outcome, v, hbrings, -⟩
    · exact h
    · cases hbrings with
      | update sink => exact absurd rfl (hcall _ _ _)
      | completion _ _ _ sink => exact absurd rfl (hcall _ _ _)
  cases h with
  | sendInner hflushed h =>
    exact hflush hflushed (h.owedTo (by rintro ⟨⟩) (hstays (by rintro _ _ _ ⟨⟩)))
  | receiveOuter hflushed h _ =>
    exact hflush hflushed (h.owedTo (by rintro ⟨⟩) (hstays (by rintro _ _ _ ⟨⟩)))
  | @fired now sink w1 _ hflushed h =>
    obtain ⟨answers, lapses, hsteps, hwhy⟩ := h.steps
    refine hflush hflushed (hsteps.owedTo (fun hkey => ?_) (hstays (by rintro _ _ _ ⟨⟩)))
    rcases hwhy key hkey with hnone | ⟨hfull, r, hr, hexpired⟩
    · simp [Core.holds, hnone] at hholds
    · exact hroom ⟨hfull, Or.inr ⟨now, sink, rfl, r, hr, hexpired⟩⟩
  | idle hflushed _ => exact hflush hflushed (hstays (by rintro _ _ _ ⟨⟩))
  | @resolved now response sink w1 _ hflushed h =>
    refine hflush hflushed ?_
    by_cases hours : ∃ r ∈ w.core.resolves, r.id = response.id ∧ r.kind = .reconcile ∧
        r.query = .byPublicKey key
    · obtain ⟨r, hr, hid, hkind, hquery⟩ := hours
      have hbrings := @Brings.completion _ _ _ w key now response.outcome r hr hkind hquery sink
      rw [hid] at hbrings
      have hrefused : Refused (w.taking response.id) now key response.outcome := by
        rcases howed with ⟨-, hsettled⟩ | ⟨now', outcome, v, hbrings', hrefused⟩
        · by_contra hno
          exact hsettled ⟨now, _, _, hbrings, hno⟩
        · cases hbrings'
          exact hrefused
      exact h.owed r hr hid hkind key hquery hholds hrefused (hcan ⟨now, _, _, hbrings, hrefused⟩)
    · obtain ⟨answers, hsteps, hwhy⟩ := h.steps
      refine hsteps.owedTo (fun hkey => hours (hwhy key hkey)) ?_
      rcases howed with ⟨h, -⟩ | ⟨now', outcome, v, hbrings, -⟩
      · exact h
      · cases hbrings with
        | completion hr hkind hquery sink => exact absurd ⟨_, hr, rfl, hkind, hquery⟩ hours
  | @peerUpdated now update sink w1 _ strands hflushed h _ hdone =>
    obtain ⟨updated, outcome⟩ := update
    refine hflush hflushed ?_
    by_cases hkey : updated = key
    · subst hkey
      have hbrings := @Brings.update _ _ _ w updated now outcome sink
      have hrefused : Refused w now updated outcome := by
        rcases howed with ⟨-, hsettled⟩ | ⟨now', outcome', v, hbrings', hrefused⟩
        · by_contra hno
          exact hsettled ⟨now, _, _, hbrings, hno⟩
        · cases hbrings'
          exact hrefused
      exact hdone hholds hrefused (hcan ⟨now, _, _, hbrings, hrefused⟩)
    · refine h.owedTo (fun h => hkey (Option.some.inj h)) ?_
      rcases howed with ⟨h, -⟩ | ⟨now', outcome', v, hbrings, -⟩
      · exact h
      · cases hbrings
        exact absurd rfl hkey
  | setUnixTime h _ _ => exact h ▸ hstays (by rintro _ _ _ ⟨⟩)

/-- In every run, once an answer for a held peer ends without being installed, a reconciliation of
the peer is listed or its lookup is in flight, until an answer for the peer is committed, the
resolver says that there is no such peer, or the peer goes, if the list has room whenever the
obligation comes back to it. -/
theorem Run.reconciliations_owed {later earlier : List (World cap R P × Call)}
    {before : World cap R P} {call : Call} {key : Key}
    (h : Run cap config start (later ++ (before, call) :: earlier) w)
    (hheld : before.core.holds key = true) (hrefused : before.RefusedBy call key)
    (hroom : ¬before.CrowdedBy call key) (hlater : ∀ v c, (v, c) ∈ later → v.core.holds key = true ∧
      ¬v.SettledBy c key ∧ ¬v.CrowdedBy c key) : w.core.OwesTo key := by
  suffices howed : OwedTo w.tables key from howed.owesTo
  induction later generalizing w with
  | nil => exact h.called.2.2.owedTo hheld hroom (Or.inr hrefused)
  | cons last later ih =>
    obtain ⟨v, c⟩ := last
    obtain ⟨hv, -, hcalled⟩ := h.called
    obtain ⟨hholds, hsettled, hcrowded⟩ := hlater v c List.mem_cons_self
    have howed := ih hv fun v' c' hmem => hlater v' c' (List.mem_cons_of_mem _ hmem)
    exact hcalled.owedTo hholds hcrowded (Or.inl ⟨howed, hsettled⟩)

end

section

open Reference Sample

/-- The initiation of a peer that is looked up waits, with its lookup. -/
theorem Run.initiations_held_overtaken :
    ∃ (trace : List (World capacities Draws Permit × Call)) (w : World capacities Draws Permit)
      (n : Nat) (e : PendingInitiation), Run capacities (engine 1 []) 0 trace w ∧
      w.core.pendingInitiations[n]?.join = some e ∧ w.core.InitiationsHeld := by
  obtain ⟨w, hw, htest⟩ := (Option.any_eq_true _ _).mp overtaken_gone_run
  obtain ⟨trace, htrace, hcalls⟩ := run_of_replay hw
  obtain ⟨r, -, -, -, -, e, he, -⟩ := of_overtaken (Bool.and_eq_true_iff.mp htest).1
  rcases findIdx?_initiation (w := w) r.id with ⟨hnone, -⟩ | ⟨n, x, -, hx, -⟩
  · rw [Core.takePendingInitiation, hnone] at he
    cases he
  refine ⟨trace, w, n, x, htrace, hx, htrace.initiations_held.2 ?_⟩
  rintro before call hmem ⟨now, update, sink', rfl, -⟩
  have hcall := List.mem_map_of_mem (f := Prod.snd) hmem
  rw [hcalls] at hcall
  simp at hcall

/-- The peer is looked up by its key, installed by a lookup of its address, and then gone. The
lookup by its key goes with it, and the initiation that waits for the lookup does not. -/
theorem Run.initiation_stranded :
    ∃ (w : World capacities Draws Permit) (n : Nat) (e : PendingInitiation),
      Reachable capacities (engine 1 []) w ∧ w.core.pendingInitiations[n]?.join = some e ∧
      ∀ r ∈ w.core.resolves, r.id ≠ e.resolveId := by
  obtain ⟨w, hw, htest⟩ := reachable_of_replay overtaken_gone_run
  obtain ⟨⟨⟨⟩, w'⟩, hcall, htest⟩ := (Option.any_eq_true _ _).mp (Bool.and_eq_true_iff.mp htest).2
  obtain ⟨n, -, htest⟩ := List.any_eq_true.mp htest
  obtain ⟨e, he, htest⟩ := (Option.any_eq_true _ _).mp htest
  exact ⟨w', n, e, hw.call gone (eq_ok_of_toOption hcall), he, fun r hr => by
    simpa using List.all_eq_true.mp htest r hr⟩

namespace Sample

/-- A peer that cannot be reached. -/
def unreachable (n : Nat) : ResolvedPeer := { resolvedPeer n with endpoint := none }

/-- An engine that keeps no slot in reserve. -/
def roomy : Config :=
  { engine 0 [] with coreConfig := { CoreConfig.default .inline with lazyPeerReserve := 0 } }

/-- The lookup of the address of a peer is answered. -/
def answered (now n id : Nat) : List Call :=
  [.sendInner now (packet 0 n) sink,
    .resolverEventCompleted now (.resolved ⟨id, .found (unreachable n)⟩) sink]

/-- The resolver cannot say anything about a peer. -/
def failing (now n : Nat) : Call :=
  .resolverEventCompleted now (.peerUpdated ⟨publicKey (privateKey n), .failed⟩) sink

theorem refusedBy_failing (w : World capacities Draws Permit) (now n : Nat) :
    w.RefusedBy (failing now n) (publicKey (privateKey n)) :=
  ⟨now, .failed, w, .update sink, trivial⟩

end Sample

/-- A minute after an update of a peer has failed, the peer is looked up. -/
theorem Run.reconciliations_owed_failed : ∃ (v before w : World capacities Draws Permit)
      (trace : List (World capacities Draws Permit × Call)),
      Run capacities roomy 0 ((v, .handleTimeout 60000 sink) :: (before, failing 0 1) :: trace) w ∧
      w.core.pendingReconciles = [] ∧ w.core.OwesTo (publicKey (privateKey 1)) := by
  have hrun : (replay capacities roomy (⟨4⟩ : Draws) (⟨⟩ : Permit) 0 (answered 0 1 1)).any
      (fun before => before.core.holds (publicKey (privateKey 1)) = true ∧
        before.core.canOwe (publicKey (privateKey 1)) = true ∧
        ((failing 0 1).run before).toOption.any fun r =>
          r.2.core.holds (publicKey (privateKey 1)) = true ∧
          r.2.core.canOwe (publicKey (privateKey 1)) = true ∧
          ((Call.handleTimeout 60000 sink).run r.2).toOption.any fun r =>
            r.2.core.pendingReconciles = []) = true := by decide +kernel
  obtain ⟨before, hbefore, htest⟩ := (Option.any_eq_true _ _).mp hrun
  obtain ⟨hheld, hroom, htest⟩ := of_decide_eq_true htest
  obtain ⟨⟨⟨⟩, v⟩, hv, htest⟩ := (Option.any_eq_true _ _).mp htest
  obtain ⟨hvheld, hvroom, htest⟩ := of_decide_eq_true htest
  obtain ⟨⟨⟨⟩, w⟩, hw, htest⟩ := (Option.any_eq_true _ _).mp htest
  obtain ⟨trace, htrace, -⟩ := run_of_replay hbefore
  have hrun : Run capacities roomy 0
      ([(v, .handleTimeout 60000 sink)] ++ (before, failing 0 1) :: trace) w :=
    (htrace.call (failing 0 1) (eq_ok_of_toOption hv)).call (.handleTimeout 60000 sink)
      (eq_ok_of_toOption hw)
  refine ⟨v, before, w, trace, hrun, of_decide_eq_true htest, ?_⟩
  refine Run.reconciliations_owed hrun hheld
    (refusedBy_failing before 0 1) (fun ⟨hfull, _⟩ => by simp [hroom] at hfull) ?_
  rintro v' c hmem
  cases List.mem_singleton.mp hmem
  refine ⟨hvheld, ?_, fun ⟨hfull, _⟩ => by simp [hvroom] at hfull⟩
  rintro ⟨now, outcome, v', hbrings, -⟩
  cases hbrings

/-- Two peers are owed reconciliations, and one of them is displaced. An update of the peer in its
place fails, and nothing is left of it. -/
theorem Run.reconciliation_dropped :
    ∃ (before w : World capacities Draws Permit), Reachable capacities roomy before ∧
      before.core.holds (publicKey (privateKey 3)) = true ∧
      before.RefusedBy (failing 30000 3) (publicKey (privateKey 3)) ∧
      (failing 30000 3).run before = .ok ((), w) ∧ w.core.holds (publicKey (privateKey 3)) = true ∧
      ¬w.core.OwesTo (publicKey (privateKey 3)) := by
  have hrun : (replay capacities roomy (⟨4⟩ : Draws) (⟨⟩ : Permit) 0
      (answered 0 1 1 ++ answered 0 2 2 ++ [failing 30000 1, failing 30000 2] ++
        answered 30000 3 3)).any
      (fun before => before.core.holds (publicKey (privateKey 3)) = true ∧
        ((failing 30000 3).run before).toOption.any fun r =>
          r.2.core.holds (publicKey (privateKey 3)) = true ∧ r.2.core.resolves = [] ∧
          (r.2.core.pendingReconciles.all fun o => o.publicKey ≠ publicKey (privateKey 3)) = true) =
        true := by decide +kernel
  obtain ⟨before, hbefore, htest⟩ := reachable_of_replay hrun
  obtain ⟨hheld, htest⟩ := of_decide_eq_true htest
  obtain ⟨⟨⟨⟩, w⟩, hw, htest⟩ := (Option.any_eq_true _ _).mp htest
  obtain ⟨hafter, hlookups, howed⟩ := of_decide_eq_true htest
  refine ⟨before, w, hbefore, hheld, refusedBy_failing before 30000 3, eq_ok_of_toOption hw, hafter,
    ?_⟩
  rintro (⟨o, ho, hkey⟩ | ⟨r, hr, -⟩)
  · have hne := List.all_eq_true.mp howed o ho
    exact absurd hkey (of_decide_eq_true hne)
  · change r ∈ w.core.resolves at hr
    change w.core.resolves = [] at hlookups
    rw [hlookups] at hr
    cases hr

end

end Microtun
