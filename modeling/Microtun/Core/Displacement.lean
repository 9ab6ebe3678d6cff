import Microtun.Core.Obligations

/-! Peers that are removed to make room for others. Each one is paid for from a budget that gains
one token per interval, so that no run removes more of them than it has time for. -/

namespace Microtun

open Tables

namespace IntervalBudget

variable {b b' : IntervalBudget} {now start limit : Nat} {ok : Bool}

/-- The time of the budget lies between two instants, and what was gained since the first one covers
what is left and what was spent. -/
structure Covers (b : IntervalBudget) (start limit spent : Nat) : Prop where
  first : start ≤ b.lastRefill
  last : b.lastRefill ≤ limit
  covered : spent + b.available ≤ b.burst + (b.lastRefill - start) / b.intervalMs

theorem Covers.refill {spent : Nat} (h : b.Covers start limit spent) (hnow : now ≤ limit)
    (hlimit : limit ≤ maxMillis) (hinterval : b.intervalMs ≠ 0) :
    (b.refill now).Covers start limit spent := by
  unfold IntervalBudget.refill
  dsimp only
  by_cases hzero : saturatingSince now b.lastRefill / b.intervalMs = 0
  · rwa [if_pos hzero]
  rw [if_neg hzero]
  have hpos : 0 < b.intervalMs := Nat.pos_of_ne_zero hinterval
  generalize hn : saturatingSince now b.lastRefill / b.intervalMs = n at hzero
  -- The intervals that are counted lie between the last refill and now.
  have hspan : n * b.intervalMs ≤ now - b.lastRefill := by
    rw [← hn]
    exact Nat.div_mul_le_self _ _
  have hone : 1 ≤ n * b.intervalMs := Nat.mul_pos (Nat.pos_of_ne_zero hzero) hpos
  have hfits : b.lastRefill + n * b.intervalMs ≤ limit := by omega
  have hmillis : min (n * b.intervalMs) maxMillis = n * b.intervalMs :=
    Nat.min_eq_left ((Nat.le_add_left _ _).trans (hfits.trans hlimit))
  have hlast : min (b.lastRefill + min (n * b.intervalMs) maxMillis) maxMillis =
      b.lastRefill + n * b.intervalMs := by
    rw [hmillis]
    exact Nat.min_eq_left (hfits.trans hlimit)
  have hfirst := h.first
  refine ⟨?_, ?_, ?_⟩
  · show start ≤ min (b.lastRefill + min (n * b.intervalMs) maxMillis) maxMillis
    rw [hlast]
    omega
  · show min (b.lastRefill + min (n * b.intervalMs) maxMillis) maxMillis ≤ limit
    rw [hlast]
    exact hfits
  · show spent + min (min (b.available + min n maxU32) maxU32) b.burst ≤ b.burst +
      (min (b.lastRefill + min (n * b.intervalMs) maxMillis) maxMillis - start) / b.intervalMs
    have hgain : (b.lastRefill + n * b.intervalMs - start) / b.intervalMs =
        (b.lastRefill - start) / b.intervalMs + n := by
      rw [show b.lastRefill + n * b.intervalMs - start =
        b.lastRefill - start + n * b.intervalMs by omega,
        Nat.add_mul_div_right _ _ hpos]
    have hcovered := h.covered
    rw [hlast, hgain]
    omega

theorem refill_limits (b : IntervalBudget) (now : Nat) :
    (b.refill now).burst = b.burst ∧ (b.refill now).intervalMs = b.intervalMs := by
  unfold IntervalBudget.refill
  dsimp only
  split
  · exact ⟨rfl, rfl⟩
  · exact ⟨rfl, rfl⟩

theorem tryTake_limits (h : b.tryTake now = (ok, b')) :
    b'.burst = b.burst ∧ b'.intervalMs = b.intervalMs := by
  unfold IntervalBudget.tryTake IntervalBudget.tryTakeMany at h
  rw [if_neg Nat.one_ne_zero] at h
  dsimp only at h
  split at h
  · cases h
    exact ⟨rfl, rfl⟩
  · split at h
    · cases h
      exact b.refill_limits now
    · cases h
      exact b.refill_limits now

theorem Covers.tryTake {spent : Nat} (h : b.Covers start limit spent)
    (htake : b.tryTake now = (ok, b')) (hnow : now ≤ limit) (hlimit : limit ≤ maxMillis) :
    b'.Covers start limit (spent + if ok then 1 else 0) := by
  unfold IntervalBudget.tryTake IntervalBudget.tryTakeMany at htake
  rw [if_neg Nat.one_ne_zero] at htake
  dsimp only at htake
  split at htake
  · cases htake
    exact h
  · rename_i hchecks
    have hrefill := h.refill hnow hlimit fun hzero => hchecks (Or.inl hzero)
    split at htake
    · cases htake
      exact hrefill
    · rename_i hsome
      cases htake
      have hcovered := hrefill.covered
      refine ⟨hrefill.first, hrefill.last, ?_⟩
      show spent + 1 + ((b.refill now).available - 1) ≤ (b.refill now).burst +
        ((b.refill now).lastRefill - start) / (b.refill now).intervalMs
      omega

end IntervalBudget

section

variable {cap : Capacities}

/-- The peers that were removed to make room, with the time, latest first. -/
def displacements (log : List Event) : List (PeerEntry × Nat) :=
  log.filterMap fun
    | .displaced e now => some (e, now)
    | _ => none

theorem displacements_filter (log : List Event) :
    displacements (log.filter fun e => e.topic = .room) = displacements log := by
  induction log with
  | nil => rfl
  | cons e rest ih =>
    cases e with
    | displaced peer now => exact congrArg ((peer, now) :: ·) ih
    | resolve request taken => cases taken <;> exact ih
    | authenticated consumed known => cases known <;> exact ih
    | _ => exact ih

/-- A peer may be removed to make room: it is dynamic, it holds no slot, and it has been idle for
long enough. -/
def PeerEntry.Idle (config : CoreConfig) (e : PeerEntry) (now : Nat) : Prop :=
  e.kind = .dynamic ∧ e.sessions.slots = [none, none, none, none] ∧
    config.dynamicPeerMinIdle ≤ saturatingSince now e.lastActivity

/-- Every removal was paid for, and hit a peer that may be removed. -/
structure Tables.Budgeted (start limit : Nat) (t : Tables cap) : Prop where
  burst : t.budget.burst = t.config.peerEvictionBurst
  interval : t.budget.intervalMs = t.config.peerEvictionInterval
  covers : t.budget.Covers start limit (displacements t.rooms).length
  idle : ∀ x ∈ displacements t.rooms, x.1.Idle t.config x.2

variable [Crypto]

theorem Tables.Budgeted.step {t t' : Tables cap} {now start limit : Nat} {scope : Scope}
    (h : Budgeted start limit t) (hstep : Step now scope t t') (hnow : now ≤ limit)
    (hlimit : limit ≤ maxMillis) : Budgeted start limit t' := by
  cases hstep with
  | refuse htake =>
    obtain ⟨hburst, hinterval⟩ := IntervalBudget.tryTake_limits htake
    exact ⟨hburst.trans h.burst, hinterval.trans h.interval, h.covers.tryTake htake hnow hlimit,
      h.idle⟩
  | @displace _ p m e budget htake hp hpinned hslots _ hkind hsessions hidle =>
    obtain ⟨hburst, hinterval⟩ := IntervalBudget.tryTake_limits htake
    refine ⟨hburst.trans h.burst, hinterval.trans h.interval, h.covers.tryTake htake hnow hlimit,
      ?_⟩
    intro x hx
    rcases List.mem_cons.mp hx with rfl | hx
    · have hdynamic : e.isPinned = false := hkind.trans hpinned
      refine ⟨?_, hsessions ▸ hslots, hidle⟩
      change e.kind = .dynamic
      cases he : e.kind with
      | dynamic => rfl
      | pinned => simp [PeerEntry.isPinned, he] at hdynamic
    · exact h.idle x hx
  | _ => exact ⟨h.burst, h.interval, h.covers, h.idle⟩

variable {R P : Type} [RngCore R] [RelayPolicy P] {w : World cap R P} {config : Config}
  {start : Nat}

theorem Run.budgeted {trace : List (World cap R P × Call)} (h : Run cap config start trace w)
    {limit : Nat} (hstart : start ≤ limit) (hnow : ∀ called ∈ trace, called.2.now ≤ limit)
    (hlimit : limit ≤ maxMillis) : Budgeted start limit w.tables := by
  induction h with
  | new h =>
    obtain ⟨-, t, hblank, -, hsteps, -⟩ := new_spec h
    refine hsteps.keeps (fun _ _ _ _ hstep hu => hu.step hstep hstart hlimit) ?_
    have hrooms : displacements t.rooms = [] := by rw [hblank.rooms]; rfl
    refine ⟨by rw [hblank.budget]; rfl, by rw [hblank.budget]; rfl, ?_, ?_⟩
    · rw [hblank.budget, hrooms]
      refine ⟨Nat.le_refl _, hstart, ?_⟩
      show 0 + t.config.peerEvictionBurst ≤ t.config.peerEvictionBurst + _
      rw [Nat.zero_add]
      exact Nat.le_add_right _ _
    · rw [hrooms]
      rintro x ⟨⟩
  | call call hw h ih =>
    have hbefore := ih fun called hmem => hnow called (List.mem_cons_of_mem _ hmem)
    have hcall := hnow (_, call) List.mem_cons_self
    obtain ⟨scope, hsteps | hsteps⟩ := (called_of_run hw.sound h).2.all
    · exact hsteps.keeps (fun _ _ _ _ hstep hu => hu.step hstep hcall hlimit) hbefore
    · exact hsteps.keeps (fun _ _ _ _ hstep hu => hu.step hstep hcall hlimit)
        ⟨hbefore.burst, hbefore.interval, hbefore.covers, hbefore.idle⟩

/-- In every run whose calls come no later than an instant, no more peers are removed to make room
than the burst and one for each interval between the start and the instant, in whatever order the
calls come. Each of them is a dynamic peer that holds no slot and has been idle for long enough. -/
theorem Run.displacements_budgeted {trace : List (World cap R P × Call)}
    (h : Run cap config start trace w) {limit : Nat} (hstart : start ≤ limit)
    (hnow : ∀ called ∈ trace, called.2.now ≤ limit) (hlimit : limit ≤ maxMillis) :
    (displacements w.log).length ≤ config.coreConfig.peerEvictionBurst +
      (limit - start) / config.coreConfig.peerEvictionInterval ∧
    ∀ x ∈ displacements w.log, x.1.Idle config.coreConfig x.2 := by
  have hbudgeted := h.budgeted hstart hnow hlimit
  have hrooms : displacements w.tables.rooms = displacements w.log := displacements_filter w.log
  have hconfig : w.tables.config = config.coreConfig := h.settings
  refine ⟨?_, fun x hx => hconfig ▸ hbudgeted.idle x (hrooms ▸ hx)⟩
  have hcovered := hbudgeted.covers.covered
  rw [hrooms, hbudgeted.burst, hbudgeted.interval, hconfig] at hcovered
  have hspan : (w.tables.budget.lastRefill - start) / config.coreConfig.peerEvictionInterval ≤
      (limit - start) / config.coreConfig.peerEvictionInterval :=
    Nat.div_le_div_right (Nat.sub_le_sub_right hbudgeted.covers.last start)
  omega

end

section

open Reference Sample

/-- The engine has room for two peers, and a third one takes the place of one that was idle for half
a minute. -/
theorem Run.displacements_budgeted_idle :
    ∃ (trace : List (World capacities Draws Permit × Call)) (w : World capacities Draws Permit),
      Run capacities roomy 0 trace w ∧ (displacements w.log).length = 1 ∧
      ∀ x ∈ displacements w.log, x.1.Idle roomy.coreConfig x.2 := by
  have hrun : (replay capacities roomy (⟨4⟩ : Draws) (⟨⟩ : Permit) 0
      (answered 0 1 1 ++ answered 0 2 2 ++ answered 30000 3 3)).any
      (fun w => (displacements w.log).length = 1) = true := by decide +kernel
  obtain ⟨w, hw, htest⟩ := (Option.any_eq_true _ _).mp hrun
  obtain ⟨trace, htrace, hcalls⟩ := run_of_replay hw
  have hnow : ∀ called ∈ trace, called.2.now ≤ 30000 := by
    intro called hcalled
    have hcall := List.mem_map_of_mem (f := Prod.snd) hcalled
    rw [hcalls, List.mem_reverse] at hcall
    simp only [answered, List.cons_append, List.nil_append, List.mem_cons, List.not_mem_nil,
      or_false] at hcall
    rcases hcall with hcall | hcall | hcall | hcall | hcall | hcall
    all_goals
      rw [hcall]
      decide
  exact ⟨trace, w, htrace, of_decide_eq_true htest,
    (htrace.displacements_budgeted (by decide) hnow (by decide)).2⟩

end

end Microtun
