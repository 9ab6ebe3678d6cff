import Microtun.Core.Initiations

/-! The table of lookups of every reachable engine: what is in it, when it is full, and how often a
question is asked. -/

namespace Microtun

open Hoare Tables

variable {cap : Capacities} {R P : Type} {w : World cap R P} {config : Config} {start : Nat}

/-! ### The table -/

/-- The table of lookups: identifiers are unique, no question is asked twice, no negative answer is
remembered twice, and there are no more entries than allowed. -/
structure Core.LookupsAgree (c : Core cap R P) : Prop where
  ids : (c.resolves.map (·.id)).Nodup
  live : ((c.resolves.filter (·.live)).map (·.query)).Nodup
  negative : ((c.resolves.filter (!·.live)).map (·.query)).Nodup
  room : c.resolves.length ≤ c.coreConfig.maxInflightResolves

theorem Tables.Desk.lookupsAgree (h : Desk w.tables) : w.core.LookupsAgree := by
  refine ⟨?_, ?_, ?_, h.room⟩
  · exact Multiset.coe_nodup.mp h.ids
  · have hlive := h.live
    simp only [World.tables, Multiset.filter_coe, Multiset.map_coe, Multiset.coe_nodup,
      Bool.decide_eq_true] at hlive
    exact hlive
  · have hneg := h.negative
    simp only [World.tables, Multiset.filter_coe, Multiset.map_coe, Multiset.coe_nodup,
      Bool.decide_eq_true] at hneg
    exact hneg

/-- A lookup is refused only by a table that is full of live lookups. -/
theorem Core.pushResolve_refused {c c' : Core cap R P} {entry : InflightResolve} {e : Error}
    (hroom : c.resolves.length ≤ c.coreConfig.maxInflightResolves)
    (h : c.pushResolve entry = (.error e, c')) :
    c.resolves.length = c.coreConfig.maxInflightResolves ∧ ∀ r ∈ c.resolves, r.live = true := by
  rcases pushResolve_cases entry hroom with ⟨-, hfull⟩ | ⟨rest, hpush, -⟩
  · exact hfull
  · rw [hpush] at h
    cases h

/-! ### Negative answers -/

section

variable [Crypto] [RngCore R] [RelayPolicy P]

theorem Run.resolves_of_nil {trace : List (World cap R P × Call)} (h : Run cap config start trace w)
    (htrace : trace = []) (r : InflightResolve) : r ∉ w.core.resolves := by
  cases h with
  | new h =>
    obtain ⟨-, t, hblank, -, hsteps, -⟩ := new_spec h
    intro hr
    have hmem : r ∈ w.tables.lookups := hr
    rw [(hsteps.still rfl).lookups, hblank.lookups] at hmem
    cases hmem
  | call call hw h => cases htrace

/-- A negative answer stands beside its question only if a call came after its time. -/
theorem Run.expired {trace : List (World cap R P × Call)} (h : Run cap config start trace w)
    {limit : Nat} (hlimit : ∀ called ∈ trace, called.2.now ≤ limit) : Expired limit w.tables := by
  induction h with
  | new h =>
    intro r hr
    exact absurd hr ((Run.new h).resolves_of_nil rfl r)
  | @call trace w w' call hw hcall ih =>
    have hexp := ih fun called hmem => hlimit called (List.mem_cons_of_mem _ hmem)
    have hnow : call.now ≤ limit := hlimit (w, call) List.mem_cons_self
    obtain ⟨scope, hsteps | hsteps⟩ := (called_of_run hw.sound hcall).2.all
    · exact hsteps.expired hnow hexp
    · exact hsteps.expired hnow hexp

/-- In every run, the table of lookups agrees with itself; a negative answer stands beside a lookup
of its question only if its time was over by one of the calls; a lookup is refused for lack of space
only by a table that is full of live ones; and between two emissions of a question the first lookup
was closed. -/
theorem Run.lookups_agree {trace : List (World cap R P × Call)} (h : Run cap config start trace w) :
    w.core.LookupsAgree ∧
      (∀ r ∈ w.core.resolves, r.live = false → ∀ x ∈ w.core.resolves, x.live = true →
        x.query = r.query → ∃ called ∈ trace, r.deadline ≤ called.2.now) ∧
      (∀ (c c' : Core cap R P) (entry : InflightResolve) (e : Error), c.LookupsAgree →
        c.pushResolve entry = (.error e, c') →
          c.resolves.length = c.coreConfig.maxInflightResolves ∧ ∀ r ∈ c.resolves, r.live = true) ∧
      ∀ later mid earlier query id id', w.log = later ++ .resolve ⟨id', query⟩ true ::
          (mid ++ .resolve ⟨id, query⟩ true :: earlier) → .closed query ∈ mid := by
  refine ⟨h.sound.inv.desk.lookupsAgree, fun r hr hneg x hx hlive hquery => ?_,
    fun c c' entry e hc hrefused => Core.pushResolve_refused hc.room hrefused,
    fun later mid earlier query id id' hlog => ?_⟩
  · by_contra hno
    push Not at hno
    have hover : r.deadline ≤ r.deadline - 1 :=
      h.expired (fun called hcalled => Nat.le_sub_one_of_lt (hno called hcalled)) r hr hneg x hx
        hlive hquery
    -- Then the time was over at the start, when there was no lookup.
    have htrace : trace = [] := List.eq_nil_iff_forall_not_mem.mpr fun called hcalled => by
      have := hno called hcalled
      omega
    exact absurd hr (h.resolves_of_nil htrace r)
  · have hasked : asked query ((mid ++ .resolve ⟨id, query⟩ true :: earlier).filter
        fun e => e.topic = .lookup) = false := by
      refine h.sound.candid.once (later.filter fun e => e.topic = .lookup) ⟨id', query⟩ _ ?_
      show w.log.filter _ = _
      rw [hlog, List.filter_append, List.filter_cons_of_pos (by rfl)]
    rw [List.filter_append, List.filter_cons_of_pos (by rfl)] at hasked
    exact (List.mem_filter.mp (closed_of_asked hasked rfl)).1

end

section

open Reference Sample

namespace Sample

/-- The question that a packet for the first peer asks. -/
def question : ResolveQuery := .byDstAddress (.v4 (address 1))

end Sample

/-- A question is asked, the lookup fails, and the question is asked again. -/
theorem Run.lookups_agree_twice :
    ∃ (trace : List (World capacities Draws Permit × Call)) (w : World capacities Draws Permit),
      Run capacities (engine 0 []) 0 trace w ∧ w.core.LookupsAgree ∧
      w.log = [.resolve ⟨2, question⟩ true, .closed question, .resolve ⟨1, question⟩ true] ∧
      Event.closed question ∈ [Event.closed question] := by
  have hrun : (replay capacities (engine 0 []) (⟨2⟩ : Draws) (⟨⟩ : Permit) 0
      [.sendInner 0 (packet 0 1) sink, .resolverEventCompleted 0 (.resolved ⟨1, .failed⟩) sink,
        .sendInner 0 (packet 0 1) sink]).any
      (fun w => w.log = [.resolve ⟨2, question⟩ true, .closed question,
        .resolve ⟨1, question⟩ true]) =
        true := by decide +kernel
  obtain ⟨w, hw, htest⟩ := (Option.any_eq_true _ _).mp hrun
  obtain ⟨trace, htrace, -⟩ := run_of_replay hw
  obtain ⟨hagree, -, -, hclosed⟩ := htrace.lookups_agree
  have hlog := of_decide_eq_true htest
  exact ⟨trace, w, htrace, hagree, hlog, hclosed [] [.closed question] [] question 1 2 hlog⟩

end

end Microtun
