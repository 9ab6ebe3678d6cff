import Microtun.Lib.Transducer
import Microtun.Tracker.Rpc

/-! The request budget of a peer over a run of requests: how many are allowed in a stretch of time,
and what a refused request costs those after it. -/

namespace Microtun.Tracker

namespace PeerUsage

/-- The nanoseconds of a millisecond, and of a second. -/
def nanosPerMs : Nat := 1000000
def nanosPerSec : Nat := 1000000000

/-- The budget as a machine that answers a request at each instant. -/
def budget : Transducer PeerUsage Nat Bool := ⟨fun p now => (p.allowRequest now).swap⟩

/-- The requests that were allowed from an instant on for some time. -/
def allowedIn (start span : Nat) (calls : List (Nat × Bool)) : Nat :=
  calls.countP fun c => start ≤ c.1 && c.1 ≤ start + span && c.2

variable {p : PeerUsage} {now : Nat}

/-! ### One request -/

theorem tokensAt_le (p : PeerUsage) (now : Nat) : p.tokensAt now ≤ requestBurst * requestCostMt :=
  min_le_right _ _

theorem tokensAt_le_earned (p : PeerUsage) (now : Nat) : p.tokensAt now ≤
    p.requestTokensMt + requestsPerSec * ((now - p.lastRefill) / nanosPerMs) := by
  simp only [tokensAt, requestsPerSec, nanosPerMs]
  omega

theorem step_eq (p : PeerUsage) (now : Nat) : budget.step p now =
    if p.tokensAt now < requestCostMt then
      ({ p with requestTokensMt := p.tokensAt now, lastRefill := now }, false)
    else
      ({ p with requestTokensMt := p.tokensAt now - requestCostMt, lastRefill := now }, true) := by
  simp only [budget, allowRequest]
  split <;> rfl

/-- A request is paid for if it is allowed, and moves the refill instant in any case. -/
theorem step_spec (p : PeerUsage) (now : Nat) : (budget.step p now).1.lastRefill = now ∧
      (budget.step p now).1.requestTokensMt + requestCostMt * (budget.step p now).2.toNat =
        p.tokensAt now := by
  rw [step_eq]
  split
  · exact ⟨rfl, by simp⟩
  · refine ⟨rfl, ?_⟩
    simp only [Bool.toNat_true, Nat.mul_one]
    omega

/-! ### The bound -/

theorem allowedIn_cons (start span : Nat) (c : Nat × Bool) (calls : List (Nat × Bool)) :
    allowedIn start span (c :: calls) =
      allowedIn start span calls + (start ≤ c.1 && c.1 ≤ start + span && c.2).toNat := by
  unfold allowedIn
  rw [List.countP_cons]
  cases start ≤ c.1 && c.1 ≤ start + span && c.2 <;> rfl

theorem allowedIn_eq_zero {start span : Nat} {calls : List Nat} {answers : List Bool}
    (h : ∀ now ∈ calls, start + span < now) : allowedIn start span (calls.zip answers) = 0 := by
  refine List.countP_eq_zero.mpr fun c hc => ?_
  have hlate := h c.1 (List.of_mem_zip hc).1
  simp only [Bool.and_eq_true, decide_eq_true_eq]
  omega

/-- What a bucket holds when the stretch begins, or when it was filled last, and what the rest of
the stretch earns pay for all that is allowed. By induction on the requests. -/
theorem allowedIn_le (start span : Nat) {calls : List Nat} (p : PeerUsage)
    (hsorted : (p.lastRefill :: calls).Pairwise (· ≤ ·)) :
    requestCostMt * allowedIn start span (calls.zip (budget.answers p calls)) ≤
      (if start ≤ p.lastRefill then p.requestTokensMt else requestBurst * requestCostMt) +
        requestsPerSec * ((start + span - max start p.lastRefill) / nanosPerMs) := by
  induction calls generalizing p with
  | nil => simp [allowedIn]
  | cons now calls ih =>
    obtain ⟨hfirst, hrest⟩ := List.pairwise_cons.mp hsorted
    have hlast : p.lastRefill ≤ now := hfirst now (List.mem_cons_self ..)
    by_cases hover : start + span < now
    · rw [allowedIn_eq_zero]
      · simp
      intro later hlater
      rcases List.mem_cons.mp hlater with rfl | hlater
      · exact hover
      · exact Nat.lt_of_lt_of_le hover ((List.pairwise_cons.mp hrest).1 later hlater)
    obtain ⟨hrefill, hpaid⟩ := step_spec p now
    have hrun := ih (budget.step p now).1 (by rwa [hrefill])
    rw [Transducer.answers_cons, List.zip_cons_cons, allowedIn_cons]
    rw [hrefill] at hrun
    have hfull := tokensAt_le p now
    have hearned := tokensAt_le_earned p now
    generalize allowedIn start span (calls.zip _) = later at hrun ⊢
    generalize (budget.step p now).2 = allowed at hpaid ⊢
    generalize (budget.step p now).1.requestTokensMt = left at hrun hpaid
    simp only [requestBurst, requestCostMt, requestsPerSec, nanosPerMs] at *
    by_cases hbegun : start ≤ now
    · have hcount : (start ≤ now && now ≤ start + span && allowed).toNat = allowed.toNat := by
        simp [hbegun, Nat.le_of_not_lt hover]
      rw [hcount]
      rw [if_pos hbegun, max_eq_right hbegun] at hrun
      split <;> omega
    · have hcount : (start ≤ now && now ≤ start + span && allowed).toNat = 0 := by simp [hbegun]
      have hbefore : ¬ start ≤ p.lastRefill := fun h => hbegun (h.trans hlast)
      rw [hcount]
      rw [if_neg hbegun, max_eq_left (Nat.le_of_not_le hbegun)] at hrun
      rw [if_neg hbefore, max_eq_left (Nat.le_of_not_le hbefore)]
      omega

/-! ### Refused requests -/

/-- Buckets that hold the same at an instant answer a request then alike, and are alike afterwards.
-/
theorem step_congr {p' : PeerUsage} (hconnections : p'.connections = p.connections)
    (h : p'.tokensAt now = p.tokensAt now) : budget.step p' now = budget.step p now := by
  rw [step_eq, step_eq, h, hconnections]

theorem step_refused (h : p.tokensAt now < requestCostMt) : budget.step p now =
    ({ p with requestTokensMt := p.tokensAt now, lastRefill := now }, false) := by
  rw [step_eq, if_pos h]

theorem tokensAt_refused {later : Nat} (hlast : p.lastRefill ≤ now) (hlater : now ≤ later)
    (h : p.tokensAt now < requestCostMt) (hwhole : (now - p.lastRefill) % nanosPerMs = 0) :
    (budget.step p now).1.tokensAt later = p.tokensAt later := by
  rw [step_refused h]
  simp only [tokensAt, requestsPerSec, requestBurst, requestCostMt, nanosPerMs] at *
  omega

/-- Otherwise it loses a part of a millisecond, for which the first request that could be paid
without it comes too early. -/
theorem exists_lost (hlast : p.lastRefill ≤ now) (h : p.tokensAt now < requestCostMt)
    (hpart : (now - p.lastRefill) % nanosPerMs ≠ 0) :
    ∃ later, now ≤ later ∧ (budget.step p later).2 = true ∧
      (budget.step (budget.step p now).1 later).2 = false := by
  rw [step_refused h]
  refine ⟨p.lastRefill + nanosPerMs * ((requestCostMt - p.requestTokensMt + 19) / 20), ?_, ?_, ?_⟩
  · simp only [tokensAt, requestsPerSec, requestBurst, requestCostMt, nanosPerMs] at *
    omega
  · rw [step_eq, if_neg]
    simp only [tokensAt, requestsPerSec, requestBurst, requestCostMt, nanosPerMs] at *
    omega
  · rw [step_refused]
    simp only [tokensAt, requestsPerSec, requestBurst, requestCostMt, nanosPerMs] at *
    omega

theorem lastRefill_after (p : PeerUsage) (calls : List Nat) :
    (budget.after p calls).lastRefill = calls.getLastD p.lastRefill := by
  induction calls generalizing p with
  | nil => rfl
  | cons now calls ih =>
    rw [Transducer.after_cons, ih, (step_spec p now).1]
    cases calls <;> rfl

/-- Without a refused call whose time is whole, what is answered from there on is the same. -/
theorem answers_refused (hlast : p.lastRefill ≤ now) (h : p.tokensAt now < requestCostMt)
    (hwhole : (now - p.lastRefill) % nanosPerMs = 0) {post : List Nat}
    (hpost : ∀ later ∈ post, now ≤ later) :
    budget.answers (budget.step p now).1 post = budget.answers p post := by
  cases post with
  | nil => rfl
  | cons later post =>
    have hconnections : (budget.step p now).1.connections = p.connections := by rw [step_refused h]
    have htokens := tokensAt_refused hlast (hpost later (List.mem_cons_self ..)) h hwhole
    rw [Transducer.answers_cons, Transducer.answers_cons, step_congr hconnections htokens]

/-- In every run the requests allowed in any stretch are at most the burst and what the stretch
earns; and a refused call changes no answer after it, whatever is asked then, exactly if it comes a
whole number of milliseconds after the call before it. -/
theorem request_budget (created : Nat) :
    (∀ calls, (created :: calls).Pairwise (· ≤ ·) → ∀ start span,
      allowedIn start span (calls.zip (budget.answers (new created) calls)) * nanosPerSec ≤
        requestBurst * nanosPerSec + requestsPerSec * span) ∧
    ∀ before now, (created :: (before ++ [now])).Pairwise (· ≤ ·) →
      (budget.step (budget.after (new created) before) now).2 = false →
      ((∀ after, (now :: after).Pairwise (· ≤ ·) →
        (budget.answers (new created) (before ++ now :: after)).eraseIdx before.length =
          budget.answers (new created) (before ++ after)) ↔
        (now - before.getLastD created) % nanosPerMs = 0) := by
  constructor
  · intro calls hsorted start span
    have hbound := allowedIn_le start span (new created) hsorted
    generalize allowedIn start span _ = allowed at hbound ⊢
    rw [show (new created).requestTokensMt = requestBurst * requestCostMt from rfl,
      ite_self] at hbound
    simp only [requestBurst, requestCostMt, requestsPerSec, nanosPerMs, nanosPerSec] at *
    omega
  · intro before now hsorted hrefused
    have hstate := lastRefill_after (new created) before
    have hlast : (budget.after (new created) before).lastRefill ≤ now := by
      rw [hstate]
      have hmem : before.getLastD created ∈ created :: before := List.getLastD_mem_cons ..
      rw [← List.cons_append, List.pairwise_append] at hsorted
      exact hsorted.2.2 _ hmem now (List.mem_singleton_self now)
    have hempty : (budget.after (new created) before).tokensAt now < requestCostMt := by
      by_contra hpaid
      rw [step_eq, if_neg hpaid] at hrefused
      exact nomatch hrefused
    have herase : ∀ after, (budget.answers (new created) (before ++ now :: after)).eraseIdx
      before.length =
        budget.answers (new created) before ++
          budget.answers (budget.step (budget.after (new created) before) now).1 after := by
      intro after
      rw [Transducer.answers_append, Transducer.answers_cons, List.eraseIdx_append_of_length_le]
      · rw [Transducer.length_answers, Nat.sub_self, List.eraseIdx_cons_zero]
      · rw [Transducer.length_answers]
    show _ ↔ (now - before.getLastD (new created).lastRefill) % nanosPerMs = 0
    rw [← hstate]
    constructor
    · intro hsame
      by_contra hpart
      obtain ⟨later, hlater, hallowed, hdenied⟩ := exists_lost hlast hempty hpart
      have hafter := hsame [later] (by simpa using hlater)
      rw [herase, Transducer.answers_append, List.append_cancel_left_eq, Transducer.answers_cons,
        Transducer.answers_cons, hallowed, hdenied] at hafter
      exact nomatch hafter
    · intro hwhole after hafter
      rw [herase, Transducer.answers_append,
        answers_refused hlast hempty hwhole (List.pairwise_cons.mp hafter).1]

/-- Forty calls at once empty the bucket, and one a millisecond later earns nothing by being
refused. -/
theorem request_budget_burst :
    (budget.answers (new 0) (List.replicate 40 0 ++ [1000000, 50000000])).eraseIdx 40 =
      budget.answers (new 0) (List.replicate 40 0 ++ [50000000]) :=
  ((request_budget 0).2 (List.replicate 40 0) 1000000 (by decide +kernel) (by decide +kernel)).mpr
    (by decide) [50000000] (by decide)

/-- A request half a millisecond after the burst is refused, and then so is one 50 ms after it,
which is allowed without. -/
theorem refused_request_costs :
    ¬ ∀ (created : Nat) (calls : List Nat), (created :: calls).Pairwise (· ≤ ·) →
      (∀ start span, allowedIn start span (calls.zip (budget.answers (new created) calls)) *
        nanosPerSec ≤ requestBurst * nanosPerSec + requestsPerSec * span) ∧
      ∀ i, (budget.answers (new created) calls)[i]? = some false →
        (budget.answers (new created) calls).eraseIdx i =
          budget.answers (new created) (calls.eraseIdx i) := by
  intro h
  have hsame := (h 0 (List.replicate 40 0 ++ [500000, 50000000]) (by decide)).2 40
    (by decide +kernel)
  revert hsame
  decide

end PeerUsage

end Microtun.Tracker
