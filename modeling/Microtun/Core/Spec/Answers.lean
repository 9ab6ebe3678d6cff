import Microtun.Core.Spec.Admission

/-! What an answer of the resolver about a peer that is held does to the tables. -/

namespace Microtun

open Hoare Tables
open Function (update update_self update_of_ne)

/-- What an answer about a peer that is held may do. -/
def Scope.held (key : Key) (strands : Bool) : Scope :=
  { rank := 4, desk := true, answers := some key, strands }

variable {cap : Capacities} {R P : Type} {w : World cap R P} {c : Core cap R P} {now : Nat}

/-- Is the peer installed by the resolver? -/
def Core.holds (key : Key) (c : Core cap R P) : Bool :=
  (c.findPeer key).any fun p => (c.peer p).any fun e => !e.isPinned && decide (e.publicKey = key)

variable [Crypto]

/-- An answer about a held peer ends without being installed: there is none, it does not pass the
checks, or it cannot be committed. -/
def Refused (w : World cap R P) (now : Nat) (key : Key) : ResolveOutcome → Prop
  | .failed => True
  | .notFound => False
  | .found info => ∀ info', w.core.canonicalizeResolvedAnswer (.byPublicKey key) info = .ok info' →
      ∀ p w', w.core.findPeer key = some p →
        (commitExistingResolvedPeer p info' now .heldUpdate true).run w ≠ .ok (.ok (), w')

omit [Crypto] in
theorem holds_iff (key : Key) : w.core.holds key = true ↔
    ∃ p e, w.core.findPeer key = some p ∧ w.core.peer p = some e ∧ e.publicKey = key ∧
      e.isPinned = false := by
  simp only [Core.holds, Option.any_eq_true, Bool.and_eq_true, Bool.not_eq_true',
    decide_eq_true_eq]
  constructor
  · rintro ⟨p, hp, e, he, hpin, hkey⟩
    exact ⟨p, e, hp, he, hkey, hpin⟩
  · rintro ⟨p, e, hp, he, hkey, hpin⟩
    exact ⟨p, hp, e, he, hpin, hkey⟩

theorem queueReconcile_owed (key : Key) :
    wpx (modifyCore (Core.queueReconcile key now) : CoreE cap R P Unit) (fun _ w' =>
      Steps now (.atDesk .quiet) w.tables w'.tables ∧
      (w.core.canOwe key = true → OwedTo w'.tables key)) w := by
  rw [wpx_modifyCore]
  obtain ⟨hsteps, howed⟩ := queueReconcile_spec (w := w) key
  exact ⟨hsteps, fun h => Or.inl (howed h)⟩

/-- An answer about a peer that is held, whether it is or not. -/
theorem applyHeldAnswer_spec (hI : w.tables.Inv) (now : Nat) (key : Key) (outcome : ResolveOutcome)
    {strands : Bool} (hstrands : strands = true ∨ outcome ≠ .notFound ∨ w.core.holds key = false ∨
      ∀ x ∈ w.core.resolves, x.query = .byPublicKey key →
        x.kind = .install .authenticatedInitiator →
        ∀ i e, w.tables.initiations i = some e → e.resolveId ≠ x.id) :
    wpx (applyHeldAnswer now key outcome : CoreE cap R P Unit) (fun _ w' =>
      Steps now (.held key strands) w.tables w'.tables ∧
      (w.core.holds key = true → Refused w now key outcome →
        Steps now { rank := 4, desk := true } w.tables w'.tables ∧
        (w.core.canOwe key = true → OwedTo w'.tables key))) w := by
  have hwide : ∀ {w' : World cap R P}, Steps now { rank := 4, desk := true } w.tables w'.tables →
      Steps now (.held key strands) w.tables w'.tables :=
    fun h => h.widen ⟨Nat.le_refl _, id, Or.inl rfl, by rintro ⟨⟩, by rintro ⟨⟩, Or.inl rfl,
      by rintro ⟨⟩⟩
  have hforget : ∀ (w1 : World cap R P), Steps now (.held key strands) w1.tables
      (w1.withCore (w1.core.forgetReconcile key)).tables :=
    fun w1 => (forgetReconcile_steps (w := w1) key).widen ⟨Nat.zero_le _, id, Or.inr rfl,
      by rintro ⟨⟩, by rintro ⟨⟩, Or.inl rfl, by rintro ⟨⟩⟩
  -- The answer was refused, and nothing else has happened.
  have hqueue : ∀ (w1 : World cap R P), Spent now w.tables w1.tables →
      wpx (modifyCore (Core.queueReconcile key now) : CoreE cap R P Unit) (fun _ w' =>
        Steps now (.held key strands) w.tables w'.tables ∧
        (w.core.holds key = true → Refused w now key outcome →
          Steps now { rank := 4, desk := true } w.tables w'.tables ∧
          (w.core.canOwe key = true → OwedTo w'.tables key))) w1 := by
    intro w1 h1
    refine wpx_mono (queueReconcile_owed (w := w1) key) ?_
    rintro _ w' ⟨hsteps, howed⟩
    have hsteps : Steps now { rank := 4, desk := true } w.tables w'.tables :=
      (h1.steps.widen (by decide)).trans (hsteps.widen (by decide))
    exact ⟨hwide hsteps, fun _ _ =>
      ⟨hsteps, fun h => howed (by rw [canOwe_congr h1.owed]; exact h)⟩⟩
  unfold applyHeldAnswer
  simp only [wpx_bind, wpx_getCore, then_ok]
  cases hfind : w.core.findPeer key with
  | none =>
    have hnot : w.core.holds key = false := by simp [Core.holds, hfind]
    rw [wpx_modifyCore]
    exact ⟨hforget w, fun h => by simp [hnot] at h⟩
  | some p =>
    dsimp only
    have hholds : w.core.holds key =
        (w.core.peer p).any fun e => !e.isPinned && decide (e.publicKey = key) := by
      simp [Core.holds, hfind]
    rw [← hholds]
    cases hheld : w.core.holds key with
    | false =>
      simp only [Bool.not_false, if_true]
      rw [wpx_modifyCore]
      exact ⟨hforget w, by rintro ⟨⟩⟩
    | true =>
      rw [if_neg (by simp)]
      obtain ⟨q, e, hq, he, hkey, hpin⟩ := (holds_iff key).mp hheld
      obtain rfl : p = q := Option.some.inj (hfind.symm.trans hq)
      rw [hheld] at hqueue hstrands
      cases outcome with
      | failed => exact hqueue w (Spent.refl _)
      | notFound =>
        dsimp only
        simp only [wpx_bind, wpx_modifyCore, then_ok]
        generalize hw1 : (⟨w.core.forgetReconcile key, w.log, w.established⟩ : World cap R P) = w1
        have h1 : Steps now (.held key strands) w.tables w1.tables := by
          rw [← hw1]
          exact hforget w
        have hsame : w1.core.resolves = w.core.resolves ∧
            w1.tables.initiations = w.tables.initiations := by
          rw [← hw1]
          exact ⟨rfl, rfl⟩
        have he1 : w1.core.peer p = some e := by
          rw [← hw1]
          exact he
        refine wpx_mono (evictPeer_spec (h1.inv hI) he1 hpin now) ?_
        rintro _ w2 ⟨rfl, h2, -, -⟩
        have hstill := h2.still rfl
        have hmark := @markNegative_key _ _ _ _ now _
          (h2.inv (h1.inv hI)) key strands ?_
        · unfold markNegative
          rw [then_ok, wpx_changeLookups]
          refine ⟨h1.trans ((h2.widen ?_).trans (hmark.widen ?_)), fun _ h => absurd h id⟩
          · exact ⟨Nat.le_refl _, by rintro ⟨⟩, Or.inl rfl, by rintro ⟨⟩, by rintro ⟨⟩, Or.inl rfl,
              by rintro ⟨⟩⟩
          · exact ⟨Nat.zero_le _, id, Or.inr rfl, id, by rintro ⟨⟩, Or.inl rfl, by rintro ⟨⟩⟩
        · rcases hstrands with h | h | h | h
          · exact Or.inl h
          · exact absurd rfl h
          · cases h
          · refine Or.inr fun x hx => ?_
            have hx' : x ∈ w2.tables.lookups := Multiset.mem_coe.mpr hx
            rw [hstill.lookups] at hx'
            rw [hstill.initiations, hsame.2]
            exact h x (hsame.1 ▸ Multiset.mem_coe.mp hx')
      | found info =>
        dsimp only
        cases hcanon : w.core.canonicalizeResolvedAnswer (.byPublicKey key) info with
        | error err => exact hqueue w (Spent.refl _)
        | ok info' =>
          dsimp only
          obtain ⟨hinfo, hcheck⟩ := canonicalize_ok hcanon
          have hkey' : info'.publicKey = e.publicKey :=
            ((checkResolvedAnswer_ok hcheck).1 key rfl).trans hkey.symm
          refine @wpx_attempt_seq _ _ _ _ _ _ _ _ (fun r w1 =>
            (commitExistingResolvedPeer p info' now .heldUpdate true).run w = .ok (r, w1) ∧
            ((∃ err, r = .error err ∧ Spent now w.tables w1.tables) ∨
              (r = .ok () ∧ Steps now .admin w.tables w1.tables))) _ ?_ ?_
          · obtain ⟨r, w1, hrun, ⟨err, hr, -, hsame⟩ | ⟨hr, h1, -⟩⟩ :=
              commitExistingResolvedPeer_spec hI he hpin hkey' now .heldUpdate true
            · exact ⟨r, w1, hrun, hrun, Or.inl ⟨err, hr, hsame⟩⟩
            · exact ⟨r, w1, hrun, hrun, Or.inr ⟨hr, h1⟩⟩
          rintro _ w1 ⟨hrun, ⟨err, rfl, hsame⟩ | ⟨rfl, h1⟩⟩
          · exact hqueue w1 hsame
          · simp only [wpx_bind, wpx_modifyCore, then_ok]
            have hclear := @clearNegative_steps _ _ _ (w1.withCore (w1.core.forgetReconcile key))
              now _ (.byPublicKey key)
            refine ⟨((h1.widen ?_).trans (hforget w1)).trans (hclear.widen ?_), fun _ h => ?_⟩
            · exact ⟨Nat.le_refl
                _, by rintro ⟨⟩, Or.inl rfl, by rintro ⟨⟩, by rintro ⟨⟩, Or.inl rfl, by rintro ⟨⟩⟩
            · exact ⟨Nat.zero_le _, id, Or.inl rfl, by rintro ⟨⟩, by rintro ⟨⟩, Or.inl rfl,
                by rintro ⟨⟩⟩
            · exact absurd hrun (h info' hcanon p w1 hfind)

end Microtun
