import Microtun.Core.Initiations
import Microtun.Lib.Except

/-! The timers of peers in every run: a persistent keepalive stays armed as long as it can be sent,
and retransmissions are spaced. -/

namespace Microtun

open Hoare Tables

section

variable {cap : Capacities} {R P : Type} [Crypto] [RngCore R] [RelayPolicy P]
  {w w' : World cap R P} {config : Config} {start : Nat}

/-! ### Persistent keepalives -/

omit [RngCore R] [RelayPolicy P] in
/-- A call that stops no persistent keepalive keeps up every one of them. -/
theorem Called.kept {call : Call} (h : Called w call w') (hlaw : Crypto.SealsDatagrams)
    (hsends : ∀ now sink, call = .handleTimeout now sink → w.core.silences now = false) {p : Nat}
    (hp : w.tables.Kept p) : w'.tables.Kept p := by
  have hflush : ∀ {now : Nat} {w1 : World cap R P}, Flushed now w1 w' → w1.tables.Kept p →
      w'.tables.Kept p := fun hflushed hk => hflushed.all.kept (by rintro ⟨⟩) hk
  cases h with
  | sendInner hflushed h => exact hflush hflushed (h.kept (by rintro ⟨⟩) hp)
  | receiveOuter hflushed h _ => exact hflush hflushed (h.kept (by rintro ⟨⟩) hp)
  | fired hflushed h => exact hflush hflushed (h.kept hlaw (hsends _ _ rfl) p hp)
  | idle hflushed _ => exact hflush hflushed hp
  | resolved hflushed h =>
    obtain ⟨answers, hsteps, -⟩ := h.steps
    exact hflush hflushed (hsteps.kept (by rintro ⟨⟩) hp)
  | peerUpdated hflushed h _ _ => exact hflush hflushed (h.kept (by rintro ⟨⟩) hp)
  | setUnixTime h _ _ => exact h ▸ hp

theorem Run.kept {trace : List (World cap R P × Call)} (h : Run cap config start trace w)
    (hlaw : Crypto.SealsDatagrams) (hsends : ∀ before now sink,
      (before, .handleTimeout now sink) ∈ trace → before.core.silences now = false) (p : Nat) :
    w.tables.Kept p := by
  induction h with
  | new h =>
    obtain ⟨-, t, hblank, -, hsteps, -⟩ := new_spec h
    refine hsteps.kept (by rintro ⟨⟩) fun m hm => ?_
    rw [hblank.peer] at hm
    cases hm
  | call call hw h ih =>
    have hbefore := ih fun before now sink hmem =>
      hsends before now sink (List.mem_cons_of_mem _ hmem)
    refine (called_of_run hw.sound h).2.kept hlaw (fun now sink hcall => ?_) hbefore
    exact hsends _ now sink (hcall ▸ List.mem_cons_self)

/-- In every run in which no call for the timers comes when the next timer action is the persistent
keepalive of a peer that has a session and cannot be reached, the persistent keepalive timer of
every peer is armed if and only if the peer has a persistent keepalive. -/
theorem Run.keepalives_armed {trace : List (World cap R P × Call)}
    (h : Run cap config start trace w) (hlaw : Crypto.SealsDatagrams) (hsends : ∀ before now sink,
      (before, .handleTimeout now sink) ∈ trace → before.core.silences now = false)
    (p : Nat) (e : PeerEntry) (he : w.core.peer p = some e) :
    e.sessions.persistentKeepaliveDue.isSome ↔ e.persistentKeepalive.isSome := by
  have hkept : e.member.Kept := h.kept hlaw hsends p e.member (tables_peer he)
  exact Eq.to_iff (congrArg (· = true) hkept)

/-! ### Initiations -/

end

section

open Reference Sample

namespace Sample

/-- A peer that is to be sent a keepalive every 5 seconds. -/
def pinnedKept (n : Nat) (relay : Option Key) : PinnedPeer :=
  { pinned n with relay, persistentKeepalive := some 5000 }

end Sample

/-- A peer without a session is sent an initiation when its keepalive is due, and its timer is armed
again. -/
theorem Run.keepalives_armed_again : ∃ (before w : World capacities Draws Permit) (e : PeerEntry),
      Run capacities (engine 0 [pinnedKept 1 none]) 0 [(before, .handleTimeout 5000 sink)] w ∧
      w.core.peer 0 = some e ∧ e.sessions.persistentKeepaliveDue = some 10000 ∧
      (e.sessions.persistentKeepaliveDue.isSome ↔ e.persistentKeepalive.isSome) := by
  have hrun : (replay capacities (engine 0 [pinnedKept 1 none]) (⟨2⟩ : Draws) (⟨⟩ : Permit) 0
    []).any
      (fun before => before.core.silences 5000 = false ∧
        ((Call.handleTimeout 5000 sink).run before).toOption.any fun r =>
          (r.2.core.peer 0).any fun e => e.sessions.persistentKeepaliveDue = some 10000) =
            true := by
    decide +kernel
  obtain ⟨before, hbefore, htest⟩ := (Option.any_eq_true _ _).mp hrun
  obtain ⟨hsends, hlast⟩ := of_decide_eq_true htest
  obtain ⟨⟨⟨⟩, w⟩, hcall, htest⟩ := (Option.any_eq_true _ _).mp hlast
  obtain ⟨e, he, hdue⟩ := (Option.any_eq_true _ _).mp htest
  obtain ⟨trace, htrace, hnone⟩ := run_of_replay hbefore
  obtain rfl : trace = [] := List.map_eq_nil_iff.mp hnone
  have hw := Run.call (.handleTimeout 5000 sink) htrace (eq_ok_of_toOption hcall)
  refine ⟨before, w, e, hw, he, of_decide_eq_true hdue, ?_⟩
  refine hw.keepalives_armed sealsDatagrams (fun before' now sink' hmem => ?_) 0 e he
  cases List.mem_singleton.mp hmem
  exact hsends

/-- The peer is to be reached through a relay that there is no session with. Its keepalive cannot be
sent, and its timer is not armed again. -/
theorem Run.keepalive_stopped : ∃ (w : World capacities Draws Permit) (e : PeerEntry),
      Reachable capacities (engine 1 [pinnedKept 0 (some (publicKey (privateKey 2))), pinned 2]) w ∧
      w.core.peer 0 = some e ∧ e.persistentKeepalive = some 5000 ∧
      e.sessions.persistentKeepaliveDue = none := by
  have hrun : (replay capacities
    (engine 1 [pinnedKept 0 (some (publicKey (privateKey 2))), pinned 2])
      (⟨4⟩ : Draws) (⟨⟩ : Permit) 0
      [.receiveOuter 0 (endpoint 0) initiation sink, .receiveOuter 0 (endpoint 0) payload sink,
        .handleTimeout 5000 sink]).any (fun w => (w.core.peer 0).any fun e =>
          e.persistentKeepalive = some 5000 ∧ e.sessions.persistentKeepaliveDue = none) = true := by
    decide +kernel
  obtain ⟨w, hw, htest⟩ := reachable_of_replay hrun
  obtain ⟨e, he, htest⟩ := (Option.any_eq_true _ _).mp htest
  exact ⟨w, e, hw, he, of_decide_eq_true htest⟩

namespace Sample

end Sample

end

end Microtun
