import Microtun.Core.Gate
import Microtun.Core.Traffic
import Microtun.Core.Waiting

/-! The initiations of every run: those that are answered for a peer follow each other, and of those
that wait for a lookup the newest does. -/

namespace Microtun

open Hoare Tables

variable {cap : Capacities} {R P : Type} {w : World cap R P} {config : Config} {start : Nat}

theorem Tables.Blank.gated {t : Tables cap} (h : Blank start t) : Gated t := by
  refine ⟨fun p m hm => ?_, fun later earlier heq p => ?_⟩
  · rw [h.peer] at hm
    cases hm
  · rw [h.attempts] at heq
    obtain ⟨-, rfl⟩ := List.append_eq_nil_iff.mp heq.symm
    exact List.Pairwise.nil

theorem Tables.Blank.waiting {t : Tables cap} (h : Blank start t) : Waiting t := by
  intro r hr
  rw [h.lookups] at hr
  cases hr

/-- The initiation that waits for a lookup is the one that is taken when the lookup completes. -/
theorem takePendingInitiation_some (hslots : ∀ i j e e', w.tables.initiations i = some e →
      w.tables.initiations j = some e' → e.resolveId = e'.resolveId → i = j)
    {n id : Nat} {e : PendingInitiation} (he : w.tables.initiations n = some e)
    (hid : e.resolveId = id) : (w.core.takePendingInitiation id).1 = some e := by
  unfold Core.takePendingInitiation
  rcases findIdx?_initiation (w := w) id with ⟨-, hnone⟩ | ⟨i, x, hsome, hx, hxid⟩
  · exact absurd hid (hnone n e he)
  · rw [hsome]
    obtain rfl := hslots i n x e hx he (hxid.trans hid.symm)
    exact he

section

variable [Crypto] [RngCore R] [RelayPolicy P]

theorem Run.gated {trace : List (World cap R P × Call)} (h : Run cap config start trace w) :
    Gated w.tables :=
  h.keeps (fun _ hblank _ => hblank.gated) (fun hstep _ hI => hI.step hstep) fun _ _ hI =>
    ⟨hI.last, hI.order⟩

theorem Run.waiting {trace : List (World cap R P × Call)} (h : Run cap config start trace w) :
    Waiting w.tables :=
  h.keeps (fun _ hblank _ => hblank.waiting) (fun hstep hinv hI => hI.step hinv.desk hstep)
    fun _ _ hI => hI

/-- In every run, the initiations that a peer has answered since it was installed are each newer
than the one before it, by their authenticated timestamps, and come later by more than the minimal
interval. A lookup in flight that an authenticated initiation queued has the newest initiation
waiting of those that its sender had authenticated since while it was no installed peer, if the pool
had room for the first one. -/
theorem Reachable.initiations_in_order (h : Reachable cap config w) :
    (∀ later earlier, w.log = later ++ earlier → ∀ p, (admissionsOf p earlier).Pairwise Follows) ∧
      ∀ r ∈ w.core.resolves, r.kind = .install .authenticatedInitiator →
        ∃ first room, seeker r.id w.log = some (first, room) ∧ r.query = .byPublicKey first.sPubI ∧
          (room = true → ∃ e, (w.core.takePendingInitiation r.id).1 = some e ∧
            Newest (authenticatedSince r.id first.sPubI w.log) e.consumed) := by
  obtain ⟨start, trace, hrun⟩ := reachable_iff.mp h
  constructor
  · intro later earlier heq p
    have horder : InOrder (w.log.filter fun e => e.topic = .attempt) := hrun.gated.order
    rw [← admissionsOf_filter]
    apply horder (later.filter fun e => e.topic = .attempt)
    rw [heq, List.filter_append]
  · intro r hr hkind
    have hseeker : seeker r.id w.tables.diary = seeker r.id w.log := seeker_filter r.id w.log
    obtain ⟨first, room, hfirst, hkey, hnewest⟩ := hrun.waiting r hr hkind
    refine ⟨first, room, hseeker ▸ hfirst, hkey, fun hroom => ?_⟩
    obtain ⟨n, e, he, hid, hmost⟩ := hnewest hroom
    exact ⟨e, takePendingInitiation_some hrun.sound.inv.desk.slots he hid,
      hmost.congr (authenticatedSince_filter r.id first.sPubI w.log)⟩

end

section

open Reference Sample

namespace Sample

/-- What engine 0 sends to engine 1 a second later. -/
def newerInitiation : List UInt8 := toBeBytes 148
  0x01000000030000000f524bef7e12258fd9eefcd9e468b21e543d90cc4a54b347f48cc5969febf4325b5dfcd689f52adb440095de7f95b2a7adf26562308312e7719fe93b10dbce041a35349e83a9c601371ed5306dadb526f78a294677104568a1e2a66acbe2ee1ed8360627333e58bdcca8ed3eb531b2849ca43404acc20e403906015d00000000000000000000000000000000

/-- A lookup was queued with room, and of the initiations that were authenticated since, one of a
known sender is newer than the one that waits. -/
def overtaken (w : World capacities Draws Permit) : Bool :=
  w.core.resolves.any fun r => r.kind = .install .authenticatedInitiator &&
    (seeker r.id w.log).any fun x => x.2 &&
      (w.core.takePendingInitiation r.id).1.any fun e =>
        (authenticatedSince r.id x.1.sPubI w.log).any fun y =>
          y.2 && e.consumed.timestamp.toList < y.1.timestamp.toList

/-- An initiation waits for a lookup that is not in the table. -/
def stranded (w : World capacities Draws Permit) : Bool :=
  (List.range 4).any fun i => (w.core.pendingInitiations[i]?.join).any fun e =>
    w.core.resolves.all fun r => r.id ≠ e.resolveId

/-- The resolver says that the peer is gone. -/
def gone : Call := .resolverEventCompleted 0 (.peerUpdated ⟨publicKey (privateKey 0), .notFound⟩)
    sink

/-- The peer is looked up by its key, then installed by a lookup of its address, and then answered.
Then the resolver says that it is gone. -/
theorem overtaken_gone_run : (replay capacities (engine 1 []) (⟨2⟩ : Draws) (⟨⟩ : Permit) 0
      [.receiveOuter 0 (endpoint 0) initiation sink, .sendInner 0 (packet 1 0) sink,
        .resolverEventCompleted 0 (.resolved ⟨2, .found (resolvedPeer 0)⟩) sink,
        .receiveOuter 0 (endpoint 0) newerInitiation sink]).any
      (fun w => overtaken w && (gone.run w).toOption.any fun r => stranded r.2) = true := by
  decide +kernel

theorem overtaken_run : (replay capacities (engine 1 []) (⟨2⟩ : Draws) (⟨⟩ : Permit) 0
      [.receiveOuter 0 (endpoint 0) initiation sink, .sendInner 0 (packet 1 0) sink,
        .resolverEventCompleted 0 (.resolved ⟨2, .found (resolvedPeer 0)⟩) sink,
        .receiveOuter 0 (endpoint 0) newerInitiation sink]).any overtaken = true := by
  obtain ⟨w, hw, htest⟩ := (Option.any_eq_true _ _).mp overtaken_gone_run
  exact (Option.any_eq_true _ _).mpr ⟨w, hw, (Bool.and_eq_true_iff.mp htest).1⟩

theorem of_overtaken {w : World capacities Draws Permit} (h : overtaken w = true) :
    ∃ r ∈ w.core.resolves, r.kind = .install .authenticatedInitiator ∧
      ∃ first, seeker r.id w.log = some (first, true) ∧
        ∃ e, (w.core.takePendingInitiation r.id).1 = some e ∧
          ∃ late, (late, true) ∈ authenticatedSince r.id first.sPubI w.log ∧
            e.consumed.timestamp.toList < late.timestamp.toList := by
  obtain ⟨r, hr, h⟩ := List.any_eq_true.mp h
  obtain ⟨hkind, h⟩ := Bool.and_eq_true_iff.mp h
  obtain ⟨⟨first, room⟩, hfirst, h⟩ := (Option.any_eq_true _ _).mp h
  obtain ⟨hroom, h⟩ := Bool.and_eq_true_iff.mp h
  obtain rfl : room = true := hroom
  obtain ⟨e, he, h⟩ := (Option.any_eq_true _ _).mp h
  obtain ⟨⟨late, known⟩, hlate, h⟩ := List.any_eq_true.mp h
  obtain ⟨hknown, hlt⟩ := Bool.and_eq_true_iff.mp h
  obtain rfl : known = true := hknown
  exact ⟨r, hr, of_decide_eq_true hkind, first, hfirst, e, he, late, hlate, of_decide_eq_true hlt⟩

end Sample

/-- The lookup of the peer is in flight, with an initiation that waits. -/
theorem Reachable.initiations_in_order_overtaken :
    ∃ (w : World capacities Draws Permit) (r : InflightResolve) (first : Noise.ConsumedInitiation)
      (e : PendingInitiation), Reachable capacities (engine 1 []) w ∧ r ∈ w.core.resolves ∧
      (∀ later earlier, w.log = later ++ earlier → ∀ p, (admissionsOf p earlier).Pairwise Follows) ∧
      (w.core.takePendingInitiation r.id).1 = some e ∧
      Newest (authenticatedSince r.id first.sPubI w.log) e.consumed := by
  obtain ⟨w, hw, htest⟩ := reachable_of_replay overtaken_run
  obtain ⟨r, hr, hkind, first, hfirst, -⟩ := of_overtaken htest
  obtain ⟨horder, hwaiting⟩ := hw.initiations_in_order
  obtain ⟨first', room, hfirst', -, hnewest⟩ := hwaiting r hr hkind
  rw [hfirst] at hfirst'
  cases hfirst'
  obtain ⟨e, he, hmost⟩ := hnewest rfl
  exact ⟨w, r, first, e, hw, hr, horder, he, hmost⟩

/-- A peer that is installed by another lookup while its own is in flight has its initiations
answered, and the one that waits is not the newest any more. -/
theorem Reachable.initiations_overtaken :
    ∃ (w : World capacities Draws Permit) (r : InflightResolve)
      (first late : Noise.ConsumedInitiation) (e : PendingInitiation),
      Reachable capacities (engine 1 []) w ∧ r ∈ w.core.resolves ∧
      r.kind = .install .authenticatedInitiator ∧ seeker r.id w.log = some (first, true) ∧
      (w.core.takePendingInitiation r.id).1 = some e ∧
      (late, true) ∈ authenticatedSince r.id first.sPubI w.log ∧
      e.consumed.timestamp.toList < late.timestamp.toList := by
  obtain ⟨w, hw, htest⟩ := reachable_of_replay overtaken_run
  obtain ⟨r, hr, hkind, first, hfirst, e, he, late, hlate, hlt⟩ := of_overtaken htest
  exact ⟨w, r, first, late, e, hw, hr, hkind, hfirst, he, hlate, hlt⟩

end

end Microtun
