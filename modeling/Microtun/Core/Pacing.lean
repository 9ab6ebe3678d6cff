import Microtun.Core.Clocks

/-! What a run says about the pace of a peer: a persistent keepalive that a peer has stays armed,
and a retransmission comes no sooner than the rekey timeout after the initiation before it. -/

namespace Microtun

open Function (update update_self update_of_ne)

/-- The initiations that were built for a peer since it was installed, latest first. -/
def initiationsOf (p : Nat) : List Event → List Nat
  | [] => []
  | .initiation q now _ :: rest =>
    if q = p then now :: initiationsOf p rest else initiationsOf p rest
  | .installed q :: rest => if q = p then [] else initiationsOf p rest
  | _ :: rest => initiationsOf p rest

/-- The second instant is no sooner than the rekey timeout after the first. -/
def Apart (later earlier : Nat) : Prop := saturatingAdd earlier rekeyTimeout ≤ later

/-- No retransmission came too close to an initiation before it. -/
def Spaced (log : List Event) : Prop :=
  ∀ later p now earlier, log = later ++ .initiation p now false :: earlier →
    ∀ n ∈ initiationsOf p earlier, Apart now n

theorem Spaced.cons {e : Event} {log : List Event} (h : Spaced log)
    (he : ∀ p now, e = .initiation p now false → ∀ n ∈ initiationsOf p log, Apart now n) :
    Spaced (e :: log) := by
  intro later p now earlier heq
  cases later with
  | nil =>
    obtain ⟨rfl, rfl⟩ := List.cons.inj heq
    exact he p now rfl
  | cons x later => exact h later p now earlier (List.cons.inj heq).2

theorem Apart.trans_le {a b c : Nat} (h : Apart b a) (hle : b ≤ c) : Apart c a := le_trans h hle

theorem Apart.of_le {a b c : Nat} (h : Apart c b) (hle : a ≤ b) : Apart c a :=
  le_trans (min_le_min_right _ (Nat.add_le_add_right hle _)) h

namespace Tables

variable {cap : Capacities} {t t' : Tables cap} {now : Nat} {scope : Scope}

/-- At an instant: attempts in flight know when they may be retried, and every retransmission so far
kept to it. -/
structure Paced (now : Nat) (t : Tables cap) : Prop where
  past : ∀ p, ∀ n ∈ initiationsOf p t.attempts, n ≤ now
  retry : ∀ s h, t.slot s = .initiating h → ∀ n ∈ initiationsOf h.peer t.attempts, Apart h.retryAt n
  spaced : Spaced t.attempts

theorem Paced.mono {later : Nat} (h : Paced now t) (hle : now ≤ later) : Paced later t :=
  ⟨fun p n hn => le_trans (h.past p n hn) hle, h.retry, h.spaced⟩

theorem Paced.congr (h : Paced now t) (hattempts : t'.attempts = t.attempts)
    (hslot : ∀ s x, t'.slot s = .initiating x → t.slot s = .initiating x) : Paced now t' :=
  ⟨hattempts ▸ h.past, fun s x hs => hattempts ▸ h.retry s x (hslot s x hs), hattempts ▸ h.spaced⟩

/-- A slot that is given another content is no attempt unless the content is one. -/
theorem initiating_update {s : Nat} {y : Slot cap.replayWords} (hy : ∀ x, y ≠ .initiating x)
    {r : Nat} {x : Initiating} (h : update t.slot s y r = .initiating x) :
    t.slot r = .initiating x := by
  by_cases hr : r = s
  · rw [hr, update_self] at h
    exact absurd h (hy x)
  · rwa [update_of_ne hr] at h

theorem Links.attempt_unique (h : Links t) {r s : Nat} {x y : Initiating}
    (hr : t.slot r = .initiating x) (hs : t.slot s = .initiating y) (hp : x.peer = y.peer) :
      r = s := by
  have hrheld : (t.slot r).holder = some (y.peer, .handshake) := by
    rw [hr, ← hp]
    rfl
  have hsheld : (t.slot s).holder = some (y.peer, .handshake) := by
    rw [hs]
    rfl
  obtain ⟨m, hm⟩ := Option.isSome_iff_exists.mp (h.held s y.peer .handshake hsheld)
  have hrl := (h.linked _ m hm r .handshake).mpr hrheld
  have hsl := (h.linked _ m hm s .handshake).mpr hsheld
  exact Option.some.inj (hrl.symm.trans hsl)

theorem Paced.built (h : Paced now t) (p : Nat) (fresh : Bool) :
    ∀ q, ∀ n ∈ initiationsOf q (.initiation p now fresh :: t.attempts), n ≤ now := by
  intro q n hn
  rw [initiationsOf] at hn
  split at hn
  · rcases List.mem_cons.mp hn with rfl | hn
    · exact le_rfl
    · exact h.past q n hn
  · exact h.past q n hn

variable [Crypto]

theorem Paced.step (h : Paced now t) (hl : Links t) (hstep : Step now scope t t') :
    Paced now t' := by
  cases hstep with
  | clear s => exact h.congr rfl fun r x => initiating_update (by rintro _ ⟨⟩)
  | @initiate _ p s d m x hp hh hs hi howner hretry hpace hd =>
    refine ⟨h.built p true, fun r y hy n hn => ?_, h.spaced.cons (by rintro _ _ ⟨⟩)⟩
    change update t.slot s (.initiating x) r = .initiating y at hy
    change n ∈ initiationsOf y.peer (.initiation p now true :: t.attempts) at hn
    by_cases hr : r = s
    · rw [hr, update_self] at hy
      obtain rfl := Slot.initiating.inj hy
      exact Apart.of_le hpace (h.built p true _ n hn)
    · rw [update_of_ne hr] at hy
      have hne : p ≠ y.peer := by
        -- The peer has no other attempt.
        intro hpy
        have hheld : (t.slot r).holder = some (p, .handshake) := by rw [hy, hpy]; rfl
        have : m.sessions.handshake = some r := (hl.linked p m hp r .handshake).mpr hheld
        rw [hh] at this
        cases this
      rw [initiationsOf, if_neg hne] at hn
      exact h.retry r y hy n hn
  | @retry _ s x x' hs hdue hpeer hi hretry hpace =>
    refine ⟨h.built x.peer false, fun r y hy n hn => ?_, h.spaced.cons ?_⟩
    · change update t.slot s (.initiating x') r = .initiating y at hy
      change n ∈ initiationsOf y.peer (.initiation x.peer now false :: t.attempts) at hn
      by_cases hr : r = s
      · rw [hr, update_self] at hy
        obtain rfl := Slot.initiating.inj hy
        exact Apart.of_le hpace (h.built x.peer false _ n hn)
      · rw [update_of_ne hr] at hy
        have hne : x.peer ≠ y.peer := fun hp => hr (hl.attempt_unique hy hs hp.symm)
        rw [initiationsOf, if_neg hne] at hn
        exact h.retry r y hy n hn
    · rintro p time heq n hn
      cases heq
      exact (h.retry s x hs n hn).trans_le hdue
  | @pass _ p _ ts _ _ _ =>
    -- Nothing begins, and the mark is about an initiation of the peer's own.
    exact ⟨h.past, h.retry, h.spaced.cons (by rintro _ _ ⟨⟩)⟩
  | respond _ _ _ _ _ _ => exact h.congr rfl fun r x => initiating_update (by rintro _ ⟨⟩)
  | complete _ _ _ _ _ _ _ => exact h.congr rfl fun r x => initiating_update (by rintro _ ⟨⟩)
  | confirm _ _ _ _ => exact h.congr rfl fun r x => initiating_update (by rintro _ ⟨⟩)
  | noteRekey _ _ => exact h.congr rfl fun r x => initiating_update (by rintro _ ⟨⟩)
  | sealed _ _ _ _ _ _ _ => exact h.congr rfl fun r x => initiating_update (by rintro _ ⟨⟩)
  | accept _ _ => exact h.congr rfl fun r x => initiating_update (by rintro _ ⟨⟩)
  | reject _ _ => exact h.congr rfl fun r x => initiating_update (by rintro _ ⟨⟩)
  | @install _ p m hp _ _ _ _ _ =>
    have hinstalled : ∀ q, ∀ n ∈ initiationsOf q (.installed p :: t.attempts),
        n ∈ initiationsOf q t.attempts := by
      intro q n hn
      rw [initiationsOf] at hn
      split at hn
      · cases hn
      · exact hn
    exact ⟨fun q n hn => h.past q n (hinstalled q n hn),
      fun r y hy n hn => h.retry r y hy n (hinstalled y.peer n hn),
        h.spaced.cons (by rintro _ _ ⟨⟩)⟩
  | _ => exact h.congr rfl fun _ _ hx => hx

omit [Crypto] in
theorem kept_update {p q : Nat} {m : Member} (h : t.Kept q)
    (hpeer : t'.peer = update t.peer p (some m)) (hm : p = q → m.Kept) : t'.Kept q := by
  intro m' hm'
  rw [hpeer] at hm'
  by_cases hq : q = p
  · rw [hq, update_self] at hm'
    rw [← Option.some.inj hm']
    exact hm hq.symm
  · rw [update_of_ne hq] at hm'
    exact h m' hm'

/-- The persistent keepalive of a peer is kept up by every step that may not stop it. -/
theorem Step.kept (hstep : Step now scope t t') {q : Nat} (hq : scope.lapses ≠ some q)
    (h : t.Kept q) : t'.Kept q := by
  cases hstep with
  | clear s =>
    intro m hm
    change (if (t.slot s).owner = some q then (t.peer q).map fun m => m.unlink s else t.peer q) =
      some m at hm
    split at hm
    · obtain ⟨m', hm', rfl⟩ := Option.map_eq_some_iff.mp hm
      show ((m'.sessions.unlink s).persistentKeepaliveDue).isSome = _
      rw [(unlink_timers m'.sessions s).2.1]
      exact h m' hm'
    · exact h m hm
  | @initiate _ p s d m x hp _ _ _ _ _ _ _ =>
    exact kept_update (p := p) h rfl fun hpq => h m (hpq ▸ hp)
  | @pass _ p m _ hp _ _ => exact kept_update (p := p) h rfl fun hpq => h m (hpq ▸ hp)
  | @respond _ p s m _ hp _ _ _ _ _ => exact kept_update (p := p) h rfl fun hpq => h m (hpq ▸ hp)
  | @complete _ p s m _ _ hp _ _ _ _ _ _ =>
    exact kept_update (p := p) h rfl fun hpq => h m (hpq ▸ hp)
  | @confirm _ p s m _ hp _ _ _ => exact kept_update (p := p) h rfl fun hpq => h m (hpq ▸ hp)
  | @timers _ p m _ pk _ hp _ _ _ hkeep =>
    refine kept_update (p := p) h rfl fun hpq => ?_
    rcases hkeep with hsame | hset
    · show pk.isSome = _
      rw [hsame]
      exact h m (hpq ▸ hp)
    · exact hset
  | @lapse _ p m hp => exact kept_update (p := p) h rfl fun hpq => absurd (congrArg some hpq) hq
  | @refresh _ p m policy relay interval pk hp _ _ _ hkeep =>
    refine kept_update (p := p) h rfl fun hpq => ?_
    rcases hkeep with ⟨rfl, rfl⟩ | hset
    · exact h m (hpq ▸ hp)
    · exact hset
  | @route _ p _ m _ _ hp _ _ _ _ _ => exact kept_update (p := p) h rfl fun hpq => h m (hpq ▸ hp)
  | @evict _ p _ _ _ _ _ _ _ _ _ =>
    intro m hm
    change update t.peer p none q = some m at hm
    by_cases hqp : q = p
    · rw [hqp, update_self] at hm
      cases hm
    · rw [update_of_ne hqp] at hm
      exact h m hm
  | @install _ p m _ _ _ _ _ hkeep => exact kept_update (p := p) h rfl fun _ => hkeep
  | _ => exact h

theorem Steps.kept (h : Steps now scope t t') {q : Nat} (hq : scope.lapses ≠ some q)
    (ht : t.Kept q) : t'.Kept q := by
  refine h.keeps (I := fun u => u.Kept q) (fun k u u' hle hstep hu => hstep.kept ?_ hu) ht
  intro hk
  rcases hle.2.2.2.2.2.1 with hnone | heq
  · rw [hnone] at hk
    cases hk
  · exact hq (heq ▸ hk)

end Tables

end Microtun
