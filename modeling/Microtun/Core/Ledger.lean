import Microtun.Core.Links

/-! What the log of a run says about the sessions.  The counters that were sealed and accepted under
a session are those that the session itself counts, and what was sealed, was sealed in time. -/

namespace Microtun

open Function (update update_self update_of_ne)

/-! ### The marks -/

section

variable {serial : Nat} {marks : List Event}

theorem sealsOf_cons_sealed (record : Seal) : sealsOf serial (.sealed record :: marks) =
    if record.serial = serial then record.counter :: sealsOf serial marks
    else sealsOf serial marks := by
  unfold sealsOf
  rw [List.filterMap_cons]
  split <;> simp_all

theorem acceptsOf_cons_accepted (serial' counter : Nat) :
    acceptsOf serial (.accepted serial' counter :: marks) =
      if serial' = serial then counter :: acceptsOf serial marks else acceptsOf serial marks := by
  unfold acceptsOf
  rw [List.filterMap_cons]
  split <;> simp_all

end

namespace Tables

variable {cap : Capacities} {t t' : Tables cap}

/-- What is true of every seal in the log. -/
structure TimelySeal (record : Seal) : Prop where
  counter : record.counter < rejectAfterMessages
  confirmed : record.confirmed = true
  age : record.age < rejectAfterTime
  carried : record.CarriesCounter

/-- The log agrees with the sessions. -/
structure Ledger [Crypto] (t : Tables cap) : Prop where
  words : 0 < cap.replayWords
  serial : ∀ s sess, t.slot s = .established sess → sess.serial < t.established
  distinct : ∀ r s sess sess', t.slot r = .established sess → t.slot s = .established sess' →
    sess.serial = sess'.serial → r = s
  fresh : ∀ n, t.established ≤ n → sealsOf n t.marks = [] ∧ acceptsOf n t.marks = []
  seals : ∀ s sess, t.slot s = .established sess →
    sealsOf sess.serial t.marks = (List.range sess.nSend).reverse
  accepts : ∀ s sess, t.slot s = .established sess →
    sess.replay.Tracks (acceptsOf sess.serial t.marks)
  consecutive : ∀ n, ∃ k, sealsOf n t.marks = (List.range k).reverse
  timely : ∀ record, .sealed record ∈ t.marks → TimelySeal record
  relayed : Crypto.SealsDatagrams → ∀ later serial n earlier,
    t.marks = later ++ .relayFailed serial n :: earlier → (sealsOf serial earlier).length = n
  delivered : (deliveries t.marks).Nodup ∧
    ∀ d ∈ deliveries t.marks, d.2 ∈ acceptsOf d.1 t.marks
  faultless : ∀ site, .fault site ∉ t.marks

variable [Crypto]

/-- Sessions go, or change in what the log does not tell. -/
theorem Ledger.slots (h : Ledger t)
    (hslot : ∀ s sess', t'.slot s = .established sess' → ∃ sess, t.slot s = .established sess ∧
      sess'.serial = sess.serial ∧ sess'.nSend = sess.nSend ∧ sess'.replay = sess.replay)
    (hmarks : t'.marks = t.marks) (hest : t'.established = t.established) : Ledger t' := by
  refine ⟨h.words, fun s sess' hs => ?_, fun r s sess sess' hr hs heq => ?_, ?_, fun s sess' hs =>
    ?_, fun s sess' hs => ?_, ?_, ?_, ?_, ?_, ?_⟩
  · obtain ⟨sess, hsess, hserial, -, -⟩ := hslot s sess' hs
    rw [hserial, hest]
    exact h.serial s sess hsess
  · obtain ⟨sess₁, h₁, hs₁, -, -⟩ := hslot r sess hr
    obtain ⟨sess₂, h₂, hs₂, -, -⟩ := hslot s sess' hs
    exact h.distinct r s sess₁ sess₂ h₁ h₂ (by rw [← hs₁, ← hs₂, heq])
  · rw [hest, hmarks]
    exact h.fresh
  · obtain ⟨sess, hsess, hserial, hn, -⟩ := hslot s sess' hs
    rw [hserial, hn, hmarks]
    exact h.seals s sess hsess
  · obtain ⟨sess, hsess, hserial, -, hr⟩ := hslot s sess' hs
    rw [hserial, hr, hmarks]
    exact h.accepts s sess hsess
  · rw [hmarks]
    exact h.consecutive
  · rw [hmarks]
    exact h.timely
  · rw [hmarks]
    exact h.relayed
  · rw [hmarks]
    exact h.delivered
  · rw [hmarks]
    exact h.faultless

theorem Ledger.congr (h : Ledger t) (hslot : t'.slot = t.slot) (hmarks : t'.marks = t.marks)
    (hest : t'.established = t.established) : Ledger t' :=
  h.slots (fun _ sess' hs => ⟨sess', hslot ▸ hs, rfl, rfl, rfl⟩) hmarks hest

/-- One slot stops holding a session, or its session changes in what the log does not tell. -/
theorem Ledger.setSlot (h : Ledger t) {s : Nat} {x : Slot cap.replayWords}
    (hx : ∀ sess', x = .established sess' → ∃ sess, t.slot s = .established sess ∧
      sess'.serial = sess.serial ∧ sess'.nSend = sess.nSend ∧ sess'.replay = sess.replay)
    (hslot : t'.slot = update t.slot s x) (hmarks : t'.marks = t.marks)
    (hest : t'.established = t.established) : Ledger t' := by
  refine h.slots (fun r sess' hr => ?_) hmarks hest
  rw [hslot] at hr
  by_cases hrs : r = s
  · subst hrs
    rw [update_self] at hr
    exact hx sess' hr
  · rw [update_of_ne hrs] at hr
    exact ⟨sess', hr, rfl, rfl, rfl⟩

omit [Crypto] in
theorem established_update {s : Nat} {sess : Session cap.replayWords} (r : Nat)
    (sess' : Session cap.replayWords)
    (hr : update t.slot s (.established sess) r = .established sess') :
    (r = s ∧ sess' = sess) ∨ (r ≠ s ∧ t.slot r = .established sess') := by
  by_cases hrs : r = s
  · rw [hrs, update_self] at hr
    exact Or.inl ⟨hrs, (Slot.established.inj hr).symm⟩
  · rw [update_of_ne hrs] at hr
    exact Or.inr ⟨hrs, hr⟩

theorem Ledger.establish (h : Ledger t) {s p now : Nat} {sess : Session cap.replayWords}
    {role : Role} (hsess : sess.Opened p now t.established role)
    (hslot : t'.slot = update t.slot s (.established sess)) (hmarks : t'.marks = t.marks)
    (hest : t'.established = t.established + 1) : Ledger t' := by
  have hof : ∀ r sess', t'.slot r = .established sess' →
      (r = s ∧ sess' = sess) ∨ (r ≠ s ∧ t.slot r = .established sess') := by
    rw [hslot]
    exact established_update
  have hnone := h.fresh t.established le_rfl
  refine ⟨h.words, fun r sess' hr => ?_, fun r r' sess₁ sess₂ hr hr' heq => ?_, fun n hn => ?_,
    fun r sess' hr => ?_, fun r sess' hr => ?_, ?_, ?_, ?_, ?_, ?_⟩
  · rw [hest]
    rcases hof r sess' hr with ⟨-, rfl⟩ | ⟨-, hr⟩
    · rw [hsess.serial]
      exact Nat.lt_succ_self _
    · exact Nat.lt_succ_of_lt (h.serial r sess' hr)
  · rcases hof r sess₁ hr with ⟨rfl, rfl⟩ | ⟨-, hr⟩
    · rcases hof r' sess₂ hr' with ⟨rfl, rfl⟩ | ⟨-, hr'⟩
      · rfl
      · have := h.serial r' sess₂ hr'
        rw [← heq, hsess.serial] at this
        exact absurd this (lt_irrefl _)
    · rcases hof r' sess₂ hr' with ⟨rfl, rfl⟩ | ⟨-, hr'⟩
      · have := h.serial r sess₁ hr
        rw [heq, hsess.serial] at this
        exact absurd this (lt_irrefl _)
      · exact h.distinct r r' sess₁ sess₂ hr hr' heq
  · rw [hmarks]
    exact h.fresh n (by omega)
  · rw [hmarks]
    rcases hof r sess' hr with ⟨-, rfl⟩ | ⟨-, hr⟩
    · rw [hsess.serial, hnone.1, hsess.nSend]
      rfl
    · exact h.seals r sess' hr
  · rw [hmarks]
    rcases hof r sess' hr with ⟨-, rfl⟩ | ⟨-, hr⟩
    · rw [hsess.serial, hnone.2, hsess.replay]
      exact ReplayWindow.Tracks.new _
    · exact h.accepts r sess' hr
  · rw [hmarks]
    exact h.consecutive
  · rw [hmarks]
    exact h.timely
  · rw [hmarks]
    exact h.relayed
  · rw [hmarks]
    exact h.delivered
  · rw [hmarks]
    exact h.faultless

omit [Crypto] in
theorem relayed_cons {e : Event} {marks : List Event}
    (h : ∀ later serial n earlier, marks = later ++ .relayFailed serial n :: earlier →
      (sealsOf serial earlier).length = n)
    (he : ∀ serial n, e = .relayFailed serial n → (sealsOf serial marks).length = n) :
    ∀ later serial n earlier, e :: marks = later ++ .relayFailed serial n :: earlier →
      (sealsOf serial earlier).length = n := by
  intro later serial n earlier heq
  cases later with
  | nil =>
    obtain ⟨rfl, rfl⟩ : e = .relayFailed serial n ∧ marks = earlier := by simpa using heq
    exact he serial n rfl
  | cons e' later =>
    obtain ⟨-, hmarks⟩ : e = e' ∧ marks = later ++ .relayFailed serial n :: earlier := by
      simpa using heq
    exact h later serial n earlier hmarks

theorem Ledger.distinct_update (h : Ledger t) {s : Nat} {sess sess' : Session cap.replayWords}
    (hs : t.slot s = .established sess) (hserial : sess'.serial = sess.serial) (r r' : Nat)
    (x y : Session cap.replayWords) (hr : update t.slot s (.established sess') r = .established x)
    (hr' : update t.slot s (.established sess') r' = .established y) (heq : x.serial = y.serial) :
    r = r' := by
  rcases established_update r x hr with ⟨rfl, rfl⟩ | ⟨-, hx⟩
  · rcases established_update r' y hr' with ⟨rfl, -⟩ | ⟨-, hy⟩
    · rfl
    · exact h.distinct _ _ _ _ hs hy (hserial.symm.trans heq)
  · rcases established_update r' y hr' with ⟨rfl, rfl⟩ | ⟨-, hy⟩
    · exact h.distinct _ _ _ _ hx hs (heq.trans hserial)
    · exact h.distinct _ _ _ _ hx hy heq

theorem Ledger.sealed (h : Ledger t) {s now : Nat} {sess : Session cap.replayWords} {record : Seal}
    (hs : t.slot s = .established sess) (hsend : sess.canSend now = true)
    (hserial : record.serial = sess.serial) (hcounter : record.counter = sess.nSend)
    (hconf : record.confirmed = sess.confirmed)
    (hage : record.age = saturatingSince now sess.created) (hseal : record.CarriesCounter) :
    Ledger ((t.setSlot s (.established { sess with nSend := sess.nSend + 1 })).mark
      (.sealed record)) := by
  have hof : ∀ r sess', update t.slot s (.established { sess with nSend := sess.nSend + 1 }) r =
      .established sess' → (r = s ∧ sess' = { sess with nSend := sess.nSend + 1 }) ∨
        (r ≠ s ∧ t.slot r = .established sess') := established_update
  have hnew : sealsOf sess.serial (.sealed record :: t.marks) =
      (List.range (sess.nSend + 1)).reverse := by
    rw [sealsOf_cons_sealed, if_pos hserial, hcounter, h.seals s sess hs, List.range_succ,
      List.reverse_append]
    rfl
  have hold : ∀ n, n ≠ sess.serial → sealsOf n (.sealed record :: t.marks) = sealsOf n t.marks := by
    intro n hn
    rw [sealsOf_cons_sealed, if_neg (by rw [hserial]; exact Ne.symm hn)]
  have hne : ∀ {r sess'}, r ≠ s → t.slot r = .established sess' → sess'.serial ≠ sess.serial :=
    fun hrs hr heq => hrs (h.distinct _ _ _ _ hr hs heq)
  refine ⟨h.words, fun r sess' hr => ?_, fun r r' sess₁ sess₂ hr hr' heq => ?_, fun n hn => ?_,
    fun r sess' hr => ?_, fun r sess' hr => ?_, fun n => ?_, fun record' hmem => ?_,
    fun hlaw => relayed_cons (h.relayed hlaw) (by rintro _ _ ⟨⟩), h.delivered, fun site hmem => ?_⟩
  · rcases hof r sess' hr with ⟨-, rfl⟩ | ⟨-, hr⟩
    · exact h.serial s sess hs
    · exact h.serial r sess' hr
  · exact h.distinct_update hs (by rfl) r r' sess₁ sess₂ hr hr' heq
  · have hn' : n ≠ sess.serial := by
      have hlt := h.serial s sess hs
      have hle : t.established ≤ n := hn
      omega
    exact ⟨(hold n hn').trans (h.fresh n hn).1, (h.fresh n hn).2⟩
  · rcases hof r sess' hr with ⟨-, rfl⟩ | ⟨hrs, hr⟩
    · exact hnew
    · exact (hold _ (hne hrs hr)).trans (h.seals r sess' hr)
  · rcases hof r sess' hr with ⟨-, rfl⟩ | ⟨-, hr⟩
    · exact h.accepts s sess hs
    · exact h.accepts r sess' hr
  · by_cases hn : n = sess.serial
    · rw [hn]
      exact ⟨_, hnew⟩
    · obtain ⟨k, hk⟩ := h.consecutive n
      exact ⟨k, (hold n hn).trans hk⟩
  · rcases List.mem_cons.mp hmem with heq | hmem
    · cases heq
      simp only [Session.canSend, Session.expired, Bool.and_eq_true, Bool.not_eq_true',
        decide_eq_false_iff_not, not_or] at hsend
      refine ⟨?_, hconf.trans hsend.2, ?_, hseal⟩
      · rw [hcounter]
        exact Nat.lt_of_not_le hsend.1.2
      · rw [hage]
        exact Nat.lt_of_not_le hsend.1.1
    · exact h.timely record' hmem
  · rcases List.mem_cons.mp hmem with heq | hmem
    · cases heq
    · exact h.faultless site hmem

/-- A datagram is checked against the replay window of the session of a slot. -/
theorem Ledger.checked (h : Ledger t) {s counter : Nat} {sess : Session cap.replayWords}
    {replay : ReplayWindow cap.replayWords} {ok : Bool} (hs : t.slot s = .established sess)
    (hcheck : sess.replay.checkAndUpdate counter = (ok, replay))
    (hslot : t'.slot = update t.slot s (.established { sess with replay }))
    (hmarks : t'.marks = if ok then .accepted sess.serial counter :: t.marks else t.marks)
    (hest : t'.established = t.established) : Ledger t' := by
  have hof : ∀ r sess', t'.slot r = .established sess' →
      (r = s ∧ sess' = { sess with replay }) ∨ (r ≠ s ∧ t.slot r = .established sess') := by
    rw [hslot]
    exact established_update
  have hne : ∀ {r sess'}, r ≠ s → t.slot r = .established sess' → sess'.serial ≠ sess.serial :=
    fun hrs hr heq => hrs (h.distinct _ _ _ _ hr hs heq)
  have hseals : ∀ n, sealsOf n t'.marks = sealsOf n t.marks := by
    intro n
    rw [hmarks]
    split <;> rfl
  have hdeliveries : deliveries t'.marks = deliveries t.marks := by
    rw [hmarks]
    split <;> rfl
  have hnew : acceptsOf sess.serial t'.marks =
      if ok then counter :: acceptsOf sess.serial t.marks else acceptsOf sess.serial t.marks := by
    rw [hmarks]
    split
    · rw [acceptsOf_cons_accepted, if_pos rfl]
    · rfl
  have hold : ∀ n, n ≠ sess.serial → acceptsOf n t'.marks = acceptsOf n t.marks := by
    intro n hn
    rw [hmarks]
    split
    · rw [acceptsOf_cons_accepted, if_neg (Ne.symm hn)]
    · rfl
  have hmem : ∀ e, (∀ serial counter, e ≠ .accepted serial counter) → e ∈ t'.marks →
      e ∈ t.marks := by
    intro e he hmem
    rw [hmarks] at hmem
    split at hmem
    · rcases List.mem_cons.mp hmem with rfl | hmem
      · exact absurd rfl (he _ _)
      · exact hmem
    · exact hmem
  refine ⟨h.words, fun r sess' hr => ?_, fun r r' sess₁ sess₂ hr hr' heq => ?_, fun n hn => ?_,
    fun r sess' hr => ?_, fun r sess' hr => ?_, fun n => ?_, fun record' hr => ?_, fun hlaw => ?_,
    ⟨hdeliveries ▸ h.delivered.1, fun d hd => ?_⟩, fun site hf => ?_⟩
  · rw [hest]
    rcases hof r sess' hr with ⟨-, rfl⟩ | ⟨-, hr⟩
    · exact h.serial s sess hs
    · exact h.serial r sess' hr
  · rw [hslot] at hr hr'
    exact h.distinct_update hs (by rfl) r r' sess₁ sess₂ hr hr' heq
  · rw [hest] at hn
    have hn' : n ≠ sess.serial := by
      have hlt := h.serial s sess hs
      omega
    exact ⟨(hseals n).trans (h.fresh n hn).1, (hold n hn').trans (h.fresh n hn).2⟩
  · rw [hseals]
    rcases hof r sess' hr with ⟨-, rfl⟩ | ⟨-, hr⟩
    · exact h.seals s sess hs
    · exact h.seals r sess' hr
  · rcases hof r sess' hr with ⟨-, rfl⟩ | ⟨hrs, hr⟩
    · have hstep := ((h.accepts s sess hs).step h.words counter).2
      rw [hcheck] at hstep
      exact hnew ▸ hstep
    · rw [hold _ (hne hrs hr)]
      exact h.accepts r sess' hr
  · rw [hseals]
    exact h.consecutive n
  · exact h.timely record' (hmem _ (by rintro _ _ ⟨⟩) hr)
  · rw [hmarks]
    split
    · exact relayed_cons (h.relayed hlaw) (by rintro _ _ ⟨⟩)
    · exact h.relayed hlaw
  · rw [hdeliveries] at hd
    have hold' := h.delivered.2 d hd
    by_cases hn : d.1 = sess.serial
    · rw [hn] at hold' ⊢
      rw [hnew]
      split
      · exact List.mem_cons_of_mem _ hold'
      · exact hold'
    · rw [hold _ hn]
      exact hold'
  · exact h.faultless site (hmem _ (by rintro _ _ ⟨⟩) hf)

theorem Ledger.relayFailed (h : Ledger t) {serial n : Nat}
    (hn : Crypto.SealsDatagrams → (sealsOf serial t.marks).length = n) :
    Ledger (t.mark (.relayFailed serial n)) := by
  refine ⟨h.words, h.serial, h.distinct, h.fresh, h.seals, h.accepts, h.consecutive,
    fun record hmem => ?_, fun hlaw => relayed_cons (h.relayed hlaw) ?_, h.delivered,
    fun site hmem => ?_⟩
  · rcases List.mem_cons.mp hmem with heq | hmem
    · cases heq
    · exact h.timely record hmem
  · rintro _ _ ⟨⟩
    exact hn hlaw
  · rcases List.mem_cons.mp hmem with heq | hmem
    · cases heq
    · exact h.faultless site hmem

theorem Ledger.deliver (h : Ledger t) {serial counter : Nat} {key : Key}
    {endpoint : Option SocketAddr} {packet : List UInt8}
    (hnot : (serial, counter) ∉ deliveries t.marks) (hacc : counter ∈ acceptsOf serial t.marks) :
    Ledger (t.mark (.innerPacket serial counter key endpoint packet)) := by
  refine ⟨h.words, h.serial, h.distinct, h.fresh, h.seals, h.accepts, h.consecutive,
    fun record hmem => ?_, fun hlaw => relayed_cons (h.relayed hlaw) (by rintro _ _ ⟨⟩),
    ⟨?_, fun d hd => ?_⟩, fun site hmem => ?_⟩
  · rcases List.mem_cons.mp hmem with heq | hmem
    · cases heq
    · exact h.timely record hmem
  · exact List.nodup_cons.mpr ⟨hnot, h.delivered.1⟩
  · rcases List.mem_cons.mp (show d ∈ (serial, counter) :: deliveries t.marks from hd) with rfl | hd
    · exact hacc
    · exact h.delivered.2 d hd
  · rcases List.mem_cons.mp hmem with heq | hmem
    · cases heq
    · exact h.faultless site hmem

theorem Ledger.step (h : Ledger t) {now : Nat} {scope : Scope} (hstep : Step now scope t t') :
    Ledger t' := by
  cases hstep with
  | clear s => exact h.setSlot (s := s) (x := .free) (by rintro _ ⟨⟩) rfl rfl rfl
  | @initiate _ p s d m i _ _ _ _ _ _ _ _ =>
    exact h.setSlot (s := s) (x := .initiating i) (by rintro _ ⟨⟩) rfl rfl rfl
  | @retry _ s i i' _ _ _ _ _ _ =>
    exact h.setSlot (s := s) (x := .initiating i') (by rintro _ ⟨⟩) rfl rfl rfl
  | respond _ _ _ _ hsess _ => exact h.establish hsess rfl rfl rfl
  | complete _ _ _ _ _ hsess _ => exact h.establish hsess rfl rfl rfl
  | @confirm _ p s m sess _ hs _ _ =>
    refine h.setSlot (s := s) (x := .established { sess with confirmed := true }) ?_ rfl rfl rfl
    rintro _ ⟨⟩
    exact ⟨sess, hs, rfl, rfl, rfl⟩
  | @noteRekey _ s sess hs b =>
    refine h.setSlot (s := s) (x := .established { sess with rekeyTriggered := b }) ?_ rfl rfl rfl
    rintro _ ⟨⟩
    exact ⟨sess, hs, rfl, rfl, rfl⟩
  | sealed hs hsend hserial hcounter hconf hage hseal =>
    exact h.sealed hs hsend hserial hcounter hconf hage hseal
  | accept hs hfresh => exact h.checked hs hfresh rfl rfl rfl
  | reject hs hstale => exact h.checked hs hstale rfl rfl rfl
  | deliver hnot hacc => exact h.deliver hnot hacc
  | relayFailed hn => exact h.relayFailed hn
  | _ => exact h.congr rfl rfl rfl

end Tables

end Microtun
