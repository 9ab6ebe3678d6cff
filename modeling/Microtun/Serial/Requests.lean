import Microtun.Serial.Device

/-! Every request of the virtual serial device is answered once or waits for what it needs, and the
bytes go through in order. -/

namespace Microtun.Serial

/-! ### What came out -/

/-- The replies that have been used. -/
def answered (es : List Entry) : List Reply :=
  es.filterMap fun
    | .answer reply _ => some reply
    | _ => none

/-- The bytes that entered the receive queue. -/
def pushedRx (es : List Entry) : List UInt8 :=
  es.flatMap fun
    | .pushed bytes => bytes
    | _ => []

/-- The bytes that left the receive queue, returned to reads or flushed. -/
def leftRx (es : List Entry) : List UInt8 :=
  es.flatMap fun
    | .answer _ (.data bytes) => bytes
    | .flushedRx bytes => bytes
    | _ => []

/-- The bytes acknowledged to writers, where `data` gives what each of them wrote. -/
def acked (data : Reply → List UInt8) (es : List Entry) : List UInt8 :=
  es.flatMap fun
    | .answer reply (.written count) => (data reply).take count
    | _ => []

/-- The bytes that left the event queue, handed out or flushed. -/
def leftTx (es : List Entry) : List UInt8 :=
  es.flatMap fun
    | .handed (.data bytes) => bytes
    | .flushedTx bytes => bytes
    | _ => []

section
variable (es es' : List Entry) (e : Entry) (data : Reply → List UInt8)

@[simp] theorem answered_append : answered (es ++ es') = answered es ++ answered es' :=
  List.filterMap_append

@[simp] theorem pushedRx_append : pushedRx (es ++ es') = pushedRx es ++ pushedRx es' :=
  List.flatMap_append

@[simp] theorem leftRx_append : leftRx (es ++ es') = leftRx es ++ leftRx es' :=
  List.flatMap_append

@[simp] theorem acked_append : acked data (es ++ es') = acked data es ++ acked data es' :=
  List.flatMap_append

@[simp] theorem leftTx_append : leftTx (es ++ es') = leftTx es ++ leftTx es' :=
  List.flatMap_append

end

theorem acked_congr {d d' : Reply → List UInt8} {es : List Entry}
    (h : ∀ r ∈ answered es, d r = d' r) : acked d es = acked d' es := by
  induction es with
  | nil => rfl
  | cons e es ih =>
    have htail : acked d es = acked d' es := by
      refine ih fun r hr => h r ?_
      rw [answered, List.mem_filterMap] at hr ⊢
      obtain ⟨e', he', hr⟩ := hr
      exact ⟨e', List.mem_cons_of_mem e he', hr⟩
    show _ ++ acked d es = _ ++ acked d' es
    rw [htail]
    cases e with
    | answer r a => cases a <;> simp [h r (by simp [answered])]
    | _ => rfl

@[simp] theorem queued_append (a b : List DeviceEvent) : queued (a ++ b) = queued a ++ queued b :=
  List.flatMap_append

@[simp] theorem queued_data (bytes : List UInt8) : queued [.data bytes] = bytes := by
  simp [queued]

theorem queued_filter_data (events : List DeviceEvent) :
    queued (events.filter fun event => !event.isData) = [] := by
  induction events with
  | nil => rfl
  | cons e events ih => cases e <;> simpa [queued, DeviceEvent.isData] using ih

namespace State

/-- The replies of the parked requests. -/
def parked (s : State) : List Reply :=
  s.reads.map (·.reply) ++ s.writes.map (·.reply) ++ s.ioctls.map (·.reply)

/-! ### Changes of settings -/

/-- Only settings change, and no data is queued. -/
structure Quiet (s s' : State) : Prop where
  stopping : s'.stopping = s.stopping
  rx : s'.rx = s.rx
  events : queued s'.events = queued s.events
  txBytes : s'.txBytes = s.txBytes
  reads : s'.reads = s.reads
  writes : s'.writes = s.writes
  ioctls : s'.ioctls = s.ioctls

theorem Quiet.refl (s : State) : Quiet s s := ⟨rfl, rfl, rfl, rfl, rfl, rfl, rfl⟩

theorem Quiet.trans {s s' s'' : State} (h : Quiet s s') (h' : Quiet s' s'') : Quiet s s'' where
  stopping := h'.stopping.trans h.stopping
  rx := h'.rx.trans h.rx
  events := h'.events.trans h.events
  txBytes := h'.txBytes.trans h.txBytes
  reads := h'.reads.trans h.reads
  writes := h'.writes.trans h.writes
  ioctls := h'.ioctls.trans h.ioctls

theorem quiet_push (s : State) {e : DeviceEvent} (he : queued [e] = []) : Quiet s (s.push e) := by
  refine ⟨rfl, rfl, ?_, rfl, rfl, rfl, rfl⟩
  show queued (s.events ++ [e]) = _
  rw [queued_append, he, List.append_nil]

theorem quiet_setIf (s : State) (changed : Bool) (set : SerialState → SerialState)
    {e : DeviceEvent} (he : queued [e] = []) : Quiet s (s.setIf changed set e) := by
  unfold setIf
  cases changed with
  | false => exact .refl s
  | true =>
    have hset : Quiet s { s with serial := set s.serial } := ⟨rfl, rfl, rfl, rfl, rfl, rfl, rfl⟩
    exact hset.trans (quiet_push _ he)

theorem quiet_sync (s : State) : Quiet s s.syncTermiosFromSerial :=
    ⟨rfl, rfl, rfl, rfl, rfl, rfl, rfl⟩

theorem quiet_applyLocalTermios (s : State) (next : Termios2) (baud : UInt32) :
    Quiet s (s.applyLocalTermios next baud) := by
  unfold applyLocalTermios
  refine .trans ?_ (quiet_sync _)
  refine .trans ?_ (quiet_setIf _ _ _ rfl)
  refine .trans ?_ (quiet_setIf _ _ _ rfl)
  refine .trans ?_ (quiet_setIf _ _ _ rfl)
  refine .trans ?_ (quiet_setIf _ _ _ rfl)
  refine .trans ?_ (quiet_setIf _ _ _ rfl)
  have hnext : Quiet s { s with termios := next } := ⟨rfl, rfl, rfl, rfl, rfl, rfl, rfl⟩
  refine hnext.trans ?_
  generalize { s with termios := next } = s
  have hhung : ∀ (s : State) (b : Bool), Quiet s { s with hungUp := b } :=
    fun s b => ⟨rfl, rfl, rfl, rfl, rfl, rfl, rfl⟩
  by_cases hbaud : baud = 0
  · simp only [if_pos hbaud]
    exact (quiet_setIf _ _ _ rfl).trans (hhung _ true)
  · simp only [if_neg hbaud]
    refine .trans ?_ (quiet_setIf _ _ _ rfl)
    cases hup : s.hungUp with
    | false => exact .refl s
    | true =>
      simp only [if_true]
      exact (hhung s false).trans (quiet_setIf _ _ _ rfl)

theorem quiet_setModemOutputs (s : State) (bits mask : Flags) :
    Quiet s (s.setModemOutputs bits mask) := by
  unfold setModemOutputs
  exact (quiet_setIf s _ _ rfl).trans (quiet_setIf _ _ _ rfl)

theorem quiet_remoteUpdate (s : State) (event : SerialEvent) : Quiet s (s.remoteUpdate event) := by
  unfold remoteUpdate
  refine .trans ?_ (quiet_sync _)
  cases event <;> exact ⟨rfl, rfl, rfl, rfl, rfl, rfl, rfl⟩

theorem quiet_sendBreak (s : State) : Quiet s ((s.push (.brk true)).push (.brk false)) :=
  (quiet_push s rfl).trans (quiet_push _ rfl)

theorem quiet_notifyPolls (s : State) : Quiet s s.notifyPolls.1 :=
    ⟨rfl, rfl, rfl, rfl, rfl, rfl, rfl⟩

/-! ### Accounts -/

/-- What a critical section takes in and lets out balances: every reply it is given or had parked is
used or parked, once, and the bytes go through both queues in order. -/
structure Accounts (data : Reply → List UInt8) (new : List Reply) (s s' : State)
    (es : List Entry) : Prop where
  settles : ∀ r, (answered es).count r + s'.parked.count r = s.parked.count r + new.count r
  rx : s.rx ++ pushedRx es = leftRx es ++ s'.rx
  tx : queued s.events ++ acked data es = leftTx es ++ queued s'.events

variable {data : Reply → List UInt8}

theorem Accounts.trans {new new' : List Reply} {s s' s'' : State} {es es' : List Entry}
    (h : Accounts data new s s' es) (h' : Accounts data new' s' s'' es') :
    Accounts data (new ++ new') s s'' (es ++ es') where
  settles r := by
    have h1 := h.settles r
    have h2 := h'.settles r
    rw [answered_append, List.count_append, List.count_append]
    omega
  rx := by
    rw [pushedRx_append, leftRx_append, ← List.append_assoc, h.rx, List.append_assoc, h'.rx,
      List.append_assoc]
  tx := by
    rw [acked_append, leftTx_append, ← List.append_assoc, h.tx, List.append_assoc, h'.tx,
      List.append_assoc]

theorem Quiet.parked {s s' : State} (h : Quiet s s') : s'.parked = s.parked := by
  rw [State.parked, h.reads, h.writes, h.ioctls]
  rfl

/-- A change of settings, and entries that use the replies given and carry no bytes. -/
theorem Quiet.accounts {s s' : State} (h : Quiet s s') {new : List Reply} {es : List Entry}
    (hes : answered es = new) (hpushed : pushedRx es = []) (hrx : leftRx es = [])
    (hacked : acked data es = []) (htx : leftTx es = []) : Accounts data new s s' es where
  settles r := by rw [hes, h.parked, Nat.add_comm]
  rx := by rw [hpushed, hrx, h.rx, List.append_nil, List.nil_append]
  tx := by rw [hacked, htx, h.events, List.append_nil, List.nil_append]

theorem Quiet.silent {s s' : State} (h : Quiet s s') : Accounts data [] s s' [] :=
  h.accounts rfl rfl rfl rfl rfl

theorem accounts_notifyPolls (s : State) : Accounts data [] s s.notifyPolls.1 s.notifyPolls.2 := by
  have hnone : ∀ (polls : List Nat), answered (polls.map .notify) = [] ∧
      pushedRx (polls.map .notify) = [] ∧ leftRx (polls.map .notify) = [] ∧
      acked data (polls.map .notify) = [] ∧ leftTx (polls.map .notify) = [] := by
    intro polls
    induction polls with
    | nil => exact ⟨rfl, rfl, rfl, rfl, rfl⟩
    | cons p polls ih => exact ih
  obtain ⟨h1, h2, h3, h4, h5⟩ := hnone s.polls
  exact (quiet_notifyPolls s).accounts h1 h2 h3 h4 h5

theorem accounts_clearRx (s : State) : Accounts data [] s s.clearRx.1 s.clearRx.2 where
  settles r := by simp [clearRx, answered, parked]
  rx := by simp [clearRx, pushedRx, leftRx]
  tx := by simp [clearRx, acked, leftTx]

theorem accounts_clearTxData (s : State) : Accounts data [] s s.clearTxData.1 s.clearTxData.2 where
  settles r := by simp [clearTxData, answered, parked]
  rx := by simp [clearTxData, pushedRx, leftRx]
  tx := by simp [clearTxData, acked, leftTx, queued_filter_data]

theorem accounts_applyTermios (s : State) (input : List UInt8) (termios2 flush : Bool) :
    Accounts data [] s (s.applyTermios input termios2 flush).2.1
      (s.applyTermios input termios2 flush).2.2 := by
  unfold applyTermios
  cases flush with
  | false =>
    simp only [Bool.false_eq_true, if_false]
    cases baudFromTermios (s.termios.copyPrefix input
      (if termios2 then Termios2.size else Termios2.legacyLen)) termios2 with
    | error errno => exact (Quiet.refl s).silent
    | ok baud => exact (quiet_applyLocalTermios s _ baud).silent
  | true =>
    have hclear : Accounts data [] s s.clearRx.1 s.clearRx.2 := accounts_clearRx s
    simp only [if_true]
    cases baudFromTermios (s.clearRx.1.termios.copyPrefix input
      (if termios2 then Termios2.size else Termios2.legacyLen)) termios2 with
    | error errno => exact hclear
    | ok baud => simpa using hclear.trans (quiet_applyLocalTermios s.clearRx.1 _ baud).silent

/-! ### Requests that wait -/

/-- The queues of parked requests are in order: the count of output bytes is right and within its
limit, and nothing waits for what is there. -/
structure Tidy (data : Reply → List UInt8) (s : State) : Prop where
  txBytes : s.txBytes = (queued s.events).length
  limit : s.txBytes ≤ txLimit
  reads : s.reads ≠ [] → s.rx = []
  writes : s.writes ≠ [] → s.txBytes = txLimit
  ioctls : s.ioctls ≠ [] → s.txBytes ≠ 0
  wrote : ∀ p ∈ s.writes, data p.reply = p.data

theorem Quiet.tidy {s s' : State} (h : Quiet s s') (hs : s.Tidy data) : s'.Tidy data where
  txBytes := by rw [h.txBytes, h.events, hs.txBytes]
  limit := h.txBytes ▸ hs.limit
  reads hne := h.rx ▸ hs.reads (h.reads ▸ hne)
  writes hne := h.txBytes ▸ hs.writes (h.writes ▸ hne)
  ioctls hne := h.txBytes ▸ hs.ioctls (h.ioctls ▸ hne)
  wrote p hp := hs.wrote p (h.writes ▸ hp)

/-- Settings change, and input may be flushed. -/
structure Flushes (s s' : State) : Prop where
  stopping : s'.stopping = s.stopping
  rx : s'.rx = s.rx ∨ s'.rx = []
  events : queued s'.events = queued s.events
  txBytes : s'.txBytes = s.txBytes
  reads : s'.reads = s.reads
  writes : s'.writes = s.writes
  ioctls : s'.ioctls = s.ioctls

theorem Quiet.flushes {s s' : State} (h : Quiet s s') : Flushes s s' :=
  ⟨h.stopping, .inl h.rx, h.events, h.txBytes, h.reads, h.writes, h.ioctls⟩

theorem Flushes.trans {s s' s'' : State} (h : Flushes s s') (h' : Flushes s' s'') :
    Flushes s s'' where
  stopping := h'.stopping.trans h.stopping
  rx := by
    cases h'.rx with
    | inl same =>
      rw [same]
      exact h.rx
    | inr empty => exact .inr empty
  events := h'.events.trans h.events
  txBytes := h'.txBytes.trans h.txBytes
  reads := h'.reads.trans h.reads
  writes := h'.writes.trans h.writes
  ioctls := h'.ioctls.trans h.ioctls

theorem Flushes.tidy {s s' : State} (h : Flushes s s') (hs : s.Tidy data) : s'.Tidy data where
  txBytes := by rw [h.txBytes, h.events, hs.txBytes]
  limit := h.txBytes ▸ hs.limit
  reads hne := by
    cases h.rx with
    | inl same => exact same ▸ hs.reads (h.reads ▸ hne)
    | inr empty => exact empty
  writes hne := h.txBytes ▸ hs.writes (h.writes ▸ hne)
  ioctls hne := h.txBytes ▸ hs.ioctls (h.ioctls ▸ hne)
  wrote p hp := hs.wrote p (h.writes ▸ hp)

theorem flushes_clearRx (s : State) : Flushes s s.clearRx.1 :=
  ⟨rfl, .inr rfl, rfl, rfl, rfl, rfl, rfl⟩

theorem flushes_applyTermios (s : State) (input : List UInt8) (termios2 flush : Bool) :
    Flushes s (s.applyTermios input termios2 flush).2.1 := by
  unfold applyTermios
  cases flush with
  | false =>
    simp only [Bool.false_eq_true, if_false]
    cases baudFromTermios (s.termios.copyPrefix input
      (if termios2 then Termios2.size else Termios2.legacyLen)) termios2 with
    | error errno => exact (Quiet.refl s).flushes
    | ok baud => exact (quiet_applyLocalTermios s _ baud).flushes
  | true =>
    simp only [if_true]
    cases baudFromTermios (s.clearRx.1.termios.copyPrefix input
      (if termios2 then Termios2.size else Termios2.legacyLen)) termios2 with
    | error errno => exact flushes_clearRx s
    | ok baud =>
      exact (flushes_clearRx s).trans (quiet_applyLocalTermios s.clearRx.1 _ baud).flushes

theorem accounts_answer (s : State) (reply : Reply) {a : Answer}
    (ha : leftRx [.answer reply a] = []) (hw : acked data [.answer reply a] = []) :
    Accounts data [reply] s s [.answer reply a] :=
  (Quiet.refl s).accounts rfl rfl ha hw rfl

theorem accounts_settled (s : State) (reply : Reply) (result : Except Errno Unit) :
    Accounts data [reply] s s [.answer reply (settled result)] := by
  cases result <;> exact accounts_answer s reply rfl rfl

theorem completeAll_spec (ps : List PendingIoctl) (s : State) :
    Accounts data (ps.map (·.reply)) s (completeAll ps s).1 (completeAll ps s).2 ∧
      Flushes s (completeAll ps s).1 := by
  induction ps generalizing s with
  | nil => exact ⟨(Quiet.refl s).silent, (Quiet.refl s).flushes⟩
  | cons p ps ih =>
    have hact : ∀ r : Except Errno Unit × State × List Entry, Accounts data [] s r.2.1 r.2.2 →
        Flushes s r.2.1 →
        Accounts data ((p :: ps).map (·.reply)) s (completeAll ps r.2.1).1
          (r.2.2 ++ .answer p.reply (settled r.1) :: (completeAll ps r.2.1).2) ∧
        Flushes s (completeAll ps r.2.1).1 := by
      intro r hacc hfl
      obtain ⟨hrest, hflrest⟩ := ih r.2.1
      exact ⟨hacc.trans ((accounts_settled r.2.1 p.reply r.1).trans hrest), hfl.trans hflrest⟩
    obtain ⟨id, action, reply⟩ := p
    cases action with
    | setTermios input termios2 flush =>
      exact hact _ (accounts_applyTermios s input termios2 flush)
        (flushes_applyTermios s input termios2 flush)
    | tcsbrk sendBreak =>
      refine hact (.ok (), if sendBreak then (s.push (.brk true)).push (.brk false) else s, []) ?_
        ?_
      · cases sendBreak with
        | false => exact (Quiet.refl s).silent
        | true => exact (quiet_sendBreak s).silent
      · cases sendBreak with
        | false => exact (Quiet.refl s).flushes
        | true => exact (quiet_sendBreak s).flushes

/-- Only the ioctls that wait change, and they wait only for output. -/
theorem completePendingIoctls_spec (s : State) :
    Accounts data [] s s.completePendingIoctls.1 s.completePendingIoctls.2 ∧
      Flushes { s with ioctls := s.completePendingIoctls.1.ioctls } s.completePendingIoctls.1 ∧
      (s.completePendingIoctls.1.ioctls ≠ [] → s.txBytes ≠ 0) := by
  unfold completePendingIoctls
  by_cases htx : s.txBytes ≠ 0
  · simp only [if_pos htx]
    exact ⟨(Quiet.refl s).silent, (Quiet.refl s).flushes, fun _ => htx⟩
  · simp only [if_neg htx]
    obtain ⟨hacc, hfl⟩ := completeAll_spec s.ioctls { s with ioctls := [] }
    refine ⟨⟨fun r => ?_, hacc.rx, hacc.tx⟩, ?_, ?_⟩
    · have h := hacc.settles r
      simp only [parked, List.map_nil, List.append_nil, List.count_append, List.count_nil] at h ⊢
      omega
    · have hio := hfl.ioctls
      rw [hio]
      exact hfl
    · rw [hfl.ioctls]
      exact fun h => absurd rfl h

/-- What `fill_pending_writes` leaves behind. -/
structure Filled (s s' : State) (ps : List PendingWrite) : Prop where
  stopping : s'.stopping = s.stopping
  rx : s'.rx = s.rx
  reads : s'.reads = s.reads
  ioctls : s'.ioctls = s.ioctls
  txBytes : s'.txBytes = (queued s'.events).length
  grows : s.txBytes ≤ s'.txBytes
  limit : s'.txBytes ≤ txLimit
  full : s'.writes ≠ [] → s'.txBytes = txLimit
  writes : ∀ p ∈ s'.writes, p ∈ ps

/-- Writes are taken in order while there is room. -/
theorem fillAll_spec (ps : List PendingWrite) (s : State) (hdata : ∀ p ∈ ps, data p.reply = p.data)
    (htx : s.txBytes = (queued s.events).length) (hlimit : s.txBytes ≤ txLimit) :
    Accounts data [] { s with writes := ps } (fillAll ps s).1 (fillAll ps s).2 ∧
      Filled s (fillAll ps s).1 ps := by
  induction ps generalizing s with
  | nil =>
    refine ⟨(Quiet.refl _).silent, rfl, rfl, rfl, rfl, htx, Nat.le_refl _, hlimit, ?_, ?_⟩
    · exact fun h => absurd rfl h
    · exact fun p hp => hp
  | cons p ps ih =>
    unfold fillAll
    by_cases hroom : s.txBytes < txLimit
    · simp only [if_pos hroom]
      generalize hcount : min (min p.data.length (txLimit - s.txBytes)) ioChunk = count
      have hle : count ≤ p.data.length ∧ count ≤ txLimit - s.txBytes := by
        constructor <;> omega
      have hq : queued (s.push (.data (p.data.take count))).events =
          queued s.events ++ p.data.take count := by
        show queued (s.events ++ [_]) = _
        rw [queued_append, queued_data]
      obtain ⟨hacc, hfill⟩ := ih
        { s.push (.data (p.data.take count)) with txBytes := s.txBytes + count }
        (fun p' hp' => hdata p' (List.mem_cons_of_mem p hp'))
        (by
          show s.txBytes + count = (queued (s.push (.data (p.data.take count))).events).length
          rw [hq, List.length_append, List.length_take, htx]
          omega)
        (by
          show s.txBytes + count ≤ txLimit
          omega)
      refine ⟨⟨fun r => ?_, ?_, ?_⟩, ?_⟩
      · have h := hacc.settles r
        simp only [answered, parked, List.filterMap_cons, List.count_cons, List.map_cons,
          List.count_append, List.count_nil, push] at h ⊢
        omega
      · exact hacc.rx
      · have h := hacc.tx
        simp only [hq] at h
        simpa [acked, leftTx, hdata p List.mem_cons_self] using h
      · refine ⟨hfill.stopping, hfill.rx, hfill.reads, hfill.ioctls, hfill.txBytes, ?_, hfill.limit,
          hfill.full, fun p' hp' => List.mem_cons_of_mem p (hfill.writes p' hp')⟩
        exact Nat.le_trans (Nat.le_add_right _ count) hfill.grows
    · simp only [if_neg hroom]
      refine ⟨(Quiet.refl _).silent, rfl, rfl, rfl, rfl, htx, Nat.le_refl _, hlimit, ?_, ?_⟩
      · exact fun _ => Nat.le_antisymm hlimit (Nat.le_of_not_lt hroom)
      · exact fun p hp => hp

theorem fillPendingWrites_spec {s : State} (hdata : ∀ p ∈ s.writes, data p.reply = p.data)
    (htx : s.txBytes = (queued s.events).length) (hlimit : s.txBytes ≤ txLimit) :
    Accounts data [] s s.fillPendingWrites.1 s.fillPendingWrites.2 ∧
      Filled s s.fillPendingWrites.1 s.writes :=
  fillAll_spec s.writes s hdata htx hlimit

/-- A critical section that balances and leaves the queues in order. -/
structure Serves (data : Reply → List UInt8) (new : List Reply) (s s' : State)
    (es : List Entry) : Prop extends Accounts data new s s' es where
  tidy : s'.Tidy data
  stopping : s'.stopping = s.stopping

theorem Quiet.serves {s s' : State} (h : Quiet s s') (hs : s.Tidy data) {new : List Reply}
    {es : List Entry} (hacc : Accounts data new s s' es) : Serves data new s s' es :=
  ⟨hacc, h.tidy hs, h.stopping⟩

theorem Quiet.answer {s s' : State} (h : Quiet s s') (hs : s.Tidy data) (reply : Reply) {a : Answer}
    (ha : leftRx [.answer reply a] = []) (hw : acked data [.answer reply a] = []) :
    Serves data [reply] s s' [.answer reply a] :=
  h.serves hs (h.accounts rfl rfl ha hw rfl)

/-- Completing what can go on puts the queues in order, whatever has just been taken out. -/
theorem complete_spec {s : State} (htx : s.txBytes = (queued s.events).length)
    (hlimit : s.txBytes ≤ txLimit) (hreads : s.reads ≠ [] → s.rx = [])
    (hdata : ∀ p ∈ s.writes, data p.reply = p.data) :
    let r := s.completePendingIoctls
    let r' := r.1.fillPendingWrites
    let r'' := r'.1.notifyPolls
    Serves data [] s r''.1 (r.2 ++ r'.2 ++ r''.2) := by
  intro r r' r''
  obtain ⟨hacc, hfl, hio⟩ := completePendingIoctls_spec s
  have hwrites : r.1.writes = s.writes := hfl.writes
  have hfilled : Accounts data [] r.1 r'.1 r'.2 ∧ Filled r.1 r'.1 r.1.writes :=
    fillPendingWrites_spec (by rw [hwrites]; exact hdata)
      (by rw [hfl.txBytes, hfl.events]; exact htx)
      (by rw [hfl.txBytes]; exact hlimit)
  obtain ⟨hacc', hfill⟩ := hfilled
  refine ⟨(hacc.trans hacc').trans (accounts_notifyPolls r'.1), (quiet_notifyPolls r'.1).tidy ?_,
    hfill.stopping.trans hfl.stopping⟩
  constructor
  case txBytes => exact hfill.txBytes
  case limit => exact hfill.limit
  case reads =>
    intro hne
    rw [hfill.reads, hfl.reads] at hne
    rw [hfill.rx]
    cases hfl.rx with
    | inl same => exact same.trans (hreads hne)
    | inr empty => exact empty
  case writes => exact hfill.full
  case ioctls =>
    intro hne
    rw [hfill.ioctls] at hne
    have hpos := hio hne
    have hgrows := hfill.grows
    rw [hfl.txBytes] at hgrows
    exact Nat.pos_iff_ne_zero.mp (Nat.lt_of_lt_of_le (Nat.pos_of_ne_zero hpos) hgrows)
  case wrote =>
    intro p hp
    exact hdata p (hwrites ▸ hfill.writes p hp)

/-! ### Each call -/

theorem fillReads_spec (ps : List PendingRead) (s : State) :
    Accounts data [] { s with reads := ps } (fillReads ps s).1 (fillReads ps s).2 ∧
      ((fillReads ps s).1.reads ≠ [] → (fillReads ps s).1.rx = []) ∧
      Quiet { s with reads := (fillReads ps s).1.reads, rx := (fillReads ps s).1.rx }
        (fillReads ps s).1 := by
  induction ps generalizing s with
  | nil => exact ⟨(Quiet.refl _).silent, fun h => absurd rfl h, .refl _⟩
  | cons p ps ih =>
    unfold fillReads
    by_cases hrx : s.rx = []
    · simp only [if_pos hrx]
      exact ⟨(Quiet.refl _).silent, fun _ => hrx, .refl _⟩
    · simp only [if_neg hrx]
      generalize min p.size s.rx.length = count
      obtain ⟨hacc, hempty, hquiet⟩ := ih { s with rx := s.rx.drop count }
      refine ⟨⟨fun r => ?_, ?_, hacc.tx⟩, hempty, hquiet⟩
      · have h := hacc.settles r
        simp only [answered, parked, List.filterMap_cons, List.count_cons, List.map_cons,
          List.count_append, List.count_nil, List.cons_append] at h ⊢
        omega
      · have h := hacc.rx
        simp only [pushedRx, leftRx, List.flatMap_cons, List.nil_append, List.append_assoc] at h ⊢
        rw [← h, ← List.append_assoc, List.take_append_drop]

theorem serves_pushRx {s : State} (hs : s.Tidy data) (bytes : List UInt8) :
    Serves data [] s (s.pushRx bytes).2.1 (s.pushRx bytes).2.2 := by
  unfold pushRx
  by_cases hempty : bytes = []
  · simp only [if_pos hempty]
    exact (Quiet.refl s).serves hs (Quiet.refl s).silent
  · simp only [if_neg hempty]
    by_cases hstop : s.stopping = true
    · simp only [if_pos hstop]
      exact (Quiet.refl s).serves hs (Quiet.refl s).silent
    · simp only [if_neg hstop]
      by_cases hfull : s.rx.length + bytes.length > rxLimit
      · simp only [if_pos hfull]
        exact (Quiet.refl s).serves hs (Quiet.refl s).silent
      · simp only [if_neg hfull]
        obtain ⟨hacc, hread, hquiet⟩ :=
          fillReads_spec s.reads { s with rx := s.rx ++ bytes }
        have hpush : Accounts data [] s { s with rx := s.rx ++ bytes } [.pushed bytes] :=
          ⟨fun r => by simp [answered, parked], by simp [pushedRx, leftRx],
            by simp [acked, leftTx]⟩
        refine ⟨(hpush.trans hacc).trans (accounts_notifyPolls _), ?_, hquiet.stopping⟩
        refine (quiet_notifyPolls _).tidy ?_
        constructor
        case txBytes => rw [hquiet.txBytes, hquiet.events]; exact hs.txBytes
        case limit => rw [hquiet.txBytes]; exact hs.limit
        case reads => exact hread
        case writes => rw [hquiet.txBytes, hquiet.writes]; exact hs.writes
        case ioctls => rw [hquiet.txBytes, hquiet.ioctls]; exact hs.ioctls
        case wrote => rw [hquiet.writes]; exact hs.wrote

theorem serves_nextEvent {s : State} (hs : s.Tidy data) :
    Serves data [] s s.nextEvent.1 s.nextEvent.2 := by
  unfold nextEvent
  cases hev : s.events with
  | nil => exact (Quiet.refl s).serves hs (Quiet.refl s).silent
  | cons event events =>
    have htaken : ∀ s₁ : State, s₁.events = events → s₁.rx = s.rx → s₁.reads = s.reads →
        s₁.writes = s.writes → s₁.ioctls = s.ioctls → s₁.stopping = s.stopping →
        s₁.txBytes = (queued events).length → s₁.txBytes ≤ s.txBytes →
        let r := s₁.completePendingIoctls
        let r' := r.1.fillPendingWrites
        let r'' := r'.1.notifyPolls
        Serves data [] s r''.1 (.handed event :: r.2 ++ r'.2 ++ r''.2) := by
      intro s₁ he hrx hreads hwrites hioctls hstop htx hle
      have hdone := complete_spec (s := s₁) (by rw [he]; exact htx)
        (Nat.le_trans hle hs.limit) (by rw [hreads, hrx]; exact hs.reads)
        (by rw [hwrites]; exact hs.wrote)
      have htake : Accounts data [] s s₁ [.handed event] := by
        refine ⟨fun r => ?_, ?_, ?_⟩
        · simp [answered, parked, hreads, hwrites, hioctls]
        · simp [pushedRx, leftRx, hrx]
        · rw [hev, he]
          cases event <;> simp [acked, leftTx, queued]
      exact ⟨htake.trans hdone.toAccounts, hdone.tidy, hdone.stopping.trans hstop⟩
    have hlen : s.txBytes = (queued (event :: events)).length := hev ▸ hs.txBytes
    cases event with
    | data bytes =>
      have hlen' : s.txBytes = bytes.length + (queued events).length := by
        rw [hlen]
        simp [queued]
      refine htaken { s with events, txBytes := s.txBytes - bytes.length } rfl rfl rfl rfl rfl rfl
        ?_
        (Nat.sub_le _ _)
      show s.txBytes - bytes.length = _
      omega
    | _ => exact htaken { s with events } rfl rfl rfl rfl rfl rfl hlen (Nat.le_refl _)

theorem serves_read {s : State} (hs : s.Tidy data) (req : Request) (size : Nat) (reply : Reply) :
    Serves data [reply] s (s.read req size reply).1 (s.read req size reply).2 := by
  unfold read
  by_cases hsize : size = 0
  · simp only [if_pos hsize]
    exact (Quiet.refl s).answer hs reply rfl rfl
  · simp only [if_neg hsize]
    by_cases hstop : s.stopping = true
    · simp only [if_pos hstop]
      exact (Quiet.refl s).answer hs reply rfl rfl
    · simp only [if_neg hstop]
      by_cases hrx : s.rx ≠ []
      · simp only [if_pos hrx]
        generalize min size s.rx.length = count
        have htake : Accounts data [reply] s { s with rx := s.rx.drop count }
            [.answer reply (.data (s.rx.take count))] :=
          ⟨fun r => by simp [answered, parked, Nat.add_comm], by simp [pushedRx, leftRx],
            by simp [acked, leftTx]⟩
        refine ⟨htake.trans (accounts_notifyPolls _), (quiet_notifyPolls _).tidy ?_, rfl⟩
        exact ⟨hs.txBytes, hs.limit, fun hne => absurd (hs.reads hne) hrx, hs.writes, hs.ioctls,
          hs.wrote⟩
      · simp only [if_neg hrx]
        by_cases hnb : req.nonblocking = true
        · simp only [if_pos hnb]
          exact (Quiet.refl s).answer hs reply rfl rfl
        · simp only [if_neg hnb]
          refine ⟨⟨fun r => ?_, by simp [pushedRx, leftRx], by simp [acked, leftTx]⟩, ?_, rfl⟩
          · simp only [answered, parked, List.filterMap_nil, List.map_append, List.map_cons,
              List.map_nil, List.count_append, List.count_nil]
            omega
          · exact ⟨hs.txBytes, hs.limit, fun _ => Classical.not_not.mp hrx, hs.writes, hs.ioctls,
              hs.wrote⟩

theorem serves_write {s : State} (hs : s.Tidy data) (req : Request) {bytes : List UInt8}
    {reply : Reply} (hreply : data reply = bytes) :
    Serves data [reply] s (s.write req bytes reply).1 (s.write req bytes reply).2 := by
  unfold write
  by_cases hempty : bytes = []
  · simp only [if_pos hempty]
    exact (Quiet.refl s).answer hs reply rfl (by simp [acked])
  · simp only [if_neg hempty]
    by_cases hstop : s.stopping = true
    · simp only [if_pos hstop]
      exact (Quiet.refl s).answer hs reply rfl rfl
    · simp only [if_neg hstop]
      by_cases hroom : txLimit - s.txBytes ≠ 0
      · simp only [if_pos hroom]
        generalize hcount : min (min bytes.length (txLimit - s.txBytes)) ioChunk = count
        have hle : count ≤ bytes.length ∧ count ≤ txLimit - s.txBytes := by
          constructor <;> omega
        have hq : queued (s.push (.data (bytes.take count))).events =
            queued s.events ++ bytes.take count := by
          show queued (s.events ++ [_]) = _
          rw [queued_append, queued_data]
        have hput : Accounts data [reply] s
            { s.push (.data (bytes.take count)) with txBytes := s.txBytes + count }
            [.answer reply (.written count)] := by
          refine ⟨fun r => ?_, ?_, ?_⟩
          · simp [answered, parked, push, Nat.add_comm]
          · simp [pushedRx, leftRx, push]
          · show queued s.events ++ _ = [] ++ queued (s.push (.data (bytes.take count))).events
            rw [hq]
            simp [acked, hreply]
        refine ⟨hput.trans (accounts_notifyPolls _), (quiet_notifyPolls _).tidy ?_, rfl⟩
        constructor
        case txBytes =>
          show s.txBytes + count = (queued (s.push (.data (bytes.take count))).events).length
          rw [hq, List.length_append, List.length_take, ← hs.txBytes]
          omega
        case limit =>
          show s.txBytes + count ≤ txLimit
          have := hs.limit
          omega
        case reads => exact hs.reads
        case writes =>
          intro hne
          have hfull : s.txBytes = txLimit := hs.writes hne
          omega
        case ioctls =>
          intro hne
          have hpos : s.txBytes ≠ 0 := hs.ioctls hne
          show s.txBytes + count ≠ 0
          omega
        case wrote => exact hs.wrote
      · simp only [if_neg hroom]
        by_cases hnb : req.nonblocking = true
        · simp only [if_pos hnb]
          exact (Quiet.refl s).answer hs reply rfl rfl
        · simp only [if_neg hnb]
          refine ⟨⟨fun r => ?_, by simp [pushedRx, leftRx], by simp [acked, leftTx]⟩, ?_, rfl⟩
          · simp only [answered, parked, List.filterMap_nil, List.map_append, List.map_cons,
              List.map_nil, List.count_append, List.count_nil]
            omega
          · refine ⟨hs.txBytes, hs.limit, hs.reads, fun _ => ?_, hs.ioctls, ?_⟩
            · have hlimit := hs.limit
              show s.txBytes = txLimit
              omega
            · intro p hp
              cases List.mem_append.mp hp with
              | inl hold => exact hs.wrote p hold
              | inr hnew => rw [List.mem_singleton.mp hnew]; exact hreply

theorem serves_open {s : State} (hs : s.Tidy data) (reply : Reply) :
    Serves data [reply] s (s.open reply).1 (s.open reply).2 := by
  unfold «open»
  by_cases hstop : s.stopping = true
  · simp only [if_pos hstop]
    exact (Quiet.refl s).answer hs reply rfl rfl
  · simp only [if_neg hstop]
    by_cases hbusy : s.exclusive ∧ s.openCount ≠ 0
    · simp only [if_pos hbusy]
      exact (Quiet.refl s).answer hs reply rfl rfl
    · simp only [if_neg hbusy]
      have hcount : Quiet s { s with openCount := s.openCount + 1 } :=
        ⟨rfl, rfl, rfl, rfl, rfl, rfl, rfl⟩
      exact hcount.answer hs reply rfl rfl

theorem quiet_release (s : State) : Quiet s s.release := by
  unfold release
  by_cases hlast : s.openCount - 1 = 0
  · simp only [if_pos hlast]
    exact ⟨rfl, rfl, rfl, rfl, rfl, rfl, rfl⟩
  · simp only [if_neg hlast]
    exact ⟨rfl, rfl, rfl, rfl, rfl, rfl, rfl⟩

theorem serves_poll {s : State} (hs : s.Tidy data) (requested : Flags) (notifier : Option Nat)
    (reply : Reply) : Serves data [reply] s (s.poll requested notifier reply).1
      (s.poll requested notifier reply).2 := by
  have hquiet : ∀ polls, Quiet s { s with polls } := fun _ => ⟨rfl, rfl, rfl, rfl, rfl, rfl, rfl⟩
  unfold poll
  cases notifier with
  | none => exact (Quiet.refl s).answer hs reply rfl rfl
  | some notifier =>
    by_cases hwait : ¬ s.stopping ∧ (requested = 0 ∨ s.readiness &&& requested = 0)
    · simp only [if_pos hwait]
      exact (hquiet _).answer hs reply rfl rfl
    · simp only [if_neg hwait]
      exact (Quiet.refl s).answer hs reply rfl rfl

/-- Taking out the first match takes out its reply. -/
theorem count_eraseP_map {α : Type} {p : α → Bool} {l : List α} {a : α} (h : l.find? p = some a)
    (f : α → Reply) (r : Reply) :
    ([f a].count r) + ((l.eraseP p).map f).count r = (l.map f).count r := by
  induction l with
  | nil => exact nomatch h
  | cons b l ih =>
    by_cases hb : p b = true
    · rw [List.find?_cons_of_pos hb] at h
      rw [List.eraseP_cons_of_pos hb, ← Option.some.inj h]
      simp only [List.map_cons, List.count_cons, List.count_nil]
      omega
    · rw [List.find?_cons_of_neg hb] at h
      have hrest := ih h
      rw [List.eraseP_cons_of_neg hb]
      simp only [List.map_cons, List.count_cons, List.count_nil] at hrest ⊢
      omega

theorem eraseP_ne_nil {α : Type} {p : α → Bool} {l : List α} (h : l.eraseP p ≠ []) : l ≠ [] := by
  rintro rfl
  exact h rfl

theorem serves_interrupt {s : State} (hs : s.Tidy data) (id : UInt64) :
    Serves data [] s (s.interrupt id).1 (s.interrupt id).2 := by
  unfold interrupt
  cases hr : s.reads.find? (·.id = id) with
  | some p =>
    refine ⟨⟨fun r => ?_, by simp [pushedRx, leftRx], by simp [acked, leftTx]⟩, ?_, rfl⟩
    · have h := count_eraseP_map hr (·.reply) r
      simp only [answered, parked, List.filterMap_cons, List.filterMap_nil, List.count_append,
        List.count_nil] at h ⊢
      omega
    · exact ⟨hs.txBytes, hs.limit, fun hne => hs.reads (eraseP_ne_nil hne), hs.writes, hs.ioctls,
        hs.wrote⟩
  | none =>
    cases hw : s.writes.find? (·.id = id) with
    | some p =>
      refine ⟨⟨fun r => ?_, by simp [pushedRx, leftRx], by simp [acked, leftTx]⟩, ?_, rfl⟩
      · have h := count_eraseP_map hw (·.reply) r
        simp only [answered, parked, List.filterMap_cons, List.filterMap_nil, List.count_append,
          List.count_nil] at h ⊢
        omega
      · exact ⟨hs.txBytes, hs.limit, hs.reads, fun hne => hs.writes (eraseP_ne_nil hne), hs.ioctls,
          fun p hp => hs.wrote p (List.mem_of_mem_eraseP hp)⟩
    | none =>
      cases hi : s.ioctls.find? (·.id = id) with
      | some p =>
        refine ⟨⟨fun r => ?_, by simp [pushedRx, leftRx], by simp [acked, leftTx]⟩, ?_, rfl⟩
        · have h := count_eraseP_map hi (·.reply) r
          simp only [answered, parked, List.filterMap_cons, List.filterMap_nil, List.count_append,
            List.count_nil] at h ⊢
          omega
        · exact ⟨hs.txBytes, hs.limit, hs.reads, hs.writes,
            fun hne => hs.ioctls (eraseP_ne_nil hne), hs.wrote⟩
      | none => exact (Quiet.refl s).serves hs (Quiet.refl s).silent

theorem serves_drain {s : State} (hs : s.Tidy data) (req : Request) (action : PendingIoctlAction)
    (reply : Reply) {go : State × List Entry} (hgo : Serves data [reply] s go.1 go.2) :
    Serves data [reply] s (s.drain req action reply go).1 (s.drain req action reply go).2 := by
  unfold drain
  by_cases htx : s.txBytes ≠ 0
  · simp only [if_pos htx]
    by_cases hnb : req.nonblocking = true
    · simp only [if_pos hnb]
      exact (Quiet.refl s).answer hs reply rfl rfl
    · simp only [if_neg hnb]
      refine ⟨⟨fun r => ?_, by simp [pushedRx, leftRx], by simp [acked, leftTx]⟩, ?_, rfl⟩
      · simp only [answered, parked, List.filterMap_nil, List.map_append, List.map_cons,
          List.map_nil, List.count_append, List.count_nil]
        omega
      · exact ⟨hs.txBytes, hs.limit, hs.reads, hs.writes, fun _ => htx, hs.wrote⟩
  · simp only [if_neg htx]
    exact hgo

theorem serves_flush {s : State} (hs : s.Tidy data) (rx tx : Bool) (value : UInt8) (reply : Reply) :
    Serves data [reply] s (s.flush rx tx value reply).1 (s.flush rx tx value reply).2 := by
  have hend : ∀ (s₁ : State) (es : List Entry), Accounts data [] s s₁ es →
      s₁.txBytes = (queued s₁.events).length → s₁.txBytes ≤ txLimit →
      (s₁.reads ≠ [] → s₁.rx = []) → s₁.writes = s.writes → s₁.stopping = s.stopping →
      let r := (s₁.push (.purge value)).completePendingIoctls
      let r' := r.1.fillPendingWrites
      let r'' := r'.1.notifyPolls
      Serves data [reply] s r''.1
        (es ++ r.2 ++ r'.2 ++ r''.2 ++ [.answer reply (.ok [])]) := by
    intro s₁ es hacc htx hlimit hreads hwrites hstop r r' r''
    have hpush : Quiet s₁ (s₁.push (.purge value)) := quiet_push s₁ rfl
    have hdone : Serves data [] (s₁.push (.purge value)) r''.1 (r.2 ++ r'.2 ++ r''.2) :=
      complete_spec (by rw [hpush.txBytes, hpush.events]; exact htx)
        (by rw [hpush.txBytes]; exact hlimit) (by rw [hpush.reads, hpush.rx]; exact hreads)
        (by rw [hpush.writes, hwrites]; exact hs.wrote)
    have hall := (hacc.trans (hpush.silent.trans hdone.toAccounts)).trans
      (accounts_answer r''.1 reply (a := .ok []) rfl rfl)
    refine ⟨?_, hdone.tidy, hdone.stopping.trans hstop⟩
    simpa [List.append_assoc] using hall
  unfold flush
  cases rx with
  | false =>
    cases tx with
    | false =>
      simpa using hend s [] (Quiet.refl s).silent hs.txBytes hs.limit hs.reads rfl rfl
    | true =>
      have h := hend s.clearTxData.1 s.clearTxData.2 (accounts_clearTxData s)
        (by simp [clearTxData, queued_filter_data]) (Nat.zero_le _) hs.reads rfl rfl
      simpa using h
  | true =>
    cases tx with
    | false =>
      have h := hend s.clearRx.1 s.clearRx.2 (accounts_clearRx s) hs.txBytes hs.limit
        (fun _ => rfl) rfl rfl
      simpa using h
    | true =>
      have h := hend s.clearRx.1.clearTxData.1 (s.clearRx.2 ++ s.clearRx.1.clearTxData.2)
        ((accounts_clearRx s).trans (accounts_clearTxData s.clearRx.1))
        (by simp [clearTxData, queued_filter_data]) (Nat.zero_le _) (fun _ => rfl) rfl rfl
      simpa using h

theorem serves_setTermios {s : State} (hs : s.Tidy data) (input : List UInt8)
    (termios2 flush : Bool) (reply : Reply) :
    Serves data [reply] s (s.setTermios input termios2 flush reply).1
      (s.setTermios input termios2 flush reply).2 := by
  have hacc := @accounts_applyTermios data s input termios2 flush
  have hfl := flushes_applyTermios s input termios2 flush
  unfold setTermios
  generalize s.applyTermios input termios2 flush = r at hacc hfl
  obtain ⟨result, s', es⟩ := r
  cases result with
  | error errno =>
    refine ⟨?_, hfl.tidy hs, hfl.stopping⟩
    have h := hacc.trans (accounts_settled s' reply (.error errno))
    simpa using h
  | ok u =>
    refine ⟨?_, (quiet_notifyPolls s').tidy (hfl.tidy hs), hfl.stopping⟩
    exact (hacc.trans (accounts_notifyPolls s')).trans (accounts_settled _ reply (.ok u))

theorem serves_beginSet {s : State} (hs : s.Tidy data) (req : Request) (ioctl : Ioctl) (need : Nat)
    (termios2 flush drain : Bool) (reply : Reply) {r : State × List Entry}
    (h : s.beginSet req ioctl need termios2 flush drain reply = some r) :
    Serves data [reply] s r.1 r.2 := by
  unfold beginSet at h
  by_cases hshort : ioctl.input.length < need
  · rw [if_pos hshort] at h
    rw [← Option.some.inj h]
    exact (Quiet.refl s).answer hs reply rfl rfl
  · rw [if_neg hshort] at h
    by_cases hwait : drain ∧ s.txBytes ≠ 0
    · rw [if_pos hwait] at h
      rw [← Option.some.inj h]
      unfold State.drain
      simp only [if_pos hwait.2]
      have hquiet : Serves data [reply] s s [.answer reply (.ok [])] :=
        (Quiet.refl s).answer hs reply rfl rfl
      have h := serves_drain hs req (.setTermios ioctl.input termios2 flush) reply
        (show Serves data [reply] s (s, [Entry.answer reply (.ok [])]).1 _ from hquiet)
      unfold State.drain at h
      simpa only [if_pos hwait.2] using h
    · exact nomatch (if_neg hwait).symm.trans h

theorem serves_ioctl {s : State} (hs : s.Tidy data) (req : Request) (ioctl : Ioctl)
    (reply : Reply) :
    Serves data [reply] s (s.ioctl req ioctl reply).1 (s.ioctl req ioctl reply).2 := by
  have hgive : ∀ (need : Nat) (bytes : List UInt8),
      Serves data [reply] s
        (if ioctl.outSize < need then (s, [Entry.answer reply (.retry 0 need)])
          else (s, [.answer reply (.ok bytes)])).1
        (if ioctl.outSize < need then (s, [Entry.answer reply (.retry 0 need)])
          else (s, [.answer reply (.ok bytes)])).2 := by
    intro need bytes
    by_cases hout : ioctl.outSize < need
    · rw [if_pos hout]
      exact (Quiet.refl s).answer hs reply rfl rfl
    · rw [if_neg hout]
      exact (Quiet.refl s).answer hs reply rfl rfl
  have hdone : ∀ s', Quiet s s' → Serves data [reply] s s' [.answer reply (.ok [])] :=
    fun s' h => h.answer hs reply rfl rfl
  obtain ⟨cmd, compat, arg, input, outSize⟩ := ioctl
  cases cmd with
  | TCGETS => exact hgive _ _
  | TCGETS2 => exact hgive _ _
  | TIOCMGET => exact hgive _ _
  | FIONREAD => exact hgive _ _
  | TIOCOUTQ => exact hgive _ _
  | TIOCMSET | TIOCMBIS | TIOCMBIC =>
    unfold State.ioctl
    by_cases hshort : input.length < 4
    · simp only [if_pos hshort]
      exact (Quiet.refl s).answer hs reply rfl rfl
    · simp only [if_neg hshort]
      exact hdone _ (quiet_setModemOutputs s _ _)
  | TCFLSH =>
    unfold State.ioctl
    simp only
    split
    · exact serves_flush hs _ _ _ reply
    · exact serves_flush hs _ _ _ reply
    · exact serves_flush hs _ _ _ reply
    · exact (Quiet.refl s).answer hs reply rfl rfl
  | TIOCEXCL => exact hdone _ ⟨rfl, rfl, rfl, rfl, rfl, rfl, rfl⟩
  | TIOCNXCL => exact hdone _ ⟨rfl, rfl, rfl, rfl, rfl, rfl, rfl⟩
  | TIOCSBRK | TIOCCBRK =>
    unfold State.ioctl
    simp only
    exact hdone _ (quiet_setIf s _ _ rfl)
  | TCSBRK =>
    refine serves_drain hs req _ reply (hdone _ ?_)
    by_cases hbreak : arg = 0
    · simp only [hbreak]
      exact quiet_sendBreak s
    · simp only [hbreak]
      exact .refl s
  | TCXONC =>
    unfold State.ioctl
    simp only
    split
    · exact hdone _ (quiet_push s rfl)
    · exact hdone _ (quiet_push s rfl)
    · exact hdone _ (.refl s)
    · exact hdone _ (.refl s)
    · exact (Quiet.refl s).answer hs reply rfl rfl
  | _ => exact (Quiet.refl s).answer hs reply rfl rfl

theorem stop_spec {s : State} (hs : s.Tidy data) :
    Accounts data [] s s.stop.1 s.stop.2 ∧ s.stop.1.Tidy data ∧ s.stop.1.stopping = true ∧
      (s.stopping = false → s.stop.1.parked = []) := by
  unfold stop
  by_cases hstop : s.stopping = true
  · simp only [if_pos hstop]
    exact ⟨(Quiet.refl s).silent, hs, hstop, fun h => absurd hstop (by simp [h])⟩
  · simp only [if_neg hstop]
    refine ⟨?_, ⟨hs.txBytes, hs.limit, fun h => absurd rfl h, fun h => absurd rfl h,
      fun h => absurd rfl h, fun p hp => nomatch hp⟩, trivial, fun _ => rfl⟩
    have hfail : ∀ replies : List Reply,
        answered (replies.map fun r => .answer r (.error .eio)) = replies ∧
        pushedRx (replies.map fun r => .answer r (.error .eio)) = [] ∧
        leftRx (replies.map fun r => .answer r (.error .eio)) = [] ∧
        acked data (replies.map fun r => .answer r (.error .eio)) = [] ∧
        leftTx (replies.map fun r => .answer r (.error .eio)) = [] := by
      intro replies
      induction replies with
      | nil => exact ⟨rfl, rfl, rfl, rfl, rfl⟩
      | cons r replies ih => exact ⟨congrArg (r :: ·) ih.1, ih.2⟩
    have hpolls := @accounts_notifyPolls data s
    have hanswers := hfail s.parked
    refine Accounts.mk (fun r => ?_) ?_ ?_
    all_goals
      simp only [parked, List.map_append, List.map_map, Function.comp_def, answered_append,
        pushedRx_append, leftRx_append, acked_append, leftTx_append] at hanswers ⊢
    · have h := hpolls.settles r
      simp only [notifyPolls, parked, List.count_append, List.count_nil] at h
      rw [hanswers.1]
      simp only [List.count_append, List.map_nil, List.count_nil] at h ⊢
      omega
    · have h := hpolls.rx
      simp only [notifyPolls] at h
      rw [hanswers.2.1, hanswers.2.2.1]
      exact h
    · have h := hpolls.tx
      simp only [notifyPolls] at h
      rw [hanswers.2.2.2.1, hanswers.2.2.2.2]
      exact h

end State

end Microtun.Serial
