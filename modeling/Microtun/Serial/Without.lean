import Microtun.Serial.RoundTrip

/-! The state of the device without one of the requests that it has parked. -/

namespace Microtun.Serial

namespace State

/-! ### Operations that leave the parked requests alone -/

/-- The state with another list of parked drain requests. -/
def withIoctls (s : State) (l : List PendingIoctl) : State := { s with ioctls := l }

variable (l : List PendingIoctl)

theorem read_withIoctls (s : State) (req : Request) (size : Nat) (reply : Reply) :
    (s.withIoctls l).read req size reply =
    ((s.read req size reply).1.withIoctls l, (s.read req size reply).2) := by
  by_cases hsize : size = 0
  · simp [read, hsize]
  · by_cases hstop : s.stopping = true
    · simp [read, withIoctls, hsize, hstop]
    · by_cases hrx : s.rx = []
      · by_cases hnonblocking : req.nonblocking = true
        · simp [read, withIoctls, hsize, hstop, hrx, hnonblocking]
        · simp [read, withIoctls, hsize, hstop, hrx, hnonblocking]
      · simp [read, withIoctls, notifyPolls, hsize, hstop, hrx]

theorem write_withIoctls (s : State) (req : Request) (data : List UInt8) (reply : Reply) :
    (s.withIoctls l).write req data reply =
      ((s.write req data reply).1.withIoctls l, (s.write req data reply).2) := by
  by_cases hdata : data = []
  · simp [write, hdata]
  · by_cases hstop : s.stopping = true
    · simp [write, withIoctls, hdata, hstop]
    · by_cases hroom : txLimit - s.txBytes = 0
      · by_cases hnonblocking : req.nonblocking = true
        · simp [write, withIoctls, hdata, hstop, hroom, hnonblocking]
        · simp [write, withIoctls, hdata, hstop, hroom, hnonblocking]
      · simp [write, withIoctls, push, notifyPolls, hdata, hstop, hroom]

theorem open_withIoctls (s : State) (reply : Reply) :
    (s.withIoctls l).open reply = ((s.open reply).1.withIoctls l, (s.open reply).2) := by
  by_cases hstop : s.stopping = true
  · simp [«open», withIoctls, hstop]
  · by_cases hbusy : s.exclusive = true ∧ s.openCount ≠ 0
    · simp [«open», withIoctls, hstop, hbusy]
    · simp [«open», withIoctls, hstop, hbusy]

theorem release_withIoctls (s : State) : (s.withIoctls l).release = s.release.withIoctls l := by
  by_cases hlast : s.openCount - 1 = 0
  · simp [release, withIoctls, hlast]
  · simp [release, withIoctls, hlast]

theorem poll_withIoctls (s : State) (requested : Flags) (notifier : Option Nat) (reply : Reply) :
    (s.withIoctls l).poll requested notifier reply =
      ((s.poll requested notifier reply).1.withIoctls l, (s.poll requested notifier reply).2) := by
  cases notifier with
  | none => rfl
  | some notifier =>
    by_cases hwait : ¬s.stopping = true ∧ (requested = 0 ∨ s.readiness &&& requested = 0)
    · simp only [poll, if_pos hwait]
      exact congrArg (fun s' : State => (s', [Entry.answer reply (.ready s.readiness)]))
        (if_pos hwait)
    · simp only [poll, if_neg hwait]
      exact congrArg (fun s' : State => (s', [Entry.answer reply (.ready s.readiness)]))
        (if_neg hwait)

theorem fillReads_withIoctls (ps : List PendingRead) (s : State) :
    fillReads ps (s.withIoctls l) = ((fillReads ps s).1.withIoctls l, (fillReads ps s).2) := by
  induction ps generalizing s with
  | nil => rfl
  | cons p ps ih =>
    have hrest := ih { s with rx := s.rx.drop (min p.size s.rx.length) }
    simp only [withIoctls] at hrest
    by_cases hempty : s.rx = []
    · simp only [fillReads, withIoctls, hempty, if_true]
    · simp only [fillReads, withIoctls, hempty, if_false] at hrest ⊢
      rw [hrest]

theorem pushRx_withIoctls (s : State) (data : List UInt8) : (s.withIoctls l).pushRx data =
      ((s.pushRx data).1, (s.pushRx data).2.1.withIoctls l, (s.pushRx data).2.2) := by
  have hfill := fillReads_withIoctls l s.reads { s with rx := s.rx ++ data }
  simp only [withIoctls] at hfill
  simp only [pushRx, withIoctls]
  by_cases hdata : data = []
  · simp only [hdata, if_true]
  · by_cases hstop : s.stopping = true
    · simp only [hdata, hstop, if_true, if_false]
    · by_cases hfull : s.rx.length + data.length > rxLimit
      · simp only [hdata, hstop, hfull, Bool.false_eq_true, if_true, if_false]
      · simp only [if_neg hdata, if_neg hstop, if_neg hfull, hfill]
        rfl

theorem remoteUpdate_withIoctls (s : State) (event : SerialEvent) :
    (s.withIoctls l).remoteUpdate event = (s.remoteUpdate event).withIoctls l := by
  cases event <;> rfl

/-! ### What settings do to the received bytes -/

/-- The state with other received bytes and another list of parked drain requests. -/
def recast (s : State) (rx : List UInt8) (l : List PendingIoctl) : State :=
  { s with rx := rx, ioctls := l }

variable (rx : List UInt8)

theorem setIf_recast (s : State) (changed : Bool) (set : SerialState → SerialState)
    (e : DeviceEvent) :
    (s.recast rx l).setIf changed set e = (s.setIf changed set e).recast rx l := by
  cases changed <;> rfl

theorem serial_recast (s : State) : (s.recast rx l).serial = s.serial := rfl

theorem applyLine_recast (s : State) (iflag cflag : Flags) :
    (s.recast rx l).applyLine iflag cflag = (s.applyLine iflag cflag).recast rx l := by
  simp only [applyLine, setIf_recast, serial_recast]
  rfl

theorem applyBaud_recast (s : State) (next : Termios2) (baud : UInt32) :
    (s.recast rx l).applyBaud next baud = (s.applyBaud next baud).recast rx l := by
  by_cases hbaud : baud = 0
  · simp only [applyBaud, hbaud, if_true]
    exact congrArg (fun s : State => { s with hungUp := true })
      (setIf_recast l rx { s with termios := next } _ _ _)
  · have hset (s : State) : (s.recast rx l).setIf ((s.recast rx l).serial.baud ≠ baud)
      (fun v => { v with baud })
        (.baud baud) = (s.setIf (s.serial.baud ≠ baud) (fun v => { v with baud })
          (.baud baud)).recast rx l :=
      setIf_recast l rx s _ _ _
    by_cases hhung : s.hungUp = true
    · have hup := setIf_recast l rx { s with termios := next, hungUp := false } (!s.serial.dtr)
        (fun v => { v with dtr := true }) (.dtr true)
      have hhung' : (s.recast rx l).hungUp = true := hhung
      simp only [applyBaud, if_neg hbaud, if_pos hhung, if_pos hhung']
      rw [← hset, ← hup]
      rfl
    · have hhung' : ¬(s.recast rx l).hungUp = true := hhung
      simp only [applyBaud, if_neg hbaud, if_neg hhung, if_neg hhung']
      exact hset { s with termios := next }

theorem sync_recast (s : State) :
    (s.recast rx l).syncTermiosFromSerial = s.syncTermiosFromSerial.recast rx l := rfl

theorem applyLocalTermios_recast (s : State) (next : Termios2) (baud : UInt32) :
    (s.recast rx l).applyLocalTermios next baud = (s.applyLocalTermios next baud).recast rx l := by
  rw [applyLocalTermios_eq, applyLocalTermios_eq, applyBaud_recast, applyLine_recast, sync_recast]

theorem applyTermios_recast (s : State) (input : List UInt8) (termios2 flush : Bool) :
    (s.recast rx l).applyTermios input termios2 flush =
      ((s.applyTermios input termios2 flush).1,
        (s.applyTermios input termios2 flush).2.1.recast (if flush then [] else rx) l,
        if flush then [.flushedRx rx] else []) := by
  -- the state that the settings are applied to
  have hstart : (if flush then (s.recast rx l).clearRx else (s.recast rx l, [])) =
      ((if flush then s.clearRx else (s, [])).1.recast (if flush then [] else rx) l,
        if flush then [.flushedRx rx] else []) := by
    cases flush <;> rfl
  have hrecast := applyLocalTermios_recast l (if flush then [] else rx)
    (if flush then s.clearRx else (s, [])).1
  unfold applyTermios
  rw [hstart]
  simp only
  generalize (if flush then s.clearRx else (s, [])) = start at hrecast ⊢
  have hbaud : (start.1.recast (if flush then [] else rx) l).termios = start.1.termios := rfl
  rw [hbaud]
  split
  · rfl
  · rw [hrecast]

theorem fillAll_recast (ps : List PendingWrite) (s : State) :
    fillAll ps (s.recast rx l) = ((fillAll ps s).1.recast rx l, (fillAll ps s).2) := by
  induction ps generalizing s with
  | nil => rfl
  | cons p ps ih =>
    have hrest := ih { s.push
      (.data (p.data.take (min (min p.data.length (txLimit - s.txBytes)) ioChunk))) with
      txBytes := s.txBytes + min (min p.data.length (txLimit - s.txBytes)) ioChunk }
    simp only [recast] at hrest
    by_cases hroom : s.txBytes < txLimit
    · simp only [fillAll, recast, push, hroom, if_true] at hrest ⊢
      rw [hrest]
    · simp only [fillAll, recast, hroom, if_false]

end State

/-! ### The turns of parked requests -/

/-- The request flushes the received bytes. -/
def PendingIoctl.flushes (p : PendingIoctl) : Bool :=
  match p.action with
  | .setTermios _ _ flush => flush
  | .tcsbrk _ => false

namespace State

/-- The turn of a parked request. -/
def turn (s : State) (p : PendingIoctl) : Except Errno Unit × State × List Entry :=
  match p.action with
  | .setTermios input termios2 flush => s.applyTermios input termios2 flush
  | .tcsbrk sendBreak =>
    (.ok (), if sendBreak then (s.push (.brk true)).push (.brk false) else s, [])

theorem completeAll_cons (p : PendingIoctl) (rest : List PendingIoctl) (s : State) :
    completeAll (p :: rest) s = ((completeAll rest (s.turn p).2.1).1,
      (s.turn p).2.2 ++ .answer p.reply (settled (s.turn p).1) ::
      (completeAll rest (s.turn p).2.1).2) := by
  obtain ⟨id, action, reply⟩ := p
  cases action <;> rfl

theorem completeAll_append (ps qs : List PendingIoctl) (s : State) :
    completeAll (ps ++ qs) s = ((completeAll qs (completeAll ps s).1).1,
      (completeAll ps s).2 ++ (completeAll qs (completeAll ps s).1).2) := by
  induction ps generalizing s with
  | nil => rfl
  | cons p ps ih => rw [List.cons_append, completeAll_cons, completeAll_cons, ih, List.append_assoc,
    List.cons_append]

theorem turn_recast (s : State) (rx : List UInt8) (l : List PendingIoctl) (p : PendingIoctl) :
    ((s.recast rx l).turn p).2.1 = (s.turn p).2.1.recast (if p.flushes then [] else rx) l := by
  obtain ⟨id, action, reply⟩ := p
  cases action with
  | setTermios input termios2 flush =>
    simp only [turn, PendingIoctl.flushes, applyTermios_recast]
    rfl
  | tcsbrk sendBreak => cases sendBreak <;> rfl

/-- What was received matters to the turns only until one of them flushes it. -/
theorem completeAll_recast (ps : List PendingIoctl) (s : State) (rx : List UInt8)
    (l : List PendingIoctl) :
    (completeAll ps (s.recast rx l)).1 =
      (completeAll ps s).1.recast (if ps.any PendingIoctl.flushes then [] else rx) l := by
  induction ps generalizing s rx with
  | nil => rfl
  | cons p ps ih =>
    rw [completeAll_cons, completeAll_cons, turn_recast, ih, List.any_cons]
    cases p.flushes <;> cases ps.any PendingIoctl.flushes <;> rfl

theorem ioctls_completeAll (ps : List PendingIoctl) (s : State) :
    (completeAll ps s).1.ioctls = s.ioctls := by
  have hrecast := completeAll_recast ps s s.rx s.ioctls
  have hioctls := congrArg State.ioctls hrecast
  exact hioctls

theorem turn_error {s : State} {p : PendingIoctl} {errno : Errno}
    (h : (s.turn p).1 = .error errno) :
    (s.turn p).2.1 = s.recast (if p.flushes then [] else s.rx) s.ioctls := by
  obtain ⟨id, action, reply⟩ := p
  cases action with
  | setTermios input termios2 flush =>
    simp only [turn, PendingIoctl.flushes] at h ⊢
    unfold applyTermios at h ⊢
    simp only at h ⊢
    split at h
    next =>
      simp only
      cases flush <;> rfl
    next => cases h
  | tcsbrk sendBreak => cases h

/-- The requests answered with an error. -/
def failed (es : List Entry) : List (Reply × Errno) :=
  es.filterMap fun
    | .answer reply (.error errno) => some (reply, errno)
    | _ => none

theorem failed_append (es es' : List Entry) : failed (es ++ es') = failed es ++ failed es' :=
    List.filterMap_append

theorem mem_failed {es : List Entry} {r : Reply} {errno : Errno} :
    (r, errno) ∈ failed es ↔ .answer r (.error errno) ∈ es := by
  constructor
  · intro h
    obtain ⟨e, he, hsome⟩ := List.mem_filterMap.mp h
    split at hsome
    next =>
      cases hsome
      exact he
    next => cases hsome
  · exact fun h => List.mem_filterMap.mpr ⟨_, h, rfl⟩

theorem failed_fillAll (ps : List PendingWrite) (s : State) : failed (fillAll ps s).2 = [] := by
  induction ps generalizing s with
  | nil => rfl
  | cons p ps ih =>
    unfold fillAll
    split
    · exact ih _
    · rfl

theorem failed_notifyPolls (s : State) : failed s.notifyPolls.2 = [] := by
  refine List.filterMap_eq_nil_iff.mpr fun e he => ?_
  obtain ⟨notifier, -, rfl⟩ := List.mem_map.mp he
  rfl

theorem mem_answered {es : List Entry} {r : Reply} {a : Answer} (h : Entry.answer r a ∈ es) :
    r ∈ answered es :=
  List.mem_filterMap.mpr ⟨_, h, rfl⟩

theorem answered_turn (s : State) (p : PendingIoctl) : answered (s.turn p).2.2 = [] := by
  obtain ⟨id, action, reply⟩ := p
  cases action with
  | setTermios input termios2 flush =>
    have hentries : (s.applyTermios input termios2 flush).2.2 = if flush then [.flushedRx s.rx]
        else [] :=
      congrArg (fun r => r.2.2) (applyTermios_recast s.ioctls s.rx s input termios2 flush)
    show answered (s.applyTermios input termios2 flush).2.2 = []
    rw [hentries]
    cases flush <;> rfl
  | tcsbrk sendBreak => rfl

theorem answered_completeAll (ps : List PendingIoctl) (s : State) :
    answered (completeAll ps s).2 = ps.map (·.reply) := by
  induction ps generalizing s with
  | nil => rfl
  | cons p ps ih =>
    rw [completeAll_cons, answered_append, answered_turn, List.nil_append, List.map_cons, ← ih]
    rfl

theorem mem_completeAll {ps : List PendingIoctl} {s : State} {r : Reply} {a : Answer}
    (h : Entry.answer r a ∈ (completeAll ps s).2) :
    ∃ pre p post, ps = pre ++ p :: post ∧ p.reply = r ∧
      a = settled ((completeAll pre s).1.turn p).1 := by
  induction ps generalizing s with
  | nil => cases h
  | cons p ps ih =>
    rw [completeAll_cons] at h
    rcases List.mem_append.mp h with hturn | h
    · exact absurd (mem_answered hturn) (by rw [answered_turn]; exact List.not_mem_nil)
    · rcases List.mem_cons.mp h with heq | h
      · obtain ⟨rfl, rfl⟩ := Entry.answer.inj heq
        exact ⟨[], p, ps, rfl, rfl, rfl⟩
      · obtain ⟨pre, q, post, rfl, hreply, ha⟩ := ih h
        refine ⟨p :: pre, q, post, rfl, hreply, ?_⟩
        rw [completeAll_cons]
        exact ha

/-- Without a request that fails, the turns lead to the same state unless its flush is missed. -/
theorem completeAll_without {pre post : List PendingIoctl} {p : PendingIoctl} {s : State}
    {errno : Errno} (h : ((completeAll pre s).1.turn p).1 = .error errno) :
    ∃ s' rx, (completeAll (pre ++ p :: post) s).1 = s'.recast rx s'.ioctls ∧
      (completeAll (pre ++ post) s).1 = s' ∧ (rx = s'.rx ↔ ¬(p.flushes = true ∧ s.rx ≠ [] ∧
      (pre ++ post).any PendingIoctl.flushes = false)) := by
  have hpre : (completeAll pre s).1.rx = if pre.any PendingIoctl.flushes then [] else s.rx :=
    congrArg State.rx (completeAll_recast pre s s.rx s.ioctls)
  rw [completeAll_append, completeAll_append, completeAll_cons]
  simp only
  rw [turn_error h]
  generalize (completeAll pre s).1 = s₁ at hpre ⊢
  have hpost : (completeAll post s₁).1.rx = if post.any PendingIoctl.flushes then [] else s₁.rx :=
    congrArg State.rx (completeAll_recast post s₁ s₁.rx s₁.ioctls)
  have hioctls : (completeAll post s₁).1.ioctls = s₁.ioctls := ioctls_completeAll post s₁
  rw [completeAll_recast, ← hioctls]
  refine ⟨_, _, rfl, rfl, ?_⟩
  rw [hpost, hpre, List.any_append]
  cases p.flushes <;> cases pre.any PendingIoctl.flushes <;> cases post.any PendingIoctl.flushes <;>
    simp [eq_comm]

theorem setTermios_withIoctls (l : List PendingIoctl) (s : State) (input : List UInt8)
    (termios2 flush : Bool) (reply : Reply) :
    ((s.withIoctls l).setTermios input termios2 flush reply).1 =
      (s.setTermios input termios2 flush reply).1.withIoctls l := by
  have happly : (s.withIoctls l).applyTermios input termios2 flush = _ :=
    applyTermios_recast l s.rx s input termios2 flush
  have hself := congrArg (fun r => r.2.1.rx)
    (applyTermios_recast s.ioctls s.rx s input termios2 flush)
  have hrx : (s.applyTermios input termios2 flush).2.1.rx = if flush then [] else s.rx := hself
  rw [← hrx] at happly
  unfold setTermios
  rw [happly]
  simp only
  split <;> rfl

/-! ### A state without a request -/

/-- The state without the parked request that `n` answers. -/
def without (s : State) (n : Reply) : State := s.withIoctls (s.ioctls.filter (·.reply ≠ n))

theorem without_of_notMem {s : State} {n : Reply} (h : ∀ p ∈ s.ioctls, p.reply ≠ n) :
    s.without n = s := by
  have hfilter : s.ioctls.filter (·.reply ≠ n) = s.ioctls :=
    List.filter_eq_self.mpr fun p hp => decide_eq_true (h p hp)
  rw [without, hfilter]
  rfl

theorem without_of_withIoctls {f : State → State}
    (hf : ∀ l s, f (s.withIoctls l) = (f s).withIoctls l) (s : State) (n : Reply) :
    f (s.without n) = (f s).without n := by
  have hsame := congrArg State.ioctls (hf s.ioctls s)
  have hioctls : (f s).ioctls = s.ioctls := hsame
  rw [without, without, hf, hioctls]

theorem completePendingIoctls_without {s : State} {n : Reply}
    (h : n ∉ answered s.completePendingIoctls.2) : (s.without n).completePendingIoctls =
    (s.completePendingIoctls.1.without n, s.completePendingIoctls.2) := by
  by_cases htx : s.txBytes ≠ 0
  · have htx' : (s.without n).txBytes ≠ 0 := htx
    rw [completePendingIoctls, completePendingIoctls, if_pos htx, if_pos htx']
  · rw [completePendingIoctls, if_neg htx, answered_completeAll] at h
    have hnone : ∀ p ∈ s.ioctls, p.reply ≠ n := fun p hp heq => h (heq ▸ List.mem_map_of_mem hp)
    have hafter : ∀ p ∈ s.completePendingIoctls.1.ioctls, p.reply ≠ n := by
      rw [completePendingIoctls, if_neg htx, ioctls_completeAll]
      exact List.forall_mem_nil _
    rw [without_of_notMem hnone, without_of_notMem hafter]

theorem fillPendingWrites_withIoctls (l : List PendingIoctl) (s : State) :
    (s.withIoctls l).fillPendingWrites.1 = s.fillPendingWrites.1.withIoctls l := by
  have hfill := fillAll_recast l s.rx s.writes s
  have hself := congrArg (fun r => r.1.rx) (fillAll_recast s.ioctls s.rx s.writes s)
  have hrx : (fillAll s.writes s).1.rx = s.rx := hself
  have hstate := congrArg Prod.fst hfill
  simp only [recast] at hstate
  show (fillAll s.writes { s with ioctls := l }).1 = { (fillAll s.writes s).1 with ioctls := l }
  rw [hstate, ← hrx]

theorem resume_without {s : State} {n : Reply} (h : n ∉ answered s.completePendingIoctls.2) :
    (s.without n).completePendingIoctls.1.fillPendingWrites.1.notifyPolls.1 =
      (s.completePendingIoctls.1.fillPendingWrites.1.notifyPolls.1).without n := by
  rw [completePendingIoctls_without h]
  exact congrArg (fun s => s.notifyPolls.1) 
    (without_of_withIoctls (f := fun s => s.fillPendingWrites.1) fillPendingWrites_withIoctls _ n)

/-- What follows it when the request fails. -/
theorem resume_error {s : State} {n : Reply} {errno : Errno}
    (hnodup : (s.ioctls.map (·.reply)).Nodup)
    (h : .answer n (.error errno) ∈ s.completePendingIoctls.2) :
    ∃ p ∈ s.ioctls, p.reply = n ∧ s.txBytes = 0 ∧
      (s.completePendingIoctls.1.fillPendingWrites.1.notifyPolls.1 =
          (s.without n).completePendingIoctls.1.fillPendingWrites.1.notifyPolls.1 ↔
        ¬(p.flushes = true ∧ s.rx ≠ [] ∧ (s.without n).ioctls.any PendingIoctl.flushes =
          false)) := by
  by_cases htx : s.txBytes ≠ 0
  · rw [completePendingIoctls, if_pos htx] at h
    cases h
  · rw [completePendingIoctls, if_neg htx] at h
    obtain ⟨pre, p, post, hioctls, hreply, ha⟩ := mem_completeAll h
    have hwithout : (s.without n).ioctls = pre ++ post := by
      rw [hioctls, List.map_append, List.map_cons, hreply] at hnodup
      have hmap : n ∉ pre.map (·.reply) ∧ n ∉ post.map (·.reply) := by
        obtain ⟨-, hcons, hdisjoint⟩ := List.nodup_append.mp hnodup
        exact ⟨fun hmem => hdisjoint _ hmem _ List.mem_cons_self rfl, (List.nodup_cons.mp hcons).1⟩
      have hkeep (l : List PendingIoctl) (hl : n ∉ l.map (·.reply)) : l.filter (·.reply ≠ n) = l :=
        List.filter_eq_self.mpr fun q hq => decide_eq_true fun heq =>
          hl (heq ▸ List.mem_map_of_mem hq)
      show s.ioctls.filter (·.reply ≠ n) = pre ++ post
      rw [hioctls, List.filter_append, List.filter_cons_of_neg (by simp [hreply]), hkeep pre hmap.1,
        hkeep post hmap.2]
    refine ⟨p, by rw [hioctls]; exact List.mem_append_right _ List.mem_cons_self, hreply,
      Decidable.of_not_not htx, ?_⟩
    have herror : ((completeAll pre { s with ioctls := [] }).1.turn p).1 = .error errno := by
      generalize ((completeAll pre { s with ioctls := [] }).1.turn p).1 = result at ha
      cases result with
      | ok => cases ha
      | error errno' => rw [Answer.error.inj ha]
    obtain ⟨s', rx, hwith, hmissing, hiff⟩ := completeAll_without herror
    have hcompleted : s.completePendingIoctls.1 = s'.recast rx s'.ioctls := by
      rw [completePendingIoctls, if_neg htx, hioctls]
      exact hwith
    have hcompleted' : (s.without n).completePendingIoctls.1 = s' := by
      have htx' : ¬(s.without n).txBytes ≠ 0 := htx
      rw [completePendingIoctls, if_neg htx', hwithout]
      exact hmissing
    rw [hcompleted, hcompleted', hwithout]
    refine Iff.trans ?_ hiff
    have hfill (rx : List UInt8) : (fillAll s'.writes (s'.recast rx s'.ioctls)).1.rx = rx := by
      rw [fillAll_recast]
      rfl
    constructor
    · intro heq
      have hrx := congrArg State.rx heq
      exact (hfill rx).symm.trans (hrx.trans (hfill s'.rx))
    · intro heq
      rw [heq]
      rfl

/-! ### Requests -/

theorem setIf_without (s : State) (n : Reply) (changed : Bool) (set : SerialState → SerialState)
    (e : DeviceEvent) : (s.without n).setIf changed set e = (s.setIf changed set e).without n := by
  cases changed <;> rfl

theorem setModemOutputs_without (s : State) (n : Reply) (bits mask : Flags) :
    (s.without n).setModemOutputs bits mask = (s.setModemOutputs bits mask).without n := by
  have hserial (s : State) : (s.without n).serial = s.serial := rfl
  simp only [setModemOutputs, setIf_without, hserial]

theorem drain_without (s : State) {n reply : Reply} (hne : reply ≠ n) (req : Request)
    (action : PendingIoctlAction) {go go' : State × List Entry} (hgo : go'.1 = go.1.without n) :
    ((s.without n).drain req action reply go').1 = (s.drain req action reply go).1.without n := by
  by_cases htx : s.txBytes ≠ 0
  · have htx' : (s.without n).txBytes ≠ 0 := htx
    rw [drain, drain, if_pos htx, if_pos htx']
    split
    · rfl
    · simp [without, withIoctls, List.filter_append, hne]
  · have htx' : ¬(s.without n).txBytes ≠ 0 := htx
    rw [drain, drain, if_neg htx, if_neg htx', hgo]

/-- What `TCFLSH` drops, and the event it queues. -/
def flushed (s : State) (rx tx : Bool) (value : UInt8) : State :=
  let s := (if rx then s.clearRx else (s, [])).1
  (if tx then s.clearTxData else (s, [])).1.push (.purge value)

theorem flush_eq (s : State) (rx tx : Bool) (value : UInt8) (reply : Reply) :
    (s.flush rx tx value reply).1 =
      (s.flushed rx tx value).completePendingIoctls.1.fillPendingWrites.1.notifyPolls.1 := rfl

/-- Only the turns of parked requests answer with errors. -/
theorem failed_flush (s : State) (rx tx : Bool) (value : UInt8) (reply : Reply) :
    failed (s.flush rx tx value reply).2 = failed
      (s.flushed rx tx value).completePendingIoctls.2 := by
  have hdropped : ∃ dropped, failed dropped = [] ∧ (s.flush rx tx value reply).2 =
      dropped ++ (s.flushed rx tx value).completePendingIoctls.2 ++
        (s.flushed rx tx value).completePendingIoctls.1.fillPendingWrites.2 ++
        (s.flushed rx tx value).completePendingIoctls.1.fillPendingWrites.1.notifyPolls.2 ++
        [.answer reply (.ok [])] := by
    cases rx <;> cases tx <;> exact ⟨_, rfl, rfl⟩
  obtain ⟨dropped, hnone, heq⟩ := hdropped
  rw [heq]
  simp only [failed_append, hnone, fillPendingWrites, failed_fillAll, failed_notifyPolls,
    List.nil_append, List.append_nil]
  exact List.append_nil _

theorem answered_flush {s : State} {rx tx : Bool} {value : UInt8} {reply n : Reply}
    (h : n ∉ answered (s.flush rx tx value reply).2) :
    n ∉ answered (s.flushed rx tx value).completePendingIoctls.2 := by
  intro hmem
  refine h ?_
  simp only [flush, answered_append, List.mem_append]
  exact .inl (.inl (.inl (.inr hmem)))

theorem flushed_without (s : State) (n : Reply) (rx tx : Bool) (value : UInt8) :
    (s.without n).flushed rx tx value = (s.flushed rx tx value).without n := by
  cases rx <;> cases tx <;> rfl

theorem nextEvent_without {s : State} {n : Reply} (h : n ∉ answered s.nextEvent.2) :
    (s.without n).nextEvent.1 = s.nextEvent.1.without n := by
  have hevents : (s.without n).events = s.events := rfl
  unfold nextEvent at h ⊢
  rw [hevents]
  cases hs : s.events with
  | nil => rfl
  | cons event events =>
    simp only [hs, answered, List.filterMap_append, List.filterMap_cons, List.mem_append,
      not_or] at h
    cases event with
    | data data =>
      exact resume_without (s := { s with events := events, txBytes := s.txBytes - data.length })
        h.1.1
    | _ => exact resume_without (s := { s with events := events }) h.1.1

theorem nextEvent_error {s : State} {n : Reply} {errno : Errno}
    (hnodup : (s.ioctls.map (·.reply)).Nodup) (h : (n, errno) ∈ failed s.nextEvent.2) :
    ∃ p ∈ s.ioctls, p.reply = n ∧ (s.nextEvent.1 = (s.without n).nextEvent.1 ↔
      ¬(p.flushes = true ∧ s.rx ≠ [] ∧ (s.without n).ioctls.any PendingIoctl.flushes = false)) := by
  have hevents : (s.without n).events = s.events := rfl
  unfold nextEvent at h ⊢
  rw [hevents]
  cases hs : s.events with
  | nil =>
    simp only [hs] at h
    cases h
  | cons event events =>
    simp only [hs] at h
    have hcompleted (s' : State)
      (h : (n, errno) ∈ failed (.handed event :: s'.completePendingIoctls.2 ++
        s'.completePendingIoctls.1.fillPendingWrites.2 ++
        s'.completePendingIoctls.1.fillPendingWrites.1.notifyPolls.2)) :
        .answer n (.error errno) ∈ s'.completePendingIoctls.2 := by
      rw [failed_append, failed_append, failed_notifyPolls, fillPendingWrites, failed_fillAll,
        List.append_nil, List.append_nil] at h
      exact mem_failed.mp h
    cases event with
    | data data =>
      obtain ⟨p, hp, hreply, -, hiff⟩ := resume_error
        (s := { s with events := events, txBytes := s.txBytes - data.length }) hnodup
          (hcompleted _ h)
      exact ⟨p, hp, hreply, hiff⟩
    | _ =>
      obtain ⟨p, hp, hreply, -, hiff⟩ :=
        resume_error (s := { s with events := events }) hnodup (hcompleted _ h)
      exact ⟨p, hp, hreply, hiff⟩

theorem setTermios_error {s : State} {input : List UInt8} {termios2 flush : Bool} {n reply : Reply}
    {errno : Errno} (h : (n, errno) ∈ failed (s.setTermios input termios2 flush reply).2) :
    (s.setTermios input termios2 flush reply).1 = s.recast
    (if flush then [] else s.rx) s.ioctls := by
  have herror (errno' : Errno) (happly : (s.applyTermios input termios2 flush).1 = .error errno') :
      (s.applyTermios input termios2 flush).2.1 = s.recast (if flush then [] else s.rx) s.ioctls :=
    turn_error (s := s) (p := ⟨0, .setTermios input termios2 flush, reply⟩) happly
  have hquiet : failed (s.applyTermios input termios2 flush).2.2 = [] := by
    have hentries := congrArg (fun r => r.2.2)
      (applyTermios_recast s.ioctls s.rx s input termios2 flush)
    have hflushed : (s.applyTermios input termios2 flush).2.2 = if flush then [.flushedRx s.rx]
        else [] := hentries
    rw [hflushed]
    cases flush <;> rfl
  unfold setTermios at h ⊢
  generalize s.applyTermios input termios2 flush = r at h herror hquiet ⊢
  obtain ⟨result, s', es⟩ := r
  cases result with
  | ok =>
    simp only [failed_append, failed_notifyPolls] at h
    simp only at hquiet
    rw [hquiet] at h
    cases h
  | error errno' => exact herror errno' rfl

theorem any_without (s : State) (n : Reply) :
    (s.without n).ioctls.any PendingIoctl.flushes = false ↔
    ∀ q ∈ s.ioctls, q.reply ≠ n → q.flushes = false := by
  rw [List.any_eq_false]
  constructor
  · exact fun h q hq hne =>
      Bool.eq_false_iff.mpr (h q (List.mem_filter.mpr ⟨hq, decide_eq_true hne⟩))
  · intro h q hq
    obtain ⟨hmem, hne⟩ := List.mem_filter.mp hq
    exact Bool.eq_false_iff.mp (h q hmem (of_decide_eq_true hne))

theorem flush_error {s : State} {n reply : Reply} {errno : Errno}
    (hnodup : (s.ioctls.map (·.reply)).Nodup) {rx tx : Bool} {value : UInt8}
    (h : (n, errno) ∈ failed (s.flush rx tx value reply).2) : ∃ p ∈ s.ioctls, p.reply = n ∧
      ((s.flush rx tx value reply).1 = ((s.without n).flush rx tx value reply).1 ↔
      ¬(p.flushes = true ∧ rx = false ∧ s.rx ≠ [] ∧ (s.without n).ioctls.any PendingIoctl.flushes =
        false)) := by
  rw [failed_flush] at h
  have hioctls : (s.flushed rx tx value).ioctls = s.ioctls := by cases rx <;> cases tx <;> rfl
  have hrx : (s.flushed rx tx value).rx = if rx then []
      else s.rx := by cases rx <;> cases tx <;> rfl
  obtain ⟨p, hp, hreply, -, hiff⟩ := resume_error (hioctls ▸ hnodup) (mem_failed.mp h)
  refine ⟨p, hioctls ▸ hp, hreply, ?_⟩
  rw [flush_eq, flush_eq, flushed_without, hiff, hrx, any_without, any_without, hioctls]
  cases rx <;> simp

/-- A command that sets no settings, when it answers neither the request that is missing nor the one
it makes with the same number. -/
theorem ioctl_without (s : State) {n reply : Reply} (hne : reply ≠ n) (req : Request) (i : Ioctl)
    (h : i.cmd = .TCFLSH → n ∉ answered (s.ioctl req i reply).2) :
    ((s.without n).ioctl req i reply).1 = (s.ioctl req i reply).1.without n := by
  have hgive (need : Nat) (bytes bytes' : List UInt8) :
      (if i.outSize < need then (s.without n, [Entry.answer reply (.retry 0 need)])
        else (s.without n, [.answer reply (.ok bytes')])).1 =
      (if i.outSize < need then (s, [Entry.answer reply (.retry 0 need)])
        else (s, [.answer reply (.ok bytes)])).1.without n := by
    split <;> rfl
  have hflush (rx tx : Bool) (value : UInt8) (hn : n ∉ answered (s.flush rx tx value reply).2) :
      ((s.without n).flush rx tx value reply).1 = (s.flush rx tx value reply).1.without n := by
    rw [flush_eq, flush_eq, flushed_without, resume_without (answered_flush hn)]
  obtain ⟨cmd, compat, arg, input, outSize⟩ := i
  cases cmd with
  | TCGETS => exact hgive _ _ _
  | TCGETS2 => exact hgive _ _ _
  | TIOCMGET => exact hgive _ _ _
  | FIONREAD => exact hgive _ _ _
  | TIOCOUTQ => exact hgive _ _ _
  | TIOCMSET | TIOCMBIS | TIOCMBIC =>
    unfold State.ioctl
    simp only
    split
    · rfl
    · exact setModemOutputs_without s n _ _
  | TCFLSH =>
    have hn := h rfl
    unfold State.ioctl at hn ⊢
    simp only at hn ⊢
    split at hn
    · exact hflush _ _ _ hn
    · exact hflush _ _ _ hn
    · exact hflush _ _ _ hn
    · rfl
  | TIOCEXCL => rfl
  | TIOCNXCL => rfl
  | TIOCSBRK | TIOCCBRK =>
    unfold State.ioctl
    simp only
    exact setIf_without s n _ _ _
  | TCSBRK =>
    refine drain_without s hne req _ ?_
    simp only
    split <;> rfl
  | TCXONC =>
    unfold State.ioctl
    simp only
    split <;> rfl
  | _ => rfl

theorem drain_error {s : State} {req : Request} {action : PendingIoctlAction} {reply : Reply}
    {go : State × List Entry} {errno : Errno} (hgo : .answer reply (.error errno) ∈ go.2 → go.1 = s)
    (h : .answer reply (.error errno) ∈ (s.drain req action reply go).2) :
    (s.drain req action reply go).1 = s := by
  unfold drain at h ⊢
  split
  next htx =>
    split
    · rfl
    next hnonblocking =>
      rw [if_pos htx, if_neg hnonblocking] at h
      cases h
  next htx =>
    rw [if_neg htx] at h
    exact hgo h

theorem beginSet_error {s : State} {req : Request} {i : Ioctl} {need : Nat}
    {termios2 flush drain : Bool} {reply : Reply} {r : State × List Entry} {errno : Errno}
    (hbegin : s.beginSet req i need termios2 flush drain reply = some r)
    (h : .answer reply (.error errno) ∈ r.2) : r.1 = s := by
  unfold beginSet at hbegin
  split at hbegin
  · obtain rfl := Option.some.inj hbegin
    rfl
  · split at hbegin
    · obtain rfl := Option.some.inj hbegin
      exact drain_error (fun _ => rfl) h
    · cases hbegin

theorem ioctl_error {s : State} {req : Request} {i : Ioctl} {reply : Reply} {errno : Errno}
    (hioctls : ∀ p ∈ s.ioctls, p.reply ≠ reply)
    (h : .answer reply (.error errno) ∈ (s.ioctl req i reply).2) : (s.ioctl req i reply).1 = s := by
  have hgive (need : Nat) (bytes : List UInt8) :
      (if i.outSize < need then (s, [Entry.answer reply (.retry 0 need)])
        else (s, [.answer reply (.ok bytes)])).1 = s := by
    split <;> rfl
  have hflush {rx tx : Bool} {value : UInt8}
    (hmem : .answer reply (.error errno) ∈ (s.flush rx tx value reply).2) :
      False := by
    have hmem' := mem_failed.mpr hmem
    rw [failed_flush, mem_failed] at hmem'
    have hflushed : (s.flushed rx tx value).ioctls = s.ioctls := by cases rx <;> cases tx <;> rfl
    unfold completePendingIoctls at hmem'
    split at hmem'
    · cases hmem'
    · obtain ⟨pre, p, post, heq, hreply, -⟩ := mem_completeAll hmem'
      rw [hflushed] at heq
      exact hioctls p (heq ▸ List.mem_append_right _ List.mem_cons_self) hreply
  have hdone (s' : State) (hmem : .answer reply (.error errno) ∈ [Entry.answer reply (.ok [])]) :
      False := by
    cases List.mem_singleton.mp hmem
  obtain ⟨cmd, compat, arg, input, outSize⟩ := i
  cases cmd with
  | TCGETS => exact hgive _ _
  | TCGETS2 => exact hgive _ _
  | TIOCMGET => exact hgive _ _
  | FIONREAD => exact hgive _ _
  | TIOCOUTQ => exact hgive _ _
  | TIOCMSET | TIOCMBIS | TIOCMBIC =>
    unfold State.ioctl at h ⊢
    by_cases hshort : input.length < 4
    · simp only [if_pos hshort]
    · simp only [if_neg hshort] at h
      exact (hdone s h).elim
  | TCFLSH =>
    unfold State.ioctl at h ⊢
    simp only at h ⊢
    split at h
    · exact (hflush h).elim
    · exact (hflush h).elim
    · exact (hflush h).elim
    · rfl
  | TIOCEXCL | TIOCNXCL | TIOCSBRK | TIOCCBRK => exact (hdone s h).elim
  | TCSBRK => exact drain_error (fun hmem => (hdone s hmem).elim) h
  | TCXONC =>
    unfold State.ioctl at h ⊢
    simp only at h ⊢
    split at h
    · exact (hdone s h).elim
    · exact (hdone s h).elim
    · rfl
    · rfl
    · rfl
  | _ => rfl

end State

end Microtun.Serial
