import Microtun.Serial.Requests

/-! Runs of the virtual serial device. -/

namespace Microtun.Serial

namespace State

/-! ### Requests to a device that has stopped -/

theorem mem_answered_read {s : State} (h : s.stopping = true) (req : Request) (size : Nat)
    (reply : Reply) : reply ∈ answered (s.read req size reply).2 := by
  unfold read
  by_cases hsize : size = 0 <;> simp [hsize, h, answered]

theorem mem_answered_write {s : State} (h : s.stopping = true) (req : Request) (data : List UInt8)
    (reply : Reply) : reply ∈ answered (s.write req data reply).2 := by
  unfold write
  by_cases hdata : data = [] <;> simp [hdata, h, answered]

theorem mem_answered_open {s : State} (h : s.stopping = true) (reply : Reply) :
    reply ∈ answered (s.open reply).2 := by
  unfold «open»
  simp [h, answered]

theorem mem_answered_poll (s : State) (requested : Flags) (notifier : Option Nat) (reply : Reply) :
    reply ∈ answered (s.poll requested notifier reply).2 := by
  simp [poll, answered]

theorem mem_answered_drain {s : State} {req : Request} (action : PendingIoctlAction) {reply : Reply}
    {go : State × List Entry} (hgo : reply ∈ answered go.2)
    (h : s.txBytes = 0 ∨ req.nonblocking = true) :
      reply ∈ answered (s.drain req action reply go).2 := by
  unfold drain
  by_cases htx : s.txBytes ≠ 0
  · have hnb : req.nonblocking = true := h.resolve_left htx
    simp [htx, hnb, answered]
  · rw [if_neg htx]
    exact hgo

theorem mem_answered_ioctl {s : State} {req : Request} {i : Ioctl} {reply : Reply}
    (h : i.cmd = .TCSBRK → s.txBytes = 0 ∨ req.nonblocking = true) :
    reply ∈ answered (s.ioctl req i reply).2 := by
  have hgive : ∀ (need : Nat) (bytes : List UInt8), reply ∈ answered
      (if i.outSize < need then (s, [Entry.answer reply (.retry 0 need)])
        else (s, [.answer reply (.ok bytes)])).2 := by
    intro need bytes
    by_cases hout : i.outSize < need <;> simp [hout, answered]
  have hflush : ∀ rx tx value, reply ∈ answered (s.flush rx tx value reply).2 := by
    intro rx tx value
    simp [flush, answered]
  obtain ⟨cmd, compat, arg, input, outSize⟩ := i
  cases cmd with
  | TCGETS => exact hgive _ _
  | TCGETS2 => exact hgive _ _
  | TIOCMGET => exact hgive _ _
  | FIONREAD => exact hgive _ _
  | TIOCOUTQ => exact hgive _ _
  | TIOCMSET | TIOCMBIS | TIOCMBIC =>
    unfold State.ioctl
    by_cases hshort : input.length < 4 <;> simp [hshort, answered]
  | TCFLSH =>
    unfold State.ioctl
    simp only
    split
    · exact hflush _ _ _
    · exact hflush _ _ _
    · exact hflush _ _ _
    · simp [answered]
  | TCSBRK => exact mem_answered_drain _ (by simp [answered]) (h rfl)
  | TCXONC =>
    unfold State.ioctl
    simp only
    split <;> simp [answered]
  | _ => simp [State.ioctl, answered]

theorem mem_answered_beginSet {s : State} {req : Request} {i : Ioctl} {need : Nat}
    {termios2 flush drain : Bool} {reply : Reply} {r : State × List Entry}
    (h : s.beginSet req i need termios2 flush drain reply = some r)
    (hfree : i.input.length < need ∨ drain = false ∨ s.txBytes = 0 ∨ req.nonblocking = true) :
    reply ∈ answered r.2 := by
  unfold beginSet at h
  by_cases hshort : i.input.length < need
  · rw [if_pos hshort] at h
    rw [← Option.some.inj h]
    simp [answered]
  · rw [if_neg hshort] at h
    by_cases hwait : drain ∧ s.txBytes ≠ 0
    · rw [if_pos hwait] at h
      have hnb : req.nonblocking = true := by
        rcases hfree with hfree | hfree | hfree | hfree
        · exact absurd hfree hshort
        · exact absurd hwait.1 (by simp [hfree])
        · exact absurd hfree hwait.2
        · exact hfree
      rw [← Option.some.inj h]
      simp [State.drain, hwait.2, hnb, answered]
    · cases (if_neg hwait).symm.trans h

end State

namespace World

/-- What a write request wrote. -/
def wrote (asked : List Op) (reply : Reply) : List UInt8 :=
  match asked[reply]? with
  | some (.write _ data) => data
  | _ => []

/-- The requests not answered yet: parked, or between their two critical sections. -/
def pending (w : World) : List Reply := w.state.parked ++ w.applying.map (·.reply)

/-- The parked requests wait for what is missing, every request is answered once or pending, and the
bytes go through in order, less those a flush dropped. -/
structure Sound (w : World) : Prop where
  tidy : w.state.Tidy (wrote w.asked)
  once : (answered w.log ++ w.pending).Perm (List.range w.asked.length)
  rx : pushedRx w.log = leftRx w.log ++ w.state.rx
  tx : acked (wrote w.asked) w.log = leftTx w.log ++ queued w.state.events

theorem Sound.count {w : World} (h : w.Sound) (r : Reply) :
    (answered w.log).count r + w.state.parked.count r + (w.applying.map (·.reply)).count r =
      (List.range w.asked.length).count r := by
  rw [← List.perm_iff_count.mp h.once r, List.count_append, pending, List.count_append]
  omega

theorem wrote_append {asked : List Op} {r : Reply} (h : r < asked.length) (op : Op) :
    wrote (asked ++ [op]) r = wrote asked r := by
  unfold wrote
  rw [List.getElem?_append_left h]

theorem Sound.lt {w : World} (h : w.Sound) {r : Reply}
    (hr : r ∈ answered w.log ∨ r ∈ w.state.parked) : r < w.asked.length := by
  refine List.mem_range.mp ((h.once.mem_iff).mp ?_)
  cases hr with
  | inl ha => exact List.mem_append_left _ ha
  | inr hp => exact List.mem_append_right _ (List.mem_append_left _ hp)

theorem Sound.tidy_append {w : World} (h : w.Sound) (op : Op) :
    w.state.Tidy (wrote (w.asked ++ [op])) := by
  have ht := h.tidy
  refine ⟨ht.txBytes, ht.limit, ht.reads, ht.writes, ht.ioctls, fun p hp => ?_⟩
  have hmem : p.reply ∈ w.state.parked :=
    List.mem_append_left _ (List.mem_append_right _ (List.mem_map_of_mem hp))
  rw [wrote_append (h.lt (.inr hmem))]
  exact ht.wrote p hp

theorem Sound.acked_append {w : World} (h : w.Sound) (op : Op) :
    acked (wrote (w.asked ++ [op])) w.log = acked (wrote w.asked) w.log :=
  acked_congr fun _ hr => wrote_append (h.lt (.inl hr)) op

theorem Sound.leave {w : World} (h : w.Sound) {r : State × List Entry}
    (hr : State.Accounts (wrote w.asked) [] w.state r.1 r.2) (ht : r.1.Tidy (wrote w.asked)) :
    (w.leave r).Sound where
  tidy := ht
  once := by
    refine List.perm_iff_count.mpr fun k => ?_
    have h1 := h.count k
    have h2 := hr.settles k
    simp only [World.leave, pending, answered_append, List.count_append, List.count_nil] at h1 h2 ⊢
    omega
  rx := by
    show pushedRx (w.log ++ r.2) = leftRx (w.log ++ r.2) ++ r.1.rx
    rw [pushedRx_append, leftRx_append, h.rx, List.append_assoc, hr.rx, List.append_assoc]
  tx := by
    show acked (wrote w.asked) (w.log ++ r.2) = leftTx (w.log ++ r.2) ++ queued r.1.events
    rw [Serial.acked_append, leftTx_append, h.tx, List.append_assoc, hr.tx, List.append_assoc]

theorem Sound.ask {w : World} (h : w.Sound) (op : Op) (serve : Reply → State × List Entry)
    (hr : State.Serves (wrote (w.asked ++ [op])) [w.asked.length] w.state (serve w.asked.length).1
      (serve w.asked.length).2) : (w.ask op serve).Sound where
  tidy := hr.tidy
  once := by
    refine List.perm_iff_count.mpr fun k => ?_
    have h1 := h.count k
    have h2 := hr.settles k
    simp only [World.ask, World.leave, pending, answered_append, List.count_append,
      List.length_append, List.length_singleton, List.range_succ] at h1 h2 ⊢
    omega
  rx := by
    show pushedRx (w.log ++ _) = leftRx (w.log ++ _) ++ _
    rw [pushedRx_append, leftRx_append, h.rx, List.append_assoc, hr.rx, List.append_assoc]
    rfl
  tx := by
    show acked (wrote (w.asked ++ [op])) (w.log ++ _) = leftTx (w.log ++ _) ++ _
    rw [Serial.acked_append, leftTx_append, h.acked_append, h.tx, List.append_assoc, hr.tx,
      List.append_assoc]
    rfl

theorem Sound.quiet {w : World} (h : w.Sound) {s' : State} (hq : w.state.Quiet s') :
    ({ w with state := s' } : World).Sound where
  tidy := hq.tidy h.tidy
  once := by
    show (answered w.log ++ (s'.parked ++ _)).Perm _
    rw [hq.parked]
    exact h.once
  rx := by
    show _ = _ ++ s'.rx
    rw [hq.rx]
    exact h.rx
  tx := by
    show _ = _ ++ queued s'.events
    rw [hq.events]
    exact h.tx

theorem Sound.ioctl {w : World} (h : w.Sound) (req : Request) (i : Ioctl) :
    (w.ioctl req i).Sound := by
  have ht := h.tidy_append (.ioctl req i)
  unfold World.ioctl
  by_cases hcompat : i.compat = true
  · simp only [if_pos hcompat]
    exact h.ask _ _ ((State.Quiet.refl _).answer ht _ rfl rfl)
  · simp only [if_neg hcompat]
    cases hsets : i.cmd.sets with
    | none => exact h.ask _ _ (State.serves_ioctl ht req i _)
    | some set =>
      obtain ⟨need, termios2, flush, drain⟩ := set
      simp only
      cases hbegin : w.state.beginSet req i need termios2 flush drain w.asked.length with
      | some r => exact h.ask _ (fun _ => r) (State.serves_beginSet ht req i _ _ _ _ _ hbegin)
      | none =>
        refine ⟨ht, ?_, h.rx, ?_⟩
        · refine List.perm_iff_count.mpr fun k => ?_
          have h1 := h.count k
          simp only [pending, List.count_append, List.length_append, List.length_singleton,
            List.range_succ, List.map_append, List.map_cons, List.map_nil] at h1 ⊢
          omega
        · show acked _ w.log = _
          rw [h.acked_append]
          exact h.tx

theorem Sound.setTermios {w : World} (h : w.Sound) (reply : Reply) :
    (w.setTermios reply).Sound := by
  unfold World.setTermios
  cases hf : w.applying.find? (·.reply = reply) with
  | none => exact h
  | some p =>
    obtain ⟨id, action, reply'⟩ := p
    have hreply : reply' = reply := by simpa using List.find?_some hf
    cases action with
    | tcsbrk sendBreak => exact h
    | setTermios input termios2 flush =>
      have hserve := State.serves_setTermios h.tidy input termios2 flush reply
      refine ⟨hserve.tidy, ?_, ?_, ?_⟩
      · refine List.perm_iff_count.mpr fun k => ?_
        have h1 := h.count k
        have h2 := hserve.settles k
        have h3 := State.count_eraseP_map hf (·.reply) k
        simp only [hreply] at h3
        simp only [World.leave, pending, answered_append, List.count_append] at h1 h2 ⊢
        omega
      · show pushedRx (w.log ++ _) = leftRx (w.log ++ _) ++ _
        rw [pushedRx_append, leftRx_append, h.rx, List.append_assoc, hserve.rx, List.append_assoc]
        rfl
      · show acked (wrote w.asked) (w.log ++ _) = leftTx (w.log ++ _) ++ _
        rw [Serial.acked_append, leftTx_append, h.tx, List.append_assoc, hserve.tx,
          List.append_assoc]
        rfl

theorem Sound.step {w : World} (h : w.Sound) (op : Op) : (w.step op).Sound := by
  have ht := h.tidy_append op
  cases op with
  | «open» => exact h.ask _ _ (State.serves_open ht _)
  | release => exact h.quiet (State.quiet_release _)
  | read req size => exact h.ask _ _ (State.serves_read ht req size _)
  | write req data =>
    refine h.ask _ _ (State.serves_write ht req ?_)
    simp [wrote]
  | ioctl req i => exact h.ioctl req i
  | setTermios reply => exact h.setTermios reply
  | poll requested notifier => exact h.ask _ _ (State.serves_poll ht requested notifier _)
  | interrupt id =>
    have hserve := State.serves_interrupt h.tidy id
    exact h.leave hserve.toAccounts hserve.tidy
  | pushRx data =>
    have hserve := State.serves_pushRx h.tidy data
    exact h.leave hserve.toAccounts hserve.tidy
  | nextEvent =>
    have hserve := State.serves_nextEvent h.tidy
    exact h.leave hserve.toAccounts hserve.tidy
  | remoteUpdate event => exact h.quiet (State.quiet_remoteUpdate _ event)
  | stop =>
    obtain ⟨hacc, htidy, -⟩ := State.stop_spec h.tidy
    exact h.leave hacc htidy

theorem sound_new (serial : SerialState) : (new serial).Sound where
  tidy := ⟨rfl, Nat.zero_le _, fun h => absurd rfl h, fun h => absurd rfl h, fun h => absurd rfl h,
    fun _ hp => nomatch hp⟩
  once := .refl _
  rx := rfl
  tx := rfl

theorem Sound.foldl {w : World} (h : w.Sound) (ops : List Op) : (ops.foldl World.step w).Sound := by
  induction ops generalizing w with
  | nil => exact h
  | cons op ops ih => exact ih (h.step op)

theorem sound_run (serial : SerialState) (ops : List Op) : (run serial ops).Sound :=
    (sound_new serial).foldl ops

/-! ### Stopping -/

end World

/-- A request of a blocking file that waits for output to drain. -/
def Op.waits : Op → Bool
  | .ioctl req i =>
    !req.nonblocking && !i.compat && match i.cmd with
      | .TCSBRK => true
      | cmd => match cmd.sets with
        | some (need, _, _, drain) => drain && need ≤ i.input.length
        | none => false
  | _ => false

namespace World

/-- The call parks a drain request although the device has stopped. -/
def Strands (w : World) (op : Op) : Prop :=
  w.state.stopping = true ∧ w.state.txBytes ≠ 0 ∧ op.waits = true

/-- Nothing is parked once the device has stopped. -/
def Released (w : World) : Prop := w.state.stopping = true → w.state.parked = []

theorem parked_eq_nil {data : Reply → List UInt8} {new : List Reply} {s s' : State}
    {es : List Entry} (h : State.Accounts data new s s' es) (hs : s.parked = [])
    (hnew : ∀ r, new.count r ≤ (answered es).count r) : s'.parked = [] := by
  refine List.eq_nil_iff_forall_not_mem.mpr fun r hr => ?_
  have hcount := h.settles r
  have hpos := List.count_pos_iff.mpr hr
  have hle := hnew r
  rw [hs, List.count_nil] at hcount
  omega

/-- A request whose critical section answers it whenever the device has stopped. -/
theorem Released.ask {w : World} (h : w.Released) {op : Op} {serve : Reply → State × List Entry}
    {data : Reply → List UInt8}
    (hr : State.Serves data [w.asked.length] w.state (serve w.asked.length).1
      (serve w.asked.length).2)
    (hans : w.state.stopping = true → w.asked.length ∈ answered (serve w.asked.length).2) :
    (w.ask op serve).Released := by
  intro hstop
  have hstop' : w.state.stopping = true := hr.stopping.symm.trans hstop
  refine parked_eq_nil hr.toAccounts (h hstop') fun r => ?_
  by_cases hrn : w.asked.length = r
  · subst hrn
    rw [List.count_singleton_self]
    exact List.count_pos_iff.mpr (hans hstop')
  · rw [List.count_singleton, if_neg (by simpa using hrn)]
    exact Nat.zero_le _

theorem Released.leave {w : World} (h : w.Released) {r : State × List Entry}
    {data : Reply → List UInt8} (hr : State.Serves data [] w.state r.1 r.2) :
    (w.leave r).Released := by
  intro hstop
  exact parked_eq_nil hr.toAccounts (h (hr.stopping.symm.trans hstop)) fun _ => Nat.zero_le _

theorem Released.quiet {w : World} (h : w.Released) {s' : State} (hq : w.state.Quiet s') :
    ({ w with state := s' } : World).Released := by
  intro hstop
  show s'.parked = []
  rw [hq.parked]
  exact h (hq.stopping.symm.trans hstop)

theorem Released.ioctl {w : World} (h : w.Released) (hs : w.Sound) {req : Request} {i : Ioctl}
    (hno : ¬ w.Strands (.ioctl req i)) : (w.ioctl req i).Released := by
  have ht := hs.tidy_append (.ioctl req i)
  unfold World.ioctl
  by_cases hcompat : i.compat = true
  · simp only [if_pos hcompat]
    exact h.ask ((State.Quiet.refl _).answer ht _ rfl rfl) fun _ => by simp [answered]
  · simp only [if_neg hcompat]
    have hfree : w.state.stopping = true → (Op.ioctl req i).waits = true → w.state.txBytes = 0 := by
      intro hstop hwaits
      refine Classical.byContradiction fun htx => ?_
      exact hno ⟨hstop, htx, hwaits⟩
    cases hsets : i.cmd.sets with
    | none =>
      refine h.ask (State.serves_ioctl ht req i _) fun hstop => ?_
      refine State.mem_answered_ioctl fun hcmd => ?_
      cases hnb : req.nonblocking with
      | true => exact .inr rfl
      | false => exact .inl (hfree hstop (by simp [Op.waits, hnb, hcompat, hcmd]))
    | some set =>
      obtain ⟨need, termios2, flush, drain⟩ := set
      simp only
      cases hbegin : w.state.beginSet req i need termios2 flush drain w.asked.length with
      | none => exact h
      | some r =>
        refine h.ask (State.serves_beginSet ht req i _ _ _ _ _ hbegin) fun hstop => ?_
        refine State.mem_answered_beginSet hbegin ?_
        by_cases hshort : i.input.length < need
        · exact .inl hshort
        · cases hdrain : drain with
          | false => exact .inr (.inl rfl)
          | true =>
            cases hnb : req.nonblocking with
            | true => exact .inr (.inr (.inr rfl))
            | false =>
              refine .inr (.inr (.inl (hfree hstop ?_)))
              have hcmd : i.cmd ≠ .TCSBRK := by
                intro hcmd
                rw [hcmd] at hsets
                cases hsets
              simp [Op.waits, hnb, hcompat, hsets, hdrain, Nat.le_of_not_lt hshort]

theorem Released.setTermios {w : World} (h : w.Released) (hs : w.Sound) (reply : Reply) :
    (w.setTermios reply).Released := by
  unfold World.setTermios
  cases hf : w.applying.find? (·.reply = reply) with
  | none => exact h
  | some p =>
    obtain ⟨id, action, reply'⟩ := p
    cases action with
    | tcsbrk sendBreak => exact h
    | setTermios input termios2 flush =>
      have hserve := State.serves_setTermios hs.tidy input termios2 flush reply
      intro hstop
      refine parked_eq_nil hserve.toAccounts (h (hserve.stopping.symm.trans hstop)) fun r => ?_
      have hans : reply ∈ answered (w.state.setTermios input termios2 flush reply).2 := by
        simp [State.setTermios, answered]
      by_cases hr : reply = r
      · rw [← hr, List.count_singleton_self]
        exact List.count_pos_iff.mpr hans
      · rw [List.count_singleton, if_neg (by simpa using hr)]
        exact Nat.zero_le _

theorem Released.step {w : World} (h : w.Released) (hs : w.Sound) {op : Op}
    (hno : ¬ w.Strands op) : (w.step op).Released := by
  have ht := hs.tidy_append op
  cases op with
  | «open» => exact h.ask (State.serves_open ht _) fun hstop => State.mem_answered_open hstop _
  | release => exact h.quiet (State.quiet_release _)
  | read req size =>
    exact h.ask (State.serves_read ht req size _) fun hstop =>
      State.mem_answered_read hstop req size _
  | write req data =>
    refine h.ask (State.serves_write ht req ?_) fun hstop =>
      State.mem_answered_write hstop req data _
    simp [wrote]
  | ioctl req i => exact h.ioctl hs hno
  | setTermios reply => exact h.setTermios hs reply
  | poll requested notifier =>
    exact h.ask (State.serves_poll ht requested notifier _) fun _ =>
      State.mem_answered_poll _ requested notifier _
  | interrupt id => exact h.leave (State.serves_interrupt hs.tidy id)
  | pushRx data => exact h.leave (State.serves_pushRx hs.tidy data)
  | nextEvent => exact h.leave (State.serves_nextEvent hs.tidy)
  | remoteUpdate event => exact h.quiet (State.quiet_remoteUpdate _ event)
  | stop =>
    obtain ⟨hacc, -, -, hparked⟩ := State.stop_spec hs.tidy
    intro _
    cases hstop : w.state.stopping with
    | false => exact hparked hstop
    | true => exact parked_eq_nil hacc (h hstop) fun _ => Nat.zero_le _

/-- No call of the run parks a drain request after the device has stopped. -/
def Spared : World → List Op → Prop
  | _, [] => True
  | w, op :: ops => ¬ w.Strands op ∧ Spared (w.step op) ops

/-- The state of the line: the parked requests wait for what is missing and none of them once the
device has stopped, every request is answered once or pending, and the bytes go through in order. -/
structure Whole (w : World) : Prop extends w.Sound where
  released : w.Released

theorem Whole.foldl {w : World} (h : w.Whole) {ops : List Op} (hops : w.Spared ops) :
    (ops.foldl step w).Whole := by
  induction ops generalizing w with
  | nil => exact h
  | cons op ops ih => exact ih ⟨h.toSound.step op, h.released.step h.toSound hops.1⟩ hops.2

/-- In every run of the device in which no drain request of a blocking file arrives after the device
has stopped with output still queued, every state reached is whole. -/
theorem requests_settle (serial : SerialState) (ops : List Op) (h : (new serial).Spared ops) :
    (run serial ops).Whole :=
  Whole.foldl ⟨sound_new serial, fun hstop => nomatch hstop⟩ h

/-- A write, a stop and a drain that does not wait. -/
theorem requests_settle_nonblocking : (run .default [.write ⟨1, false⟩ [0x41], .stop,
      .ioctl ⟨2, true⟩ ⟨.TCSBRK, false, 1, [], 0⟩]).Whole := by
  refine requests_settle _ _ ⟨?_, ?_, ?_, trivial⟩ <;> (rintro ⟨-, -, h⟩; exact nomatch h)

/-- A drain that waits is parked although the device has stopped. -/
theorem parks_after_stop : ¬ ∀ (serial : SerialState) (ops : List Op), (run serial ops).Whole := by
  intro h
  have hparked := (h .default [.write ⟨1, false⟩ [0x41], .stop,
    .ioctl ⟨2, false⟩ ⟨.TCSBRK, false, 1, [], 0⟩]).released
  exact absurd (hparked (by decide)) (by decide)

end World

end Microtun.Serial
