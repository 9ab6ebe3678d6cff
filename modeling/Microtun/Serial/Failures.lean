import Microtun.Serial.Without
import Mathlib.Data.List.Nodup

/-! What a request that fails leaves behind. -/

namespace Microtun.Serial

theorem find?_filter_first {α : Type} {f g : α → Bool} (xs : List α)
    (h : ∀ a, xs.find? f = some a → g a = true) :
    (xs.filter g).find? f = xs.find? f ∧ (xs.filter g).eraseP f = (xs.eraseP f).filter g := by
  induction xs with
  | nil => exact ⟨rfl, rfl⟩
  | cons a xs ih =>
    cases hf : f a with
    | true =>
      have hg : g a = true := h a (List.find?_cons_of_pos hf)
      rw [List.filter_cons_of_pos hg, List.find?_cons_of_pos hf, List.find?_cons_of_pos hf,
        List.eraseP_cons_of_pos hf, List.eraseP_cons_of_pos hf]
      exact ⟨rfl, rfl⟩
    | false =>
      have hf' : ¬f a = true := by simp [hf]
      rw [List.find?_cons_of_neg hf', List.eraseP_cons_of_neg hf']
      rw [List.find?_cons_of_neg hf'] at h
      obtain ⟨hfind, herase⟩ := ih h
      cases hg : g a with
      | true =>
        rw [List.filter_cons_of_pos hg, List.filter_cons_of_pos hg, List.find?_cons_of_neg hf',
          List.eraseP_cons_of_neg hf', hfind, herase]
        exact ⟨rfl, rfl⟩
      | false =>
        have hg' : ¬g a = true := by simp [hg]
        rw [List.filter_cons_of_neg hg', List.filter_cons_of_neg hg', hfind, herase]
        exact ⟨rfl, rfl⟩

theorem filter_eraseP {α : Type} {f g : α → Bool} (h : ∀ a, f a = true → g a = false)
    (xs : List α) : (xs.eraseP f).filter g = xs.filter g := by
  induction xs with
  | nil => rfl
  | cons a xs ih =>
    cases hf : f a with
    | true => rw [List.eraseP_cons_of_pos hf, List.filter_cons_of_neg (by simp [h a hf])]
    | false => rw [List.eraseP_cons_of_neg (by simp [hf]), List.filter_cons, List.filter_cons, ih]

namespace World

/-- The request is counted but nothing is done about it. -/
def skip (w : World) (op : Op) : World := { w with asked := w.asked ++ [op] }

/-- A run and the same run without the request that `n` answers. -/
structure Apart (n : Reply) (w v : World) : Prop where
  state : v.state = w.state.without n
  asked : v.asked = w.asked
  applying : v.applying = w.applying.filter (·.reply ≠ n)

variable {n : Reply} {w v : World}

theorem Apart.ask (h : Apart n w v) (op : Op) {serve serve' : Reply → State × List Entry}
    (hserve : (serve' w.asked.length).1 = (serve w.asked.length).1.without n) :
    Apart n (w.ask op serve) (v.ask op serve') := by
  refine ⟨?_, ?_, h.applying⟩
  · show (serve' v.asked.length).1 = _
    rw [h.asked]
    exact hserve
  · show v.asked ++ [op] = w.asked ++ [op]
    rw [h.asked]

theorem Apart.leave (h : Apart n w v) {r r' : State × List Entry} (hr : r'.1 = r.1.without n) :
    Apart n (w.leave r) (v.leave r') := ⟨hr, h.asked, h.applying⟩

theorem log_ask (w : World) (op : Op) (serve : Reply → State × List Entry) :
    (w.ask op serve).log = w.log ++ (serve w.asked.length).2 := rfl

theorem Apart.ioctl (h : Apart n w v) (hn : n < w.asked.length) (req : Request) (i : Ioctl)
    (hquiet : i.cmd = .TCFLSH → n ∉ answered (w.ioctl req i).log) : Apart n (w.ioctl req i)
    (v.ioctl req i) := by
  have hne : w.asked.length ≠ n := Nat.ne_of_gt hn
  unfold World.ioctl at hquiet ⊢
  simp only at hquiet ⊢
  split
  next hcompat =>
    exact h.ask _ h.state
  next hcompat =>
    rw [if_neg hcompat] at hquiet
    cases hsets : i.cmd.sets with
    | none =>
      simp only [hsets] at hquiet ⊢
      refine h.ask _ ?_
      rw [h.state]
      refine State.ioctl_without w.state hne req i fun hcmd hmem => hquiet hcmd ?_
      rw [log_ask, answered_append]
      exact List.mem_append_right _ hmem
    | some set =>
      obtain ⟨need, termios2, flush, drain⟩ := set
      simp only
      have hbegin : ∀ reply, reply ≠ n →
        ((w.state.without n).beginSet req i need termios2 flush drain reply).map
          Prod.fst = (w.state.beginSet req i need termios2 flush drain reply).map
            (·.1.without n) := by
        intro reply hne
        unfold State.beginSet
        split
        · rfl
        · have htx : (w.state.without n).txBytes = w.state.txBytes := rfl
          rw [htx]
          split
          · exact congrArg some (State.drain_without w.state hne req _ rfl)
          · rfl
      have hmap := hbegin _ hne
      rw [h.state, h.asked]
      cases hw : w.state.beginSet req i need termios2 flush drain w.asked.length with
      | none =>
        rw [hw] at hmap
        simp only [Option.map_eq_none_iff.mp hmap]
        refine ⟨rfl, rfl, ?_⟩
        simp only [h.applying, List.filter_append]
        rw [List.filter_cons_of_pos (by simpa using hne), List.filter_nil]
      | some r =>
        rw [hw] at hmap
        obtain ⟨r', hr', hstate⟩ := Option.map_eq_some_iff.mp hmap
        rw [hr']
        exact h.ask _ hstate

theorem Apart.setTermios (h : Apart n w v) {reply : Reply} (hne : reply ≠ n) :
    Apart n (w.setTermios reply) (v.setTermios reply) := by
  obtain ⟨hfind, herase⟩ :=
    find?_filter_first w.applying (f := (·.reply = reply)) (g := (·.reply ≠ n))
    fun p hp => by
      have hreply : p.reply = reply := by simpa using List.find?_some hp
      exact decide_eq_true (hreply ▸ hne)
  rw [← h.applying] at hfind herase
  unfold World.setTermios
  rw [hfind]
  split
  next input termios2 flush _ _ =>
    refine ⟨?_, h.asked, herase⟩
    show (v.state.setTermios input termios2 flush reply).1 = _
    rw [h.state]
    exact State.without_of_withIoctls (f := fun s => (s.setTermios input termios2 flush reply).1)
      (fun l s => State.setTermios_withIoctls l s input termios2 flush reply) w.state n
  next => exact h

theorem Apart.interrupt (h : Apart n w v) {id : UInt64}
    (hquiet : n ∉ answered (w.state.interrupt id).2) :
    (v.state.interrupt id).1 = (w.state.interrupt id).1.without n := by
  rw [h.state]
  unfold State.interrupt at hquiet ⊢
  have hreads : (w.state.without n).reads = w.state.reads := rfl
  have hwrites : (w.state.without n).writes = w.state.writes := rfl
  rw [hreads, hwrites]
  cases hread : w.state.reads.find? (·.id = id) with
  | some p => rfl
  | none =>
    cases hwrite : w.state.writes.find? (·.id = id) with
    | some p => rfl
    | none =>
      simp only [hread, hwrite] at hquiet ⊢
      obtain ⟨hfind, herase⟩ := find?_filter_first w.state.ioctls (f := (·.id = id))
        (g := (·.reply ≠ n)) fun p hp => by
          rw [hp] at hquiet
          exact decide_eq_true fun heq => hquiet (List.mem_singleton.mpr heq.symm)
      have hfind' : (w.state.without n).ioctls.find? (·.id = id) =
          w.state.ioctls.find? (·.id = id) := hfind
      rw [hfind']
      cases hioctl : w.state.ioctls.find? (·.id = id) with
      | some p => exact congrArg (fun l => w.state.withIoctls l) herase
      | none => rfl

/-- The step may answer parked requests or those between their two critical sections, one by one. -/
def completes : Op → Bool
  | .ioctl _ i => i.cmd = .TCFLSH
  | .setTermios _ | .interrupt _ | .nextEvent => true
  | _ => false

/-- As long as the request is not answered. -/
theorem Apart.step (h : Apart n w v) (hn : n < w.asked.length) {op : Op}
    (hquiet : completes op = true → n ∉ answered (w.step op).log) :
      Apart n (w.step op) (v.step op) := by
  have hcommutes {f : State → State} (hf : ∀ l s, f (s.withIoctls l) = (f s).withIoctls l) :
      f v.state = (f w.state).without n := by
    rw [h.state]
    exact State.without_of_withIoctls hf w.state n
  cases op with
  | «open» =>
    exact h.ask _ (hcommutes (f := fun s => (s.open _).1) fun l s =>
      congrArg Prod.fst (State.open_withIoctls l s _))
  | release => exact ⟨hcommutes State.release_withIoctls, h.asked, h.applying⟩
  | read req size =>
    exact h.ask _ (hcommutes (f := fun s => (s.read req size _).1) fun l s =>
      congrArg Prod.fst (State.read_withIoctls l s req size _))
  | write req data =>
    exact h.ask _ (hcommutes (f := fun s => (s.write req data _).1) fun l s =>
      congrArg Prod.fst (State.write_withIoctls l s req data _))
  | ioctl req i => exact h.ioctl hn req i fun hcmd => hquiet (decide_eq_true hcmd)
  | setTermios reply =>
    by_cases hreply : reply = n
    · subst hreply
      have hnone : v.applying.find? (·.reply = reply) = none := by
        rw [h.applying]
        exact List.find?_eq_none.mpr fun p hp => by simpa using (List.mem_filter.mp hp).2
      have hv : v.setTermios reply = v := by
        unfold World.setTermios
        rw [hnone]
      have hw : w.setTermios reply = w := by
        unfold World.setTermios
        split
        next input termios2 flush _ hfind =>
          refine absurd ?_ (hquiet rfl)
          show reply ∈ answered (w.setTermios reply).log
          unfold World.setTermios
          rw [hfind]
          simp [World.leave, State.setTermios, answered]
        next => rfl
      show Apart reply (w.setTermios reply) (v.setTermios reply)
      rw [hv, hw]
      exact h
    · exact h.setTermios hreply
  | poll requested notifier =>
    exact h.ask _ (hcommutes (f := fun s => (s.poll requested notifier _).1) fun l s =>
      congrArg Prod.fst (State.poll_withIoctls l s requested notifier _))
  | interrupt id =>
    refine h.leave (h.interrupt fun hmem => hquiet rfl ?_)
    show n ∈ answered (w.log ++ _)
    rw [answered_append]
    exact List.mem_append_right _ hmem
  | pushRx data =>
    exact h.leave (hcommutes (f := fun s => (s.pushRx data).2.1) fun l s =>
      congrArg (fun r => r.2.1) (State.pushRx_withIoctls l s data))
  | nextEvent =>
    have hquiet' : n ∉ answered w.state.nextEvent.2 := by
      intro hmem
      refine hquiet rfl ?_
      show n ∈ answered (w.log ++ _)
      rw [answered_append]
      exact List.mem_append_right _ hmem
    exact h.leave (h.state ▸ State.nextEvent_without hquiet')
  | remoteUpdate event =>
    exact ⟨hcommutes (f := fun s => s.remoteUpdate event) fun l s =>
      State.remoteUpdate_withIoctls l s event, h.asked, h.applying⟩
  | stop =>
    refine h.leave ?_
    rw [h.state]
    have hstopping : (w.state.without n).stopping = w.state.stopping := rfl
    unfold State.stop
    rw [hstopping]
    split <;> rfl

theorem log_step (w : World) (op : Op) : ∃ es, (w.step op).log = w.log ++ es := by
  cases op with
  | release => exact ⟨[], (List.append_nil _).symm⟩
  | remoteUpdate event => exact ⟨[], (List.append_nil _).symm⟩
  | ioctl req i =>
    show ∃ es, (w.ioctl req i).log = w.log ++ es
    unfold World.ioctl
    simp only
    split
    · exact ⟨_, rfl⟩
    · split
      · exact ⟨_, rfl⟩
      · split
        · exact ⟨_, rfl⟩
        · exact ⟨[], (List.append_nil _).symm⟩
  | setTermios reply =>
    show ∃ es, (w.setTermios reply).log = w.log ++ es
    unfold World.setTermios
    split
    · exact ⟨_, rfl⟩
    · exact ⟨[], (List.append_nil _).symm⟩
  | _ => exact ⟨_, rfl⟩

theorem length_asked_ioctl (w : World) (req : Request) (i : Ioctl) :
    w.asked.length < (w.step (.ioctl req i)).asked.length := by
  have hone (w : World) (op : Op) : w.asked.length < (w.asked ++ [op]).length := by simp
  show _ < (w.ioctl req i).asked.length
  unfold World.ioctl
  simp only
  split
  · exact hone _ _
  · split
    · exact hone _ _
    · split <;> exact hone _ _

theorem length_asked_step (w : World) (op : Op) : w.asked.length ≤ (w.step op).asked.length := by
  have hone (w : World) (op : Op) : w.asked.length ≤ (w.asked ++ [op]).length := by simp
  cases op with
  | ioctl req i => exact Nat.le_of_lt (length_asked_ioctl w req i)
  | setTermios reply =>
    show _ ≤ (w.setTermios reply).asked.length
    unfold World.setTermios
    split <;> exact Nat.le_refl _
  | «open» => exact hone _ _
  | read req size => exact hone _ _
  | write req data => exact hone _ _
  | poll requested notifier => exact hone _ _
  | _ => exact Nat.le_refl _

theorem log_foldl (ops : List Op) (w : World) : ∃ es, (ops.foldl World.step w).log =
    w.log ++ es := by
  induction ops generalizing w with
  | nil => exact ⟨[], (List.append_nil _).symm⟩
  | cons op ops ih =>
    obtain ⟨es, hes⟩ := log_step w op
    obtain ⟨es', hes'⟩ := ih (w.step op)
    refine ⟨es ++ es', ?_⟩
    rw [List.foldl_cons, hes', hes, List.append_assoc]

theorem Apart.run (h : Apart n w v) (hn : n < w.asked.length) {ops : List Op}
    (hquiet : n ∉ answered (ops.foldl World.step w).log) :
    Apart n (ops.foldl World.step w) (ops.foldl World.step v) ∧ n <
      (ops.foldl World.step w).asked.length := by
  induction ops generalizing w v with
  | nil => exact ⟨h, hn⟩
  | cons op ops ih =>
    have hstep : n ∉ answered (w.step op).log := by
      obtain ⟨es, hes⟩ := log_foldl ops (w.step op)
      rw [List.foldl_cons, hes, answered_append] at hquiet
      exact fun hmem => hquiet (List.mem_append_left _ hmem)
    exact ih (h.step hn fun _ => hstep) (Nat.lt_of_lt_of_le hn (length_asked_step w op)) hquiet

theorem Sound.pending_lt {w : World} (hw : w.Sound) {p : PendingIoctl}
    (hp : p ∈ w.state.ioctls ∨ p ∈ w.applying) : p.reply < w.asked.length := by
  refine List.mem_range.mp (hw.once.mem_iff.mp (List.mem_append_right _ ?_))
  rcases hp with hp | hp
  · exact List.mem_append_left _ (List.mem_append_right _ (List.mem_map_of_mem hp))
  · exact List.mem_append_right _ (List.mem_map_of_mem hp)

/-- A request that fails in the step that makes it. -/
theorem ioctl_error {w : World} (hw : w.Sound) (req : Request) (i : Ioctl) {errno : Errno}
    (hfails : .answer w.asked.length (.error errno) ∈ (w.step (.ioctl req i)).log) :
    (w.step (.ioctl req i)).state = w.state ∧ (w.step (.ioctl req i)).applying = w.applying := by
  have hioctls : ∀ p ∈ w.state.ioctls, p.reply ≠ w.asked.length :=
    fun p hp => Nat.ne_of_lt (hw.pending_lt (.inl hp))
  have hold : .answer w.asked.length (.error errno) ∉ w.log := fun hmem =>
    Nat.lt_irrefl _ (hw.lt (.inl (State.mem_answered hmem)))
  change .answer w.asked.length (.error errno) ∈ (w.ioctl req i).log at hfails
  show (w.ioctl req i).state = w.state ∧ (w.ioctl req i).applying = w.applying
  unfold World.ioctl at hfails ⊢
  simp only at hfails ⊢
  split
  · exact ⟨rfl, rfl⟩
  next hcompat =>
    rw [if_neg hcompat] at hfails
    cases hsets : i.cmd.sets with
    | none =>
      simp only [hsets, log_ask] at hfails ⊢
      exact ⟨State.ioctl_error hioctls ((List.mem_append.mp hfails).resolve_left hold), rfl⟩
    | some set =>
      obtain ⟨need, termios2, flush, drain⟩ := set
      simp only [hsets] at hfails ⊢
      cases hbegin : w.state.beginSet req i need termios2 flush drain w.asked.length with
      | none =>
        rw [hbegin] at hfails
        exact absurd hfails hold
      | some r =>
        simp only [hbegin, log_ask] at hfails ⊢
        exact ⟨State.beginSet_error hbegin ((List.mem_append.mp hfails).resolve_left hold), rfl⟩

/-- A request that has just been made and was not answered. -/
theorem apart_ioctl {w : World} (hw : w.Sound) (req : Request) (i : Ioctl)
    (hquiet : w.asked.length ∉ answered (w.step (.ioctl req i)).log) :
    Apart w.asked.length (w.step (.ioctl req i)) (w.skip (.ioctl req i)) := by
  have hioctls : ∀ p ∈ w.state.ioctls, p.reply ≠ w.asked.length :=
    fun p hp => Nat.ne_of_lt (hw.pending_lt (.inl hp))
  have happlying : w.applying.filter (·.reply ≠ w.asked.length) = w.applying :=
    List.filter_eq_self.mpr fun p hp => decide_eq_true (Nat.ne_of_lt (hw.pending_lt (.inr hp)))
  have hparked (action : PendingIoctlAction) : w.state =
      ({ w.state with ioctls := w.state.ioctls ++ [⟨req.id, action, w.asked.length⟩] } :
        State).without
        w.asked.length := by
    have hfilter : (w.state.ioctls ++ [(⟨req.id, action, w.asked.length⟩ : PendingIoctl)]).filter
        (·.reply ≠ w.asked.length) = w.state.ioctls := by
      rw [List.filter_append, List.filter_eq_self.mpr fun p hp => decide_eq_true (hioctls p hp),
        List.filter_cons_of_neg (by simp), List.filter_nil, List.append_nil]
    exact congrArg (fun l => w.state.withIoctls l) hfilter.symm
  show Apart _ (w.ioctl req i) _
  change w.asked.length ∉ answered (w.ioctl req i).log at hquiet
  unfold World.ioctl at hquiet ⊢
  simp only at hquiet ⊢
  split
  next hcompat =>
    rw [if_pos hcompat, log_ask, answered_append] at hquiet
    exact absurd (List.mem_append_right _ (List.mem_singleton_self _)) hquiet
  next hcompat =>
    rw [if_neg hcompat] at hquiet
    cases hsets : i.cmd.sets with
    | none =>
      simp only [hsets] at hquiet ⊢
      rw [log_ask, answered_append] at hquiet
      have hwaits : i.cmd = .TCSBRK ∧ w.state.txBytes ≠ 0 ∧ req.nonblocking = false := by
        refine Classical.byContradiction fun hno => hquiet (List.mem_append_right _ ?_)
        refine State.mem_answered_ioctl fun hcmd => ?_
        cases hnonblocking : req.nonblocking with
        | true => exact .inr rfl
        | false => exact .inl (Classical.byContradiction fun htx => hno ⟨hcmd, htx, hnonblocking⟩)
      obtain ⟨hcmd, htx, hnonblocking⟩ := hwaits
      refine ⟨?_, rfl, happlying.symm⟩
      show w.state = (w.state.ioctl req i w.asked.length).1.without w.asked.length
      obtain ⟨cmd, compat, arg, input, outSize⟩ := i
      obtain rfl : cmd = .TCSBRK := hcmd
      simp only [State.ioctl, State.drain, if_pos htx, hnonblocking, Bool.false_eq_true, if_false]
      exact hparked _
    | some set =>
      obtain ⟨need, termios2, flush, drain⟩ := set
      simp only [hsets] at hquiet ⊢
      cases hbegin : w.state.beginSet req i need termios2 flush drain w.asked.length with
      | none =>
        refine ⟨?_, rfl, ?_⟩
        · exact (State.without_of_notMem hioctls).symm
        · show w.applying = (w.applying ++ [_]).filter (·.reply ≠ w.asked.length)
          rw [List.filter_append, happlying, List.filter_cons_of_neg (by simp), List.filter_nil,
            List.append_nil]
      | some r =>
        rw [hbegin] at hquiet
        simp only [log_ask, answered_append] at hquiet
        refine ⟨?_, rfl, happlying.symm⟩
        show w.state = r.1.without w.asked.length
        have hwaits : ¬(i.input.length < need ∨ drain = false ∨ w.state.txBytes = 0 ∨
            req.nonblocking = true) :=
          fun hfree => hquiet (List.mem_append_right _ (State.mem_answered_beginSet hbegin hfree))
        simp only [not_or, Bool.not_eq_false, Bool.not_eq_true] at hwaits
        obtain ⟨hlen, hdrain, htx, hnonblocking⟩ := hwaits
        rw [State.beginSet, if_neg hlen, if_pos ⟨hdrain, htx⟩, State.drain, if_pos htx,
          hnonblocking] at hbegin
        obtain rfl := Option.some.inj hbegin
        exact hparked _

/-- Received bytes are lost in the step that answers the request: it was to flush them, some were
there, and nothing else would have flushed them in this step. -/
def Loses (w : World) (n : Reply) (op : Op) : Prop :=
  w.state.rx ≠ [] ∧
    match op with
    | .setTermios reply => reply = n ∧ ∃ p ∈ w.applying, p.reply = n ∧ p.flushes = true
    | .nextEvent => ∃ p ∈ w.state.ioctls, p.reply = n ∧ p.flushes = true ∧
        ∀ q ∈ w.state.ioctls, q.reply ≠ n → q.flushes = false
    | .ioctl _ i => i.cmd = .TCFLSH ∧ i.arg.toNat % 2 ^ 32 = 1 ∧ ∃ p ∈ w.state.ioctls, p.reply = n ∧
        p.flushes = true ∧ ∀ q ∈ w.state.ioctls, q.reply ≠ n → q.flushes = false
    | _ => False

theorem Sound.gone {w : World} (hw : w.Sound) {n : Reply} (hanswered : n ∈ answered w.log) :
    (∀ p ∈ w.state.ioctls, p.reply ≠ n) ∧ ∀ p ∈ w.applying, p.reply ≠ n := by
  have hcount := hw.count n
  have hone : 1 ≤ (answered w.log).count n := List.count_pos_iff.mpr hanswered
  have hrange : (List.range w.asked.length).count n ≤ 1 :=
    List.nodup_iff_count.mp List.nodup_range n
  constructor
  · intro p hp heq
    have hmem : n ∈ w.state.parked := heq ▸ List.mem_append_right _ (List.mem_map_of_mem hp)
    have := List.count_pos_iff.mpr hmem
    omega
  · intro p hp heq
    have hmem : n ∈ w.applying.map (·.reply) := heq ▸ List.mem_map_of_mem hp
    have := List.count_pos_iff.mpr hmem
    omega

theorem Apart.same (h : Apart n w v) (hw : w.Sound) (hanswered : n ∈ answered w.log) :
    w.state = v.state ∧ w.applying = v.applying := by
  obtain ⟨hioctls, happlying⟩ := hw.gone hanswered
  rw [h.state, h.applying, State.without_of_notMem hioctls]
  exact ⟨rfl, (List.filter_eq_self.mpr fun p hp => decide_eq_true (happlying p hp)).symm⟩

theorem nodup_ioctls {w : World} (hw : w.Sound) : (w.state.ioctls.map (·.reply)).Nodup := by
  refine List.nodup_iff_count.mpr fun r => ?_
  have hcount := hw.count r
  have hrange : (List.range w.asked.length).count r ≤ 1 :=
    List.nodup_iff_count.mp List.nodup_range r
  have hparked : (w.state.ioctls.map (·.reply)).count r ≤ w.state.parked.count r := by
    rw [State.parked, List.count_append]
    omega
  omega

theorem nodup_applying {w : World} (hw : w.Sound) : (w.applying.map (·.reply)).Nodup := by
  refine List.nodup_iff_count.mpr fun r => ?_
  have hcount := hw.count r
  have hrange : (List.range w.asked.length).count r ≤ 1 :=
    List.nodup_iff_count.mp List.nodup_range r
  omega

theorem unique_ioctl {w : World} (hw : w.Sound) {p q : PendingIoctl} (hp : p ∈ w.state.ioctls)
    (hq : q ∈ w.state.ioctls) (h : p.reply = q.reply) : p = q :=
  List.inj_on_of_nodup_map (nodup_ioctls hw) hp hq h

theorem Apart.applying_of_mem (h : Apart n w v) (hw : w.Sound) {p : PendingIoctl}
    (hp : p ∈ w.state.ioctls) (hreply : p.reply = n) : v.applying = w.applying := by
  have hcount := hw.count n
  have hrange : (List.range w.asked.length).count n ≤ 1 :=
    List.nodup_iff_count.mp List.nodup_range n
  have hparked : 1 ≤ w.state.parked.count n := List.count_pos_iff.mpr
    (hreply ▸ List.mem_append_right _ (List.mem_map_of_mem hp))
  rw [h.applying]
  refine List.filter_eq_self.mpr fun q hq => decide_eq_true fun heq => ?_
  have hmem : n ∈ w.applying.map (·.reply) := heq ▸ List.mem_map_of_mem hq
  have := List.count_pos_iff.mpr hmem
  omega

theorem Apart.fails_flush (h : Apart n w v) (hw : w.Sound) (hn : n < w.asked.length) {req : Request}
    {i : Ioctl} (hcmd : i.cmd = .TCFLSH) {errno : Errno}
    (hfailed : ∀ es, (w.step (.ioctl req i)).log = w.log ++ es → (n, errno) ∈ State.failed es) :
    ((w.step (.ioctl req i)).state = (v.step (.ioctl req i)).state ∧
      (w.step (.ioctl req i)).applying = (v.step (.ioctl req i)).applying) ↔
        ¬w.Loses n (.ioctl req i) := by
  have hne : w.asked.length ≠ n := Nat.ne_of_gt hn
  have hother (errno' : Errno) :
      (n, errno) ∉ State.failed [.answer w.asked.length (.error errno')] := fun hmem =>
    hne (congrArg Prod.fst (List.mem_singleton.mp hmem)).symm
  obtain ⟨cmd, compat, arg, input, outSize⟩ := i
  obtain rfl : cmd = .TCFLSH := hcmd
  cases compat with
  | true => exact absurd (hfailed _ rfl) (hother _)
  | false =>
    have hflush (rx tx : Bool) (value : UInt8) (harg : rx = false ↔ arg.toNat % 2 ^ 32 = 1)
        (heq : ∀ (s : State) reply, s.ioctl req ⟨.TCFLSH, false, arg, input, outSize⟩ reply =
          s.flush rx tx value reply) :
        ((w.step (.ioctl req ⟨.TCFLSH, false, arg, input, outSize⟩)).state =
            (v.step (.ioctl req ⟨.TCFLSH, false, arg, input, outSize⟩)).state ∧
          (w.step (.ioctl req ⟨.TCFLSH, false, arg, input, outSize⟩)).applying =
            (v.step (.ioctl req ⟨.TCFLSH, false, arg, input, outSize⟩)).applying) ↔
        ¬w.Loses n (.ioctl req ⟨.TCFLSH, false, arg, input, outSize⟩) := by
      have hmem : (n, errno) ∈ State.failed (w.state.ioctl req ⟨.TCFLSH, false, arg, input, outSize⟩
        w.asked.length).2 := hfailed _ rfl
      rw [heq] at hmem
      obtain ⟨p, hp, hreply, hiff⟩ := State.flush_error (nodup_ioctls hw) hmem
      have happlying : v.applying = w.applying := h.applying_of_mem hw hp hreply
      have hloses : w.Loses n (.ioctl req ⟨.TCFLSH, false, arg, input, outSize⟩) ↔
        p.flushes = true ∧ rx = false ∧
          w.state.rx ≠ [] ∧ (w.state.without n).ioctls.any PendingIoctl.flushes = false := by
        rw [State.any_without, harg]
        constructor
        · rintro ⟨hrx, -, hone, q, hq, hqreply, hflushes, hothers⟩
          rw [unique_ioctl hw hp hq (hreply.trans hqreply.symm)]
          exact ⟨hflushes, hone, hrx, hothers⟩
        · rintro ⟨hflushes, hone, hrx, hothers⟩
          exact ⟨hrx, rfl, hone, p, hp, hreply, hflushes, hothers⟩
      rw [hloses, ← hiff, ← heq, ← heq]
      show (w.state.ioctl req _ w.asked.length).1 = (v.state.ioctl req _ v.asked.length).1 ∧
        w.applying = v.applying ↔ _
      rw [h.state, h.asked, happlying]
      exact and_iff_left rfl
    rcases harg : arg.toNat % 2 ^ 32 with _ | _ | _ | k
    · refine hflush true false purge.receive (by simp only [harg]; decide) fun s reply => ?_
      simp only [State.ioctl, harg]
    · refine hflush false true purge.transmit (by simp only [harg]) fun s reply => ?_
      simp only [State.ioctl, harg]
    · refine hflush true true purge.both (by simp only [harg]; decide) fun s reply => ?_
      simp only [State.ioctl, harg]
    · have hmem : (n, errno) ∈ State.failed (w.state.ioctl req ⟨.TCFLSH, false, arg, input, outSize⟩
        w.asked.length).2 := hfailed _ rfl
      simp only [State.ioctl, harg] at hmem
      exact absurd hmem (hother _)

theorem Apart.fails_setTermios (h : Apart n w v) (hw : w.Sound) {reply : Reply} (hreply : reply = n)
    {errno : Errno} (hfailed : ∀ es, (w.step (.setTermios reply)).log = w.log ++ es →
    (n, errno) ∈ State.failed es) (hsound : (w.step (.setTermios reply)).Sound)
    (hanswered : n ∈ answered (w.step (.setTermios reply)).log) :
    ((w.step (.setTermios reply)).state = (v.step (.setTermios reply)).state ∧
      (w.step (.setTermios reply)).applying = (v.step (.setTermios reply)).applying) ↔
      ¬w.Loses n (.setTermios reply) := by
  subst hreply
  have hnone : v.applying.find? (·.reply = reply) = none := by
    rw [h.applying]
    exact List.find?_eq_none.mpr fun p hp => by simpa using (List.mem_filter.mp hp).2
  have hv : v.step (.setTermios reply) = v := by
    show v.setTermios reply = v
    unfold World.setTermios
    rw [hnone]
  have hquiet (hsame : w.setTermios reply = w) : False := by
    refine List.not_mem_nil (hfailed [] ?_)
    show (w.setTermios reply).log = _
    rw [hsame, List.append_nil]
  cases hfind : w.applying.find? (·.reply = reply) with
  | none =>
    refine (hquiet ?_).elim
    unfold World.setTermios
    rw [hfind]
  | some p =>
    obtain ⟨id, action, reply'⟩ := p
    obtain rfl : reply' = reply := by simpa using List.find?_some hfind
    cases action with
    | tcsbrk sendBreak =>
      refine (hquiet ?_).elim
      unfold World.setTermios
      rw [hfind]
    | setTermios input termios2 flush =>
      have hstep : w.step (.setTermios reply') =
          { w with applying := w.applying.eraseP (·.reply = reply') }.leave
          (w.state.setTermios input termios2 flush reply') := by
        show w.setTermios reply' = _
        unfold World.setTermios
        rw [hfind]
      have hmem : (reply', errno) ∈ State.failed
          (w.state.setTermios input termios2 flush reply').2 :=
        hfailed _ (by rw [hstep]; rfl)
      have hstate := State.setTermios_error hmem
      have hp := List.mem_of_find?_eq_some hfind
      have hioctls : ∀ q ∈ w.state.ioctls, q.reply ≠ reply' := fun q hq heq => by
        have happlying := h.applying_of_mem hw hq heq
        rw [happlying, hfind] at hnone
        cases hnone
      have hvstate : v.state = w.state := by rw [h.state, State.without_of_notMem hioctls]
      have happlying : w.applying.eraseP (·.reply = reply') = v.applying := by
        rw [h.applying, ← filter_eraseP (f := (·.reply = reply')) fun q hq => by simpa using hq]
        have hgone := (hsound.gone hanswered).2
        rw [hstep] at hgone
        exact (List.filter_eq_self.mpr fun q hq => decide_eq_true (hgone q hq)).symm
      have hunique : ∀ q ∈ w.applying, q.reply = reply' → q =
          ⟨id, .setTermios input termios2 flush, reply'⟩ :=
        fun q hq heq => List.inj_on_of_nodup_map (nodup_applying hw) hq hp heq
      have hloses : w.Loses reply' (.setTermios reply') ↔ flush = true ∧ w.state.rx ≠ [] := by
        constructor
        · rintro ⟨hrx, -, q, hq, hqreply, hflushes⟩
          rw [hunique q hq hqreply] at hflushes
          exact ⟨hflushes, hrx⟩
        · rintro ⟨hflushes, hrx⟩
          exact ⟨hrx, rfl, _, hp, rfl, hflushes⟩
      rw [hloses, hv, hstep, hvstate]
      show (w.state.setTermios input termios2 flush reply').1 = w.state ∧
        w.applying.eraseP (·.reply = reply') = v.applying ↔ _
      rw [hstate, happlying]
      cases flush with
      | true =>
        refine ⟨fun hsame hloses => hloses.2 (congrArg State.rx hsame.1).symm, fun hkeeps =>
          ⟨?_, rfl⟩⟩
        have hrx : w.state.rx = [] := Classical.byContradiction fun hrx => hkeeps ⟨rfl, hrx⟩
        rw [if_pos rfl, ← hrx]
        rfl
      | false => exact ⟨fun _ hloses => (nomatch hloses.1), fun _ => ⟨rfl, rfl⟩⟩

/-- The step that answers the request with an error. -/
theorem Apart.fails (h : Apart n w v) (hw : w.Sound) (hn : n < w.asked.length) {op : Op}
    (hop : ∀ id, op ≠ .interrupt id) (hquiet : n ∉ answered w.log) {errno : Errno}
    (hfails : .answer n (.error errno) ∈ (w.step op).log) :
    ((w.step op).state = (v.step op).state ∧ (w.step op).applying = (v.step op).applying) ↔
      ¬w.Loses n op := by
  have hsound := hw.step op
  have hanswered := State.mem_answered hfails
  have hsame (hapart : Apart n (w.step op) (v.step op)) (hloses : ¬w.Loses n op) :
      ((w.step op).state = (v.step op).state ∧ (w.step op).applying = (v.step op).applying) ↔
        ¬w.Loses n op :=
    ⟨fun _ => hloses, fun _ => hapart.same hsound hanswered⟩
  have hfailed (es : List Entry) (hlog : (w.step op).log = w.log ++ es) :
      (n, errno) ∈ State.failed es := by
    rw [hlog] at hfails
    refine State.mem_failed.mpr ((List.mem_append.mp hfails).resolve_left fun hmem => ?_)
    exact hquiet (State.mem_answered hmem)
  cases op with
  | «open» => exact hsame (h.step hn nofun) fun hloses => hloses.2
  | release => exact hsame (h.step hn nofun) fun hloses => hloses.2
  | read req size => exact hsame (h.step hn nofun) fun hloses => hloses.2
  | write req data => exact hsame (h.step hn nofun) fun hloses => hloses.2
  | poll requested notifier => exact hsame (h.step hn nofun) fun hloses => hloses.2
  | pushRx data => exact hsame (h.step hn nofun) fun hloses => hloses.2
  | remoteUpdate event => exact hsame (h.step hn nofun) fun hloses => hloses.2
  | stop => exact hsame (h.step hn nofun) fun hloses => hloses.2
  | interrupt id => exact absurd rfl (hop id)
  | ioctl req i =>
    by_cases hcmd : i.cmd = .TCFLSH
    · exact h.fails_flush hw hn hcmd hfailed
    · exact hsame (h.ioctl hn req i fun hflush => absurd hflush hcmd) fun hloses => hcmd hloses.2.1
  | setTermios reply =>
    by_cases hreply : reply = n
    · exact h.fails_setTermios hw hreply hfailed hsound hanswered
    · exact hsame (h.setTermios hreply) fun hloses => hreply hloses.2.1
  | nextEvent =>
    obtain ⟨p, hp, hreply, hiff⟩ := State.nextEvent_error (nodup_ioctls hw) (hfailed _ rfl)
    have happlying : v.applying = w.applying := h.applying_of_mem hw hp hreply
    have hloses : w.Loses n .nextEvent ↔ p.flushes = true ∧ w.state.rx ≠ [] ∧
        (w.state.without n).ioctls.any PendingIoctl.flushes = false := by
      rw [State.any_without]
      constructor
      · rintro ⟨hrx, q, hq, hqreply, hflushes, hothers⟩
        rw [unique_ioctl hw hp hq (hreply.trans hqreply.symm)]
        exact ⟨hflushes, hrx, hothers⟩
      · rintro ⟨hflushes, hrx, hothers⟩
        exact ⟨hrx, p, hp, hreply, hflushes, hothers⟩
    rw [hloses, ← hiff]
    show w.state.nextEvent.1 = v.state.nextEvent.1 ∧ w.applying = v.applying ↔ _
    rw [h.state, happlying]
    exact and_iff_left rfl

end World

/-- In every run of the device, a request answered with an error in the step that makes it changes
nothing, and one answered with an error in a later step, when nobody interrupts it, leaves what a
run without it leaves exactly when its flush of the received bytes is not what lost them. -/
theorem failed_ioctl (updates : List SerialEvent) (before : List Op) (req : Request) (i : Ioctl)
    (errno : Errno) :
    let w := World.run (updates.foldl SerialState.update .default) before
    let w' := w.step (.ioctl req i)
    (.answer w.asked.length (.error errno) ∈ w'.log → w'.state = w.state ∧
      w'.applying = w.applying) ∧
      ∀ (later : List Op) (op : Op), (∀ id, op ≠ .interrupt id) →
        w.asked.length ∉ answered (later.foldl World.step w').log →
        .answer w.asked.length (.error errno) ∈ ((later.foldl World.step w').step op).log →
        let v := later.foldl World.step (w.skip (.ioctl req i))
        (((later.foldl World.step w').step op).state = (v.step op).state ∧
            ((later.foldl World.step w').step op).applying = (v.step op).applying ↔
          ¬(later.foldl World.step w').Loses w.asked.length op) := by
  intro w w'
  have hw : w.Sound := World.sound_run _ before
  have hasked : w.asked.length < w'.asked.length := World.length_asked_ioctl w req i
  refine ⟨fun hfails => World.ioctl_error hw req i hfails, fun later op hop hquiet hfails => ?_⟩
  · have hquiet' : w.asked.length ∉ answered w'.log := by
      obtain ⟨es, hes⟩ := World.log_foldl later w'
      rw [hes, answered_append] at hquiet
      exact fun hmem => hquiet (List.mem_append_left _ hmem)
    obtain ⟨hapart, hn⟩ := (World.apart_ioctl hw req i hquiet').run hasked hquiet
    exact hapart.fails (World.Sound.foldl (hw.step _) later) hn hop hquiet hfails

/-- Settings whose rate the first kind rejects. -/
def rejected : List UInt8 := List.replicate 9 0 ++ [0x10] ++ List.replicate 26 0

/-- A command with a bad argument, and settings that are rejected once output has drained. -/
theorem failed_ioctl_drained :
    (let w := World.run .default [];
      (w.step (.ioctl ⟨1, false⟩ ⟨.TCXONC, false, 7, [], 0⟩)).state = w.state) ∧
    (let w := World.run .default [.pushRx [0x41], .write ⟨1, false⟩ [0x42]]
      let w' := w.step (.ioctl ⟨2, false⟩ ⟨.TCSETSW, false, 0, rejected, 0⟩)
      let v := w.skip (.ioctl ⟨2, false⟩ ⟨.TCSETSW, false, 0, rejected, 0⟩);
      (w'.step .nextEvent).state = (v.step .nextEvent).state ∧
        (w'.step .nextEvent).applying = (v.step .nextEvent).applying ↔ ¬w'.Loses 1 .nextEvent) :=
  ⟨((failed_ioctl [] [] ⟨1, false⟩ ⟨.TCXONC, false, 7, [], 0⟩ .einval).1 (by decide)).1,
    (failed_ioctl [] [.pushRx [0x41], .write ⟨1, false⟩ [0x42]] ⟨2, false⟩
      ⟨.TCSETSW, false, 0, rejected, 0⟩ .einval).2
      [] .nextEvent nofun (by decide) (by decide)⟩

/-- Rejected settings whose command flushes lose what was received. -/
theorem failed_ioctl_flushes :
    let w := World.run .default [.pushRx [0x41]]
    let w' := (w.step (.ioctl ⟨1, false⟩ ⟨.TCSETSF, false, 0, rejected, 0⟩)).step (.setTermios 0)
    .answer 0 (.error .einval) ∈ w'.log ∧ w.state.rx = [0x41] ∧ w'.state.rx = [] := by
  decide

end Microtun.Serial
