import Microtun.Telnet.Endpoint
import Mathlib.Logic.Relation
import Mathlib.Algebra.BigOperators.Group.Finset.Basic
import Mathlib.Algebra.Order.BigOperators.Group.Finset

/-! Two endpoints joined by byte channels. Whatever either end asks for and however the bytes cross,
every half of every option is in a regular exchange, so that the negotiation ends and both ends then
agree. -/

namespace Microtun.Telnet

/-- Two endpoints, the bytes in flight in either direction, and how many were ever sent. -/
structure Link (P Q : Type) (sbA capA sbB capB : Nat) where
  a : Telnet P sbA capA
  b : Telnet Q sbB capB
  toA : List UInt8
  toB : List UInt8
  sent : Nat

/-- A call that an application makes at its own end. -/
inductive LocalCall
  | requestUs
  | disableUs
  | requestHim
  | disableHim
deriving DecidableEq, Repr

def LocalCall.run {P : Type} {sbCap optionCap : Nat} : LocalCall → Nat → Telnet P sbCap optionCap →
    UInt8 → List UInt8 → Telnet P sbCap optionCap × List UInt8
  | .requestUs => Telnet.requestUs
  | .disableUs => Telnet.disableUs
  | .requestHim => Telnet.requestHim
  | .disableHim => Telnet.disableHim

namespace Link

variable {P Q : Type} [Policy P] [Policy Q] {sbA capA sbB capB : Nat}

def new (p : P) (q : Q) : Link P Q sbA capA sbB capB :=
  { a := .new p, b := .new q, toA := [], toB := [], sent := 0 }

/-- The same link, seen from the other end. -/
def swap (l : Link P Q sbA capA sbB capB) : Link Q P sbB capB sbA capA :=
  { a := l.b, b := l.a, toA := l.toB, toB := l.toA, sent := l.sent }

/-- A local call at one end, with an empty buffer of capacity `n`, which is then sent. -/
def callA (l : Link P Q sbA capA sbB capB) (call : LocalCall) (n : Nat) (option : UInt8) :
    Link P Q sbA capA sbB capB :=
  let (a, out) := call.run n l.a option []
  { l with a, toB := l.toB ++ out, sent := l.sent + out.length }

/-- One end takes a byte, and its reply is sent. -/
def deliverA (l : Link P Q sbA capA sbB capB) (n : Nat) : Link P Q sbA capA sbB capB :=
  match l.toA with
  | [] => l
  | byte :: rest =>
    let (a, reply, _) := l.a.feed n byte []
    { l with a, toA := rest, toB := l.toB ++ reply, sent := l.sent + reply.length }

/-- A byte arrives at either end.  A reply buffer holds at least one command. -/
inductive Deliver (l : Link P Q sbA capA sbB capB) : Link P Q sbA capA sbB capB → Prop
  | atA (n : Nat) (hn : 3 ≤ n) (h : l.toA ≠ []) : Deliver l (l.deliverA n)
  | atB (n : Nat) (hn : 3 ≤ n) (h : l.toB ≠ []) : Deliver l (l.swap.deliverA n).swap

/-- A byte arrives, or an application at either end asks for one of the options of `opts`. -/
inductive Step (opts : Finset UInt8) (l : Link P Q sbA capA sbB capB) :
    Link P Q sbA capA sbB capB → Prop
  | deliver {l' : Link P Q sbA capA sbB capB} (h : Deliver l l') : Step opts l l'
  | callA (call : LocalCall) (n : Nat) (hn : 3 ≤ n) (option : UInt8) (h : option ∈ opts) :
    Step opts l (l.callA call n option)
  | callB (call : LocalCall) (n : Nat) (hn : 3 ≤ n) (option : UInt8) (h : option ∈ opts) :
    Step opts l (l.swap.callA call n option).swap

/-- The states of the link between endpoints with these policies. -/
def Reachable (opts : Finset UInt8) (p : P) (q : Q) (l : Link P Q sbA capA sbB capB) : Prop :=
  Relation.ReflTransGen (Step opts) (new p q) l

end Link

/-- The commands for one half of an option, as seen by their sender. -/
def commandsFor (commands : List Command) (side : Side) (option : UInt8) : List Bool :=
  (commands.filter fun c => c.side = side ∧ c.option = option).map (·.positive)

@[simp] theorem commandsFor_append (commands more : List Command) (side : Side) (option : UInt8) :
    commandsFor (commands ++ more) side option =
      commandsFor commands side option ++ commandsFor more side option := by
  simp [commandsFor]

theorem commandsFor_cons (c : Command) (rest : List Command) (side : Side) (option : UInt8) :
    commandsFor (c :: rest) side option =
      if side = c.side ∧ option = c.option then c.positive :: commandsFor rest side option
      else commandsFor rest side option := by
  by_cases h : side = c.side ∧ option = c.option
  · obtain ⟨rfl, rfl⟩ := h
    simp [commandsFor]
  · rw [if_neg h]
    have h' : ¬(c.side = side ∧ c.option = option) := fun h' => h ⟨h'.1.symm, h'.2.symm⟩
    simp [commandsFor, h']

theorem commandsFor_sentFor (side side' : Side) (option option' : UInt8) (sent : Option Bool) :
    commandsFor (sentFor side option sent) side' option' =
      if side' = side ∧ option' = option then sent.toList else [] := by
  cases sent with
  | none => simp [sentFor, commandsFor]
  | some positive => exact commandsFor_cons ⟨side, positive, option⟩ [] side' option'

namespace Link

variable {P Q : Type} [Policy P] [Policy Q] {sbA capA sbB capB : Nat}
  {l l' : Link P Q sbA capA sbB capB} {opts : Finset UInt8} {cmdsA cmdsB : List Command}

/-- The exchange about one half of an option, with these commands in flight. -/
def exchange (l : Link P Q sbA capA sbB capB) (cmdsA cmdsB : List Command) (side : Side)
    (option : UInt8) : Exchange :=
  { near := l.a.half side option
    toFar := commandsFor cmdsB side option
    far := l.b.half side.other option
    toNear := commandsFor cmdsA side.other option }

/-- Whole commands are in flight, about known options, and every exchange is regular. -/
structure Sound (opts : Finset UInt8) (l : Link P Q sbA capA sbB capB)
    (cmdsA cmdsB : List Command) : Prop where
  slotsA : Slotted opts l.a
  slotsB : Slotted opts l.b
  unreadA : Unread l.a.rx l.toA cmdsA
  unreadB : Unread l.b.rx l.toB cmdsB
  known : ∀ c ∈ cmdsA ++ cmdsB, c.option ∈ opts
  regular : ∀ side option, (l.exchange cmdsA cmdsB side option).Regular

/-- The commands still to be taken or sent. -/
def outstanding (opts : Finset UInt8) (l : Link P Q sbA capA sbB capB)
    (cmdsA cmdsB : List Command) :
    Nat :=
  ∑ option ∈ opts, ((l.exchange cmdsA cmdsB .us option).outstanding +
    (l.exchange cmdsA cmdsB .him option).outstanding)

omit [Policy P] [Policy Q] in
theorem exchange_swap (side : Side) (option : UInt8) :
    l.swap.exchange cmdsB cmdsA side option = (l.exchange cmdsA cmdsB side.other option).swap := by
  simp [exchange, Exchange.swap, swap]

omit [Policy P] [Policy Q] in
theorem Sound.swap (h : l.Sound opts cmdsA cmdsB) : l.swap.Sound opts cmdsB cmdsA := by
  refine ⟨h.slotsB, h.slotsA, h.unreadB, h.unreadA, ?_, ?_⟩
  · intro c hc
    exact h.known c (List.mem_append.mpr (List.mem_append.mp hc).symm)
  · intro side option
    rw [exchange_swap]
    exact (h.regular side.other option).swap

omit [Policy P] [Policy Q] in
theorem sound_new (opts : Finset UInt8) (p : P) (q : Q) :
    (new p q : Link P Q sbA capA sbB capB).Sound opts [] [] :=
  ⟨slotted_new opts p, slotted_new opts q, .data [], .data [], by simp,
    fun _ _ => Exchange.regular_initial⟩

/-- One end of the link has moved one half of an option, and sent `sent` about it. -/
structure MovedA (opts : Finset UInt8) (l : Link P Q sbA capA sbB capB) (side : Side)
    (option : UInt8) (moved : QState × Option Bool) (l' : Link P Q sbA capA sbB capB) : Prop where
  known : option ∈ opts
  a : Moved opts l.a side option moved.1 l'.a
  b : l'.b = l.b
  toB : l'.toB = l.toB ++ (sentFor side option moved.2).flatMap Command.encode
  sent : l'.sent = l.sent + ((sentFor side option moved.2).flatMap Command.encode).length

omit [Policy P] [Policy Q] in
theorem MovedA.exchange {side : Side} {option : UInt8} {moved : QState × Option Bool}
    (h : MovedA opts l side option moved l') (cmdsA cmdsA' cmdsB : List Command)
    (hA : ∀ side' o, ¬(side' = side ∧ o = option) →
      commandsFor cmdsA' side'.other o = commandsFor cmdsA side'.other o) (side' : Side)
        (o : UInt8) :
    l'.exchange cmdsA' (cmdsB ++ sentFor side option moved.2) side' o =
      if side' = side ∧ o = option then
        { l.exchange cmdsA cmdsB side' o with
          near := moved.1
          toFar := commandsFor cmdsB side' o ++ moved.2.toList
          toNear := commandsFor cmdsA' side'.other o }
      else l.exchange cmdsA cmdsB side' o := by
  by_cases hs : side' = side ∧ o = option
  · simp [Link.exchange, h.a.half, h.b, commandsFor_sentFor, hs]
  · simp [Link.exchange, h.a.half, h.b, commandsFor_sentFor, if_neg hs, hA side' o hs]

omit [Policy P] [Policy Q] in
theorem MovedA.sound {side : Side} {option : UInt8} {moved : QState × Option Bool}
    (h : MovedA opts l side option moved l') (hS : l.Sound opts cmdsA cmdsB)
    {cmdsA' : List Command} (hsub : cmdsA' ⊆ cmdsA) (hunread : Unread l'.a.rx l'.toA cmdsA')
    (hreg : ∀ side' o,
      (l'.exchange cmdsA' (cmdsB ++ sentFor side option moved.2) side' o).Regular) :
    l'.Sound opts cmdsA' (cmdsB ++ sentFor side option moved.2) := by
  refine ⟨h.a.slotted, h.b ▸ hS.slotsB, hunread, ?_, ?_, hreg⟩
  · rw [h.b, h.toB]
    exact hS.unreadB.append _
  · intro c hc
    rcases List.mem_append.mp hc with hc | hc
    · exact hS.known c (List.mem_append_left _ (hsub hc))
    · rcases List.mem_append.mp hc with hc | hc
      · exact hS.known c (List.mem_append_right _ hc)
      · obtain ⟨positive, -, rfl⟩ := List.mem_map.mp hc
        exact h.known

omit [Policy P] [Policy Q] in
/-- One exchange has moved forward, and the others stay. -/
theorem outstanding_lt {cmdsA' cmdsB' : List Command} {side : Side} {option : UInt8}
    (hmem : option ∈ opts) (hlt : (l'.exchange cmdsA' cmdsB' side option).outstanding <
      (l.exchange cmdsA cmdsB side option).outstanding)
    (heq : ∀ side' o, ¬(side' = side ∧ o = option) →
      l'.exchange cmdsA' cmdsB' side' o = l.exchange cmdsA cmdsB side' o) :
    l'.outstanding opts cmdsA' cmdsB' < l.outstanding opts cmdsA cmdsB := by
  refine Finset.sum_lt_sum ?_ ⟨option, hmem, ?_⟩
  · intro o _
    by_cases ho : o = option
    · subst ho
      cases side with
      | us =>
        have := heq .him o (by simp)
        rw [this]
        omega
      | him =>
        have := heq .us o (by simp)
        rw [this]
        omega
    · rw [heq .us o (by simp [ho]), heq .him o (by simp [ho])]
  · cases side with
    | us =>
      rw [heq .him option (by simp)]
      omega
    | him =>
      rw [heq .us option (by simp)]
      omega

omit [Policy P] [Policy Q] in
/-- The first command in flight has been taken and acted on. -/
theorem MovedA.answers {c : Command} {rest : List Command} {supported : Bool}
    (h : MovedA opts l c.side.other c.option
      ((l.a.half c.side.other c.option).receive supported c.positive) l')
    (hS : l.Sound opts (c :: rest) cmdsB) (hunread : Unread l'.a.rx l'.toA rest) :
    ∃ cmdsB', l'.Sound opts rest cmdsB' ∧ l'.sent + 3 * l'.outstanding opts rest cmdsB' ≤
        l.sent + 3 * l.outstanding opts (c :: rest) cmdsB := by
  generalize hr : (l.a.half c.side.other c.option).receive supported c.positive = r at h
  have hothers : ∀ side o, ¬(side = c.side.other ∧ o = c.option) →
      commandsFor rest side.other o = commandsFor (c :: rest) side.other o := by
    intro side o hne
    have hne' : ¬(side.other = c.side ∧ o = c.option) := fun h' => hne ⟨by simp [← h'.1], h'.2⟩
    rw [commandsFor_cons, if_neg hne']
  have hex := h.exchange (c :: rest) rest cmdsB hothers
  have htaken : l'.exchange rest (cmdsB ++ sentFor c.side.other c.option r.2) c.side.other
    c.option =
      (l.exchange (c :: rest) cmdsB c.side.other c.option).deliverNear supported := by
    rw [hex, if_pos ⟨rfl, rfl⟩]
    simp [Link.exchange, Exchange.deliverNear, commandsFor_cons, hr]
  have hreg := hS.regular c.side.other c.option
  refine ⟨cmdsB ++ sentFor c.side.other c.option r.2,
    h.sound hS (List.subset_cons_self _ _) hunread ?_, ?_⟩
  · intro side o
    by_cases hs : side = c.side.other ∧ o = c.option
    · obtain ⟨rfl, rfl⟩ := hs
      rw [htaken]
      exact hreg.deliverNear supported
    · rw [hex, if_neg hs]
      exact hS.regular side o
  · have hlt : l'.outstanding opts rest (cmdsB ++ sentFor c.side.other c.option r.2) <
        l.outstanding opts (c :: rest) cmdsB := by
      refine outstanding_lt h.known ?_ (fun side o hs => by rw [hex, if_neg hs])
      rw [htaken]
      exact hreg.outstanding_deliverNear supported (by simp [Link.exchange, commandsFor_cons])
    have hlen : ((sentFor c.side.other c.option r.2).flatMap Command.encode).length ≤ 3 := by
      cases r.2 with
      | none => simp [sentFor]
      | some positive => simp [sentFor]
    have hsent := h.sent
    omega

section Room

variable (hcap : opts.card ≤ capA) {n : Nat} (hn : 3 ≤ n)

include hcap hn in
omit [Policy P] [Policy Q] in
theorem callA_sound (hS : l.Sound opts cmdsA cmdsB) (call : LocalCall) {option : UInt8}
    (hmem : option ∈ opts) : ∃ cmdsB', (l.callA call n option).Sound opts cmdsA cmdsB' := by
  have key : ∀ side enable, ∃ cmdsB',
      Sound opts { l with
        a := (request side enable n l.a option []).1
        toB := l.toB ++ (request side enable n l.a option []).2
        sent := l.sent + (request side enable n l.a option []).2.length } cmdsA cmdsB' := by
    intro side enable
    obtain ⟨hmoved, hrx, hout⟩ := request_spec hS.slotsA hcap hmem hn side enable
    rw [hout]
    have h : MovedA opts l side option ((l.a.half side option).request enable) { l with
        a := (request side enable n l.a option []).1
        toB := l.toB ++ (sentFor side option ((l.a.half side option).request enable).2).flatMap
          Command.encode
        sent := l.sent + ((sentFor side option ((l.a.half side option).request enable).2).flatMap
          Command.encode).length } := ⟨hmem, hmoved, rfl, rfl, rfl⟩
    refine ⟨_, h.sound hS (List.Subset.refl _) (hrx ▸ hS.unreadA) ?_⟩
    intro side' o
    rw [h.exchange cmdsA cmdsA cmdsB (fun _ _ _ => rfl)]
    by_cases hs : side' = side ∧ o = option
    · rw [if_pos hs]
      obtain ⟨rfl, rfl⟩ := hs
      exact (hS.regular side' o).requestNear enable
    · rw [if_neg hs]
      exact hS.regular side' o
  cases call with
  | requestUs => exact key .us true
  | disableUs => exact key .us false
  | requestHim => exact key .him true
  | disableHim => exact key .him false

include hcap hn in
omit [Policy Q] in
/-- A byte that arrives leaves the link sound, and what it sends is paid for by what it takes. -/
theorem deliverA_sound (hS : l.Sound opts cmdsA cmdsB) (hne : l.toA ≠ []) :
    ∃ cmdsA' cmdsB', (l.deliverA n).Sound opts cmdsA' cmdsB' ∧
      (l.deliverA n).sent + 3 * (l.deliverA n).outstanding opts cmdsA' cmdsB' ≤
        l.sent + 3 * l.outstanding opts cmdsA cmdsB := by
  obtain ⟨byte, bytes, htoA⟩ := List.exists_cons_of_ne_nil hne
  have hunread : Unread l.a.rx (byte :: bytes) cmdsA := htoA ▸ hS.unreadA
  have hknown : ∀ c ∈ cmdsA, c.option ∈ opts := fun c hc => hS.known c (List.mem_append_left _ hc)
  unfold deliverA
  simp only [htoA]
  obtain ⟨rx, hfeed, hrest⟩ | ⟨c, rest, rfl, hrest, hmoved, hout⟩ :=
    feed_spec hS.slotsA hcap hn hknown hunread
  · -- the command is not complete yet
    rw [hfeed]
    refine ⟨cmdsA, cmdsB, ?_, Nat.le_of_eq rfl⟩
    exact ⟨⟨hS.slotsA.nodup, hS.slotsA.known⟩, hS.slotsB, hrest, by simpa using hS.unreadB,
      hS.known, hS.regular⟩
  · -- the byte completes `c`, and the endpoint answers it
    have h : MovedA opts l c.side.other c.option _ { l with
        a := (l.a.feed n byte []).1
        toA := bytes
        toB := l.toB ++ (l.a.feed n byte []).2.1
        sent := l.sent + (l.a.feed n byte []).2.1.length } :=
      ⟨hknown c (by simp), hmoved, rfl, by rw [hout], by rw [hout]⟩
    exact ⟨rest, h.answers hS hrest⟩

end Room

omit [Policy P] [Policy Q] in
theorem outstanding_swap :
    l.swap.outstanding opts cmdsB cmdsA = l.outstanding opts cmdsA cmdsB := by
  refine Finset.sum_congr rfl fun option _ => ?_
  rw [exchange_swap, exchange_swap]
  simp only [Exchange.outstanding, Exchange.swap, Side.other]
  omega

/-- The commands in flight are regular, and no more than `bound` bytes will ever have been sent
unless an application asks for more. -/
def Settling (opts : Finset UInt8) (bound : Nat) (l : Link P Q sbA capA sbB capB) : Prop :=
  ∃ cmdsA cmdsB, l.Sound opts cmdsA cmdsB ∧ l.sent + 3 * l.outstanding opts cmdsA cmdsB ≤ bound

section Runs

variable (hA : opts.card ≤ capA) (hB : opts.card ≤ capB)

include hA hB

theorem Deliver.settling (h : Deliver l l') {bound : Nat} (hl : l.Settling opts bound) :
    l'.Settling opts bound := by
  obtain ⟨cmdsA, cmdsB, hS, hle⟩ := hl
  cases h with
  | atA n hn hne =>
    obtain ⟨cmdsA', cmdsB', hS', hle'⟩ := deliverA_sound hA hn hS hne
    exact ⟨cmdsA', cmdsB', hS', hle'.trans hle⟩
  | atB n hn hne =>
    obtain ⟨cmdsB', cmdsA', hS', hle'⟩ := deliverA_sound hB hn hS.swap hne
    rw [outstanding_swap] at hle'
    refine ⟨cmdsA', cmdsB', hS'.swap, ?_⟩
    rw [outstanding_swap]
    exact hle'.trans hle

theorem Step.settling (h : Step opts l l') (hl : ∃ bound, l.Settling opts bound) :
    ∃ bound, l'.Settling opts bound := by
  cases h with
  | deliver h =>
    obtain ⟨bound, hl⟩ := hl
    exact ⟨bound, h.settling hA hB hl⟩
  | callA call n hn option hmem =>
    obtain ⟨_, cmdsA, cmdsB, hS, -⟩ := hl
    obtain ⟨cmdsB', hS'⟩ := callA_sound hA hn hS call hmem
    exact ⟨_, cmdsA, cmdsB', hS', Nat.le_refl _⟩
  | callB call n hn option hmem =>
    obtain ⟨_, cmdsA, cmdsB, hS, -⟩ := hl
    obtain ⟨cmdsA', hS'⟩ := callA_sound hB hn hS.swap call hmem
    exact ⟨_, cmdsA', cmdsB, hS'.swap, Nat.le_refl _⟩

theorem Reachable.settling {p : P} {q : Q} (h : Reachable opts p q l) :
    ∃ bound, l.Settling opts bound := by
  induction h with
  | refl => exact ⟨_, [], [], sound_new opts p q, Nat.le_refl _⟩
  | tail _ hstep ih => exact hstep.settling hA hB ih

theorem Settling.deliveries {bound : Nat} (hl : l.Settling opts bound)
    (h : Relation.ReflTransGen Deliver l l') : l'.Settling opts bound := by
  induction h with
  | refl => exact hl
  | tail _ hstep ih => exact hstep.settling hA hB ih

end Runs

omit [Policy P] [Policy Q] in
theorem Sound.settled (hS : l.Sound opts cmdsA cmdsB) (htoA : l.toA = []) (htoB : l.toB = [])
    (side : Side) (option : UInt8) :
    isPending (l.a.half side option) = false ∧ isPending (l.b.half side.other option) = false ∧
      (l.a.half side option = .yes ↔ l.b.half side.other option = .yes) := by
  obtain rfl : cmdsA = [] := Unread.eq_nil (htoA ▸ hS.unreadA)
  obtain rfl : cmdsB = [] := Unread.eq_nil (htoB ▸ hS.unreadB)
  exact (hS.regular side option).settled rfl rfl

/-- Once the applications stop asking, only so many more bytes are ever sent; and whenever nothing
is in flight, nothing is pending and both ends agree on every half of every option. -/
theorem negotiation_settles (hA : opts.card ≤ capA) (hB : opts.card ≤ capB) {p : P} {q : Q}
    (h : Reachable opts p q l) :
    (∃ bound, ∀ l', Relation.ReflTransGen Deliver l l' → l'.sent ≤ bound) ∧
      (l.toA = [] → l.toB = [] → ∀ option,
        l.a.usPending option = false ∧ l.a.himPending option = false ∧
        l.b.usPending option = false ∧ l.b.himPending option = false ∧
        l.a.usEnabled option = l.b.himEnabled option ∧
        l.b.usEnabled option = l.a.himEnabled option) := by
  obtain ⟨bound, hl⟩ := h.settling hA hB
  constructor
  · refine ⟨bound, fun l' hrun => ?_⟩
    obtain ⟨_, _, -, hle⟩ := hl.deliveries hA hB hrun
    omega
  · intro htoA htoB option
    obtain ⟨cmdsA, cmdsB, hS, -⟩ := hl
    obtain ⟨hua, hhb, hus⟩ := hS.settled htoA htoB .us option
    obtain ⟨hha, hub, hhim⟩ := hS.settled htoA htoB .him option
    simp only [usPending_eq, himPending_eq, usEnabled_eq, himEnabled_eq]
    refine ⟨hua, hha, hub, hhb, ?_, ?_⟩
    · exact Bool.eq_iff_iff.mpr (by simpa [Side.other] using hus)
    · exact Bool.eq_iff_iff.mpr (by simpa [Side.other] using hhim.symm)

/-- A byte arrives at the other end. -/
def deliverB (l : Link P Q sbA capA sbB capB) (n : Nat) : Link P Q sbA capA sbB capB :=
  (l.swap.deliverA n).swap

/-- Both ends ask for option 1 at once, and each takes the other's request for its answer. -/
def crossing : Link RejectAll RejectAll 64 12 64 12 :=
  ((((((((new {} {}).callA .requestUs 3 1).swap.callA .requestHim 3 1).swap.deliverA 3).deliverA
    3).deliverA 3).deliverB 3).deliverB 3).deliverB 3

theorem reachable_crossing : Reachable {1} {} {} crossing := by
  refine .tail (.tail (.tail (.tail (.tail (.tail (.tail (.tail .refl
    (.callA .requestUs 3 (by decide) 1 (by decide)))
    (.callB .requestHim 3 (by decide) 1 (by decide)))
    (.deliver (.atA 3 (by decide) (by decide))))
    (.deliver (.atA 3 (by decide) (by decide))))
    (.deliver (.atA 3 (by decide) (by decide))))
    (.deliver (.atB 3 (by decide) (by decide))))
    (.deliver (.atB 3 (by decide) (by decide))))
    (.deliver (.atB 3 (by decide) (by decide)))

theorem negotiation_settles_crossing :
    crossing.sent = 6 ∧ crossing.a.usEnabled 1 = true ∧ crossing.b.himEnabled 1 = true ∧
      crossing.a.usPending 1 = false := by
  obtain ⟨-, h⟩ := negotiation_settles (by decide) (by decide) reachable_crossing
  obtain ⟨hpending, -, -, -, hagree, -⟩ := h (by decide) (by decide) 1
  have hon : crossing.a.usEnabled 1 = true := by decide
  exact ⟨by decide, hon, hagree ▸ hon, hpending⟩

end Link

end Microtun.Telnet
