import Microtun.Core.Runs

/-! The packets that an engine delivers and the datagrams that it seals, over a whole run. -/

namespace Microtun

open Hoare Tables

variable {cap : Capacities} {R P : Type} {w w' : World cap R P} {config : Config}

/-! ### Deliveries -/

section

variable [Crypto]

/-- The only calls that deliver are those with a datagram. -/
theorem Called.packets {call : Call} (h : Called w call w') :
    Microtun.packets w'.log = Microtun.packets w.log ∨
      ∃ now source data sink serial counter key endpoint packet,
        call = .receiveOuter now source data sink ∧ Delivery w now data serial counter key packet ∧
        Microtun.packets w'.log =
          .innerPacket serial counter key endpoint packet :: Microtun.packets w.log := by
  have hflushed : ∀ {now : Nat} {w1 : World cap R P}, Flushed now w1 w' →
      Microtun.packets w'.tables.marks = Microtun.packets w1.tables.marks :=
    fun hflush => hflush.all.packets rfl
  simp only [packets_log]
  cases h with
  | sendInner hflush h => exact Or.inl ((hflushed hflush).trans (h.packets rfl))
  | @receiveOuter now source data sink w1 _ hflush _ hdel =>
    rw [hflushed hflush]
    rcases hdel with hsame | ⟨serial, counter, key, endpoint, packet, hdel, hnew⟩
    · exact Or.inl hsame
    · exact Or.inr ⟨now, source, data, sink, serial, counter, key, endpoint, packet, rfl, hdel,
        hnew⟩
  | fired hflush h =>
    obtain ⟨answers, lapses, hsteps, -⟩ := h.steps
    exact Or.inl ((hflushed hflush).trans (hsteps.packets rfl))
  | idle hflush _ => exact Or.inl (hflush.all.packets rfl)
  | resolved hflush h =>
    obtain ⟨answers, hsteps, -⟩ := h.steps
    exact Or.inl ((hflushed hflush).trans (hsteps.packets rfl))
  | peerUpdated hflush h _ _ => exact Or.inl ((hflushed hflush).trans (h.packets rfl))
  | setUnixTime h _ _ => exact Or.inl (by rw [h])

variable [RngCore R] [RelayPolicy P]

/-- A call of a run delivers nothing, or it is a call with a datagram and delivers one packet: that
of the datagram, which a session of the sender opened and which is no replay; the sender has the
longest prefix for its source, and the policy for the sender admits it. No counter of a session is
ever delivered twice. -/
theorem Reachable.delivers_once (h : Reachable cap config w) {call : Call}
    (hcall : call.run w = .ok ((), w')) :
    (deliveries w'.log).Nodup ∧ (packets w'.log = packets w.log ∨
      ∃ now source data sink serial counter key endpoint packet,
        call = .receiveOuter now source data sink ∧ Delivery w now data serial counter key packet ∧
        packets w'.log = .innerPacket serial counter key endpoint packet :: packets w.log) := by
  obtain ⟨hS', hcalled⟩ := called_of_run h.sound hcall
  have hnodup := hS'.inv.ledger.delivered.1
  rw [← deliveries_packets, ← packets_log, deliveries_packets] at hnodup
  exact ⟨hnodup, hcalled.packets⟩

end

section

open Reference Sample

namespace Sample

/-- What engine 0 sends to engine 1 for a packet. -/
def initiation : List UInt8 := toBeBytes 148
  0x01000000030000000f524bef7e12258fd9eefcd9e468b21e543d90cc4a54b347f48cc5969febf4325b5dfcd689f52adb440095de7f95b2a7adf26562308312e7719fe93b10dbce041a35349e83a9c601371ed5306dadb526f78a29467710456fa1e2a66af5017d20c82bb3a903b48203a62b1ba77f841a2a7ea25411db1feb07da27f1a100000000000000000000000000000000

/-- What engine 1 answers. -/
def response : List UInt8 := toBeBytes 92
  0x0200000005000000030000009e59e4d87a91ea9e9d517e67f758c62fc7d922e9ca25b7c184422b70228ba32813b7b48bd22d7817f31be459e7a28d52a0ee3b509e111e76e219fa116265afcc00000000000000000000000000000000

/-- What engine 0 sends then. -/
def payload : List UInt8 := toBeBytes 64
  0x04000000050000000000000000000000591743ac1503f0e924a1f7bd8249aa72607c4f7e65bd77073f675b8181bd8084a081fd4346e99a9122580570ba687eb3

end Sample

/-- Engine 1 delivers the packet of engine 0. -/
theorem Reachable.delivers_once_packet :
    ∃ w w' : World capacities Draws Permit, Reachable capacities (engine 1 [pinned 0]) w ∧
      (Call.receiveOuter 0 (endpoint 0) payload sink).run w = .ok ((), w') ∧
      deliveries w'.log = [(0, 0)] ∧ (deliveries w'.log).Nodup ∧ (packets w'.log = packets w.log ∨
        ∃ now source data sink' serial counter key endpoint' packet,
          Call.receiveOuter 0 (endpoint 0) payload sink = .receiveOuter now source data sink' ∧
          Delivery w now data serial counter key packet ∧
          packets w'.log = .innerPacket serial counter key endpoint' packet :: packets w.log) := by
  have hrun : (replay capacities (engine 1 [pinned 0]) (⟨4⟩ : Draws) (⟨⟩ : Permit) 0
      ([.receiveOuter 0 (endpoint 0) initiation sink] ++
        [.receiveOuter 0 (endpoint 0) payload sink])).any
      (fun w => deliveries w.log = [(0, 0)]) = true := by
    decide +kernel
  obtain ⟨w, w', hw, hcall, htest⟩ := last_of_replay hrun
  exact ⟨w, w', hw, hcall, of_decide_eq_true htest, hw.delivers_once hcall⟩

end

/-! ### Seals -/

theorem sealsOf_log (serial : Nat) (log : List Event) :
    sealsOf serial log = sealsOf serial (log.filter fun e => e.topic = .session) := by
  unfold sealsOf
  rw [List.filterMap_filter]
  congr 1
  funext e
  cases e with
  | resolve request taken => cases taken <;> rfl
  | authenticated consumed known => cases known <;> rfl
  | _ => rfl

section

variable [Crypto] [RngCore R] [RelayPolicy P]

/-- Under every session of a run the counters 0, 1, 2, ... are sealed, one after the other; each
seal is below the limit, under a confirmed session that is not too old, and in a datagram that
carries its counter. A relayed send that fails leaves the session of the destination where it was.
-/
theorem Reachable.seals_in_order (h : Reachable cap config w) (hlaw : Crypto.SealsDatagrams) :
    (∀ serial, ∃ k, sealsOf serial w.log = (List.range k).reverse) ∧
      (∀ record, .sealed record ∈ w.log → TimelySeal record) ∧
      ∀ later serial n earlier, w.log = later ++ .relayFailed serial n :: earlier →
        (sealsOf serial earlier).length = n := by
  have hledger := h.sound.inv.ledger
  refine ⟨fun serial => ?_, fun record hrecord => ?_, fun later serial n earlier hlog => ?_⟩
  · obtain ⟨k, hk⟩ := hledger.consecutive serial
    exact ⟨k, (sealsOf_log serial w.log).trans hk⟩
  · exact hledger.timely record (List.mem_filter.mpr ⟨hrecord, rfl⟩)
  · rw [sealsOf_log]
    refine hledger.relayed hlaw (later.filter fun e => e.topic = .session) serial n _ ?_
    show w.log.filter _ = _
    rw [hlog, List.filter_append, List.filter_cons_of_pos rfl]

end

section

open Reference Sample

/-- Engine 0 has sealed one datagram. -/
theorem Reachable.seals_in_order_first :
    ∃ w : World capacities Draws Permit, Reachable capacities (engine 0 [pinned 1]) w ∧
      sealsOf 0 w.log = [0] ∧ (∀ serial, ∃ k, sealsOf serial w.log = (List.range k).reverse) ∧
      (∀ record, .sealed record ∈ w.log → TimelySeal record) ∧
      ∀ later serial n earlier, w.log = later ++ .relayFailed serial n :: earlier →
        (sealsOf serial earlier).length = n := by
  have hrun : (replay capacities (engine 0 [pinned 1]) (⟨2⟩ : Draws) (⟨⟩ : Permit) 0
      [.setUnixTime 1 0 0, .sendInner 0 (packet 0 1) sink,
        .receiveOuter 0 (endpoint 1) response sink]).any (fun w => sealsOf 0 w.log = [0]) =
          true := by
    decide +kernel
  obtain ⟨w, hw, htest⟩ := reachable_of_replay hrun
  exact ⟨w, hw, of_decide_eq_true htest, hw.seals_in_order sealsDatagrams⟩

end

end Microtun
