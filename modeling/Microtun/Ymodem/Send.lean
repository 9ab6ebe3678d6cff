import Microtun.Ymodem.Packet

/-! The sender of YMODEM-1K, `send.rs`. -/

namespace Microtun.Ymodem

open Awaiting

inductive SendEvent where
  | output (byte : UInt8)
  | progress (sent total : Nat)
deriving DecidableEq, Repr

inductive SendError (ε σ ο : Type) where
  | io (e : ε)
  | timeout
  | endOfStream
  | cancelled
  | protocol
  | invalidFilename
  | headerTooLong
  | unexpectedEof
  | invalidSourceRead
  | source (e : σ)
  | observer (e : ο)

/-- What the caller's source and observer answer. -/
structure Outside (σ ο : Type) where
  source : Except σ (List UInt8)
  observer : Except ο Unit

/-- What the source has given, and what the observer was told. -/
structure Sender where
  file : List UInt8
  events : List SendEvent

variable {ε σ ο : Type}

abbrev Sending (ε σ ο α : Type) := Task (State Sender) (Answer ε (Outside σ ο)) (SendError ε σ ο) α

def notify (event : SendEvent) : Program (State Sender) (Answer ε (Outside σ ο))
    (Except ο Unit) := do
  update fun s => { s with side := { s.side with events := s.side.events ++ [event] } }
  answer fun a => a.side.observer

/-- The source fills the front of the buffer. -/
def readSource : Program (State Sender) (Answer ε (Outside σ ο)) (Except σ (List UInt8)) := do
  match ← answer (fun a => a.side.source) with
  | .ok bytes =>
    update fun s => { s with side := { s.side with file := s.side.file ++ bytes } }
    return .ok bytes
  | .error e => return .error e

def ReadByteError.toSendError : ReadByteError ε → SendError ε σ ο
  | .io e => .io e
  | .timeout => .timeout
  | .eof => .endOfStream

/-- Wait for `C`; the number of timeouts so far. -/
def requestPass (config : Config) (timeouts : UInt8) : Sending ε σ ο (Unit ⊕ UInt8) := do
  match ← Awaiting.attempt readByte with
  | .ok byte =>
    if byte = crcRequest then return .inl ()
    else if byte = can then throw .cancelled
    else
      mapErr .observer (notify (.output byte))
      return .inr timeouts
  | .error .timeout =>
    if config.startRetries ≤ saturatingSucc timeouts then throw .timeout
    else return .inr (saturatingSucc timeouts)
  | .error e => throw e.toSendError

def waitForCrcRequest (config : Config) : Sending ε σ ο Unit :=
  if config.startRetries = 0 then throw .timeout else taskLoop (requestPass config) 0

def writeControl (byte : UInt8) : Sending ε σ ο Unit := do
  mapErr .io (writeAll [byte])
  mapErr .io flush

def expectControl (expected : UInt8) : Sending ε σ ο Unit := do
  match ← Awaiting.attempt readByte with
  | .ok byte =>
    if byte = expected then return ()
    else if byte = can then throw .cancelled
    else throw .protocol
  | .error e => throw e.toSendError

section

variable [Crc16] (config : Config)

/-- A packet, and the answer to it; the number of retries so far. -/
def packetPass (control blockNumber : UInt8) (data : List UInt8) (retries : UInt8) :
    Sending ε σ ο (Unit ⊕ UInt8) := do
  mapErr .io (writeAll [control, blockNumber, ~~~blockNumber])
  mapErr .io (writeAll data)
  mapErr .io (writeAll (toBeBytes 2 (crc16 data).toNat))
  mapErr .io flush
  match ← Awaiting.attempt readByte with
  | .ok byte =>
    if byte = ack then return .inl ()
    else if byte = nak then
      if config.maxRetries ≤ retries then throw .protocol else return .inr (saturatingSucc retries)
    else if byte = can then throw .cancelled
    else throw .protocol
  | .error .timeout =>
    if config.maxRetries ≤ retries then throw .timeout else return .inr (saturatingSucc retries)
  | .error e => throw e.toSendError

def sendPacket (control blockNumber : UInt8) (data : List UInt8) : Sending ε σ ο Unit :=
  taskLoop (packetPass config control blockNumber data) 0

/-- Read until the block has all that is wanted. -/
def fillPass (wanted : Nat) (used : List UInt8) : Sending ε σ ο (List UInt8 ⊕ List UInt8) :=
  if wanted ≤ used.length then return .inl used
  else do
    let bytes ← mapErr .source readSource
    if bytes.length = 0 then throw .unexpectedEof
    else if wanted - used.length < bytes.length then throw .invalidSourceRead
    else return .inr (used ++ bytes)

/-- `[PAD; BLOCK_SIZE]`, with what was read in its front. -/
def paddedBlock (used : List UInt8) : List UInt8 :=
  (used ++ List.replicate dataBlockSize pad).take dataBlockSize

/-- The next block of the file: its number, and what was sent so far. -/
def blockPass (fileSize : Nat) : UInt8 × Nat → Sending ε σ ο (Unit ⊕ UInt8 × Nat)
  | (blockNumber, sent) =>
    if sent < fileSize then do
      let wanted := min (fileSize - sent) dataBlockSize
      let used ← taskLoop (fillPass wanted) []
      sendPacket config stx blockNumber (paddedBlock used)
      mapErr .observer (notify (.progress (sent + used.length) fileSize))
      return .inr (blockNumber + 1, sent + used.length)
    else return .inl ()

/-- What follows the last block. -/
def finishBatch (metadata : Metadata) : Sending ε σ ο Transfer := do
  writeControl eot
  expectControl nak
  writeControl eot
  expectControl ack
  waitForCrcRequest config
  sendPacket config soh 0 (List.replicate headerBlockSize 0)
  mapErr .observer (notify (.progress metadata.fileSize metadata.fileSize))
  return { fileSize := metadata.fileSize }

/-- `send_with` -/
def sendWith (metadata : Metadata) : Sending ε σ ο Transfer :=
  match metadataBlock metadata with
  | .error .invalidFilename => throw .invalidFilename
  | .error .headerTooLong => throw .headerTooLong
  | .ok header => do
    mapErr .observer (notify (.progress 0 metadata.fileSize))
    waitForCrcRequest config
    sendPacket config soh 0 header
    waitForCrcRequest config
    taskLoop (blockPass config metadata.fileSize) (1, 0)
    finishBatch config metadata

/-- A call with the answers that it gets: its result, if it has ended, and what has happened by
then. -/
def sending (metadata : Metadata) (answers : List (Answer ε (Outside σ ο))) :
    Option (Except (SendError ε σ ο) Transfer) × State Sender :=
  exec (sendWith config metadata).run ⟨[], ⟨[], []⟩⟩ answers

end

/-! ### The conversation -/

/-- What the sender does next: it waits for a request, sends a packet until it is acknowledged, or
says that the data end, which has one answer. -/
inductive Step where
  | request
  | packet (i : Item)
  | eot (reply : UInt8)

/-- A packet that was sent a number of times without being acknowledged: the line was silent, or it
was refused. -/
inductive Failed (i : Item) : Nat → List Mark → Prop where
  | nil : Failed i 0 []
  | concat {n : Nat} {log : List Mark} (h : Failed i n log) (reply : List Mark)
      (hreply : reply = [] ∨ reply = [.heard nak]) : Failed i (n + 1)
        (log ++ (i.bytes.map .said ++ reply))

namespace Step

variable (config : Config)

/-- What passes over the line in a step. -/
def Done : Step → List Mark → Prop
  | request, log => ∃ others : List UInt8, (∀ b ∈ others, b ≠ crcRequest ∧ b ≠ can) ∧
    log = others.map .heard ++ [.heard crcRequest]
  | packet i, log => ∃ n log', n ≤ config.maxRetries.toNat ∧ Failed i n log' ∧
    log = log' ++ (i.bytes.map .said ++ [.heard ack])
  | eot reply, log => log = [.said Ymodem.eot, .heard reply]

/-- What has passed over the line in a step that is not done. -/
def Begun : Step → List Mark → Prop
  | request, log => ∃ others : List UInt8, (∀ b ∈ others, b ≠ crcRequest) ∧ log = others.map .heard
  | packet i, log => ∃ n log' part reply, n ≤ config.maxRetries.toNat ∧ Failed i n log' ∧
    part <+: i.bytes ∧
    (reply = [] ∨ part = i.bytes ∧ ∃ b, b ≠ ack ∧ reply = [.heard b]) ∧ log = log' ++
    (part.map .said ++ reply)
  | eot reply, log => log = [] ∨ log = [.said Ymodem.eot] ∨ ∃ b, b ≠ reply ∧ log =
    [.said Ymodem.eot, .heard b]

end Step

section

variable {config : Config} {W : State Sender → Prop} {s s' : State Sender} {P : List Mark → Prop}

/-- Something has passed over the line since `s`, and nothing was read from the source. -/
def Since (s : State Sender) (P : List Mark → Prop) (s' : State Sender) : Prop :=
  ∃ log, P log ∧ s'.log = s.log ++ log ∧ s'.side.file = s.side.file

theorem since_start (h : P []) : Since s P s := ⟨[], h, (List.append_nil _).symm, rfl⟩

theorem Since.hear (h : Since s P s') {P' : List Mark → Prop} {b : UInt8}
    (hP : ∀ log, P log → P' (log ++ [.heard b])) : Since s P' (s'.hear b) := by
  obtain ⟨log, hlog, heq, hfile⟩ := h
  refine ⟨_, hP log hlog, ?_, hfile⟩
  rw [← List.append_assoc, ← heq]
  rfl

theorem Since.say (h : Since s P s') {P' : List Mark → Prop} {bytes : List UInt8}
    (hP : ∀ log, P log → P' (log ++ bytes.map .said)) : Since s P' (s'.say bytes) := by
  obtain ⟨log, hlog, heq, hfile⟩ := h
  refine ⟨_, hP log hlog, ?_, hfile⟩
  rw [← List.append_assoc, ← heq]
  rfl

theorem Since.mono (h : Since s P s') {P' : List Mark → Prop} (hP : ∀ log, P log → P' log) :
    Since s P' s' := by
  obtain ⟨log, hlog, heq, hfile⟩ := h
  exact ⟨log, hP log hlog, heq, hfile⟩

theorem yields_notify {event : SendEvent} (hw : ∀ s', Since s P s' → W s') (hs : Since s P s') :
    Yields W (mapErr .observer (notify event) : Sending ε σ ο Unit) (fun _ => Since s P) s' := by
  refine yields_mapErr (spec_update_bind (spec_answer (hw _ hs) fun r => ?_))
  cases r with
  | ok => exact hs
  | error e => exact hw _ hs

theorem yields_say {P' : List Mark → Prop} {bytes : List UInt8} (hw : ∀ s', Since s P s' → W s')
    (hs : Since s P' s') (hP : ∀ part log, part <+: bytes → P' log → P (log ++ part.map .said)) :
    Yields W (mapErr .io (writeAll bytes) : Sending ε σ ο Unit)
      (fun _ => Since s fun log => ∃ log', P' log' ∧ log = log' ++ bytes.map .said) s' := by
  have hnow : W s' := hw _ (hs.mono fun log hlog => by simpa using hP [] log List.nil_prefix hlog)
  refine yields_mapErr (spec_writeAll hnow (hs.say fun log hlog => ⟨log, hlog, rfl⟩) fun e n => ?_)
  exact hw _ (hs.say fun log hlog => hP _ log (List.take_prefix ..) hlog)

theorem yields_flushed {P' : List Mark → Prop} (hw : ∀ s', Since s P s' → W s') (hs : Since s P' s')
    (hP : ∀ log, P' log → P log) :
    Yields W (mapErr .io flush : Sending ε σ ο Unit) (fun _ => Since s P') s' :=
  yields_mapErr (spec_flush (hw _ (hs.mono hP)) hs fun _ => hw _ (hs.mono hP))

theorem yields_waitForCrcRequest (hw : ∀ s', Since s (Step.Begun config .request) s' → W s') :
    Yields W (waitForCrcRequest config : Sending ε σ ο Unit)
      (fun _ => Since s (Step.Done config .request)) s := by
  have hstart : Since s (fun log => ∃ others : List UInt8,
    (∀ b ∈ others, b ≠ crcRequest ∧ b ≠ can) ∧
      log = others.map .heard) s := since_start ⟨[], List.forall_mem_nil _, rfl⟩
  have hbegun : ∀ s', Since s (fun log => ∃ others : List UInt8,
    (∀ b ∈ others, b ≠ crcRequest ∧ b ≠ can) ∧
      log = others.map .heard) s' → W s' := by
    refine fun s' hs => hw s' (hs.mono ?_)
    rintro log ⟨others, hothers, rfl⟩
    exact ⟨others, fun b hb => (hothers b hb).1, rfl⟩
  unfold waitForCrcRequest
  split
  · exact yields_throw (hbegun s hstart)
  refine yields_loop (fun _ s' h => hbegun s' h) (fun timeouts s' hs => ?_) hstart
  refine yields_attempt_bind (spec_readByte (hbegun s' hs) (fun byte => ?_) fun e => ?_)
  · dsimp only
    split
    · rename_i hrequest
      refine yields_pure (hs.hear ?_)
      rintro log ⟨others, hothers, rfl⟩
      exact ⟨others, hothers, by rw [hrequest]⟩
    rename_i hrequest
    split
    · refine yields_throw (hw _ (hs.hear ?_))
      rintro log ⟨others, hothers, rfl⟩
      refine ⟨others ++ [byte], fun b hb => ?_, by rw [List.map_append]; rfl⟩
      rcases List.mem_append.mp hb with hb | hb
      · exact (hothers b hb).1
      · exact List.mem_singleton.mp hb ▸ hrequest
    · rename_i hcan
      have hother : Since s (fun log => ∃ others : List UInt8,
        (∀ b ∈ others, b ≠ crcRequest ∧ b ≠ can) ∧
          log = others.map .heard) (s'.hear byte) := by
        refine hs.hear ?_
        rintro log ⟨others, hothers, rfl⟩
        refine ⟨others ++ [byte], fun b hb => ?_, by rw [List.map_append]; rfl⟩
        rcases List.mem_append.mp hb with hb | hb
        · exact hothers b hb
        · exact List.mem_singleton.mp hb ▸ ⟨hrequest, hcan⟩
      exact (yields_notify hbegun hother).bind fun _ s'' hs'' => yields_pure hs''
  · cases e with
    | io e => exact yields_throw (hbegun _ hs)
    | eof => exact yields_throw (hbegun _ hs)
    | timeout =>
      dsimp only
      split
      · exact yields_throw (hbegun _ hs)
      · exact yields_pure hs

theorem yields_writeControl {reply : UInt8}
    (hw : ∀ s', Since s (Step.Begun config (.eot reply)) s' → W s') :
    Yields W (writeControl eot : Sending ε σ ο Unit) (fun _ => Since s fun log => log = [.said eot])
      s := by
  have hstart : Since s (fun log => log = []) s := since_start rfl
  refine (yields_say hw hstart ?_).bind fun _ s1 hs1 => ?_
  · rintro part log hpart rfl
    rcases List.prefix_cons_iff.mp hpart with rfl | ⟨rest, rfl, hrest⟩
    · exact Or.inl rfl
    · cases List.prefix_nil.mp hrest
      exact Or.inr (Or.inl rfl)
  · have hsaid : Since s (fun log => log = [.said eot]) s1 := by
      refine hs1.mono ?_
      rintro log ⟨log', rfl, rfl⟩
      rfl
    exact yields_flushed hw hsaid fun log hlog => Or.inr (Or.inl hlog)

theorem yields_expectControl {reply : UInt8}
    (hw : ∀ s', Since s (Step.Begun config (.eot reply)) s' → W s')
    (hs : Since s (fun log => log = [.said eot]) s') :
    Yields W (expectControl reply : Sending ε σ ο Unit)
      (fun _ => Since s (Step.Done config (.eot reply))) s' := by
  have hunanswered : W s' := hw _ (hs.mono fun log hlog => Or.inr (Or.inl hlog))
  refine yields_attempt_bind (spec_readByte hunanswered (fun b => ?_) fun e =>
    yields_throw hunanswered)
  dsimp only
  split
  · rename_i hreply
    refine yields_pure (hs.hear ?_)
    rintro log rfl
    rw [hreply]
    rfl
  · rename_i hreply
    have hother : W (s'.hear b) := by
      refine hw _ (hs.hear ?_)
      rintro log rfl
      exact Or.inr (Or.inr ⟨b, hreply, rfl⟩)
    split
    · exact yields_throw hother
    · exact yields_throw hother

variable [Crc16]

theorem yields_sendPacket {i : Item} {control number : UInt8} {data : List UInt8}
    (hi : i.bytes = [control, number, ~~~number] ++ data ++ toBeBytes 2 (crc16 data).toNat)
    (hw : ∀ s', Since s (Step.Begun config (.packet i)) s' → W s') :
    Yields W (sendPacket config control number data : Sending ε σ ο Unit)
      (fun _ => Since s (Step.Done config (.packet i))) s := by
  -- What fails is the copies so far, with a part of the next one.
  have hbegun : ∀ {n : Nat} {log part : List Mark} {bytes : List UInt8},
      n ≤ config.maxRetries.toNat → Failed i n log →
      bytes <+: i.bytes → part = bytes.map .said → Step.Begun config (.packet i) (log ++ part) := by
    rintro n log part bytes hn hlog hbytes rfl
    exact ⟨n, log, bytes, [], hn, hlog, hbytes, Or.inl rfl, by rw [List.append_nil]⟩
  have hfront : [control, number, ~~~number] ++ data <+: i.bytes := by
    rw [hi]
    exact List.prefix_append _ _
  unfold sendPacket
  refine yields_loop (I := fun retries => Since s fun log => retries.toNat ≤
    config.maxRetries.toNat ∧
      Failed i retries.toNat log) (fun retries s' hs => hw s' (hs.mono fun log hlog => ?_))
        (fun retries s' hs => ?_)
      (since_start ⟨Nat.zero_le _, .nil⟩)
  · simpa using hbegun hlog.1 hlog.2 List.nil_prefix rfl
  unfold packetPass
  refine (yields_say hw hs ?_).bind fun _ s1 hs1 => ?_
  · intro part log hpart hlog
    exact hbegun hlog.1 hlog.2 (hpart.trans ((List.prefix_append ..).trans hfront)) rfl
  refine (yields_say hw hs1 ?_).bind fun _ s2 hs2 => ?_
  · rintro part log hpart ⟨log', hlog', rfl⟩
    rw [List.append_assoc, ← List.map_append]
    exact hbegun hlog'.1 hlog'.2 (((List.prefix_append_right_inj _).mpr hpart).trans hfront) rfl
  refine (yields_say hw hs2 ?_).bind fun _ s3 hs3 => ?_
  · rintro part log hpart ⟨log', ⟨log'', hlog'', rfl⟩, rfl⟩
    rw [List.append_assoc, List.append_assoc, ← List.map_append, ← List.map_append,
      ← List.append_assoc [_, _, _]]
    refine hbegun hlog''.1 hlog''.2 ?_ rfl
    rw [hi]
    exact (List.prefix_append_right_inj _).mpr hpart
  have hs3 : Since s (fun log =>
    ∃ log', (retries.toNat ≤ config.maxRetries.toNat ∧ Failed i retries.toNat log') ∧
      log = log' ++ i.bytes.map .said) s3 := by
    refine hs3.mono ?_
    rintro log ⟨log1, ⟨log2, ⟨log3, hlog3, rfl⟩, rfl⟩, rfl⟩
    refine ⟨log3, hlog3, ?_⟩
    rw [hi, List.map_append, List.map_append, List.append_assoc, List.append_assoc,
      List.append_assoc]
  have hsent : ∀ log, (∃ log', (retries.toNat ≤ config.maxRetries.toNat ∧
    Failed i retries.toNat log') ∧
      log = log' ++ i.bytes.map .said) → Step.Begun config (.packet i) log := by
    rintro log ⟨log', hlog', rfl⟩
    exact hbegun hlog'.1 hlog'.2 (List.prefix_refl _) rfl
  refine (yields_flushed hw hs3 hsent).bind fun _ s4 hs4 => ?_
  have hagain : ∀ reply, reply = [] ∨ reply = [.heard nak] → ¬config.maxRetries ≤ retries → ∀ log,
      (∃ log', (retries.toNat ≤ config.maxRetries.toNat ∧ Failed i retries.toNat log') ∧
        log = log' ++ i.bytes.map .said) →
      (saturatingSucc retries).toNat ≤ config.maxRetries.toNat ∧
        Failed i (saturatingSucc retries).toNat (log ++ reply) := by
    rintro reply hreply hmore log ⟨log', ⟨-, hfailed⟩, rfl⟩
    have hlt : retries.toNat < config.maxRetries.toNat := Nat.lt_of_not_le hmore
    have hsucc : (saturatingSucc retries).toNat = retries.toNat + 1 := by
      have hmax := config.maxRetries.toNat_lt
      unfold saturatingSucc
      rw [if_neg (by rintro rfl; exact absurd hlt (by simp; omega)), UInt8.toNat_add]
      exact Nat.mod_eq_of_lt (by simp; omega)
    rw [hsucc, List.append_assoc]
    exact ⟨hlt, hfailed.concat reply hreply⟩
  refine yields_attempt_bind (spec_readByte (hw _ (hs4.mono hsent)) (fun b => ?_) fun e => ?_)
  · have hrefused : b ≠ ack → W (s4.hear b) := by
      intro hack
      refine hw _ (hs4.hear ?_)
      rintro log ⟨log', hlog', rfl⟩
      refine ⟨_, log', i.bytes, [.heard b], hlog'.1, hlog'.2, List.prefix_refl _,
        Or.inr ⟨rfl, b, hack, rfl⟩, ?_⟩
      rw [List.append_assoc]
    dsimp only
    split
    · rename_i hack
      refine yields_pure (hs4.hear ?_)
      rintro log ⟨log', hlog', rfl⟩
      refine ⟨_, log', hlog'.1, hlog'.2, ?_⟩
      rw [hack, List.append_assoc]
    rename_i hack
    split
    · rename_i hnak
      split
      · exact yields_throw (hrefused hack)
      · rename_i hmore
        subst hnak
        exact yields_pure (hs4.hear (hagain [.heard nak] (Or.inr rfl) hmore))
    · split
      · exact yields_throw (hrefused hack)
      · exact yields_throw (hrefused hack)
  · cases e with
    | io e => exact yields_throw (hw _ (hs4.mono hsent))
    | eof => exact yields_throw (hw _ (hs4.mono hsent))
    | timeout =>
      dsimp only
      split
      · exact yields_throw (hw _ (hs4.mono hsent))
      · rename_i hmore
        refine yields_pure (hs4.mono fun log hlog => ?_)
        simpa using hagain [] (Or.inl rfl) hmore log hlog

end

/-! ### The packets of a file -/

/-- The blocks into which a file of some size is cut: all of them are full but the last one. -/
inductive Chopped (size : Nat) : List (List UInt8) → Prop where
  | nil : Chopped size []
  | concat {blocks : List (List UInt8)} {block : List UInt8} (h : Chopped size blocks)
      (hmore : blocks.flatten.length < size)
        (hblock : block.length = min (size - blocks.flatten.length) dataBlockSize) :
      Chopped size (blocks ++ [block])

theorem Chopped.length_le {size : Nat} {blocks : List (List UInt8)} (h : Chopped size blocks) :
    blocks.flatten.length ≤ size := by
  cases h with
  | nil => exact Nat.zero_le _
  | concat h hmore hblock =>
    rw [List.flatten_append, List.flatten_singleton, List.length_append, hblock]
    omega

theorem Chopped.of_concat {size : Nat} {blocks : List (List UInt8)} {block : List UInt8}
    (h : Chopped size (blocks ++ [block])) : Chopped size blocks ∧ blocks.flatten.length < size ∧
      block.length = min (size - blocks.flatten.length) dataBlockSize := by
  generalize hl : blocks ++ [block] = l at h
  cases h with
  | nil => exact absurd hl (List.concat_ne_nil _ _)
  | concat h hmore hblock =>
    obtain ⟨rfl, hb⟩ := List.append_inj' hl rfl
    cases hb
    exact ⟨h, hmore, hblock⟩

theorem Chopped.take {size : Nat} {blocks : List (List UInt8)} (h : Chopped size blocks) (k : Nat) :
    Chopped size (blocks.take k) := by
  induction h with
  | nil =>
    rw [List.take_nil]
    exact .nil
  | @concat blocks block h hmore hblock ih =>
    rcases Nat.lt_or_ge blocks.length k with hlt | hle
    · rw [List.take_of_length_le (by rw [List.length_append, List.length_singleton]; omega)]
      exact h.concat hmore hblock
    · rw [List.take_append_of_le_length hle]
      exact ih

theorem length_paddedBlock (used : List UInt8) : (paddedBlock used).length = dataBlockSize := by
  rw [paddedBlock, List.length_take, List.length_append, List.length_replicate]
  omega

section

variable [Crc16]

/-- A packet with block 0. -/
def headerItem (data : List UInt8) (h : data.length = headerBlockSize) : Item :=
  Item.framed (show blockSize soh = some headerBlockSize from rfl)
    ((length_frameOf 0 data).trans (congrArg (· + 4) h))

/-- A packet with a block of the file. -/
def dataItem (number : UInt8) (block : List UInt8) : Item :=
  Item.framed (show blockSize stx = some dataBlockSize from rfl)
    ((length_frameOf number (paddedBlock block)).trans
      (congrArg (· + 4) (length_paddedBlock block)))

/-- The packets of blocks that are numbered one after the other. -/
def dataItems : UInt8 → List (List UInt8) → List Item
  | _, [] => []
  | number, block :: blocks => dataItem number block :: dataItems (number + 1) blocks

theorem dataItems_concat (number : UInt8) (blocks : List (List UInt8)) (block : List UInt8) :
    dataItems number (blocks ++ [block]) =
      dataItems number blocks ++ [dataItem (number + UInt8.ofNat blocks.length) block] := by
  induction blocks generalizing number with
  | nil => simp [dataItems]
  | cons b blocks ih =>
    rw [List.cons_append, dataItems, ih, dataItems, List.length_cons, UInt8.ofNat_add,
      UInt8.add_comm (UInt8.ofNat _), ← UInt8.add_assoc]
    rfl

/-- The empty block 0 at the end of a batch. -/
def trailerItem : Item := headerItem (List.replicate headerBlockSize 0) (List.length_replicate ..)

/-- What is done before the first block. -/
def openingSteps (header : Item) : List Step := [.request, .packet header, .request]

/-- What is done after the last block. -/
def closingSteps : List Step := [.eot nak, .eot ack, .request, .packet trailerItem]

/-- All that the sender does with a file, as far as its blocks are known. -/
def script (header : Item) (size : Nat) (blocks : List (List UInt8)) : List Step :=
  openingSteps header ++ (dataItems 1 blocks).map .packet ++
    if blocks.flatten.length = size then closingSteps else []

end

/-- Some steps were done, one after the other. -/
inductive Spoken (config : Config) : List Step → List Mark → Prop where
  | nil : Spoken config [] []
  | concat {steps : List Step} {step : Step} {log part : List Mark} (h : Spoken config steps log)
      (hpart : step.Done config part) : Spoken config (steps ++ [step]) (log ++ part)

/-- Steps of a script were done from its start, and no other one was begun than the next. -/
def Keeps (config : Config) (script : List Step) (log : List Mark) : Prop :=
  (∃ steps, steps <+: script ∧ Spoken config steps log) ∨
    ∃ steps step before part, steps ++ [step] <+: script ∧ Spoken config steps before ∧
      step.Begun config part ∧
      log = before ++ part

section

variable {config : Config} {W : State Sender → Prop} {s s' : State Sender} {steps : List Step}
  {step : Step} {metadata : Metadata} {blocks : List (List UInt8)}

theorem Spoken.since (h : Spoken config steps s.log) (hs : Since s (step.Done config) s') :
    Spoken config (steps ++ [step]) s'.log := by
  obtain ⟨log, hlog, heq, -⟩ := hs
  rw [heq]
  exact h.concat hlog

theorem yields_fill {wanted : Nat} (hw : ∀ s', s'.log = s.log → s.side.file <+: s'.side.file →
    W s') : Yields W (taskLoop (fillPass wanted) [] : Sending ε σ ο (List UInt8))
      (fun used s' => used.length = wanted ∧ s'.log = s.log ∧ s'.side.file = s.side.file ++ used)
        s := by
  refine yields_loop (I := fun used s' => used.length ≤ wanted ∧ s'.log = s.log ∧
    s'.side.file = s.side.file ++ used)
    (fun used s' hs => hw s' hs.2.1 (hs.2.2 ▸ List.prefix_append ..)) (fun used s' hs => ?_)
    ⟨Nat.zero_le _, rfl, (List.append_nil _).symm⟩
  obtain ⟨hlen, hlog, hfile⟩ := hs
  have hnow : W s' := hw s' hlog (hfile ▸ List.prefix_append ..)
  unfold fillPass
  split
  · rename_i hfull
    exact yields_pure ⟨Nat.le_antisymm hlen hfull, hlog, hfile⟩
  refine (yields_mapErr (Q := fun bytes s'' => s''.log = s.log ∧
    s''.side.file = s.side.file ++ (used ++ bytes))
    (spec_answer_bind hnow fun r => ?_)).bind fun bytes s'' hs'' => ?_
  · cases r with
    | error e => exact spec_pure hnow
    | ok bytes =>
      refine spec_update_bind (spec_pure ⟨hlog, ?_⟩)
      rw [← List.append_assoc, ← hfile]
  have hthen : W s'' := hw s'' hs''.1 (hs''.2 ▸ List.prefix_append ..)
  split
  · exact yields_throw hthen
  split
  · exact yields_throw hthen
  · rename_i hfits
    refine yields_pure ⟨?_, hs''⟩
    rw [List.length_append]
    omega

/-- What the sender has done after some steps. -/
structure Went (config : Config) (metadata : Metadata) (header : List UInt8)
    (blocks : List (List UInt8)) (steps : List Step) (s : State Sender) : Prop where
  block0 : metadataBlock metadata = .ok header
  chopped : Chopped metadata.fileSize blocks
  file : s.side.file = blocks.flatten
  spoken : Spoken config steps s.log

theorem Went.done {header : List UInt8} (h : Went config metadata header blocks steps s)
    (hs : Since s (step.Done config) s') :
    Went config metadata header blocks (steps ++ [step]) s' where
  block0 := h.block0
  chopped := h.chopped
  file := by
    obtain ⟨log, hlog, heq, hfile⟩ := hs
    rw [hfile, h.file]
  spoken := h.spoken.since hs

variable [Crc16]

/-- What the sender keeps to at every moment. -/
def Sound (config : Config) (metadata : Metadata) (s : State Sender) : Prop :=
  s.log = [] ∨ ∃ block hblock blocks, metadataBlock metadata = .ok block ∧
    Chopped metadata.fileSize blocks ∧
    blocks.flatten <+: s.side.file ∧
      (blocks.flatten.length = metadata.fileSize → s.side.file = blocks.flatten) ∧
    Keeps config (script (headerItem block hblock) metadata.fileSize blocks) s.log

variable {header : List UInt8} {hheader : header.length = headerBlockSize}

theorem Went.sound (h : Went config metadata header blocks steps s)
    (hsteps : steps <+: script (headerItem header hheader) metadata.fileSize blocks) :
      Sound config metadata s :=
  Or.inr ⟨header, hheader, blocks, h.block0, h.chopped, h.file ▸ List.prefix_refl _, fun _ =>
    h.file, Or.inl ⟨steps, hsteps, h.spoken⟩⟩

theorem Went.begun (h : Went config metadata header blocks steps s)
    (hsteps : steps ++ [step] <+: script (headerItem header hheader) metadata.fileSize blocks)
    (hs : Since s (step.Begun config) s') : Sound config metadata s' := by
  obtain ⟨log, hlog, heq, hfile⟩ := hs
  rw [h.file] at hfile
  exact Or.inr ⟨header, hheader, blocks, h.block0, h.chopped, hfile ▸ List.prefix_refl _, fun _ =>
    hfile, Or.inr ⟨steps, step, s.log, log, hsteps, h.spoken, hlog, heq⟩⟩

theorem script_concat (h : Item) (size : Nat) (blocks : List (List UInt8)) (block : List UInt8) :
    openingSteps h ++ (dataItems 1 blocks).map .packet ++
      [.packet (dataItem (1 + UInt8.ofNat blocks.length) block)] <+:
      script h size (blocks ++ [block]) := by
  unfold script
  rw [dataItems_concat, List.map_append, ← List.append_assoc (openingSteps h)]
  exact List.prefix_append ..

theorem blockPass_spec {x : UInt8 × Nat} (h : Went config metadata header blocks
      (openingSteps (headerItem header hheader) ++ (dataItems 1 blocks).map .packet) s)
    (hnumber : x.1 = 1 + UInt8.ofNat blocks.length) (hsent : x.2 = blocks.flatten.length) :
    Yields (Sound config metadata) (blockPass config metadata.fileSize x : Sending ε σ ο _)
      (Sum.elim (fun _ s' => ∃ blocks, Went config metadata header blocks
          (openingSteps (headerItem header hheader) ++ (dataItems 1 blocks).map .packet) s' ∧
          blocks.flatten.length = metadata.fileSize)
        fun x s' => ∃ blocks, Went config metadata header blocks
          (openingSteps (headerItem header hheader) ++ (dataItems 1 blocks).map .packet) s' ∧
          x.1 = 1 + UInt8.ofNat blocks.length ∧ x.2 = blocks.flatten.length) s := by
  obtain ⟨number, sent⟩ := x
  dsimp only at hnumber hsent
  subst hnumber hsent
  have hbegins : openingSteps (headerItem header hheader) ++ (dataItems 1 blocks).map .packet <+:
      script (headerItem header hheader) metadata.fileSize blocks := List.prefix_append ..
  rw [blockPass]
  split
  · rename_i hmore
    refine (yields_fill fun s' hlog hfile => ?_).bind fun used s1 hs1 => ?_
    · exact Or.inr ⟨header, hheader, blocks, h.block0, h.chopped, h.file ▸ hfile, fun hall =>
        absurd hmore (by omega), Or.inl ⟨_, hbegins, hlog ▸ h.spoken⟩⟩
    obtain ⟨hused, hlog, hfile⟩ := hs1
    have h1 : Went config metadata header (blocks ++ [used])
        (openingSteps (headerItem header hheader) ++ (dataItems 1 blocks).map .packet) s1 :=
      ⟨h.block0, h.chopped.concat hmore
        hused, by rw [hfile, h.file, List.flatten_append, List.flatten_singleton], hlog ▸ h.spoken⟩
    have hstep := script_concat (headerItem header hheader) metadata.fileSize blocks used
    refine (yields_sendPacket (i := dataItem (1 + UInt8.ofNat blocks.length) used) rfl
      fun s' hs' => h1.begun hstep hs').bind fun _ s2 hs2 => ?_
    have h2 := h1.done hs2
    have hsound : ∀ s', Since s1 (Step.Done config
      (.packet (dataItem (1 + UInt8.ofNat blocks.length) used))) s' →
        Sound config metadata s' := fun s' hs' => (h1.done hs').sound hstep
    refine (yields_notify hsound hs2).bind fun _ s3 hs3 =>
      yields_pure ⟨blocks ++ [used], ?_, ?_, ?_⟩
    · have h3 := h1.done hs3
      rw [dataItems_concat, List.map_append, ← List.append_assoc]
      exact h3
    · show 1 + UInt8.ofNat blocks.length + 1 = _
      rw [List.length_append, UInt8.ofNat_add, UInt8.add_assoc]
      rfl
    · rw [List.flatten_append, List.flatten_singleton, List.length_append]
  · rename_i hdone
    exact yields_pure ⟨blocks, h, Nat.le_antisymm h.chopped.length_le (Nat.le_of_not_lt hdone)⟩

theorem finishBatch_spec (h : Went config metadata header blocks steps s)
    (hscript : script (headerItem header hheader) metadata.fileSize blocks =
      steps ++ closingSteps) :
    Yields (Sound config metadata) (finishBatch config metadata : Sending ε σ ο Transfer)
      (fun t s => t.fileSize = metadata.fileSize ∧ Went config metadata header blocks
          (script (headerItem header hheader) metadata.fileSize blocks) s) s := by
  have hbegins : ∀ done step rest, closingSteps = done ++ step :: rest →
      steps ++ done ++ [step] <+: script (headerItem header hheader) metadata.fileSize blocks := by
    rintro done step rest heq
    rw [hscript, heq, List.append_assoc]
    exact (List.prefix_append_right_inj _).mpr
      ((List.prefix_append_right_inj _).mpr (List.prefix_append [step] rest))
  have h0 : Went config metadata header blocks (steps ++ []) s := (List.append_nil steps).symm ▸ h
  unfold finishBatch
  refine (yields_writeControl fun s' hs' => h0.begun (hbegins [] _ _ rfl) hs').bind fun _ s1 hs1 =>
    ?_
  refine (yields_expectControl (fun s' hs' => h0.begun (hbegins [] _ _ rfl) hs') hs1).bind
    fun _ s2 hs2 => ?_
  have h2 := h0.done hs2
  rw [List.append_assoc] at h2
  refine (yields_writeControl fun s' hs' => h2.begun (hbegins _ _ _ rfl) hs').bind fun _ s3 hs3 =>
    ?_
  refine (yields_expectControl (fun s' hs' => h2.begun (hbegins _ _ _ rfl) hs') hs3).bind
    fun _ s4 hs4 => ?_
  have h4 := h2.done hs4
  rw [List.append_assoc] at h4
  refine (yields_waitForCrcRequest fun s' hs' => h4.begun (hbegins _ _ _ rfl) hs').bind
    fun _ s5 hs5 => ?_
  have h5 := h4.done hs5
  rw [List.append_assoc] at h5
  refine (yields_sendPacket (i := trailerItem) rfl fun s' hs' =>
    h5.begun (hbegins _ _ _ rfl) hs').bind
    fun _ s6 hs6 => ?_
  have hlast : ∀ s', Since s5 (Step.Done config (.packet trailerItem)) s' →
    Went config metadata header blocks
      (script (headerItem header hheader) metadata.fileSize blocks) s' := by
    intro s' hs'
    have h6 := h5.done hs'
    rw [List.append_assoc] at h6
    rw [hscript]
    exact h6
  refine (yields_notify (fun s' hs' => (hlast s' hs').sound (List.prefix_refl _)) hs6).bind
    fun _ s7 hs7 => ?_
  exact yields_pure ⟨rfl, hlast s7 hs7⟩

theorem sendWith_spec (config : Config) (metadata : Metadata) :
    Yields (Sound config metadata) (sendWith config metadata : Sending ε σ ο Transfer)
      (fun t s => t.fileSize = metadata.fileSize ∧ ∃ header hheader blocks,
        Went config metadata header blocks
          (script (headerItem header hheader) metadata.fileSize blocks) s ∧
        blocks.flatten.length = metadata.fileSize) ⟨[], ⟨[], []⟩⟩ := by
  have hempty : ∀ s', Since ⟨[], ⟨[], []⟩⟩ (fun log => log = []) s' → Sound config metadata s' := by
    rintro s' ⟨log, rfl, heq, -⟩
    exact Or.inl heq
  have hstart : Since ⟨[], ⟨[], []⟩⟩ (fun log => log = []) ⟨[], ⟨[], []⟩⟩ := since_start rfl
  unfold sendWith
  split
  · exact yields_throw (Or.inl rfl)
  · exact yields_throw (Or.inl rfl)
  rename_i header hblock0
  have hheader := length_metadataBlock hblock0
  refine (yields_notify hempty hstart).bind fun _ s1 hs1 => ?_
  have h1 : Went config metadata header [] [] s1 := by
    obtain ⟨log, rfl, heq, hfile⟩ := hs1
    exact ⟨hblock0, .nil, hfile, by rw [heq]; exact .nil⟩
  have hopening : openingSteps (headerItem header hheader) <+:
      script (headerItem header hheader) metadata.fileSize [] := by
    unfold script
    rw [List.append_assoc]
    exact List.prefix_append ..
  refine (yields_waitForCrcRequest fun s' hs' =>
    h1.begun (List.IsPrefix.trans ?_ hopening) hs').bind fun _ s2 hs2 => ?_
  · exact List.prefix_append [Step.request] [.packet (headerItem header hheader), .request]
  have h2 := h1.done hs2
  refine (yields_sendPacket (i := headerItem header hheader) rfl
    fun s' hs' => h2.begun (List.IsPrefix.trans ?_ hopening) hs').bind fun _ s3 hs3 => ?_
  · exact List.prefix_append [Step.request, .packet (headerItem header hheader)] [.request]
  have h3 := h2.done hs3
  refine (yields_waitForCrcRequest fun s' hs' => h3.begun hopening hs').bind fun _ s4 hs4 => ?_
  have h4 := h3.done hs4
  refine (yields_loop (I := fun x s => ∃ blocks, Went config metadata header blocks
      (openingSteps (headerItem header hheader) ++ (dataItems 1 blocks).map .packet) s ∧
      x.1 = 1 + UInt8.ofNat blocks.length ∧ x.2 = blocks.flatten.length)
    (Q := fun _ s => ∃ blocks, Went config metadata header blocks
      (openingSteps (headerItem header hheader) ++ (dataItems 1 blocks).map .packet) s ∧
      blocks.flatten.length = metadata.fileSize) (fun x s h => ?_) (fun x s h => ?_)
    ⟨[], (List.append_nil _).symm ▸ h4, rfl, rfl⟩).bind fun _ s5 hs5 => ?_
  · obtain ⟨blocks, h, -⟩ := h
    have hbegins : openingSteps (headerItem header hheader) ++ (dataItems 1 blocks).map .packet <+:
        script (headerItem header hheader) metadata.fileSize blocks := List.prefix_append ..
    exact h.sound hbegins
  · obtain ⟨blocks, h, hnumber, hsent⟩ := h
    exact blockPass_spec h hnumber hsent
  obtain ⟨blocks, h5, hall⟩ := hs5
  -- What is left to do is known now.
  have hscript : script (headerItem header hheader) metadata.fileSize blocks =
      openingSteps (headerItem header hheader) ++ (dataItems 1 blocks).map .packet ++
        closingSteps := by
    rw [script, if_pos hall]
  refine (finishBatch_spec h5 hscript).mono fun t s6 h6 => ?_
  exact ⟨h6.1, header, hheader, blocks, h6.2, hall⟩

theorem sending_spec (config : Config) (metadata : Metadata)
    (answers : List (Answer ε (Outside σ ο))) :
    (∀ t, (sending config metadata answers).1 = some (.ok t) → t.fileSize = metadata.fileSize ∧
      ∃ header hheader blocks, Went config metadata header blocks
        (script (headerItem header hheader) metadata.fileSize blocks)
        (sending config metadata answers).2 ∧ blocks.flatten.length = metadata.fileSize) ∧
    Sound config metadata (sending config metadata answers).2 := by
  obtain ⟨hdone, hrest⟩ := Yields.exec (sendWith_spec config metadata) answers
  refine ⟨hdone, ?_⟩
  by_cases h : ∃ t, (sending config metadata answers).1 = some (.ok t)
  · obtain ⟨t, ht⟩ := h
    obtain ⟨-, header, hheader, blocks, hwent, -⟩ := hdone t ht
    exact hwent.sound (List.prefix_refl _)
  · exact hrest fun t ht => h ⟨t, ht⟩

/-- Whatever the other side answers: the sender keeps to the conversation about its file. No packet
is sent before the one before it is acknowledged, none more often than the retries allow, and the
blocks are those of the file; where the sender succeeds, the whole conversation was held. -/
theorem send_conversation (config : Config) (metadata : Metadata)
    (answers : List (Answer ε (Outside σ ο))) : ((sending config metadata answers).2.log = [] ∨
      ∃ header hheader blocks, metadataBlock metadata = .ok header ∧
      Chopped metadata.fileSize blocks ∧ blocks.flatten <+:
        (sending config metadata answers).2.side.file ∧
      Keeps config (script (headerItem header hheader) metadata.fileSize blocks)
        (sending config metadata answers).2.log) ∧
    ∀ t, (sending config metadata answers).1 = some (.ok t) → t.fileSize = metadata.fileSize ∧
      ∃ header hheader blocks, metadataBlock metadata = .ok header ∧
        Chopped metadata.fileSize blocks ∧ blocks.flatten.length = metadata.fileSize ∧
          (sending config metadata answers).2.side.file = blocks.flatten ∧
        Spoken config (script (headerItem header hheader) metadata.fileSize blocks)
          (sending config metadata answers).2.log := by
  obtain ⟨hdone, hsound⟩ := sending_spec config metadata answers
  refine ⟨hsound.imp_right ?_, fun t ht => ?_⟩
  · rintro ⟨header, hheader, blocks, hblock0, hchopped, hfile, -, hkeeps⟩
    exact ⟨header, hheader, blocks, hblock0, hchopped, hfile, hkeeps⟩
  · obtain ⟨hsize, header, hheader, blocks, hwent, hall⟩ := hdone t ht
    exact ⟨hsize, header, hheader, blocks, hwent.block0, hwent.chopped, hall, hwent.file,
      hwent.spoken⟩

end

end Microtun.Ymodem
