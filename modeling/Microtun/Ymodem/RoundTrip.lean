import Microtun.Ymodem.Receive
import Microtun.Ymodem.Send

/-! A file from the sender of YMODEM-1K to the receiver, over a line with noise. -/

namespace Microtun.Ymodem

open Awaiting

variable {μ : Type}

/-! ### What the sender says -/

/-- What a step says, as often as it is repeated. -/
def Step.items : Step → List Item
  | .request => []
  | .packet i => [i]
  | .eot _ => [Item.eot]

/-- Items that are each repeated some times. -/
inductive Copied : List Item → List Item → Prop where
  | nil : Copied [] []
  | concat {items copies : List Item} (h : Copied items copies) (i : Item) (n : Nat) :
      Copied (items ++ [i]) (copies ++ List.replicate (n + 1) i)

section

variable {config : Config} {i : Item} {items copies steps' : List Item} {steps : List Step}
  {step : Step} {log : List Mark} {n : Nat}

/-- The bytes that were said. -/
def saidOf (log : List Mark) : List UInt8 := log.filterMap Mark.said?

theorem saidOf_append (l l' : List Mark) : saidOf (l ++ l') = saidOf l ++ saidOf l' :=
    List.filterMap_append

theorem saidOf_said (bytes : List UInt8) : saidOf (bytes.map .said) = bytes := by
  simp [saidOf, List.filterMap_map, Function.comp_def, Mark.said?]

theorem saidOf_heard (bytes : List UInt8) : saidOf (bytes.map .heard) = [] := by
  simp [saidOf, List.filterMap_map, Function.comp_def, Mark.said?]

theorem Failed.said (h : Failed i n log) : saidOf log = bytesOf (List.replicate n i) := by
  induction h with
  | nil => rfl
  | concat h reply hreply ih =>
    have hsilent : saidOf reply = [] := by
      rcases hreply with rfl | rfl
      · rfl
      · rfl
    rw [saidOf_append, saidOf_append, saidOf_said, hsilent, List.append_nil, ih,
      List.replicate_succ', bytesOf_concat]

theorem Step.Done.said (h : step.Done config log) (hcopied : Copied items copies) :
    ∃ more, Copied (items ++ step.items) (copies ++ more) ∧ saidOf log = bytesOf more := by
  cases step with
  | request =>
    obtain ⟨others, -, rfl⟩ := h
    refine ⟨[], by simpa [Step.items] using hcopied, ?_⟩
    rw [saidOf_append, saidOf_heard]
    rfl
  | packet i =>
    obtain ⟨n, log', -, hfailed, rfl⟩ := h
    refine ⟨_, hcopied.concat i n, ?_⟩
    rw [saidOf_append, saidOf_append, saidOf_said, hfailed.said, List.replicate_succ',
      bytesOf_concat]
    exact congrArg _ (List.append_nil _)
  | eot reply =>
    cases h
    exact ⟨_, hcopied.concat Item.eot 0, rfl⟩

theorem Step.Begun.said (h : step.Begun config log) (hcopied : Copied items copies) :
    ∃ more, Copied (items ++ step.items) (copies ++ more) ∧ saidOf log <+: bytesOf more := by
  cases step with
  | request =>
    obtain ⟨others, -, rfl⟩ := h
    refine ⟨[], by simpa [Step.items] using hcopied, ?_⟩
    rw [saidOf_heard]
    exact List.nil_prefix
  | packet i =>
    obtain ⟨n, log', part, reply, -, hfailed, hpart, hreply, rfl⟩ := h
    refine ⟨_, hcopied.concat i n, ?_⟩
    have hsilent : saidOf reply = [] := by
      rcases hreply with rfl | ⟨-, b, -, rfl⟩
      · rfl
      · rfl
    rw [saidOf_append, saidOf_append, saidOf_said, hsilent, List.append_nil, hfailed.said,
      List.replicate_succ', bytesOf_concat]
    exact (List.prefix_append_right_inj _).mpr hpart
  | eot reply =>
    refine ⟨_, hcopied.concat Item.eot 0, ?_⟩
    rcases h with rfl | rfl | ⟨b, -, rfl⟩
    · exact List.nil_prefix
    · exact List.prefix_refl _
    · exact List.prefix_refl _

theorem Spoken.said (h : Spoken config steps log) :
    ∃ copies, Copied (steps.flatMap Step.items) copies ∧ saidOf log = bytesOf copies := by
  induction h with
  | nil => exact ⟨[], .nil, rfl⟩
  | @concat steps step log part h hpart ih =>
    obtain ⟨copies, hcopied, hsaid⟩ := ih
    obtain ⟨more, hmore, hsaid'⟩ := hpart.said hcopied
    refine ⟨copies ++ more, ?_, ?_⟩
    · rw [List.flatMap_append, List.flatMap_singleton]
      exact hmore
    · rw [saidOf_append, hsaid, hsaid', bytesOf_append]

theorem Keeps.said {script : List Step} (h : Keeps config script log) :
    ∃ items copies, items <+: script.flatMap Step.items ∧ Copied items copies ∧
      saidOf log <+: bytesOf copies := by
  rcases h with ⟨steps, hsteps, hspoken⟩ | ⟨steps, step, before, part, hsteps, hspoken, hbegun, rfl⟩
  · obtain ⟨copies, hcopied, hsaid⟩ := hspoken.said
    exact ⟨_, copies, hsteps.flatMap _, hcopied, hsaid ▸ List.prefix_refl _⟩
  · obtain ⟨copies, hcopied, hsaid⟩ := hspoken.said
    obtain ⟨more, hmore, hpart⟩ := hbegun.said hcopied
    refine ⟨_, copies ++ more, ?_, hmore, ?_⟩
    · have hall := hsteps.flatMap Step.items
      rwa [List.flatMap_append, List.flatMap_singleton] at hall
    · rw [saidOf_append, hsaid, bytesOf_append]
      exact (List.prefix_append_right_inj _).mpr hpart

theorem Copied.of_concat {front : List Item} (h : Copied (items ++ [i]) front) :
    ∃ front' n, Copied items front' ∧ front = front' ++ List.replicate (n + 1) i := by
  generalize hl : items ++ [i] = l at h
  cases h with
  | nil => exact absurd hl (List.concat_ne_nil _ _)
  | concat h i' n =>
    obtain ⟨rfl, hi⟩ := List.append_inj' hl rfl
    cases hi
    exact ⟨_, n, h, rfl⟩

theorem Copied.mem (h : Copied items copies) (hi : i ∈ copies) : i ∈ items := by
  induction h with
  | nil => cases hi
  | concat h i' n ih =>
    rcases List.mem_append.mp hi with hi | hi
    · exact List.mem_append_left _ (ih hi)
    · obtain rfl := List.eq_of_mem_replicate hi
      exact List.mem_append_right _ (List.mem_singleton_self _)

theorem Copied.of_prefix (h : Copied items copies) {front : List Item} (hfront : front <+: copies) :
    ∃ items', items' <+: items ∧ Copied items' front := by
  induction h with
  | nil =>
    cases List.prefix_nil.mp hfront
    exact ⟨[], List.prefix_refl _, .nil⟩
  | @concat items copies h i n ih =>
    rcases Nat.lt_or_ge copies.length front.length with hlong | hshort
    · obtain ⟨rest, hrest⟩ :=
        List.prefix_of_prefix_length_le (List.prefix_append ..) hfront (Nat.le_of_lt hlong)
      subst hrest
      have hlen := List.length_append ▸ hlong
      have hpart := (List.prefix_append_right_inj _).mp hfront
      obtain ⟨m, hm⟩ : ∃ m, rest.length = m + 1 := ⟨rest.length - 1, by omega⟩
      have heq : rest = List.replicate (m + 1) i :=
        List.eq_replicate_iff.mpr ⟨hm, fun b hb => List.eq_of_mem_replicate (hpart.subset hb)⟩
      exact ⟨items ++ [i], List.prefix_refl _, heq ▸ h.concat i m⟩
    · obtain ⟨items', hitems, hcopied⟩ :=
        ih (List.prefix_of_prefix_length_le hfront (List.prefix_append ..) hshort)
      exact ⟨items', hitems.trans (List.prefix_append ..), hcopied⟩

end

/-! ### The line -/

/-- What becomes of an item: its control byte arrives, and noise may change the frame. -/
def Passes (i j : Item) : Prop := j.control = i.control ∧
    (j.frame = i.frame ∨ Damaged i.frame j.frame)

/-- What is heard of what was said: item by item, up to any moment. -/
inductive Relayed : List UInt8 → List UInt8 → Prop where
  | cut (said : List UInt8) : Relayed said []
  | within {control : UInt8} {said heard : List UInt8} (h : heard.length < frameLength control) :
      Relayed (control :: said) (control :: heard)
  | item {i j : Item} {said heard : List UInt8} (hitem : Passes i j) (rest : Relayed said heard) :
      Relayed (i.bytes ++ said) (j.bytes ++ heard)

theorem relayed_of_passes {items items' : List Item} (h : List.Forall₂ Passes items items') :
    Relayed (bytesOf items) (bytesOf items') := by
  induction h with
  | nil => exact .cut []
  | cons hitem h ih => exact .item hitem ih

section

variable {said heard tail : List UInt8} {sent items : List Item}

/-- The items that are heard are the first of those that were sent. -/
theorem Relayed.passes (h : Relayed said heard) (hsaid : said <+: bytesOf sent)
    (hheard : heard = bytesOf items ++ tail) :
    ∃ front, front <+: sent ∧ List.Forall₂ (fun j i => Passes i j) items front := by
  induction items generalizing said heard sent with
  | nil => exact ⟨[], List.nil_prefix, .nil⟩
  | cons j items ih =>
    rw [bytesOf_cons, List.append_assoc] at hheard
    cases h with
    | cut => cases hheard
    | within hshort =>
      have hrest : _ = j.frame ++ (bytesOf items ++ tail) := (List.cons.inj hheard).2
      have hlen := congrArg List.length hrest
      rw [List.length_append, j.length_frame, ← (List.cons.inj hheard).1] at hlen
      omega
    | item hitem rest =>
      obtain ⟨rfl, rfl⟩ := Item.bytes_append_inj hheard
      cases sent with
      | nil =>
        have hnone := List.prefix_nil.mp hsaid
        cases hnone
      | cons i' sent =>
        obtain ⟨more, hmore⟩ := hsaid
        rw [bytesOf_cons, List.append_assoc] at hmore
        obtain ⟨rfl, hsaid'⟩ := Item.bytes_append_inj hmore
        obtain ⟨front, hfront, hpasses⟩ := ih rest ⟨more, hsaid'⟩ rfl
        exact ⟨_ :: front, List.cons_prefix_cons.mpr ⟨rfl, hfront⟩, .cons hitem hpasses⟩

end

section

variable [Crc16]

/-- What the receiver makes of an item of the sender: the same block, or none. -/
def Arrives (i j : Item) : Prop := j.control = i.control ∧ (j.block? = i.block? ∨ j.block? = none)

theorem Passes.arrives (hcrc : Xmodem) {i j : Item} (h : Passes i j)
    (hvalid : i.block? ≠ none ∨ i = Item.eot) : Arrives i j := by
  obtain ⟨hcontrol, hframe⟩ := h
  refine ⟨hcontrol, ?_⟩
  by_cases hsame : j.frame = i.frame
  · left
    rw [Item.block?, Item.block?, hcontrol, hsame]
  right
  have hdamaged := hframe.resolve_left hsame
  unfold Item.block? at hvalid ⊢
  have hlen := i.length_frame
  have hlen' := j.length_frame
  rw [hcontrol] at hlen' ⊢
  cases hsize : blockSize i.control with
  | none => rfl
  | some size =>
    rw [frameLength, hsize] at hlen hlen'
    have hgood : validFrame i.frame size = true := by
      by_contra hbad
      rcases hvalid with hvalid | rfl
      · rw [hsize] at hvalid
        exact hvalid (if_neg hbad)
      · cases hsize
    refine if_neg ?_
    rw [damaged_invalid hcrc hlen hlen' hgood (fun heq => hsame heq.symm) hdamaged]
    exact Bool.false_ne_true

theorem block?_frameOf {control number : UInt8} {data : List UInt8}
    (h : blockSize control = some data.length) :
    (Item.framed h (length_frameOf number data)).block? = some (number, data) := by
  rw [Item.block?_framed, if_pos (validFrame_frameOf number data)]
  refine congrArg some (Prod.ext rfl ?_)
  exact List.take_left

theorem block?_headerItem {header : List UInt8} (hheader : header.length = headerBlockSize) :
    (headerItem header hheader).block? = some (0, header) :=
  block?_frameOf (show blockSize soh = some header.length by rw [hheader]; rfl)

theorem block?_dataItem (number : UInt8) (block : List UInt8) :
    (dataItem number block).block? = some (number, paddedBlock block) :=
  block?_frameOf (show blockSize stx =
    some (paddedBlock block).length by rw [length_paddedBlock]; rfl)

end

/-! ### The receiver never gets ahead of the sender -/

theorem toNat_number (a : Nat) : (1 + UInt8.ofNat a).toNat = (1 + a) % 256 := by
  rw [UInt8.toNat_add, UInt8.toNat_ofNat']
  show (1 + a % 256) % 256 = _
  omega

theorem number_eq {a b : Nat} (h : 1 + UInt8.ofNat a = 1 + UInt8.ofNat b) : a % 256 = b % 256 := by
  have hnat := congrArg UInt8.toNat h
  rw [toNat_number, toNat_number] at hnat
  omega

theorem number_before {a b : Nat} (h : 1 + UInt8.ofNat a = 1 + UInt8.ofNat b - 1) :
    (1 + a) % 256 = b % 256 := by
  rw [UInt8.add_comm 1 (UInt8.ofNat b), UInt8.add_sub_cancel] at h
  have hnat := congrArg UInt8.toNat h
  rwa [toNat_number, UInt8.toNat_ofNat'] at hnat

theorem number_zero {a : Nat} (h : 1 + UInt8.ofNat a = 0) : (1 + a) % 256 = 0 := by
  have hnat := congrArg UInt8.toNat h
  rwa [toNat_number] at hnat

/-- While the blocks come: every block that the receiver has missed has cost it a retry, the last
one perhaps not yet. -/
def Early (config : Config) (size : Nat) (blocks : List (List UInt8)) (slack : Nat) : Stage → Prop
  | .header retries => retries ≤ config.maxRetries ∧ blocks.length + 1 ≤ retries.toNat + slack
  | .data size' out expected retries => size' = size ∧ retries ≤ config.maxRetries ∧ ∃ accepted,
    accepted ≤ blocks.length ∧ out = (blocks.take accepted).flatten ∧
      expected = 1 + UInt8.ofNat accepted ∧
    blocks.length ≤ accepted + retries.toNat + slack
  | .stopped out => out <+: blocks.flatten
  | _ => False

/-- After the blocks: the receiver has all of them, or has stopped, or has not begun. -/
def Late (size : Nat) (blocks : List (List UInt8)) : Stage → Prop
  | .header _ => True
  | .ended size' out => size' = size ∧ out = blocks.flatten
  | .closing size' out _ => size' = size ∧ out = blocks.flatten
  | .done size' out => size' = size ∧ out = blocks.flatten
  | .stopped out => out <+: blocks.flatten
  | .data .. => False

theorem prefix_append_cases {α : Type} {l l1 l2 : List α} (h : l <+: l1 ++ l2) :
    l <+: l1 ∨ ∃ rest, rest ≠ [] ∧ rest <+: l2 ∧ l = l1 ++ rest := by
  rcases Nat.lt_or_ge l1.length l.length with hlong | hshort
  · obtain ⟨rest, rfl⟩ :=
      List.prefix_of_prefix_length_le (List.prefix_append ..) h (Nat.le_of_lt hlong)
    refine Or.inr ⟨rest, ?_, (List.prefix_append_right_inj _).mp h, rfl⟩
    rintro rfl
    rw [List.append_nil] at hlong
    exact Nat.lt_irrefl _ hlong
  · exact Or.inl (List.prefix_of_prefix_length_le h (List.prefix_append ..) hshort)

section

variable {config : Config} {usizeMax size n : Nat} {onMetadata : Metadata → Except μ Unit}
  {blocks : List (List UInt8)} {block out header : List UInt8} {i j : Item} {stage : Stage}
  {retries : UInt8} {metadata : Metadata}

theorem reject_spec (hmax : config.maxRetries < 255) (next : UInt8 → Stage) :
    Stage.reject config out retries next = .stopped out ∨
      ∃ r : UInt8, r ≤ config.maxRetries ∧ r.toNat = retries.toNat + 1 ∧
        Stage.reject config out retries next = next r := by
  unfold Stage.reject
  split
  · exact Or.inl rfl
  · rename_i hmore
    have hle : saturatingSucc retries ≤ config.maxRetries := UInt8.not_lt.mp hmore
    refine Or.inr ⟨_, hle, ?_, rfl⟩
    unfold saturatingSucc at hle ⊢
    split at hle
    · exact absurd (UInt8.lt_of_le_of_lt hle hmax) (by decide)
    · rename_i hlast
      rw [if_neg hlast, UInt8.toNat_add]
      have hlt := retries.toNat_lt
      have hne : retries.toNat ≠ 255 := fun h => hlast (UInt8.toNat_inj.mp h)
      exact Nat.mod_eq_of_lt (by simp; omega)

theorem early_reject_header (hmax : config.maxRetries < 255)
    (h : blocks.length + 1 ≤ retries.toNat + 1) :
    Early config size blocks 0 (Stage.reject config [] retries Stage.header) := by
  rcases reject_spec hmax Stage.header with hstop | ⟨r, hle, hr, hnext⟩
  · rw [hstop]
    exact List.nil_prefix
  · rw [hnext]
    exact ⟨hle, by omega⟩

theorem early_reject_data (hmax : config.maxRetries < 255) {accepted : Nat}
    (hle : accepted ≤ blocks.length) (h : blocks.length ≤ accepted + retries.toNat + 1) :
    Early config size blocks 0 (Stage.reject config (blocks.take accepted).flatten retries
      (Stage.data size (blocks.take accepted).flatten (1 + UInt8.ofNat accepted))) := by
  rcases reject_spec hmax
    (Stage.data size (blocks.take accepted).flatten (1 + UInt8.ofNat accepted)) with
    hstop | ⟨r, hler, hr, hnext⟩
  · rw [hstop]
    exact (List.take_prefix accepted blocks).flatten
  · rw [hnext]
    exact ⟨rfl, hler, accepted, hle, rfl, rfl, by omega⟩

theorem Early.outputs {slack : Nat} (h : Early config size blocks slack stage) {file : List UInt8}
    (hfile : blocks.flatten <+: file) {P : Nat → List UInt8 → Prop} :
    stage.output <+: file ∧ ∀ size out, stage = .done size out → P size out := by
  cases stage with
  | header retries => exact ⟨List.nil_prefix, fun _ _ hdone => by cases hdone⟩
  | data size' out expected retries =>
    obtain ⟨-, -, accepted, -, rfl, -⟩ := h
    exact ⟨(List.take_prefix accepted blocks).flatten.trans hfile, fun _ _ hdone => by cases hdone⟩
  | stopped out => exact ⟨List.IsPrefix.trans h hfile, fun _ _ hdone => by cases hdone⟩
  | ended => cases h
  | closing => cases h
  | done => cases h

theorem Late.output (h : Late size blocks stage) : stage.output <+: blocks.flatten := by
  cases stage with
  | header retries => exact List.nil_prefix
  | data => cases h
  | ended size' out => exact h.2 ▸ List.prefix_refl _
  | closing size' out retries => exact h.2 ▸ List.prefix_refl _
  | done size' out => exact h.2 ▸ List.prefix_refl _
  | stopped out => exact h

theorem late_reject {next : UInt8 → Stage} (hout : out <+: blocks.flatten)
    (hnext : ∀ r, Late size blocks (next r)) :
    Late size blocks (Stage.reject config out retries next) := by
  unfold Stage.reject
  split
  · exact hout
  · exact hnext _

theorem early_next (h : Early config size blocks 0 stage) :
    Early config size (blocks ++ [block]) 1 stage := by
  cases stage with
  | header retries =>
    obtain ⟨hle, hcount⟩ := h
    exact ⟨hle, by rw [List.length_append, List.length_singleton]; omega⟩
  | data size' out expected retries =>
    obtain ⟨rfl, hle, accepted, hacc, rfl, rfl, hcount⟩ := h
    refine ⟨rfl, hle, accepted, ?_, by rw [List.take_append_of_le_length hacc], rfl, ?_⟩
    · rw [List.length_append]
      omega
    · rw [List.length_append, List.length_singleton]
      omega
  | stopped out =>
    refine List.IsPrefix.trans h ?_
    rw [List.flatten_append]
    exact List.prefix_append ..
  | ended => cases h
  | closing => cases h
  | done => cases h

theorem early_again (h : Early config size blocks 0 stage) : Early config size blocks 1 stage := by
  cases stage with
  | header retries => exact ⟨h.1, Nat.le_succ_of_le h.2⟩
  | data size' out expected retries =>
    obtain ⟨hsize, hle, accepted, hacc, hout, hexpected, hcount⟩ := h
    exact ⟨hsize, hle, accepted, hacc, hout, hexpected, Nat.le_succ_of_le hcount⟩
  | stopped out => exact h
  | ended => cases h
  | closing => cases h
  | done => cases h

variable [Crc16]

/-- Block 0 arrives. -/
theorem early_header (hmax : config.maxRetries < 255) (hheader : header.length = headerBlockSize)
    (hmeta : ∀ m, parseMetadata usizeMax header = some m → m = metadata)
    (h : Early config metadata.fileSize [] 1 stage) (hj : Arrives (headerItem header hheader) j) :
    Early config metadata.fileSize [] 0 (stage.step config usizeMax onMetadata j) := by
  obtain ⟨hcontrol, hblock⟩ := hj
  rw [block?_headerItem hheader] at hblock
  have hcan : j.control ≠ can := by
    rw [hcontrol]
    show soh ≠ can
    decide
  have heot : j.control ≠ eot := by
    rw [hcontrol]
    show soh ≠ eot
    decide
  cases stage with
  | header retries =>
    rw [Stage.step]
    rcases hblock with hblock | hblock
    · rw [Stage.stepHeader_some hcan hblock, if_neg (not_not.mpr rfl)]
      cases hparse : parseMetadata usizeMax header with
      | none => exact List.nil_prefix
      | some m =>
        obtain rfl := hmeta m hparse
        dsimp only
        cases onMetadata m with
        | error e => exact List.nil_prefix
        | ok => exact ⟨rfl, UInt8.zero_le, 0, Nat.le_refl 0, rfl, rfl, Nat.zero_le _⟩
    · rw [Stage.stepHeader_none hcan hblock]
      exact early_reject_header hmax (Nat.le_add_left ..)
  | data size' out expected retries =>
    obtain ⟨rfl, hle, accepted, hacc, rfl, rfl, hcount⟩ := h
    obtain rfl := Nat.le_zero.mp hacc
    rw [Stage.step]
    rcases hblock with hblock | hblock
    · rw [Stage.stepData_some hcan heot hblock, if_neg (by decide), if_pos (by decide)]
      exact ⟨rfl, hle, 0, hacc, rfl, rfl, Nat.zero_le _⟩
    · rw [Stage.stepData_none hcan heot hblock]
      exact early_reject_data hmax hacc hcount
  | stopped out => exact h
  | ended => cases h
  | closing => cases h
  | done => cases h

theorem early_block (hmax : config.maxRetries < 255) (hchopped : Chopped size (blocks ++ [block]))
    (h : Early config size (blocks ++ [block]) 1 stage)
    (hj : Arrives (dataItem (1 + UInt8.ofNat blocks.length) block) j) :
    Early config size (blocks ++ [block]) 0 (stage.step config usizeMax onMetadata j) := by
  obtain ⟨hcontrol, hblock⟩ := hj
  rw [block?_dataItem] at hblock
  have hcan : j.control ≠ can := by
    rw [hcontrol]
    show stx ≠ can
    decide
  have heot : j.control ≠ eot := by
    rw [hcontrol]
    show stx ≠ eot
    decide
  have hmax' : config.maxRetries.toNat < 255 := hmax
  cases stage with
  | header retries =>
    obtain ⟨hle, hcount⟩ := h
    have hle' : retries.toNat ≤ config.maxRetries.toNat := hle
    rw [Stage.step]
    rcases hblock with hblock | hblock
    · rw [Stage.stepHeader_some hcan hblock]
      split
      · exact early_reject_header hmax hcount
      · -- 256 blocks would have been missed.
        rename_i hnumber
        have hzero := number_zero (not_not.mp hnumber)
        rw [List.length_append, List.length_singleton] at hcount
        omega
    · rw [Stage.stepHeader_none hcan hblock]
      exact early_reject_header hmax hcount
  | data size' out expected retries =>
    obtain ⟨rfl, hle, accepted, hacc, rfl, rfl, hcount⟩ := h
    have hle' : retries.toNat ≤ config.maxRetries.toNat := hle
    have hlen : (blocks ++ [block]).length = blocks.length + 1 := List.length_append ..
    rw [Stage.step]
    rcases hblock with hblock | hblock
    · rw [Stage.stepData_some hcan heot hblock]
      split
      · rename_i hnumber
        have hmod := number_eq hnumber
        obtain rfl : accepted = blocks.length := by omega
        obtain ⟨-, hmore, hblocklen⟩ := hchopped.of_concat
        rw [List.take_left, if_neg (Nat.not_le_of_lt hmore)]
        have htake : (paddedBlock block).take (size' - blocks.flatten.length) = block := by
          rw [paddedBlock, List.take_take, ← hblocklen, List.take_left]
        rw [htake]
        refine ⟨rfl, UInt8.zero_le, blocks.length + 1, Nat.le_of_eq hlen.symm, ?_, ?_, by omega⟩
        · rw [← hlen, List.take_length, List.flatten_append, List.flatten_singleton]
        · rw [UInt8.ofNat_add, UInt8.add_assoc]
          rfl
      · split
        · rename_i hnumber
          have hmod := number_before hnumber
          exact ⟨rfl, hle, accepted, hacc, rfl, rfl, by omega⟩
        · exact early_reject_data hmax hacc hcount
    · rw [Stage.stepData_none hcan heot hblock]
      exact early_reject_data hmax hacc hcount
  | stopped out => exact h
  | ended => cases h
  | closing => cases h
  | done => cases h

theorem late_eot (hall : blocks.flatten.length = size)
    (h : Early config size blocks 0 stage ∨ Late size blocks stage) (hj : Arrives Item.eot j) :
    Late size blocks (stage.step config usizeMax onMetadata j) := by
  have heot : j.control = eot := hj.1
  have hcan : j.control ≠ can := by
    rw [heot]
    decide
  have hblock : j.block? = none := by
    rw [Item.eq_alone rfl heot]
    exact Item.block?_alone rfl
  cases stage with
  | header retries =>
    rw [Stage.step, Stage.stepHeader_none hcan hblock]
    exact late_reject List.nil_prefix fun _ => trivial
  | data size' out expected retries =>
    obtain ⟨rfl, -, accepted, -, rfl, -, -⟩ := h.resolve_right id
    have hout : (blocks.take accepted).flatten <+: blocks.flatten :=
      (List.take_prefix accepted blocks).flatten
    rw [Stage.step, Stage.stepData, if_neg hcan, if_pos heot]
    split
    · exact hout
    · rename_i hlen
      exact ⟨rfl, hout.eq_of_length ((not_not.mp hlen).trans hall.symm)⟩
  | ended size' out =>
    obtain ⟨rfl, rfl⟩ := h.resolve_left id
    rw [Stage.step, if_pos heot]
    exact ⟨rfl, rfl⟩
  | closing size' out retries =>
    obtain ⟨rfl, rfl⟩ := h.resolve_left id
    rw [Stage.step, Stage.stepClosing_none hcan hblock]
    exact late_reject (List.prefix_refl _) fun _ => ⟨rfl, rfl⟩
  | done size' out =>
    obtain ⟨rfl, rfl⟩ := h.resolve_left id
    exact List.prefix_refl _
  | stopped out => exact h.elim id id

theorem late_trailer (h : Late size blocks stage) (hj : Arrives trailerItem j) :
    Late size blocks (stage.step config usizeMax onMetadata j) := by
  obtain ⟨hcontrol, hblock⟩ := hj
  rw [trailerItem, block?_headerItem] at hblock
  have hcan : j.control ≠ can := by
    rw [hcontrol]
    show soh ≠ can
    decide
  have hempty : parseMetadata usizeMax (List.replicate headerBlockSize 0) = none := rfl
  cases stage with
  | header retries =>
    rw [Stage.step]
    rcases hblock with hblock | hblock
    · rw [Stage.stepHeader_some hcan hblock, if_neg (not_not.mpr rfl), hempty]
      exact List.nil_prefix
    · rw [Stage.stepHeader_none hcan hblock]
      exact late_reject List.nil_prefix fun _ => trivial
  | data => cases h
  | ended size' out =>
    obtain ⟨rfl, rfl⟩ := h
    rw [Stage.step, if_neg (by rw [hcontrol]; show soh ≠ eot; decide)]
    exact List.prefix_refl _
  | closing size' out retries =>
    obtain ⟨rfl, rfl⟩ := h
    rw [Stage.step]
    rcases hblock with hblock | hblock
    · rw [Stage.stepClosing_some hcan hblock]
      split
      · exact ⟨rfl, rfl⟩
      · exact late_reject (List.prefix_refl _) fun _ => ⟨rfl, rfl⟩
    · rw [Stage.stepClosing_none hcan hblock]
      exact late_reject (List.prefix_refl _) fun _ => ⟨rfl, rfl⟩
  | done size' out =>
    obtain ⟨rfl, rfl⟩ := h
    exact List.prefix_refl _
  | stopped out => exact h

/-! ### From item to item -/

/-- Every copy of an item, and there is one. -/
theorem run_copies {P P' : Stage → Prop} (hstep : ∀ stage j, P stage → Arrives i j →
    P' (stage.step config usizeMax onMetadata j)) (hagain : ∀ stage, P' stage → P stage)
      {js : List Item}
    (h : List.Forall₂ (fun j i => Arrives i j) js (List.replicate (n + 1) i)) (hstage : P stage) :
    P' (js.foldl (Stage.step config usizeMax onMetadata) stage) := by
  induction n generalizing js stage with
  | zero =>
    cases h with
    | cons hj hrest =>
      cases hrest
      exact hstep stage _ hstage hj
  | succ n ih =>
    cases h with
    | cons hj hrest =>
      have hrun := ih hrest (hagain _ (hstep stage _ hstage hj))
      exact hrun

/-- The items of the sender so far have led the receiver to stages in `P`. -/
def Leads (config : Config) (usizeMax : Nat) (onMetadata : Metadata → Except μ Unit)
    (P : Stage → Prop) (sent : List Item) : Prop :=
  ∀ front items, Copied sent front → List.Forall₂ (fun j i => Arrives i j) items front →
    P (Stage.after config usizeMax onMetadata items)

theorem Leads.concat {P P' P'' : Stage → Prop} {sent : List Item}
    (h : Leads config usizeMax onMetadata P sent) (hfirst : ∀ stage, P stage → P' stage)
    (hstep : ∀ stage j, P' stage → Arrives i j → P'' (stage.step config usizeMax onMetadata j))
    (hagain : ∀ stage, P'' stage → P' stage) : Leads config usizeMax onMetadata P''
    (sent ++ [i]) := by
  intro front items hcopied harrives
  obtain ⟨front', n, hcopied', rfl⟩ := hcopied.of_concat
  have htake := List.forall₂_take_append items front' _ harrives
  have hdrop := List.forall₂_drop_append items front' _ harrives
  have hrun := run_copies hstep hagain hdrop (hfirst _ (h front' _ hcopied' htake))
  rw [Stage.after, ← List.foldl_append, List.take_append_drop] at hrun
  exact hrun

theorem leads_nothing : Leads config usizeMax onMetadata (Early config size [] 1) [] := by
  intro front items hcopied harrives
  generalize hsent : ([] : List Item) = sent at hcopied
  cases hcopied with
  | nil =>
    cases harrives
    exact ⟨UInt8.zero_le, Nat.le_refl 1⟩
  | concat h i n => exact absurd hsent.symm (List.concat_ne_nil _ _)

theorem leads_blocks (hmax : config.maxRetries < 255) (hheader : header.length = headerBlockSize)
    (hmeta : ∀ m, parseMetadata usizeMax header = some m → m = metadata)
    (hchopped : Chopped metadata.fileSize blocks) :
    Leads config usizeMax onMetadata (Early config metadata.fileSize blocks 0)
      (headerItem header hheader :: dataItems 1 blocks) := by
  induction blocks using List.reverseRecOn with
  | nil =>
    exact leads_nothing.concat (fun _ h => h) (fun _ _ h hj => early_header hmax hheader hmeta h hj)
      fun _ => early_again
  | append_singleton blocks block ih =>
    rw [dataItems_concat, ← List.cons_append]
    exact (ih hchopped.of_concat.1).concat (fun _ => early_next)
      (fun _ _ h hj => early_block hmax hchopped h hj)
      fun _ => early_again

theorem leads_closing (hall : blocks.flatten.length = size) {sent closing : List Item}
    (h : Leads config usizeMax onMetadata (Early config size blocks 0) sent) (hnone : closing ≠ [])
    (hclosing : closing <+: [Item.eot, Item.eot, trailerItem]) :
    Leads config usizeMax onMetadata (Late size blocks) (sent ++ closing) := by
  have h1 : Leads config usizeMax onMetadata (Late size blocks) (sent ++ [Item.eot]) :=
    h.concat (fun _ => Or.inl) (fun _ _ => late_eot hall) fun _ => Or.inr
  have h2 : Leads config usizeMax onMetadata (Late size blocks)
      (sent ++ [Item.eot] ++ [Item.eot]) :=
    h1.concat (fun _ h => h) (fun _ _ h => late_eot hall (Or.inr h)) fun _ h => h
  have h3 : Leads config usizeMax onMetadata (Late size blocks)
      (sent ++ [Item.eot] ++ [Item.eot] ++ [trailerItem]) :=
    h2.concat (fun _ h => h) (fun _ _ => late_trailer) fun _ h => h
  rw [List.append_assoc] at h2 h3
  rw [List.append_assoc] at h3
  rcases List.prefix_cons_iff.mp hclosing with rfl | ⟨rest1, rfl, hrest1⟩
  · exact absurd rfl hnone
  rcases List.prefix_cons_iff.mp hrest1 with rfl | ⟨rest2, rfl, hrest2⟩
  · exact h1
  rcases List.prefix_cons_iff.mp hrest2 with rfl | ⟨rest3, rfl, hrest3⟩
  · exact h2
  cases List.prefix_nil.mp hrest3
  exact h3

theorem dataItems_take (number : UInt8) (blocks : List (List UInt8)) (k : Nat) :
    (dataItems number blocks).take k = dataItems number (blocks.take k) := by
  induction blocks generalizing number k with
  | nil => rw [List.take_nil]; exact List.take_nil
  | cons block blocks ih =>
    cases k with
    | zero => rfl
    | succ k => rw [dataItems, List.take_succ_cons, ih, List.take_succ_cons, dataItems]

theorem items_script (i : Item) (size : Nat) (blocks : List (List UInt8)) :
    (script i size blocks).flatMap Step.items = i :: dataItems 1 blocks ++
      if blocks.flatten.length = size then [Item.eot, Item.eot, trailerItem] else [] := by
  have hpackets : ∀ l : List Item, (l.map Step.packet).flatMap Step.items = l := by
    intro l
    rw [List.flatMap_map]
    exact List.flatMap_singleton' l
  rw [script, List.flatMap_append, List.flatMap_append, hpackets]
  split
  · rfl
  · rfl

theorem leads_script (hmax : config.maxRetries < 255) (hheader : header.length = headerBlockSize)
    (hmeta : ∀ m, parseMetadata usizeMax header = some m → m = metadata)
    (hchopped : Chopped metadata.fileSize blocks) {sent : List Item}
    (hsent : sent <+: (script (headerItem header hheader) metadata.fileSize blocks).flatMap
    Step.items) : Leads config usizeMax onMetadata (fun stage => stage.output <+: blocks.flatten ∧
      ∀ size out, stage = .done size out →
      size = metadata.fileSize ∧ out = blocks.flatten ∧ blocks.flatten.length = metadata.fileSize)
        sent := by
  rw [items_script] at hsent
  have hearly : ∀ k, Leads config usizeMax onMetadata (Early config metadata.fileSize
    (blocks.take k) 0)
      (headerItem header hheader :: dataItems 1 (blocks.take k)) :=
    fun k => leads_blocks hmax hheader hmeta (hchopped.take k)
  intro front items hcopied harrives
  rcases prefix_append_cases hsent with hsent | ⟨closing, hnone, hclosing, rfl⟩
  · rcases List.prefix_cons_iff.mp hsent with rfl | ⟨rest, rfl, hrest⟩
    · have hstart : Early config metadata.fileSize [] 1
          (Stage.after config usizeMax onMetadata items) :=
        leads_nothing front items hcopied harrives
      exact hstart.outputs List.nil_prefix
    · rw [List.prefix_iff_eq_take.mp hrest, dataItems_take] at hcopied
      exact (hearly _ front items hcopied harrives).outputs (List.take_prefix ..).flatten
  · split at hclosing
    · rename_i hall
      have hlast := hearly blocks.length
      rw [List.take_length] at hlast
      have hlate := leads_closing hall hlast hnone hclosing front items hcopied harrives
      refine ⟨hlate.output, fun size out hdone => ?_⟩
      rw [hdone] at hlate
      exact ⟨hlate.1, hlate.2, hall⟩
    · exact absurd (List.prefix_nil.mp hclosing) hnone

theorem valid_dataItems {number : UInt8} (h : i ∈ dataItems number blocks) : i.block? ≠ none := by
  induction blocks generalizing number with
  | nil => cases h
  | cons block blocks ih =>
    rcases List.mem_cons.mp h with rfl | h
    · rw [block?_dataItem]
      exact Option.some_ne_none _
    · exact ih h

theorem valid_script {hheader : header.length = headerBlockSize}
    (h : i ∈ (script (headerItem header hheader) size blocks).flatMap Step.items) :
    i.block? ≠ none ∨ i = Item.eot := by
  rw [items_script, List.cons_append] at h
  rcases List.mem_cons.mp h with rfl | h
  · rw [block?_headerItem]
    exact Or.inl (Option.some_ne_none _)
  rcases List.mem_append.mp h with h | h
  · exact Or.inl (valid_dataItems h)
  · split at h
    · simp only [List.mem_cons, List.not_mem_nil, or_false, or_self_left] at h
      rcases h with rfl | rfl
      · exact Or.inr rfl
      · rw [trailerItem, block?_headerItem]
        exact Or.inl (Option.some_ne_none _)
    · cases h

theorem arrives_of_passes (hcrc : Xmodem) {items front : List Item}
    (h : List.Forall₂ (fun j i => Passes i j) items front)
    (hvalid : ∀ i ∈ front, i.block? ≠ none ∨ i = Item.eot) :
    List.Forall₂ (fun j i => Arrives i j) items front := by
  induction h with
  | nil => exact .nil
  | cons hitem rest ih =>
    exact .cons (hitem.arrives hcrc (hvalid _ List.mem_cons_self))
      (ih fun i hi => hvalid i (List.mem_cons_of_mem _ hi))

/-- What the sender has said leads the receiver to nothing but its file. -/
theorem leads_heard {sconfig : Config} {s : State Sender} {heard tail : List UInt8}
    {items : List Item} (hcrc : Xmodem) (hmax : config.maxRetries < 255)
    (hfits : metadata.fileSize < 2 ^ 64) (hsound : Sound sconfig metadata s)
    (hline : Relayed s.said heard) (hheard : heard = bytesOf items ++ tail) :
    (Stage.after config usizeMax onMetadata items).output <+: s.side.file ∧
      ∀ size out, Stage.after config usizeMax onMetadata items = .done size out →
        size = metadata.fileSize ∧ out = s.side.file ∧ s.side.file.length = metadata.fileSize := by
  rcases hsound with hlog | ⟨header, hheader, blocks, hblock0, hchopped, hfile, hall, hkeeps⟩
  · have hnone : s.said = [] := by
      rw [State.said, hlog]
      rfl
    obtain ⟨front, hfront, hpasses⟩ :=
      hline.passes (hnone ▸ (List.nil_prefix : [] <+: bytesOf [])) hheard
    cases List.prefix_nil.mp hfront
    cases hpasses
    exact ⟨List.nil_prefix, fun _ _ hdone => by cases hdone⟩
  obtain ⟨sent, copies, hsent, hcopied, hsaid⟩ := hkeeps.said
  obtain ⟨front, hfront, hpasses⟩ := hline.passes hsaid hheard
  obtain ⟨sent', hsent', hcopied'⟩ := hcopied.of_prefix hfront
  have harrives := arrives_of_passes hcrc hpasses fun i hi =>
    valid_script ((hsent'.trans hsent).subset (hcopied'.mem hi))
  have hmeta : ∀ m, parseMetadata usizeMax header = some m → m = metadata := fun m hm =>
    eq_of_parseMetadata hblock0 (Nat.lt_of_lt_of_le hfits (by decide)) hm
  obtain ⟨hout, hdone⟩ :=
    leads_script hmax hheader hmeta hchopped (hsent'.trans hsent) front items hcopied' harrives
  refine ⟨hout.trans hfile, fun size out h => ?_⟩
  obtain ⟨hsize, rfl, hlen⟩ := hdone size out h
  rw [hall hlen]
  exact ⟨hsize, rfl, hlen⟩

end

section

variable {ε σ ο ε' ω μ : Type} [Crc16] {sconfig rconfig : Config} {usizeMax : Nat}
  {onMetadata : Metadata → Except μ Unit} {metadata : Metadata}

/-- A file over a line with noise: whatever either side is answered and however often packets are
repeated, the output of the receiver never has anything but the file so far, and where the receiver
succeeds it is the whole file. -/
theorem transfer_safe (hcrc : Xmodem) (hretries : rconfig.maxRetries < 255)
    (hfits : metadata.fileSize < 2 ^ 64) {sent : List (Answer ε (Outside σ ο))}
    {got : List (Answer ε' (Option (Nat × ω)))}
    (hline : Relayed (sending sconfig metadata sent).2.said
      (received rconfig usizeMax onMetadata got).2.heard) :
    (received rconfig usizeMax onMetadata got).2.side <+:
    (sending sconfig metadata sent).2.side.file ∧
      ∀ t, (received rconfig usizeMax onMetadata got).1 = some (.ok t) →
        t.fileSize = metadata.fileSize ∧ (received rconfig usizeMax onMetadata got).2.side =
        (sending sconfig metadata sent).2.side.file ∧
        (sending sconfig metadata sent).2.side.file.length = metadata.fileSize := by
  have hsound := (sending_spec sconfig metadata sent).2
  obtain ⟨hdone, items, tail, hheard, hside⟩ := received_spec rconfig usizeMax onMetadata got
  refine ⟨hside.trans (leads_heard hcrc hretries hfits hsound hline hheard).1, fun t ht => ?_⟩
  obtain ⟨items, hheard, hstage⟩ := hdone t ht
  exact (leads_heard hcrc hretries hfits hsound hline (hheard.trans (List.append_nil _).symm)).2 _ _
    hstage

end

/-! ### A transfer with noise -/

section

variable {ε ω : Type}

def Arrival.byte? : Arrival ε → Option UInt8
  | .byte b => some b
  | _ => none

/-- The bytes among the next answers. -/
def arrived (missing : Nat) (answers : List (Answer ε (Option (Nat × ω)))) : List UInt8 :=
  (answers.take missing).filterMap fun a => a.arrival.byte?

/-- `readBlock`, which takes all of its bytes at once if they are there. -/
def takeBlock (missing : Nat) (frame : List UInt8) :
    Program (State (List UInt8)) (Answer ε (Option (Nat × ω)))
      (Except (ReadByteError ε) (List UInt8)) := fun r =>
  let bytes := arrived missing r.answers
  if bytes.length = missing then
    .ok (.ok (.ok (frame ++ bytes)),
      ⟨{ r.state with log := r.state.log ++ bytes.map .heard }, r.answers.drop missing⟩)
  else readBlock missing frame r

theorem readBlock_arrived {missing : Nat} {answers : List (Answer ε (Option (Nat × ω)))}
    (h : (arrived missing answers).length = missing) (frame : List UInt8)
    (s : State (List UInt8)) :
    readBlock missing frame ⟨s, answers⟩ = .ok (.ok (.ok (frame ++ arrived missing answers)),
      ⟨{ s with log := s.log ++ (arrived missing answers).map .heard }, answers.drop missing⟩) := by
  induction missing generalizing answers frame s with
  | zero =>
    rw [List.length_eq_zero_iff.mp h, List.map_nil, List.append_nil, List.append_nil]
    rfl
  | succ missing ih =>
    cases answers with
    | nil => cases h
    | cons a answers =>
      obtain ⟨arrival, refusal, side⟩ := a
      cases arrival with
      | byte b =>
        have hcons : arrived (missing + 1) (⟨.byte b, refusal, side⟩ :: answers) =
            b :: arrived missing answers := rfl
        rw [hcons] at h ⊢
        refine (ih (Nat.succ.inj h) (frame ++ [b]) (s.hear b)).trans ?_
        simp [State.hear]
      | _ =>
        -- One answer at least is no byte.
        have hle : (arrived missing answers).length ≤ missing :=
          (List.length_filterMap_le _ _).trans (List.length_take_le _ _)
        exact absurd (h.symm.trans_le hle) (Nat.not_succ_le_self _)

theorem readBlock_eq :
    (readBlock : Nat → List UInt8 → Program _ (Answer ε (Option (Nat × ω))) _) = takeBlock := by
  funext missing frame r
  unfold takeBlock
  dsimp only
  split
  · rename_i h
    exact readBlock_arrived h frame r.state
  · rfl

end

section

/-- CRC-16/XMODEM with some checksums at hand. -/
@[reducible] def tabled (table : List (List UInt8 × UInt16)) : Crc16 :=
  ⟨fun data => ((table.find? fun e => e.1 = data).map (·.2)).getD (@crc16 xmodem data)⟩

theorem tabled_eq {table : List (List UInt8 × UInt16)}
    (h : ∀ e ∈ table, e.2 = @crc16 xmodem e.1) : tabled table = xmodem := by
  refine congrArg Crc16.mk (funext fun data => ?_)
  cases hfind : table.find? fun e => e.1 = data with
  | none => rfl
  | some e =>
    have hdata : e.1 = data := by simpa using List.find?_some hfind
    rw [← hdata]
    exact h e (List.mem_of_find?_eq_some hfind)

/-- Block 0 of a file of three bytes, and its only block. -/
def noisyHeader : List UInt8 := [102, 0, 51] ++ List.replicate 125 0

def noisyFile : List UInt8 := [1, 2, 3]

/-- The checksums of what is sent, and of what arrives damaged. -/
def noisyTable : List (List UInt8 × UInt16) :=
  [(noisyHeader, 0xf746), (List.replicate 128 0, 0), (paddedBlock noisyFile, 0xfe24),
    (0 :: (paddedBlock noisyFile).tail, 0xf2a4)]

/-- The packets of the file: its block is sent twice. -/
def noisySaid [Crc16] : List Item :=
  [headerItem noisyHeader rfl, dataItem 1 noisyFile, dataItem 1 noisyFile, Item.eot, Item.eot,
    trailerItem]

/-- What arrives of them: noise has changed a bit of the first copy of the block. -/
def noisyHeard [Crc16] : List Item :=
  let data := dataItem 1 noisyFile
  [headerItem noisyHeader rfl,
    ⟨data.control, data.frame.set 2 0, (List.length_set ..).trans data.length_frame⟩, data,
    Item.eot, Item.eot, trailerItem]

def noisySent : List (Answer Unit (Outside Unit Unit)) :=
  [0, crcRequest, 0, 0, 0, 0, ack, crcRequest, 0, 0, 0, 0, 0, nak, 0, 0, 0, 0, ack, 0, 0, 0, nak, 0,
    0, ack, crcRequest, 0, 0, 0, 0, ack, 0].map fun b => ⟨.byte b, none, ⟨.ok noisyFile, .ok ()⟩⟩

def noisyGot [Crc16] : List (Answer Unit (Option (Nat × Unit))) :=
  (noisyHeard.zip [(2, 3), (0, 2), (0, 3), (0, 3), (0, 3), (0, 2)]).flatMap fun x =>
    (List.replicate x.2.1 0 ++ x.1.bytes ++ List.replicate x.2.2 0).map fun b =>
      ⟨.byte b, none, none⟩

-- The checksums of whole blocks are computed.
set_option maxRecDepth 20000

theorem xmodem_eq : xmodem = tabled noisyTable := by
  refine (tabled_eq ?_).symm
  refine List.forall_mem_cons.mpr ⟨?_, List.forall_mem_cons.mpr ⟨?_, List.forall_mem_cons.mpr
    ⟨?_, List.forall_mem_cons.mpr ⟨?_, List.forall_mem_nil _⟩⟩⟩⟩
  all_goals decide +kernel

theorem passes_noisy : List.Forall₂ Passes (@noisySaid xmodem) (@noisyHeard xmodem) := by
  rw [xmodem_eq]
  exact .cons ⟨rfl, Or.inl rfl⟩ (.cons ⟨rfl, Or.inr (.odd (by decide +kernel))⟩
    (.cons ⟨rfl, Or.inl rfl⟩ (.cons ⟨rfl, Or.inl rfl⟩ (.cons ⟨rfl, Or.inl rfl⟩
      (.cons ⟨rfl, Or.inl rfl⟩ .nil)))))

/-- The receiver refuses the damaged copy, takes the next one and succeeds. -/
theorem transfer_safe_noisy : ∃ t,
    (@received Unit Unit Unit xmodem {} 0xffffffff (fun _ => .ok ()) (@noisyGot xmodem)).1 =
      some (.ok t) ∧ t.fileSize = 3 ∧
    (@received Unit Unit Unit xmodem {} 0xffffffff (fun _ => .ok ()) (@noisyGot xmodem)).2.side =
      (@sending Unit Unit Unit xmodem {} ⟨[102], 3⟩ noisySent).2.side.file ∧
    (@sending Unit Unit Unit xmodem {} ⟨[102], 3⟩ noisySent).2.side.file.length = 3 := by
  have hsaid : (@sending Unit Unit Unit xmodem {} ⟨[102], 3⟩ noisySent).2.said =
      bytesOf (@noisySaid xmodem) := by
    rw [xmodem_eq]
    decide +kernel
  have hgot :
      (@received Unit Unit Unit xmodem {} 0xffffffff (fun _ => .ok ())
        (@noisyGot xmodem)).2.heard = bytesOf (@noisyHeard xmodem) ∧
      (@received Unit Unit Unit xmodem {} 0xffffffff (fun _ => .ok ())
        (@noisyGot xmodem)).1.any Except.isOk = true := by
    rw [xmodem_eq]
    -- Frames are read whole, or the log would be computed byte by byte.
    unfold received receiveWith
    delta headerPass dataPass closingPass
    rw [readBlock_eq]
    decide +kernel
  have hline := relayed_of_passes passes_noisy
  rw [← hsaid, ← hgot.1] at hline
  obtain ⟨r, hr, hok⟩ := (Option.any_eq_true _ _).mp hgot.2
  cases r with
  | error e => cases hok
  | ok t =>
    have hsafe := @transfer_safe Unit Unit Unit Unit Unit Unit xmodem {} {} 0xffffffff
      (fun _ => .ok ()) ⟨[102], 3⟩ (fun _ => rfl) (by decide) (by decide) noisySent
      (@noisyGot xmodem) hline
    exact ⟨t, hr, hsafe.2 t hr⟩

end

end Microtun.Ymodem
