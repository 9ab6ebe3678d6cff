import Microtun.Cli.Extract

/-! The order in which fields are extracted does not matter, and an extraction that succeeds
accounts for every token of the line and for every letter of every cluster. -/

namespace Microtun.Cli

def Value.given : Value → Bool
  | .flag given => given
  | .flagCount count => 0 < count
  | .option value => value.isSome

/-- A question to the cursor that this extraction made true. -/
def Taken.gains (t : Taken) (asks : ArgCursor → Bool) : Bool := !asks t.before && asks t.after

def Taken.consumes (t : Taken) (i : Nat) : Bool := t.gains (·.isConsumed i)

def Taken.claims (t : Taken) (i : Nat) (ch : Char) : Bool := t.gains (·.shortUsed i ch)

/-- A token is the name of an argument, its value, or both. -/
inductive Argument.Uses (c : ArgCursor) (i : Nat) : Argument → Prop
  | name {f : Field} {value : Value} {long : Str} (hlong : f.long = some long)
    (harg : c.line.arg i = .ok (optionTerminator ++ long)) (hgiven : value.given = true) :
    Uses c i (.field f value)
  | attached {f : Field} {long value : Str} (hkind : f.kind = .option) (hlong : f.long = some long)
    (harg : c.line.arg i = .ok (optionTerminator ++ long ++ ['='] ++ value)) :
    Uses c i (.field f (.option (some value)))
  | detached {f : Field} {j : Nat} {word value : Str} (hj : i = j + 1)
    (hword : c.line.arg j = .ok word) (hname : f.Detaches c word)
    (harg : c.line.arg i = .ok value) :
    Uses c i (.field f (.option (some value)))
  | positional {text : Str} (harg : c.line.arg i = .ok text) : Uses c i (.positional text)

/-- A letter of a cluster is the name of an argument; if it takes a value, what comes after it in
the cluster is the value, or else the next token. -/
def Argument.Claims (c : ArgCursor) (i : Nat) (ch : Char) (after : Str) : Argument → Prop
  | .field f value => f.short = some ch ∧ value.given = true ∧
    (c.isValueShort ch = true ↔ f.kind = .option) ∧
    (f.kind = .option → ∃ text, value = .option (some text) ∧
      if after = [] then c.line.arg (i + 1) = .ok text else text = Field.clusterValue after)
  | .positional _ => False

/-- A token is the marker, a cluster with every letter claimed by one argument, or used by one
argument. -/
inductive Accounted (c : ArgCursor) (e : Extracted) (i : Nat) : Prop
  | terminator (h : c.terminator = some i)
  | cluster {token body : Str} (hafter : c.afterTerminator i = false)
    (harg : c.line.arg i = .ok token) (hbody : shortCluster token = some body)
    (hfields : ∀ t ∈ e.fields, t.consumes i = false)
    (hletters : ∀ front ch after, body = front ++ ch :: after →
      (∀ d ∈ front, c.isValueShort d = false) →
      ∃ t, e.fields.filter (·.claims i ch) = [t] ∧ t.argument.Claims c i ch after)
  | argument {t : Taken} (honce : (e.fields ++ e.positionals).filter (·.consumes i) = [t])
    (huses : t.argument.Uses c i)

namespace ArgCursor

variable {c c' first last : ArgCursor} {i : Nat}

theorem Chain.kept {taken : List Taken} (h : Chain first taken last) (asks : ArgCursor → Bool)
    (hkeep : ∀ t ∈ taken, asks t.before = true → asks t.after = true) (hfirst : asks first = true) :
    asks last = true ∧ taken.filter (·.gains asks) = [] := by
  induction h with
  | nil => exact ⟨hfirst, rfl⟩
  | cons argument _ ih =>
    obtain ⟨hhead, htail⟩ := List.forall_mem_cons.mp hkeep
    obtain ⟨hlast, hnone⟩ := ih htail (hhead hfirst)
    refine ⟨hlast, ?_⟩
    rw [List.filter_cons_of_neg (by simp [Taken.gains, hfirst]), hnone]

/-- What holds at the end and not at the start was gained once. -/
theorem Chain.once {taken : List Taken} (h : Chain first taken last) (asks : ArgCursor → Bool)
    (hkeep : ∀ t ∈ taken, asks t.before = true → asks t.after = true) (hfirst : asks first = false)
    (hlast : asks last = true) : ∃ t ∈ taken, t.gains asks = true ∧ taken.filter (·.gains asks) =
    [t] := by
  induction h with
  | nil => exact nomatch hfirst.symm.trans hlast
  | @cons c next last taken argument h ih =>
    obtain ⟨-, htail⟩ := List.forall_mem_cons.mp hkeep
    cases hnext : asks next with
    | true =>
      have hgains : Taken.gains ⟨argument, c, next⟩ asks =
          true := by simp [Taken.gains, hfirst, hnext]
      refine ⟨_, List.mem_cons_self, hgains, ?_⟩
      rw [List.filter_cons_of_pos (by exact hgains), (h.kept asks htail hnext).2]
    | false =>
      obtain ⟨t, ht, hgains, honce⟩ := ih htail hnext hlast
      refine ⟨t, List.mem_cons_of_mem _ ht, hgains, ?_⟩
      rw [List.filter_cons_of_neg (by simp [Taken.gains, hnext]), honce]

end ArgCursor

namespace Field

variable {f g : Field} {c : ArgCursor} {i j : Nat} {h : Hit} {v : Value}

theorem detachedHit_ok (hresult : (detachedHit c i).result = .ok v) : ∃ token,
    c.line.arg (i + 1) = .ok token ∧ v = .option (some token) ∧
      (detachedHit c i).effects = [.consume (i + 1)] := by
  unfold detachedHit at hresult ⊢
  split at hresult
  · exact nomatch hresult
  rename_i hend
  rw [if_neg hend]
  cases harg : c.line.arg (i + 1) with
  | error e =>
    rw [harg] at hresult
    exact nomatch hresult
  | ok token =>
    simp only [harg] at hresult ⊢
    split at hresult
    · exact nomatch hresult
    · rename_i hlike
      simp only [if_neg hlike]
      exact ⟨token, rfl, (Except.ok.inj hresult).symm, trivial⟩

theorem hit_count (hkind : f.kind = .flagCount) (hh : f.hit c i = some h) : 0 < h.count := by
  obtain ⟨-, ⟨-, -, hoption, -⟩ | ⟨token, -, ⟨-, rfl⟩ | ⟨value, hvalue, -⟩ |
    ⟨short, body, after, hlocated, -, rfl⟩⟩⟩ := hit_cases hh
  · exact nomatch hkind.symm.trans hoption
  · simp [Hit.count, longHit, hkind]
  · exact nomatch hkind.symm.trans (kind_of_attached hvalue)
  · have hpos : 0 < c.countShort short body :=
      (countShort_pos c short body).mpr (by rw [(located_iff.mp hlocated).2.2]; rfl)
    simp [Hit.count, shortHit, hkind, hpos]

theorem foldl_count_pos (hits : List Hit) {n : Nat} (hn : 0 < n) :
    0 < hits.foldl (fun count h => min (count + h.count) 255) n := by
  induction hits generalizing n with
  | nil => exact hn
  | cons h hits ih => exact ih (Nat.lt_min.mpr ⟨Nat.add_pos_left hn _, by decide⟩)

/-- What is recorded by an extraction that succeeds, and where it is found. -/
theorem mem_scan_ok {e : Effect} (hv : (f.scan c).1 = .ok v) (he : e ∈ (f.scan c).2) :
    ∃ i h, f.hit c i = some h ∧ e ∈ h.effects ∧ (f.kind ≠ .option → v.given = true) ∧
      (f.kind = .option → h.result = .ok v) := by
  unfold scan at hv he
  cases hkind : f.kind with
  | flagCount =>
    simp only [hkind] at hv he
    obtain rfl := Except.ok.inj hv
    obtain ⟨h, hh, hmem⟩ := List.mem_flatMap.mp he
    obtain ⟨i, -, hi⟩ := List.mem_filterMap.mp hh
    refine ⟨i, h, hi, hmem, fun _ => ?_, nofun⟩
    have hall : ∀ h ∈ (List.range c.optionsEnd).filterMap (f.hit c), 0 < h.count := by
      intro h hh
      obtain ⟨j, -, hj⟩ := List.mem_filterMap.mp hh
      exact hit_count hkind hj
    revert hh hall
    cases (List.range c.optionsEnd).filterMap (f.hit c) with
    | nil => exact fun hh _ => nomatch hh
    | cons first hits =>
      intro _ hall
      have hfirst := hall first List.mem_cons_self
      have hstart : 0 < min (0 + first.count) 255 :=
        Nat.lt_min.mpr ⟨Nat.add_pos_right 0 hfirst, by decide⟩
      have hpos := foldl_count_pos hits hstart
      exact decide_eq_true hpos
  | flag =>
    simp only [hkind] at hv he
    cases hfound : (List.range c.optionsEnd).findSome? (f.hit c) with
    | none =>
      rw [hfound] at he
      exact nomatch he
    | some h =>
      simp only [hfound] at hv he
      obtain ⟨i, -, hi⟩ := List.exists_of_findSome?_eq_some hfound
      refine ⟨i, h, hi, he, fun _ => ?_, nofun⟩
      obtain rfl := Except.ok.inj (hv.symm.trans (hit_flag hkind hi))
      rfl
  | option =>
    simp only [hkind] at hv he
    cases hfound : (List.range c.optionsEnd).findSome? (f.hit c) with
    | none =>
      rw [hfound] at he
      exact nomatch he
    | some h =>
      simp only [hfound] at hv he
      obtain ⟨i, -, hi⟩ := List.exists_of_findSome?_eq_some hfound
      exact ⟨i, h, hi, he, fun hne => absurd rfl hne, fun _ => hv⟩

/-- A token that a field consumes is its name or its value. -/
theorem scan_uses (hv : (f.scan c).1 = .ok v) (he : .consume i ∈ (f.scan c).2) :
    Argument.Uses c i (.field f v) := by
  obtain ⟨j, h, hh, hmem, hflag, hoption⟩ := mem_scan_ok hv he
  obtain ⟨-, ⟨_, -, -, rfl⟩ | ⟨token, harg, ⟨hlong, rfl⟩ | ⟨value, hvalue, rfl⟩ |
    ⟨short, body, after, hlocated, -, rfl⟩⟩⟩ := hit_cases hh
  · exact nomatch hmem
  · obtain ⟨long, hlong', rfl⟩ := isLong_iff.mp hlong
    unfold longHit at hmem hoption
    cases hkind : f.kind with
    | flag =>
      simp only [hkind] at hmem
      obtain rfl := Effect.consume.inj (List.mem_singleton.mp hmem)
      exact .name hlong' harg (hflag (by rw [hkind]; decide))
    | flagCount =>
      simp only [hkind] at hmem
      obtain rfl := Effect.consume.inj (List.mem_singleton.mp hmem)
      exact .name hlong' harg (hflag (by rw [hkind]; decide))
    | option =>
      simp only [hkind] at hmem hoption
      obtain ⟨value, hnext, rfl, heffects⟩ := detachedHit_ok (hoption trivial)
      rw [heffects] at hmem
      rcases List.mem_cons.mp hmem with heq | hmem
      · obtain rfl := Effect.consume.inj heq
        exact .name hlong' harg rfl
      · obtain rfl := Effect.consume.inj (List.mem_singleton.mp hmem)
        exact .detached rfl harg ⟨hkind, .inl hlong⟩ hnext
  · obtain ⟨hkind, long, hlong, rfl⟩ := attached_iff.mp hvalue
    obtain rfl := Effect.consume.inj (List.mem_singleton.mp hmem)
    obtain rfl := Except.ok.inj (hoption hkind)
    exact .attached hkind hlong harg
  · unfold shortHit at hmem hoption
    cases hkind : f.kind with
    | flag => simp [hkind] at hmem
    | flagCount => simp [hkind] at hmem
    | option =>
      simp only [hkind] at hmem hoption
      split at hmem
      · rename_i hnil
        subst hnil
        obtain ⟨value, hnext, rfl, heffects⟩ := detachedHit_ok (hoption trivial)
        rw [heffects] at hmem
        simp only [List.mem_cons, reduceCtorEq, List.not_mem_nil, or_false, false_or] at hmem
        obtain rfl := Effect.consume.inj hmem
        exact .detached rfl harg ⟨hkind, .inr ⟨short, body, hlocated⟩⟩ hnext
      · simp at hmem

theorem scan_claims {ch : Char} (hv : (f.scan c).1 = .ok v) (he : .claim i ch ∈ (f.scan c).2) :
    ∃ token body after, c.line.arg i = .ok token ∧ f.located c token = some (ch, body, after) ∧
      v.given = true ∧ (f.kind = .option → ∃ text, v = .option (some text) ∧
        if after = [] then c.line.arg (i + 1) = .ok text else text = clusterValue after) := by
  obtain ⟨j, h, hh, hmem, hflag, hoption⟩ := mem_scan_ok hv he
  obtain ⟨-, ⟨_, -, -, rfl⟩ | ⟨token, harg, ⟨-, rfl⟩ | ⟨value, -, rfl⟩ |
    ⟨short, body, after, hlocated, -, rfl⟩⟩⟩ := hit_cases hh
  · exact nomatch hmem
  · unfold longHit at hmem hoption
    cases hkind : f.kind with
    | flag => simp [hkind] at hmem
    | flagCount => simp [hkind] at hmem
    | option =>
      simp only [hkind] at hmem hoption
      obtain ⟨value, -, rfl, heffects⟩ := detachedHit_ok (hoption trivial)
      simp [heffects] at hmem
  · simp at hmem
  · unfold shortHit at hmem hoption
    cases hkind : f.kind with
    | flag =>
      simp only [hkind] at hmem
      obtain ⟨rfl, rfl⟩ := Effect.claim.inj (List.mem_singleton.mp hmem)
      exact ⟨token, body, after, harg, hlocated, hflag (by rw [hkind]; decide), nofun⟩
    | flagCount =>
      simp only [hkind] at hmem
      obtain ⟨rfl, rfl⟩ := Effect.claim.inj (List.mem_singleton.mp hmem)
      exact ⟨token, body, after, harg, hlocated, hflag (by rw [hkind]; decide), nofun⟩
    | option =>
      simp only [hkind] at hmem hoption
      have hresult := hoption trivial
      split at hmem
      · rename_i hnil
        subst hnil
        rw [if_pos rfl] at hresult
        obtain ⟨value, hnext, rfl, heffects⟩ := detachedHit_ok hresult
        rw [heffects] at hmem
        simp only [List.mem_cons, reduceCtorEq, List.not_mem_nil, or_false] at hmem
        obtain ⟨rfl, rfl⟩ := Effect.claim.inj hmem
        exact ⟨token, body, [], harg, hlocated, rfl, fun _ =>
          ⟨value, rfl, by rw [if_pos rfl, hnext]⟩⟩
      · rename_i hnil
        rw [if_neg hnil] at hresult
        obtain rfl := Except.ok.inj hresult
        simp only [List.mem_cons, reduceCtorEq, List.not_mem_nil, or_false] at hmem
        obtain ⟨rfl, rfl⟩ := Effect.claim.inj hmem
        exact ⟨token, body, after, harg, hlocated, rfl, fun _ => ⟨_, rfl, by rw [if_neg hnil]⟩⟩

end Field

theorem Argument.Uses.on {c d : ArgCursor} {i : Nat} {a : Argument} (hon : ArgCursor.On c d)
    (h : a.Uses d i) : a.Uses c i := by
  have hline := hon.line
  cases h with
  | name hlong harg hgiven => exact .name hlong (hline ▸ harg) hgiven
  | attached hkind hlong harg => exact .attached hkind hlong (hline ▸ harg)
  | positional harg => exact .positional (hline ▸ harg)
  | detached hj hword hname harg =>
    obtain ⟨hkind, hname⟩ := hname
    simp only [Field.located_eq hon] at hname
    exact .detached hj (hline ▸ hword) ⟨hkind, hname⟩ (hline ▸ harg)

namespace ArgCursor

variable {c c' : ArgCursor} {i : Nat} {ch : Char}

theorem settled_letters {body front after : Str} (h : c.settledFrom i body = true)
    (hbody : body = front ++ ch :: after) (hfront : ∀ d ∈ front, c.isValueShort d = false) :
    c.shortUsed i ch = true ∧ (c.isValueShort ch = true → c.valueTaken i = true) := by
  induction front generalizing body with
  | nil =>
    rw [hbody, List.nil_append, settledFrom] at h
    split at h
    · cases h
    · rename_i hused
      refine ⟨by simpa using hused, fun hvalue => ?_⟩
      rwa [if_pos hvalue] at h
  | cons d front ih =>
    obtain ⟨hd, hrest⟩ := List.forall_mem_cons.mp hfront
    rw [hbody, List.cons_append, settledFrom] at h
    split at h
    · cases h
    · rw [if_neg (by simp [hd])] at h
      exact ih h rfl hrest

theorem locateShort_split {body after : Str} (h : c.locateShort ch body = some after) :
    ∃ front, body = front ++ ch :: after ∧ ∀ d ∈ front, c.isValueShort d = false := by
  induction body with
  | nil => cases h
  | cons d body ih =>
    rw [locateShort] at h
    split at h
    · rename_i heq
      obtain rfl := Option.some.inj h
      exact ⟨[], by rw [heq]; rfl, List.forall_mem_nil _⟩
    split at h
    · cases h
    · rename_i hvalue
      obtain ⟨front, hbody, hfront⟩ := ih h
      refine ⟨d :: front, by rw [hbody]; rfl, List.forall_mem_cons.mpr ⟨?_, hfront⟩⟩
      exact Bool.eq_false_iff.mpr hvalue

theorem find?_value {front after : Str} (hfront : ∀ d ∈ front, c.isValueShort d = false)
    (hch : c.isValueShort ch = true) : (front ++ ch :: after).find? c.isValueShort = some ch := by
  rw [List.find?_append, List.find?_eq_none.mpr (by simpa using hfront), Option.none_or,
    List.find?_cons_of_pos hch]

theorem locateShort_value {front after : Str} (hfront : ∀ d ∈ front, c.isValueShort d = false)
    (hch : c.isValueShort ch = true) : c.locateShort ch (front ++ ch :: after) = some after := by
  induction front with
  | nil => rw [List.nil_append, locateShort, if_pos rfl]
  | cons d front ih =>
    obtain ⟨hd, hrest⟩ := List.forall_mem_cons.mp hfront
    have hne : d ≠ ch := by
      rintro rfl
      cases hd.symm.trans hch
    rw [List.cons_append, locateShort, if_neg hne, if_neg (by simp [hd]), ih hrest]

theorem ascii_of_shortUsed (h : c.shortUsed i ch = true) : ch.toNat < 128 := by
  rw [shortUsed_eq, Bool.and_eq_true] at h
  exact of_decide_eq_true h.1

/-- A cursor at the start of a line. -/
def declared (line : Lexed) (valueShorts : BitVec 128) : ArgCursor :=
  { ArgCursor.new line with valueShorts }

variable {line : Lexed} {valueShorts : BitVec 128}

theorem declared_line (line : Lexed) (valueShorts : BitVec 128) :
    (declared line valueShorts).line = line ∧ (declared line valueShorts).shortUse = [] ∧
    ((declared line valueShorts).terminator = none ∧ (declared line valueShorts).consumed = 0 ∨
      ∃ j, (declared line valueShorts).terminator = some j ∧ j < line.len ∧
        (declared line valueShorts).consumed = 0 ||| (1#64 <<< j)) := by
  unfold declared ArgCursor.new
  simp only
  split
  · rename_i j hj
    have hmem := List.mem_of_find?_eq_some hj
    exact ⟨rfl, rfl, .inr ⟨j, hj, List.mem_range.mp hmem, rfl⟩⟩
  · rename_i hnone
    exact ⟨rfl, rfl, .inl ⟨hnone, rfl⟩⟩

theorem declared_sound (valueShorts : BitVec 128) (hlen : line.len ≤ maxTokens) :
    (declared line valueShorts).Sound := by
  obtain ⟨hline, hshort, hterminator⟩ := declared_line line valueShorts
  refine ⟨by rw [hline]; exact hlen, by simp [hshort], by simp [hshort], ?_⟩
  rw [optionsEnd, hline]
  rcases hterminator with ⟨hnone, -⟩ | ⟨j, hsome, hj, -⟩
  · rw [hnone]
    exact Nat.le_refl _
  · rw [hsome]
    exact Nat.le_of_lt hj

theorem declared_consumed (hlen : line.len ≤ maxTokens)
    (hne : (declared line valueShorts).terminator ≠ some i) :
    (declared line valueShorts).isConsumed i = false := by
  obtain ⟨-, -, ⟨-, hconsumed⟩ | ⟨j, hsome, hj, hconsumed⟩⟩ :=
    declared_line line valueShorts
  · rw [isConsumed_eq, hconsumed]
    simp
  · have hbit : j < 64 := Nat.lt_of_lt_of_le hj (Nat.le_trans hlen (by decide))
    have hij : i ≠ j := fun heq => hne (heq ▸ hsome)
    rw [isConsumed_eq, hconsumed, getLsbD_or_mask _ hbit]
    simp [hij]

theorem declared_shorts (line : Lexed) (valueShorts : BitVec 128) (i : Nat) (ch : Char) :
    (declared line valueShorts).shortUsed i ch = false ∧
    (declared line valueShorts).valueTaken i = false := by
  have hshort := (declared_line line valueShorts).2.1
  have hnone : (declared line valueShorts).slot i = none := by
    rw [slot, hshort]
    rfl
  refine ⟨?_, ?_⟩
  · rw [shortUsed_eq, hnone]
    simp
  · show ((declared line valueShorts).slot i).any (·.valueTaken) = false
    rw [hnone]
    rfl

theorem Taken.field_spec {f : Field} {value : Value} {t : Taken} (hon : On c t.before)
    (htake : f.take t.before = (.ok value, t.after)) : (f.scan t.before).1 = .ok value ∧
      (∀ j, t.after.isConsumed j =
        (t.before.isConsumed j || decide (.consume j ∈ (f.scan t.before).2))) ∧
      ∀ j d, t.after.shortUsed j d = (t.before.shortUsed j d ||
        (decide (.claim j d ∈ (f.scan t.before).2) && decide (d.toNat < 128))) := by
  have heq := f.take_eq hon.sound
  rw [htake] at heq
  obtain ⟨hresult, hafter⟩ := Prod.mk.inj heq
  have hlt : ∀ e ∈ (f.scan t.before).2, e.index < t.before.line.len :=
    fun e he => (f.scan_owns _ e he).index_lt
  obtain ⟨hconsumed, hused, -⟩ := applyAll_spec ⟨rfl, rfl, rfl, hon.sound⟩ hlt
  rw [hafter]
  exact ⟨hresult.symm, hconsumed, hused⟩

/-- An extraction of fields in which every short option is declared. -/
structure Run (c : ArgCursor) (fields : List Field) (e : Extracted) (next middle last : ArgCursor) :
    Prop where
  on : On c next
  fieldsChain : Chain c e.fields next
  taken : ∀ t ∈ e.fields, ∃ f ∈ fields, ∃ value, t.argument = .field f value ∧ On c t.before ∧
    f.take t.before = (.ok value, t.after)
  records : next = c.applyAll (fields.flatMap fun f => (f.scan c).2)
  positionalsChain : Chain next e.positionals middle
  same : ∃ consumed, middle = { next with consumed }
  through : middle.takePositional = (.ok none, last)
  texts : ∀ t ∈ e.positionals, ∃ text, t.argument = .positional text ∧
    (∃ consumed, t.before = { next with consumed }) ∧ t.before.takePositional =
      (.ok (some text), t.after)

variable {fields : List Field} {e : Extracted} {next middle last : ArgCursor}

theorem Settled.congr (hon : On c next) {consumed : BitVec 64}
    (h : ({ next with consumed } : ArgCursor).Settled i) : c.afterTerminator i = false ∧
      ∃ token, c.line.arg i = .ok token ∧ next.clusterSettled i token = true := by
  obtain ⟨hafter, token, harg, hsettled⟩ := h
  have hsame : ({ next with consumed } : ArgCursor).clusterSettled i token =
      next.clusterSettled i token :=
    clusterSettled_congr (by rfl) (by exact fun _ => rfl) (by rfl) token
  refine ⟨?_, token, hon.line ▸ harg, hsame ▸ hsettled⟩
  rw [afterTerminator, ← hon.terminator]
  exact hafter

theorem cluster_of_settled {token : Str} (h : next.clusterSettled i token = true) :
    ∃ body, shortCluster token = some body ∧ next.settledFrom i body = true := by
  unfold clusterSettled at h
  split at h
  · exact nomatch h
  · exact nomatch h
  · rename_i body _ hbody
    exact ⟨body, hbody, h⟩

theorem Run.keepFields (h : Run c fields e next middle last) (i : Nat) :
    ∀ t ∈ e.fields, t.before.isConsumed i = true → t.after.isConsumed i = true := by
  intro t ht hi
  obtain ⟨f, -, value, -, hon, htake⟩ := h.taken t ht
  rw [(Taken.field_spec hon htake).2.1, hi, Bool.true_or]

theorem Run.line_next (h : Run c fields e next middle last) (hc : c.Sound) {consumed : BitVec 64} :
    ({ next with consumed } : ArgCursor).line.len ≤ maxTokens := by
  show next.line.len ≤ maxTokens
  rw [h.on.line]
  exact hc.len_le

theorem Run.keepPositionals (h : Run c fields e next middle last) (hc : c.Sound) (i : Nat) :
    ∀ t ∈ e.positionals, t.before.isConsumed i = true → t.after.isConsumed i = true := by
  intro t ht hi
  obtain ⟨text, -, ⟨consumed, hbefore⟩, htake⟩ := h.texts t ht
  have hpasses := takePositional_passes (c := t.before) (hbefore ▸ h.line_next hc)
  rw [htake] at hpasses
  exact hpasses.keep i hi

theorem Run.consumed (h : Run c fields e next middle last) (hc : c.Sound) (hi : i < c.line.len)
    (hfirst : c.isConsumed i = false) :
    (c.afterTerminator i = false ∧ ∃ token, c.line.arg i = .ok token ∧
      next.clusterSettled i token = true) ∨
    ∃ t, (e.fields ++ e.positionals).filter (·.consumes i) = [t] ∧ t.argument.Uses c i := by
  obtain ⟨consumed, hmiddle⟩ := h.same
  have hlenm : middle.line.len ≤ maxTokens := hmiddle ▸ h.line_next hc
  have hline : middle.line = c.line := by
    rw [hmiddle]
    exact h.on.line
  have hpasses := takePositional_passes hlenm
  rw [h.through] at hpasses
  have hlast : last.isConsumed i = true := hpasses.through rfl i (List.mem_range.mpr (hline ▸ hi))
  cases hm : middle.isConsumed i with
  | false =>
    rcases hpasses.what i hlast hm with hsettled | ⟨text, hnone, -⟩
    · rw [hmiddle] at hsettled
      exact .inl (hsettled.congr h.on)
    · exact nomatch hnone
  | true =>
    have hkeep : ∀ t ∈ e.fields ++ e.positionals, t.before.isConsumed i = true →
        t.after.isConsumed i = true :=
      List.forall_mem_append.mpr ⟨h.keepFields i, h.keepPositionals hc i⟩
    obtain ⟨t, ht, hgains, honce⟩ :=
      (h.fieldsChain.append h.positionalsChain).once (·.isConsumed i) hkeep hfirst hm
    simp only [Taken.gains, Bool.and_eq_true, Bool.not_eq_true'] at hgains
    rcases List.mem_append.mp ht with ht | ht
    · obtain ⟨f, -, value, hargument, hon, htake⟩ := h.taken t ht
      obtain ⟨hvalue, hconsumed, -⟩ := Taken.field_spec hon htake
      rw [hconsumed, hgains.1, Bool.false_or, decide_eq_true_eq] at hgains
      have huses := Field.scan_uses hvalue hgains.2
      exact .inr ⟨t, honce, hargument ▸ huses.on hon⟩
    · obtain ⟨text, hargument, ⟨consumed', hbefore⟩, htake⟩ := h.texts t ht
      have hpasses := takePositional_passes (c := t.before) (hbefore ▸ h.line_next hc)
      rw [htake] at hpasses
      rcases hpasses.what i hgains.2 hgains.1 with hsettled | ⟨text', htext, harg, -⟩
      · rw [hbefore] at hsettled
        exact .inl (hsettled.congr h.on)
      · obtain rfl := Option.some.inj (Except.ok.inj htext)
        have harg : c.line.arg i = .ok text := by
          rw [← h.on.line]
          rw [hbefore] at harg
          exact harg
        exact .inr ⟨t, honce, hargument ▸ .positional harg⟩

theorem Run.cluster_kept (h : Run c fields e next middle last) {token body : Str}
    (harg : c.line.arg i = .ok token) (hbody : shortCluster token = some body) :
    ∀ t ∈ e.fields, t.consumes i = false := by
  intro t ht
  obtain ⟨f, -, value, -, hon, htake⟩ := h.taken t ht
  have hnot : .consume i ∉ (f.scan t.before).2 := by
    intro he
    obtain ⟨token', harg', hname⟩ := f.scan_owns _ _ he
    obtain rfl := Except.ok.inj ((hon.line ▸ harg' : c.line.arg i = .ok token').symm.trans harg)
    rcases hname with hname | ⟨hlike, -⟩
    · exact nomatch hname.not_cluster.1.symm.trans hbody
    · exact nomatch hlike.symm.trans (Field.cluster_like hbody)
  rw [Taken.consumes, Taken.gains, (Taken.field_spec hon htake).2.1]
  simp [hnot]

/-- The value at the end of a cluster is taken by the option whose letter is before it. -/
theorem Run.value_option (h : Run c fields e next middle last) (hc : c.Sound)
    (hdeclared : ∀ f ∈ fields, f.kind = .option → ∀ short, f.short = some short →
      short.toNat < 128 → c.isValueShort short = true)
    (hfirst : c.valueTaken i = false) {token body front after : Str}
    (harg : c.line.arg i = .ok token) (hcluster : shortCluster token = some body)
    (hsettled : next.settledFrom i body = true)
    (hbody : body = front ++ ch :: after) (hfront : ∀ d ∈ front, c.isValueShort d = false)
    (hch : c.isValueShort ch = true) : ∃ f ∈ fields, f.kind = .option ∧ f.short = some ch := by
  have hshorts := fun d => Field.isValueShort_eq h.on d
  have hlt : ∀ e ∈ fields.flatMap fun f => (f.scan c).2, e.index < c.line.len := by
    intro e he
    obtain ⟨f, -, hf⟩ := List.mem_flatMap.mp he
    exact (f.scan_owns c e hf).index_lt
  have htaken := (settled_letters hsettled hbody (by simpa only [hshorts] using hfront)).2
    (by rw [hshorts, hch])
  rw [h.records, (applyAll_spec ⟨rfl, rfl, rfl, hc⟩ hlt).2.2, hfirst, Bool.false_or,
    decide_eq_true_eq] at htaken
  obtain ⟨f, hf, he⟩ := List.mem_flatMap.mp htaken
  obtain ⟨hkind, token', short, body', after', harg', hlocated⟩ := f.scan_owns c _ he
  obtain rfl := Except.ok.inj (harg'.symm.trans harg)
  obtain ⟨hshort, hbody', hafter'⟩ := Field.located_iff.mp hlocated
  obtain rfl := Option.some.inj (hbody'.symm.trans hcluster)
  obtain ⟨front', hsplit, hfront'⟩ := locateShort_split hafter'
  have hused := (settled_letters hsettled hsplit (by simpa only [hshorts] using hfront')).1
  have hvalue := hdeclared f hf hkind short hshort (ascii_of_shortUsed hused)
  have hsame : some short = some ch := by
    rw [← find?_value hfront' hvalue, ← hsplit, hbody, find?_value hfront hch]
  exact ⟨f, hf, hkind, hshort.trans hsame⟩

theorem Run.letters (h : Run c fields e next middle last) (hc : c.Sound)
    (hdistinct : fields.Pairwise Field.Distinct)
    (hdeclared : ∀ f ∈ fields, f.kind = .option → ∀ short, f.short = some short →
      short.toNat < 128 → c.isValueShort short = true)
    (hunused : ∀ d, c.shortUsed i d = false) (hfirst : c.valueTaken i = false) {token body : Str}
    (harg : c.line.arg i = .ok token) (hcluster : shortCluster token = some body)
    (hsettled : next.settledFrom i body = true) {front after : Str}
    (hbody : body = front ++ ch :: after) (hfront : ∀ d ∈ front, c.isValueShort d = false) :
    ∃ t, e.fields.filter (·.claims i ch) = [t] ∧ t.argument.Claims c i ch after := by
  have hshorts := fun d => Field.isValueShort_eq h.on d
  have hused := (settled_letters hsettled hbody (by simpa only [hshorts] using hfront)).1
  have hkeep : ∀ t ∈ e.fields, t.before.shortUsed i ch = true → t.after.shortUsed i ch = true := by
    intro t ht hi
    obtain ⟨f, -, value, -, hon, htake⟩ := h.taken t ht
    rw [(Taken.field_spec hon htake).2.2, hi, Bool.true_or]
  obtain ⟨t, ht, hgains, honce⟩ := h.fieldsChain.once (·.shortUsed i ch) hkeep (hunused ch) hused
  refine ⟨t, honce, ?_⟩
  obtain ⟨f, hf, value, hargument, hon, htake⟩ := h.taken t ht
  obtain ⟨hvalue, -, hclaims⟩ := Taken.field_spec hon htake
  simp only [Taken.gains, Bool.and_eq_true, Bool.not_eq_true'] at hgains
  rw [hclaims, hgains.1, Bool.false_or, Bool.and_eq_true, decide_eq_true_eq,
    decide_eq_true_eq] at hgains
  obtain ⟨token', body', after', harg', hlocated, hgiven, hoption⟩ :=
    Field.scan_claims hvalue hgains.2.1
  rw [hon.line] at harg' hoption
  rw [Field.located_eq hon] at hlocated
  obtain rfl := Except.ok.inj (harg'.symm.trans harg)
  obtain ⟨hshort, hbody', hafter'⟩ := Field.located_iff.mp hlocated
  obtain rfl := Option.some.inj (hbody'.symm.trans hcluster)
  have hkind : c.isValueShort ch = true ↔ f.kind = .option := by
    refine ⟨fun hch => ?_, fun hkind => hdeclared f hf hkind ch hshort hgains.2.2⟩
    obtain ⟨g, hg, hkind, hshort'⟩ :=
      h.value_option hc hdeclared hfirst harg hcluster hsettled hbody hfront hch
    have heq : f = g := by
      by_contra hne
      exact (hdistinct.forall hf hg hne).2 ch hshort hshort'
    rw [heq, hkind]
  rw [hargument]
  refine ⟨hshort, hgiven, hkind, fun hf => ?_⟩
  have hsame : after' = after := by
    have hlocate : c.locateShort ch (front ++ ch :: after) = some after :=
      locateShort_value hfront (hkind.mpr hf)
    rw [← hbody, hafter'] at hlocate
    exact Option.some.inj hlocate
  exact hsame ▸ hoption hf

theorem extract_eq (hc : c.Sound) (hseparate : fields.Pairwise Field.Separate) :
    match c.takeFields fields with
    | .error err => c.extract fields = .ok (.error err)
    | .ok (taken, next) =>
      match next.takePositionals (c.line.len + 1) with
      | .error _ => False
      | .ok (.error err) => c.extract fields = .ok (.error err)
      | .ok (.ok (positionals, last)) => c.extract fields = .ok (.ok ⟨taken, positionals⟩) ∧
        ∃ middle, Run c fields ⟨taken, positionals⟩ next middle last := by
  have hon : On c c := ⟨rfl, rfl, rfl, hc⟩
  have hfields := takeFields_start hc hseparate
  unfold extract
  rcases htake : c.takeFields fields with err | ⟨taken, next⟩
  · rfl
  simp only [htake] at hfields ⊢
  obtain ⟨-, hnext⟩ := hfields
  obtain ⟨hchain, htaken⟩ := takeFields_chain hon htake
  have hafter : On c next := by
    rw [hnext]
    refine hon.applyAll fun e he => ?_
    obtain ⟨f, -, hf⟩ := List.mem_flatMap.mp he
    exact (f.scan_owns c e hf).index_lt
  have hlen : next.line.len ≤ maxTokens := by
    rw [hafter.line]
    exact hc.len_le
  have hfuel : next.free < c.line.len + 1 := by
    rw [← hafter.line]
    exact Nat.lt_succ_of_le next.free_le
  obtain ⟨r, hr, hspec⟩ := takePositionals_chain hlen hfuel
  simp only [hr]
  rcases r with err | ⟨positionals, last⟩
  · rfl
  obtain ⟨middle, hchain', ⟨consumed, hmiddle⟩, hthrough, htexts⟩ := hspec positionals last rfl
  have hrun : Run c fields ⟨taken, positionals⟩ next middle last :=
    ⟨hafter, hchain, htaken, hnext, hchain', ⟨consumed, hmiddle⟩, hthrough, htexts⟩
  have hfinish : last.finish = (.ok (), last) := by
    have hpasses := takePositional_passes (c := middle) (hmiddle ▸ hlen)
    rw [hthrough] at hpasses
    obtain ⟨consumed', hlast⟩ : ∃ consumed', last = { middle with consumed := consumed' } :=
      hpasses.same
    refine finishFrom_consumed fun i hi => hpasses.through rfl i ?_
    rw [hlast] at hi
    exact hi
  simp only [hfinish]
  exact ⟨trivial, middle, hrun⟩

theorem alike_of_perm (hc : c.Sound) {fields' : List Field} (hperm : fields.Perm fields') :
    Alike (c.applyAll (fields.flatMap fun f => (f.scan c).2))
      (c.applyAll (fields'.flatMap fun f => (f.scan c).2)) := by
  have hon : On c c := ⟨rfl, rfl, rfl, hc⟩
  have hlt : ∀ fields : List Field, ∀ e ∈ fields.flatMap fun f =>
      (f.scan c).2, e.index < c.line.len := by
    intro fields e he
    obtain ⟨f, -, hf⟩ := List.mem_flatMap.mp he
    exact (f.scan_owns c e hf).index_lt
  have hmem : ∀ e, (e ∈ fields'.flatMap fun f => (f.scan c).2) =
      (e ∈ fields.flatMap fun f => (f.scan c).2) :=
    fun e => propext (hperm.flatMap_right _).mem_iff.symm
  obtain ⟨hconsumed, hused, htaken⟩ := applyAll_spec hon (hlt fields)
  obtain ⟨hconsumed', hused', htaken'⟩ := applyAll_spec hon (hlt fields')
  have h := hon.applyAll (hlt fields)
  have h' := hon.applyAll (hlt fields')
  refine ⟨h'.line.trans h.line.symm, h'.valueShorts.trans h.valueShorts.symm,
    h'.terminator.trans h.terminator.symm, ?_, fun i ch => ?_, fun i => ?_⟩
  · refine BitVec.eq_of_getLsbD_eq fun i _ => ?_
    rw [← isConsumed_eq, ← isConsumed_eq, hconsumed, hconsumed']
    simp only [hmem]
  · rw [hused, hused']
    simp only [hmem]
  · rw [htaken, htaken']
    simp only [hmem]

end ArgCursor

/-- The same values of the same fields and the same positionals, or two failures. -/
def SameResult : Except ParseError Extracted → Except ParseError Extracted → Prop
  | .ok e, .ok e' => (e.fields.map (·.argument)).Perm (e'.fields.map (·.argument)) ∧
    e.positionals.map (·.argument) = e'.positionals.map (·.argument)
  | .error _, .error _ => True
  | _, _ => False

namespace ArgCursor

variable {c : ArgCursor} {fields fields' : List Field}

theorem no_error {taken : List Taken} {f : Field} {err : ParseError}
    (h : (fields.map fun f => (f.scan c).1.map (Argument.field f)) =
      taken.map (fun t => .ok t.argument)) (hf : f ∈ fields) : (f.scan c).1 ≠ .error err := by
  intro herror
  have hmem := List.mem_map_of_mem (f := fun f => (f.scan c).1.map (Argument.field f)) hf
  rw [h] at hmem
  obtain ⟨t, -, heq⟩ := List.mem_map.mp hmem
  rw [herror] at heq
  exact nomatch heq

theorem extract_perm (hc : c.Sound) (hseparate : fields.Pairwise Field.Separate)
    (hperm : fields.Perm fields') :
    ∃ r r', c.extract fields = .ok r ∧ c.extract fields' = .ok r' ∧ SameResult r r' := by
  have hseparate' : fields'.Pairwise Field.Separate :=
    (hperm.pairwise_iff fun h => h.symm).mp hseparate
  have heq := extract_eq hc hseparate
  have heq' := extract_eq hc hseparate'
  have hfields := takeFields_start hc hseparate
  have hfields' := takeFields_start hc hseparate'
  rcases htake : c.takeFields fields with err | ⟨taken, next⟩
  · rcases htake' : c.takeFields fields' with err' | ⟨taken', next'⟩
    · rw [htake] at heq
      rw [htake'] at heq'
      exact ⟨_, _, heq, heq', trivial⟩
    · rw [htake] at hfields
      rw [htake'] at hfields'
      obtain ⟨f, hf, err, herror⟩ := hfields
      exact absurd herror (no_error hfields'.1 (hperm.mem_iff.mp hf))
  · rcases htake' : c.takeFields fields' with err' | ⟨taken', next'⟩
    · rw [htake] at hfields
      rw [htake'] at hfields'
      obtain ⟨f, hf, err, herror⟩ := hfields'
      exact absurd herror (no_error hfields.1 (hperm.mem_iff.mpr hf))
    · simp only [htake] at heq hfields
      simp only [htake'] at heq' hfields'
      obtain ⟨hvalues, hnext⟩ := hfields
      obtain ⟨hvalues', hnext'⟩ := hfields'
      have halike : Alike next next' := by
        rw [hnext, hnext']
        exact alike_of_perm hc hperm
      have hview := halike.takePositionals (c.line.len + 1)
      have harguments : (taken.map (·.argument)).Perm (taken'.map (·.argument)) := by
        have hmap := hperm.map fun f => (f.scan c).1.map (Argument.field f)
        have hsplit : ∀ l : List Taken,
          (l.map fun t => (.ok t.argument : Except ParseError Argument)) =
          (l.map (·.argument)).map .ok := fun l => List.map_map.symm
        rw [hvalues, hvalues', hsplit, hsplit] at hmap
        exact (List.map_perm_map_iff fun a b h => Except.ok.inj h).mp hmap
      rcases hpos : next.takePositionals (c.line.len + 1) with p | err | ⟨positionals, last⟩
      · rw [hpos] at heq
        exact heq.elim
      · rcases hpos' : next'.takePositionals (c.line.len + 1) with p' | err' | ⟨positionals', last'⟩
        · rw [hpos'] at heq'
          exact heq'.elim
        · rw [hpos] at heq
          rw [hpos'] at heq'
          exact ⟨_, _, heq, heq', trivial⟩
        · rw [hpos, hpos'] at hview
          exact nomatch hview
      · rcases hpos' : next'.takePositionals (c.line.len + 1) with p' | err' | ⟨positionals', last'⟩
        · rw [hpos'] at heq'
          exact heq'.elim
        · rw [hpos, hpos'] at hview
          exact nomatch hview
        · rw [hpos] at heq
          rw [hpos'] at heq'
          rw [hpos, hpos'] at hview
          exact ⟨_, _, heq.1, heq'.1, harguments, (Except.ok.inj (Except.ok.inj hview)).symm⟩

theorem Run.accounted {valueShorts : BitVec 128} {line : Lexed} {e : Extracted}
    {next middle last : ArgCursor} (h : Run (declared line valueShorts) fields e next middle last)
    (hlen : line.len ≤ maxTokens) (hdistinct : fields.Pairwise Field.Distinct)
    (hdeclared : ∀ f ∈ fields, f.kind = .option → ∀ short, f.short = some short →
      short.toNat < 128 → (declared line valueShorts).isValueShort short = true) :
    ∀ i < line.len, Accounted (declared line valueShorts) e i := by
  intro i hi
  have hc := declared_sound valueShorts hlen
  have hline := (declared_line line valueShorts).1
  by_cases hterminator : (declared line valueShorts).terminator = some i
  · exact .terminator hterminator
  have hfirst := declared_consumed hlen hterminator
  rcases h.consumed hc (by rw [hline]; exact hi) hfirst with ⟨hafter, token, harg, hsettled⟩ | ⟨t,
    honce, huses⟩
  · obtain ⟨body, hcluster, hletters⟩ := cluster_of_settled hsettled
    refine .cluster hafter harg hcluster (h.cluster_kept harg hcluster) ?_
    intro front ch after hbody hfront
    exact h.letters hc hdistinct hdeclared (fun d => (declared_shorts line valueShorts i d).1)
      (declared_shorts line valueShorts i ch).2 harg hcluster hletters hbody hfront
  · exact .argument honce huses

/-- No option's long name and an equals sign begin the long name of another field: then the order of
the fields does not matter, and what succeeds has used every token and every letter of every cluster
once. -/
theorem extract_independent (line : Lexed) (hlen : line.len ≤ maxTokens) (valueShorts : BitVec 128)
    (fields : List Field) (hdistinct : fields.Pairwise Field.Distinct)
    (hplain : ∀ f ∈ fields, ∀ g ∈ fields, ¬ f.Ambiguous g)
    (hdeclared : ∀ f ∈ fields, f.kind = .option → ∀ short mask, f.short = some short →
      shortMask short = some mask → valueShorts &&& mask ≠ 0) :
    ∃ r, (declared line valueShorts).extract fields = .ok r ∧ (∀ fields', fields.Perm fields' →
        ∃ r', (declared line valueShorts).extract fields' = .ok r' ∧ SameResult r r') ∧
      ∀ e, r = .ok e → ∀ i < line.len, Accounted (declared line valueShorts) e i := by
  have hc := declared_sound valueShorts hlen
  have hseparate : fields.Pairwise Field.Separate := by
    refine hdistinct.imp_of_mem fun {f g} hf hg h => ⟨h, hplain f hf g hg, hplain g hg f hf⟩
  obtain ⟨r, -, hr, -⟩ := extract_perm hc hseparate (List.Perm.refl fields)
  refine ⟨r, hr, fun fields' hperm => ?_, ?_⟩
  · obtain ⟨r₁, r', hr₁, hr', hsame⟩ := extract_perm hc hseparate hperm
    obtain rfl := Except.ok.inj (hr.symm.trans hr₁)
    exact ⟨r', hr', hsame⟩
  · rintro e rfl
    have hshorts : ∀ f ∈ fields, f.kind = .option → ∀ short, f.short = some short →
      short.toNat < 128 →
        (declared line valueShorts).isValueShort short = true := by
      intro f hf hkind short hshort hascii
      have hmask : shortMask short = some (1#128 <<< short.toNat) := if_pos hascii
      rw [isValueShort, hmask, Option.any_some, decide_eq_true_eq]
      exact hdeclared f hf hkind short _ hshort hmask
    have heq := extract_eq hc hseparate
    rcases htake : (declared line valueShorts).takeFields fields with err | ⟨taken, next⟩
    · rw [htake] at heq
      cases hr.symm.trans heq
    simp only [htake] at heq
    rcases hpos : next.takePositionals ((declared line valueShorts).line.len + 1) with
      p | err | ⟨positionals, last⟩
    · rw [hpos] at heq
      exact heq.elim
    · rw [hpos] at heq
      cases hr.symm.trans heq
    · simp only [hpos] at heq
      obtain ⟨hextract, middle, hrun⟩ := heq
      obtain rfl := Except.ok.inj (Except.ok.inj (hr.symm.trans hextract))
      exact hrun.accounted hlen hdistinct hshorts

/-- `-ao out`, for a flag and an option. -/
theorem extract_independent_cluster :
    ∃ r, (declared ⟨[0x2d, 0x61, 0x6f, 0x6f, 0x75, 0x74], [⟨0, 3⟩, ⟨3, 6⟩]⟩
      (1#128 <<< 0x6f)).extract [⟨.flag, none, some 'a'⟩, ⟨.option, none, some 'o'⟩] = .ok r ∧
      ∃ r', (declared ⟨[0x2d, 0x61, 0x6f, 0x6f, 0x75, 0x74], [⟨0, 3⟩, ⟨3, 6⟩]⟩
        (1#128 <<< 0x6f)).extract
        [⟨.option, none, some 'o'⟩, ⟨.flag, none, some 'a'⟩] = .ok r' ∧ SameResult r r' := by
  obtain ⟨r, hr, hperm, -⟩ := extract_independent
    ⟨[0x2d, 0x61, 0x6f, 0x6f, 0x75, 0x74], [⟨0, 3⟩, ⟨3, 6⟩]⟩ (by decide) (1#128 <<< 0x6f)
    [⟨.flag, none, some 'a'⟩, ⟨.option, none, some 'o'⟩]
    (by simp [Field.Distinct]) (by simp [Field.Ambiguous]) (by simp [shortMask])
  exact ⟨r, hr, hperm _ (List.Perm.swap ..)⟩

/-- The token `--a=b` is a flag of that name to one field and the value of `--a` to another. -/
theorem order_matters :
    [(⟨.flag, some ['a', '=', 'b'], none⟩ : Field), ⟨.option, some ['a'], none⟩].Pairwise
      Field.Distinct ∧ ∃ e e', (declared ⟨[0x2d, 0x2d, 0x61, 0x3d, 0x62], [⟨0, 5⟩]⟩ 0).extract
        [⟨.flag, some ['a', '=', 'b'], none⟩, ⟨.option, some ['a'], none⟩] = .ok (.ok e) ∧
      (declared ⟨[0x2d, 0x2d, 0x61, 0x3d, 0x62], [⟨0, 5⟩]⟩ 0).extract
        [⟨.option, some ['a'], none⟩, ⟨.flag, some ['a', '=', 'b'], none⟩] = .ok (.ok e') ∧
      ¬ SameResult (.ok e) (.ok e') := by
  refine ⟨by simp [Field.Distinct], _, _, rfl, rfl, ?_⟩
  rintro ⟨hperm, -⟩
  exact absurd hperm (by decide)

end ArgCursor

end Microtun.Cli
