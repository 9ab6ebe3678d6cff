import Microtun.Cli.Effects

/-! The fields of a command. Every `take_` function looks at one token after the other; what it
finds at one token depends only on what is recorded about that token and the next. -/

namespace Microtun.Cli

inductive FieldKind where
  | flag
  | flagCount
  | option
deriving DecidableEq, Repr

/-- A flag, a counted flag or an option, by its names. -/
structure Field where
  kind : FieldKind
  long : Option Str
  short : Option Char
deriving DecidableEq, Repr

inductive Value where
  | flag (given : Bool)
  | flagCount (count : Nat)
  | option (value : Option Str)
deriving DecidableEq, Repr

/-- What a field finds at a token. -/
structure Hit where
  result : Except ParseError Value
  effects : List Effect

/-- How often a counted flag is found. -/
def Hit.count (h : Hit) : Nat :=
  match h.result with
  | .ok (.flagCount n) => n
  | _ => 0

namespace Field

/-- Extract a field. -/
def take (f : Field) (c : ArgCursor) : Except ParseError Value × ArgCursor :=
  match f.kind with
  | .flag =>
    let (given, c) := c.takeFlag f.long f.short
    (.ok (.flag given), c)
  | .flagCount =>
    let (count, c) := c.takeFlagCount f.long f.short
    (.ok (.flagCount count), c)
  | .option =>
    let (value, c) := c.takeOption f.long f.short
    (value.map .option, c)

/-- The token after an index as the value of an option. -/
def detachedHit (c : ArgCursor) (i : Nat) : Hit :=
  if c.line.len ≤ i + 1 || c.isConsumed (i + 1) then ⟨.error (.forArgument .missingValue "option"),
    []⟩
  else match c.line.arg (i + 1) with
  | .error e => ⟨.error e, []⟩
  | .ok token =>
    if isOptionLike token then ⟨.error (.forArgument .missingValue "option"), []⟩
    else ⟨.ok (.option (some token)), [.consume (i + 1)]⟩

/-- What a token that is a long name is to a field. -/
def longHit (f : Field) (c : ArgCursor) (i : Nat) : Hit :=
  match f.kind with
  | .flag => ⟨.ok (.flag true), [.consume i]⟩
  | .flagCount => ⟨.ok (.flagCount 1), [.consume i]⟩
  | .option =>
    let h := detachedHit c i
    ⟨h.result, .consume i :: h.effects⟩

/-- The value after a letter of a cluster, which an equals sign may introduce. -/
def clusterValue : Str → Str
  | '=' :: value => value
  | value => value

/-- What a cluster with the short name is to a field. -/
def shortHit (f : Field) (c : ArgCursor) (i : Nat) (short : Char) (body after : Str) : Hit :=
  match f.kind with
  | .flag => ⟨.ok (.flag true), [.claim i short]⟩
  | .flagCount => ⟨.ok (.flagCount (min (c.countShort short body) 255)), [.claim i short]⟩
  | .option =>
    if after = [] then
      let h := detachedHit c i
      ⟨h.result, .claim i short :: .takeValue i :: h.effects⟩
    else ⟨.ok (.option (some (clusterValue after))), [.claim i short, .takeValue i]⟩

def isLong (f : Field) (token : Str) : Bool := f.long.any (longMatches token)

/-- The value that is attached to the long name of an option. -/
def attached (f : Field) (token : Str) : Option Str :=
  if f.kind = .option then f.long.bind fun long =>
    (optionTerminator ++ long ++ ['=']).isPrefixOf? token
  else none

/-- The short name in a cluster: the cluster and what follows the name in it. -/
def located (f : Field) (c : ArgCursor) (token : Str) : Option (Char × Str × Str) :=
  f.short.bind fun short => (shortCluster token).bind fun body =>
    (c.locateShort short body).map fun after => (short, body, after)

/-- What a field finds at an index. -/
def hit (f : Field) (c : ArgCursor) (i : Nat) : Option Hit :=
  if c.isConsumed i then none
  else match c.line.arg i with
  | .error e => if f.kind = .option then some ⟨.error e, []⟩ else none
  | .ok token =>
    if f.isLong token then some (f.longHit c i)
    else match f.attached token with
    | some value => some ⟨.ok (.option (some value)), [.consume i]⟩
    | none =>
      match f.located c token with
      | none => none
      | some (short, body, after) =>
        if c.shortUsed i short then none else some (f.shortHit c i short body after)

/-- What a field finds in the line: its value and what it records. -/
def scan (f : Field) (c : ArgCursor) : Except ParseError Value × List Effect :=
  match f.kind with
  | .flag =>
    match (List.range c.optionsEnd).findSome? (f.hit c) with
    | some h => (h.result, h.effects)
    | none => (.ok (.flag false), [])
  | .flagCount =>
    let hits := (List.range c.optionsEnd).filterMap (f.hit c)
    (.ok (.flagCount (hits.foldl (fun count h => min (count + h.count) 255) 0)),
      hits.flatMap (·.effects))
  | .option =>
    match (List.range c.optionsEnd).findSome? (f.hit c) with
    | some h => (h.result, h.effects)
    | none => (.ok (.option none), [])

variable {f : Field} {c c' : ArgCursor} {i : Nat} {h : Hit}

theorem findSome?_congr {α β : Type} {p q : α → Option β} {l : List α} (h : ∀ a ∈ l, p a = q a) :
    l.findSome? p = l.findSome? q := by
  induction l with
  | nil => rfl
  | cons a l ih =>
    obtain ⟨ha, hl⟩ := List.forall_mem_cons.mp h
    rw [List.findSome?_cons, List.findSome?_cons, ha, ih hl]

/-- The token of a hit and how the field is named in it. -/
theorem hit_cases (hh : f.hit c i = some h) : c.isConsumed i = false ∧
    ((∃ e, c.line.arg i = .error e ∧ f.kind = .option ∧ h = ⟨.error e, []⟩) ∨
      ∃ token, c.line.arg i = .ok token ∧ ((f.isLong token = true ∧ h = f.longHit c i) ∨
          (∃ value, f.attached token = some value ∧ h =
            ⟨.ok (.option (some value)), [.consume i]⟩) ∨
          ∃ short body after, f.located c token = some (short, body, after) ∧
            c.shortUsed i short = false ∧ h = f.shortHit c i short body after)) := by
  unfold hit at hh
  split at hh
  · exact nomatch hh
  rename_i hconsumed
  refine ⟨Bool.eq_false_iff.mpr hconsumed, ?_⟩
  cases harg : c.line.arg i with
  | error e =>
    simp only [harg] at hh
    split at hh
    · rename_i hkind
      exact .inl ⟨e, rfl, hkind, (Option.some.inj hh).symm⟩
    · exact nomatch hh
  | ok token =>
    simp only [harg] at hh
    refine .inr ⟨token, rfl, ?_⟩
    split at hh
    · rename_i hlong
      exact .inl ⟨hlong, (Option.some.inj hh).symm⟩
    cases hattached : f.attached token with
    | some value =>
      simp only [hattached] at hh
      exact .inr (.inl ⟨value, rfl, (Option.some.inj hh).symm⟩)
    | none =>
      simp only [hattached] at hh
      cases hlocated : f.located c token with
      | none =>
        rw [hlocated] at hh
        exact nomatch hh
      | some found =>
        obtain ⟨short, body, after⟩ := found
        simp only [hlocated] at hh
        split at hh
        · exact nomatch hh
        · rename_i hused
          exact .inr (.inr ⟨short, body, after, rfl, Bool.eq_false_iff.mpr hused,
            (Option.some.inj hh).symm⟩)

theorem clusterValue_of_ne {after : Str} (h : ∀ value, after ≠ '=' :: value) :
    clusterValue after = after := by
  unfold clusterValue
  split
  · rename_i value
    exact absurd rfl (h value)
  · rfl

theorem kind_of_attached {token value : Str} (h : f.attached token = some value) :
    f.kind = .option := by
  unfold attached at h
  split at h
  · assumption
  · exact nomatch h

theorem flagAt_eq (hkind : f.kind = .flag) (c : ArgCursor) (i : Nat) :
    c.flagAt f.long f.short i = (f.hit c i).map fun h => c.applyAll h.effects := by
  unfold ArgCursor.flagAt hit
  by_cases hconsumed : c.isConsumed i = true
  · rw [if_pos hconsumed, if_pos hconsumed, Option.map_none]
  rw [if_neg hconsumed, if_neg hconsumed]
  cases c.line.arg i with
  | error e => simp [hkind]
  | ok token =>
    by_cases hlong : f.isLong token = true
    · have hnamed : f.long.any (longMatches token) = true := hlong
      simp only [if_pos hlong, if_pos hnamed, longHit, hkind]
      rfl
    have hnamed : ¬ f.long.any (longMatches token) = true := hlong
    simp only [if_neg hlong, if_neg hnamed, attached, hkind, reduceCtorEq, if_false, located]
    cases f.short with
    | none => rfl
    | some short =>
      cases shortCluster token with
      | none => rfl
      | some body =>
        simp only [Option.bind_some]
        cases c.locateShort short body with
        | none => rfl
        | some after =>
          simp only [Option.map_some, shortHit, hkind]
          cases hused : c.shortUsed i short with
          | true => rfl
          | false => rfl

theorem hit_flag (hkind : f.kind = .flag) (hh : f.hit c i = some h) :
    h.result = .ok (.flag true) := by
  obtain ⟨-, ⟨-, -, hoption, -⟩ | ⟨token, -,
    ⟨-, rfl⟩ | ⟨value, hvalue, -⟩ | ⟨short, body, after, -, -, rfl⟩⟩⟩ :=
    hit_cases hh
  · exact nomatch hkind.symm.trans hoption
  · simp only [longHit, hkind]
  · exact nomatch hkind.symm.trans (kind_of_attached hvalue)
  · simp only [shortHit, hkind]

theorem takeFlag_eq (hkind : f.kind = .flag) (c : ArgCursor) :
    f.take c = ((f.scan c).1, c.applyAll (f.scan c).2) := by
  have hfind : (List.range c.optionsEnd).findSome? (c.flagAt f.long f.short) =
      ((List.range c.optionsEnd).findSome? (f.hit c)).map fun h => c.applyAll h.effects := by
    rw [List.map_findSome?]
    exact congrArg (List.findSome? · _) (funext (flagAt_eq hkind c))
  unfold take scan
  simp only [hkind, ArgCursor.takeFlag, hfind]
  cases hfound : (List.range c.optionsEnd).findSome? (f.hit c) with
  | none => rfl
  | some h =>
    obtain ⟨i, -, hi⟩ := List.exists_of_findSome?_eq_some hfound
    simp only [Option.map_some, hit_flag hkind hi]

/-- The value of an option is taken from the token after it, whatever else is recorded there. -/
theorem takeDetachedValue_eq (d : ArgCursor) (hline : d.line = c.line)
    (hconsumed : d.isConsumed (i + 1) = c.isConsumed (i + 1)) :
    (d.takeDetachedValue i "option" false).1.map (fun value => Value.option (some value)) =
      (detachedHit c i).result ∧
    (d.takeDetachedValue i "option" false).2 = d.applyAll (detachedHit c i).effects := by
  unfold ArgCursor.takeDetachedValue detachedHit
  simp only [hline, hconsumed]
  by_cases hend : (decide (c.line.len ≤ i + 1) || c.isConsumed (i + 1)) = true
  · simp only [if_pos hend]
    exact ⟨rfl, rfl⟩
  · simp only [if_neg hend]
    cases c.line.arg (i + 1) with
    | error e => exact ⟨rfl, rfl⟩
    | ok token =>
      cases hlike : isOptionLike token with
      | true => simp [Except.map, hlike, ArgCursor.applyAll]
      | false => simp [Except.map, hlike, ArgCursor.applyAll, Effect.apply]

theorem recorded_line (c : ArgCursor) (i : Nat) (short : Char) :
    ((c.recordShortUse i short).recordValueTaken i).line = c.line ∧
      ∀ j, ((c.recordShortUse i short).recordValueTaken i).isConsumed j = c.isConsumed j := by
  refine ⟨?_, fun j => ?_⟩
  · exact (ArgCursor.apply_fixed _ (.takeValue i)).1.trans
      (ArgCursor.apply_fixed c (.claim i short)).1
  · rw [ArgCursor.recordValueTaken, ArgCursor.isConsumed_eq, (ArgCursor.modifySlot_line ..).2.2.2,
      ← ArgCursor.isConsumed_eq, ArgCursor.isConsumed_recordShort]

theorem optionAt_eq (hkind : f.kind = .option) (hc : c.Sound) (hi : i < c.line.len) :
    (c.optionAt f.long f.short "option" false i).map
        (fun p => (p.1.map (fun value => Value.option (some value)), p.2)) =
      (f.hit c i).map fun h => (h.result, c.applyAll h.effects) := by
  have hbit : i < 64 := Nat.lt_of_lt_of_le hi (Nat.le_trans hc.len_le (by decide))
  unfold ArgCursor.optionAt hit
  by_cases hconsumed : c.isConsumed i = true
  · simp only [if_pos hconsumed, Option.map_none]
  simp only [if_neg hconsumed]
  cases c.line.arg i with
  | error e =>
    simp only [hkind, if_true, Option.map_some]
    rfl
  | ok token =>
    by_cases hlong : f.isLong token = true
    · have hnamed : f.long.any (longMatches token) = true := hlong
      have hnext : (c.consume i).isConsumed (i + 1) = c.isConsumed (i + 1) := by
        rw [ArgCursor.isConsumed_consume hbit]
        simp
      obtain ⟨hresult, hcursor⟩ := takeDetachedValue_eq (c := c) (c.consume i) rfl hnext
      simp only [if_pos hlong, if_pos hnamed, longHit, hkind, Option.map_some, hresult, hcursor]
      rfl
    have hnamed : ¬ f.long.any (longMatches token) = true := hlong
    have hattached : f.attached token =
        f.long.bind fun long => (optionTerminator ++ long ++ ['=']).isPrefixOf? token :=
          if_pos hkind
    simp only [if_neg hlong, if_neg hnamed, hattached]
    cases f.long.bind fun long => (optionTerminator ++ long ++ ['=']).isPrefixOf? token with
    | some value => rfl
    | none =>
      simp only [located]
      cases f.short with
      | none => rfl
      | some short =>
        cases hbody : shortCluster token with
        | none => cases hused : c.shortUsed i short <;> simp [hused]
        | some body =>
          simp only [Option.bind_some]
          cases hafter : c.locateShort short body with
          | none => cases c.shortUsed i short <;> simp
          | some after =>
            cases hused : c.shortUsed i short with
            | true => simp [hused]
            | false =>
              simp only [Bool.false_eq_true, if_false, Option.map_some, shortHit, hkind, hused]
              split
              · rfl
              · obtain ⟨hline, hnext⟩ := recorded_line c i short
                obtain ⟨hresult, hcursor⟩ := takeDetachedValue_eq (c := c) _ hline (hnext (i + 1))
                simp only [Option.map_some, hresult, hcursor, if_true]
                rfl
              · rename_i hequals hnil
                rw [if_neg hnil, clusterValue_of_ne hequals]
                rfl

theorem takeOption_eq (hkind : f.kind = .option) (hc : c.Sound) :
    f.take c = ((f.scan c).1, c.applyAll (f.scan c).2) := by
  have hfind : ((List.range c.optionsEnd).findSome? (c.optionAt f.long f.short "option" false)).map
        (fun p => (p.1.map (fun value => Value.option (some value)), p.2)) =
      ((List.range c.optionsEnd).findSome? (f.hit c)).map fun h =>
        (h.result, c.applyAll h.effects) := by
    rw [List.map_findSome?, List.map_findSome?]
    refine findSome?_congr fun i hi => ?_
    exact optionAt_eq hkind hc (Nat.lt_of_lt_of_le (List.mem_range.mp hi) hc.optionsEnd_le)
  unfold take scan
  simp only [hkind, ArgCursor.takeOption, ArgCursor.takeOptionNamed]
  cases hfound : (List.range c.optionsEnd).findSome? (f.hit c) with
  | none =>
    rw [hfound, Option.map_none, Option.map_eq_none_iff] at hfind
    rw [hfind]
    rfl
  | some h =>
    rw [hfound, Option.map_some, Option.map_eq_some_iff] at hfind
    obtain ⟨⟨result, cursor⟩, hsome, heq⟩ := hfind
    obtain ⟨hresult, hcursor⟩ := Prod.mk.inj heq
    rw [hsome]
    cases result with
    | error e => exact Prod.ext hresult hcursor
    | ok value => exact Prod.ext hresult hcursor

theorem isValueShort_eq (h : ArgCursor.On c c') (ch : Char) : c'.isValueShort ch =
    c.isValueShort ch := by
  rw [ArgCursor.isValueShort, ArgCursor.isValueShort, h.valueShorts]

theorem locateShort_eq (h : ArgCursor.On c c') (short : Char) (body : Str) :
    c'.locateShort short body = c.locateShort short body := by
  induction body with
  | nil => rfl
  | cons ch body ih => simp only [ArgCursor.locateShort, isValueShort_eq h, ih]

theorem countShort_eq (h : ArgCursor.On c c') (short : Char) (body : Str) :
    c'.countShort short body = c.countShort short body := by
  induction body with
  | nil => rfl
  | cons ch body ih => simp only [ArgCursor.countShort, isValueShort_eq h, ih]

theorem located_eq (h : ArgCursor.On c c') (f : Field) (token : Str) :
    f.located c' token = f.located c token := by
  unfold located
  simp only [locateShort_eq h]

theorem located_iff {token : Str} {short : Char} {body after : Str} :
    f.located c token = some (short, body, after) ↔
      f.short = some short ∧ shortCluster token = some body ∧ c.locateShort short body =
        some after := by
  unfold located
  constructor
  · intro h
    obtain ⟨short', hshort, h⟩ := Option.bind_eq_some_iff.mp h
    obtain ⟨body', hbody, h⟩ := Option.bind_eq_some_iff.mp h
    obtain ⟨after', hafter, h⟩ := Option.map_eq_some_iff.mp h
    obtain ⟨rfl, hpair⟩ := Prod.mk.inj h
    obtain ⟨rfl, rfl⟩ := Prod.mk.inj hpair
    exact ⟨hshort, hbody, hafter⟩
  · rintro ⟨hshort, hbody, hafter⟩
    simp [hshort, hbody, hafter]

theorem countShort_pos (c : ArgCursor) (short : Char) (body : Str) :
    0 < c.countShort short body ↔ (c.locateShort short body).isSome := by
  induction body with
  | nil => simp [ArgCursor.countShort, ArgCursor.locateShort]
  | cons ch body ih =>
    simp only [ArgCursor.countShort, ArgCursor.locateShort]
    split
    · simp
    split
    · simp
    · exact ih

theorem countAt_eq (hkind : f.kind = .flagCount) (c : ArgCursor) (n i : Nat) :
    c.countAt f.long f.short n i =
      match f.hit c i with
      | none => (n, c)
      | some h => (min (n + h.count) 255, c.applyAll h.effects) := by
  unfold ArgCursor.countAt hit
  by_cases hconsumed : c.isConsumed i = true
  · simp only [if_pos hconsumed]
  simp only [if_neg hconsumed]
  cases c.line.arg i with
  | error e => simp [hkind]
  | ok token =>
    by_cases hlong : f.isLong token = true
    · have hnamed : f.long.any (longMatches token) = true := hlong
      simp only [if_pos hlong, if_pos hnamed, longHit, hkind]
      rfl
    have hnamed : ¬ f.long.any (longMatches token) = true := hlong
    simp only [if_neg hlong, if_neg hnamed, attached, hkind, reduceCtorEq, if_false, located]
    cases f.short with
    | none => rfl
    | some short =>
      cases shortCluster token with
      | none => rfl
      | some body =>
        have hpos := countShort_pos c short body
        simp only [Option.bind_some]
        cases hafter : c.locateShort short body with
        | none =>
          rw [hafter] at hpos
          simp [Nat.eq_zero_of_not_pos (by simpa using hpos.not)]
        | some after =>
          rw [hafter] at hpos
          simp only [hpos.mpr rfl, decide_true, Bool.true_and, Option.map_some, shortHit, hkind]
          cases hused : c.shortUsed i short with
          | true => rfl
          | false => rfl

/-- A token that is a name of a field as a whole. -/
def Names (f : Field) (token : Str) : Prop := f.isLong token = true ∨ (f.attached token).isSome

/-- A token that names a field without its value. -/
def Detaches (f : Field) (c : ArgCursor) (token : Str) : Prop :=
  f.kind = .option ∧ (f.isLong token = true ∨ ∃ short body, f.located c token =
    some (short, body, []))

/-- What a field finds depends on what is recorded at the token, and for an option without its value
on the next token. -/
theorem hit_local (h : ArgCursor.On c c') (hconsumed : c'.isConsumed i = c.isConsumed i)
    (hused : ∀ short, f.short = some short → c'.shortUsed i short = c.shortUsed i short)
    (hnext : ∀ token, c.line.arg i = .ok token → f.Detaches c token →
      detachedHit c' i = detachedHit c i) : f.hit c' i = f.hit c i := by
  unfold hit
  rw [hconsumed, h.line]
  split
  · rfl
  cases harg : c.line.arg i with
  | error e => rfl
  | ok token =>
    have hlong : f.isLong token = true → f.longHit c' i = f.longHit c i := by
      intro hname
      unfold longHit
      cases hkind : f.kind with
      | option => simp only [hnext token harg ⟨hkind, .inl hname⟩]
      | flag => rfl
      | flagCount => rfl
    simp only [located_eq h]
    split
    · rename_i hname
      rw [hlong hname]
    cases f.attached token with
    | some value => rfl
    | none =>
      cases hfound : f.located c token with
      | none => rfl
      | some found =>
        obtain ⟨short, body, after⟩ := found
        have hshort : f.shortHit c' i short body after = f.shortHit c i short body after := by
          unfold shortHit
          cases hkind : f.kind with
          | option =>
            simp only
            split
            · rename_i hnil
              subst hnil
              rw [hnext token harg ⟨hkind, .inr ⟨short, body, hfound⟩⟩]
            · rfl
          | flag => rfl
          | flagCount => simp only [countShort_eq h]
        simp only [hused short (located_iff.mp hfound).1, hshort]

/-- A record that a field may make. -/
def Owns (f : Field) (c : ArgCursor) : Effect → Prop
  | .consume i => ∃ token, c.line.arg i = .ok token ∧ (f.Names token ∨
      isOptionLike token = false ∧ ∃ j word, i = j + 1 ∧ c.line.arg j = .ok word ∧
        f.Detaches c word)
  | .claim i short => ∃ token body after, c.line.arg i = .ok token ∧
      f.located c token = some (short, body, after)
  | .takeValue i => f.kind = .option ∧ ∃ token short body after, c.line.arg i = .ok token ∧
      f.located c token = some (short, body, after)

theorem arg_lt {l : Lexed} {token : Str} (h : l.arg i = .ok token) : i < l.len := by
  unfold Lexed.arg at h
  split at h
  · exact nomatch h
  · rename_i hsome
    exact (List.getElem?_eq_some_iff.mp hsome).1

theorem Owns.index_lt {e : Effect} (h : f.Owns c e) : e.index < c.line.len := by
  cases e with
  | consume i =>
    obtain ⟨token, harg, -⟩ := h
    exact arg_lt harg
  | claim i short =>
    obtain ⟨token, body, after, harg, -⟩ := h
    exact arg_lt harg
  | takeValue i =>
    obtain ⟨-, token, short, body, after, harg, -⟩ := h
    exact arg_lt harg

theorem detachedHit_owns {word : Str} (hword : c.line.arg i = .ok word) (h : f.Detaches c word) :
    ∀ e ∈ (detachedHit c i).effects, f.Owns c e := by
  intro e he
  unfold detachedHit at he
  split at he
  · exact nomatch he
  cases harg : c.line.arg (i + 1) with
  | error err =>
    rw [harg] at he
    exact nomatch he
  | ok token =>
    simp only [harg] at he
    split at he
    · exact nomatch he
    · rename_i hlike
      rw [List.mem_singleton.mp he]
      exact ⟨token, harg, .inr ⟨Bool.eq_false_iff.mpr hlike, i, word, rfl, hword, h⟩⟩

theorem hit_owns (hh : f.hit c i = some h) : ∀ e ∈ h.effects, f.Owns c e := by
  obtain ⟨-, ⟨-, -, -, rfl⟩ | ⟨token, harg, ⟨hlong, rfl⟩ | ⟨value, hvalue, rfl⟩ |
    ⟨short, body, after, hlocated, -, rfl⟩⟩⟩ := hit_cases hh
  · exact fun _ he => nomatch he
  · have hname : f.Owns c (.consume i) := ⟨token, harg, .inl (.inl hlong)⟩
    unfold longHit
    cases hkind : f.kind with
    | flag => exact List.forall_mem_singleton.mpr hname
    | flagCount => exact List.forall_mem_singleton.mpr hname
    | option =>
      exact List.forall_mem_cons.mpr ⟨hname, detachedHit_owns harg ⟨hkind, .inl hlong⟩⟩
  · have hsome : (f.attached token).isSome := by rw [hvalue]; rfl
    exact List.forall_mem_singleton.mpr ⟨token, harg, .inl (.inr hsome)⟩
  · have hclaim : f.Owns c (.claim i short) := ⟨token, body, after, harg, hlocated⟩
    unfold shortHit
    cases hkind : f.kind with
    | flag => exact List.forall_mem_singleton.mpr hclaim
    | flagCount => exact List.forall_mem_singleton.mpr hclaim
    | option =>
      have hvalue : f.Owns c (.takeValue i) := ⟨hkind, token, short, body, after, harg, hlocated⟩
      simp only
      split
      · rename_i hnil
        subst hnil
        exact List.forall_mem_cons.mpr ⟨hclaim, List.forall_mem_cons.mpr
          ⟨hvalue, detachedHit_owns harg ⟨hkind, .inr ⟨short, body, hlocated⟩⟩⟩⟩
      · exact List.forall_mem_cons.mpr ⟨hclaim, List.forall_mem_singleton.mpr hvalue⟩

/-- A flag records at the token where it is found. -/
theorem hit_here (hkind : f.kind ≠ .option) (hh : f.hit c i = some h) : ∀ e ∈ h.effects, e.index =
    i := by
  obtain ⟨-, ⟨-, -, hoption, -⟩ | ⟨token, -,
    ⟨-, rfl⟩ | ⟨value, hvalue, -⟩ | ⟨short, body, after, -, -, rfl⟩⟩⟩ :=
    hit_cases hh
  · exact absurd hoption hkind
  · unfold longHit
    cases hf : f.kind with
    | option => exact absurd hf hkind
    | flag => exact List.forall_mem_singleton.mpr rfl
    | flagCount => exact List.forall_mem_singleton.mpr rfl
  · exact absurd (kind_of_attached hvalue) hkind
  · unfold shortHit
    cases hf : f.kind with
    | option => exact absurd hf hkind
    | flag => exact List.forall_mem_singleton.mpr rfl
    | flagCount => exact List.forall_mem_singleton.mpr rfl

/-- The loop of `take_flag_count`, from tokens about which nothing was recorded since. -/
theorem foldl_countAt (hkind : f.kind = .flagCount) (h : ArgCursor.On c c') {l : List Nat}
    (hnodup : l.Nodup) (hsame : ∀ i ∈ l, c'.isConsumed i = c.isConsumed i ∧
    ∀ short, c'.shortUsed i short = c.shortUsed i short) (n : Nat) :
    l.foldl (fun (count, c) index => c.countAt f.long f.short count index) (n, c') =
      ((l.filterMap (f.hit c)).foldl (fun count h => min (count + h.count) 255) n,
        c'.applyAll ((l.filterMap (f.hit c)).flatMap (·.effects))) := by
  induction l generalizing c' n with
  | nil => rfl
  | cons i l ih =>
    obtain ⟨hi, hl⟩ := List.nodup_cons.mp hnodup
    obtain ⟨hhere, hrest⟩ := List.forall_mem_cons.mp hsame
    have hoption : f.kind ≠ .option := by rw [hkind]; decide
    have hhit : f.hit c' i = f.hit c i :=
      hit_local h hhere.1 (fun short _ => hhere.2 short) fun _ _ hf => absurd hf.1 hoption
    show l.foldl _ (c'.countAt f.long f.short n i) = _
    rw [countAt_eq hkind, hhit, List.filterMap_cons]
    cases hfound : f.hit c i with
    | none => exact ih h hl hrest n
    | some found =>
      have hlt : ∀ e ∈ found.effects, e.index < c.line.len :=
        fun e he => (hit_owns hfound e he).index_lt
      obtain ⟨hconsumed, hused, -⟩ := ArgCursor.applyAll_spec h hlt
      simp only [List.foldl_cons, List.flatMap_cons, ArgCursor.applyAll_append]
      refine ih (h.applyAll hlt) hl (fun j hj => ?_) _
      have hne : ∀ e ∈ found.effects, e.index ≠ j := by
        intro e he heq
        exact hi (hit_here hoption hfound e he ▸ heq ▸ hj)
      have hconsume : ¬ .consume j ∈ found.effects := fun he => hne _ he rfl
      have hclaim : ∀ short, ¬ .claim j short ∈ found.effects := fun short he => hne _ he rfl
      refine ⟨?_, fun short => ?_⟩
      · simp [hconsumed, hconsume, hrest j hj]
      · simp [hused, hclaim, hrest j hj]

theorem takeFlagCount_eq (hkind : f.kind = .flagCount) (hc : c.Sound) :
    f.take c = ((f.scan c).1, c.applyAll (f.scan c).2) := by
  unfold take scan
  simp only [hkind, ArgCursor.takeFlagCount]
  rw [foldl_countAt hkind ⟨rfl, rfl, rfl, hc⟩ List.nodup_range fun _ _ => ⟨rfl, fun _ => rfl⟩]

theorem take_eq (f : Field) (hc : c.Sound) : f.take c =
    ((f.scan c).1, c.applyAll (f.scan c).2) := by
  cases hkind : f.kind with
  | flag => exact takeFlag_eq hkind c
  | flagCount => exact takeFlagCount_eq hkind hc
  | option => exact takeOption_eq hkind hc

theorem mem_scan {e : Effect} (he : e ∈ (f.scan c).2) : ∃ i h, f.hit c i = some h ∧
    e ∈ h.effects := by
  unfold scan at he
  cases hkind : f.kind with
  | flagCount =>
    simp only [hkind] at he
    obtain ⟨h, hh, hmem⟩ := List.mem_flatMap.mp he
    obtain ⟨i, -, hi⟩ := List.mem_filterMap.mp hh
    exact ⟨i, h, hi, hmem⟩
  | flag | option =>
    simp only [hkind] at he
    cases hfound : (List.range c.optionsEnd).findSome? (f.hit c) with
    | none =>
      rw [hfound] at he
      exact nomatch he
    | some h =>
      simp only [hfound] at he
      obtain ⟨i, -, hi⟩ := List.exists_of_findSome?_eq_some hfound
      exact ⟨i, h, hi, he⟩

theorem scan_owns (f : Field) (c : ArgCursor) : ∀ e ∈ (f.scan c).2, f.Owns c e := by
  intro e he
  obtain ⟨i, h, hh, hmem⟩ := mem_scan he
  exact hit_owns hh e hmem

end Field

end Microtun.Cli
