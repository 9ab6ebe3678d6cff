import Mathlib.Data.List.Pairwise
import Microtun.Cli.Fields

/-! Fields with different names do not see each other: what one of them records changes nothing of
what another finds. -/

namespace Microtun.Cli

/-- A part of an option's long name before an equals sign is a long name as well. -/
def Field.Ambiguous (f g : Field) : Prop :=
  f.kind = .option ∧ ∃ a b, f.long = some a ∧ g.long = some b ∧ a ++ ['='] <+: b

/-- No name of two fields is the same. -/
def Field.Distinct (f g : Field) : Prop :=
  (∀ a, f.long = some a → g.long ≠ some a) ∧ ∀ short, f.short = some short → g.short ≠ some short

instance : Std.Symm Field.Distinct :=
  ⟨fun _ _ h => ⟨fun a hg hf => h.1 a hf hg, fun s hg hf => h.2 s hf hg⟩⟩

/-- No token names two fields. -/
structure Field.Separate (f g : Field) : Prop where
  distinct : f.Distinct g
  forth : ¬ f.Ambiguous g
  back : ¬ g.Ambiguous f

theorem Field.Separate.symm {f g : Field} (h : f.Separate g) : g.Separate f where
  distinct := Std.Symm.symm _ _ h.distinct
  forth := h.back
  back := h.forth

theorem isPrefixOf?_eq_some {l m rest : Str} : l.isPrefixOf? m = some rest ↔ m = l ++ rest := by
  induction l generalizing m with
  | nil => simp [List.isPrefixOf?, eq_comm]
  | cons ch l ih =>
    cases m with
    | nil => simp [List.isPrefixOf?]
    | cons d m =>
      rw [List.isPrefixOf?]
      by_cases hch : ch = d
      · simp [hch, ih]
      · simp [hch, Ne.symm hch]

theorem prefix_of_append_eq {a b x y : Str} (h : a ++ x = b ++ y) (hlen : a.length ≤ b.length) :
    a <+: b :=
  List.prefix_of_prefix_length_le ⟨x, h⟩ ⟨y, rfl⟩ hlen

namespace Field

variable {f g : Field} {c : ArgCursor} {i : Nat} {token : Str}

theorem isLong_iff : f.isLong token = true ↔
    ∃ a, f.long = some a ∧ token = optionTerminator ++ a := by
  unfold isLong longMatches
  rw [Option.any_eq_true]
  simp only [Option.any_eq_true, isPrefixOf?_eq_some, decide_eq_true_eq, exists_eq_right]

theorem attached_iff {value : Str} : f.attached token = some value ↔
    f.kind = .option ∧ ∃ a, f.long = some a ∧ token = optionTerminator ++ a ++ ['='] ++ value := by
  unfold attached
  split
  · rename_i hkind
    rw [Option.bind_eq_some_iff]
    simp only [isPrefixOf?_eq_some, hkind, true_and]
  · rename_i hkind
    simp [hkind]

theorem names_iff : f.Names token ↔ ∃ a, f.long = some a ∧ (token = optionTerminator ++ a ∨
    f.kind = .option ∧ ∃ value, token = optionTerminator ++ a ++ ['='] ++ value) := by
  unfold Names
  rw [isLong_iff, Option.isSome_iff_exists]
  simp only [attached_iff]
  constructor
  · rintro (⟨a, ha, htoken⟩ | ⟨value, hkind, a, ha, htoken⟩)
    · exact ⟨a, ha, .inl htoken⟩
    · exact ⟨a, ha, .inr ⟨hkind, value, htoken⟩⟩
  · rintro ⟨a, ha, htoken | ⟨hkind, value, htoken⟩⟩
    · exact .inl ⟨a, ha, htoken⟩
    · exact .inr ⟨value, hkind, a, ha, htoken⟩

/-- A token that names a field as a whole is no cluster and no value. -/
theorem Names.not_cluster (h : f.Names token) : shortCluster token = none ∧
    isOptionLike token = true := by
  have hstart : ∃ rest, token = '-' :: '-' :: rest := by
    obtain ⟨a, -, rfl | ⟨-, value, rfl⟩⟩ := names_iff.mp h
    · exact ⟨a, rfl⟩
    · exact ⟨a ++ ['='] ++ value, by simp [optionTerminator]⟩
  obtain ⟨rest, rfl⟩ := hstart
  simp [shortCluster, isOptionLike, isNegativeNumber, List.isPrefixOf]

theorem cluster_like {body : Str} (h : shortCluster token = some body) : isOptionLike token =
    true := by
  unfold shortCluster at h
  unfold isOptionLike
  split at h
  · exact nomatch h
  split at h
  · exact nomatch h
  · rename_i hstart hnumber
    simp only [Bool.or_eq_true, not_or, Bool.not_eq_true, Bool.not_eq_false',
      beq_eq_false_iff_ne] at hstart hnumber
    simp [hstart, hnumber]

theorem Separate.names (h : f.Separate g) (hf : f.Names token) : ¬ g.Names token := by
  intro hg
  obtain ⟨a, ha, htoken⟩ := names_iff.mp hf
  obtain ⟨b, hb, htoken'⟩ := names_iff.mp hg
  have hne : a ≠ b := fun heq => h.distinct.1 a ha (heq ▸ hb)
  rcases htoken with rfl | ⟨hkind, value, rfl⟩
  · rcases htoken' with heq | ⟨hkind', value', heq⟩
    · exact hne (List.append_cancel_left heq)
    · rw [List.append_assoc, List.append_assoc] at heq
      have hprefix : b ++ ['='] <+: a :=
        ⟨value', by rw [List.append_cancel_left heq, List.append_assoc]⟩
      exact h.back ⟨hkind', b, a, hb, ha, hprefix⟩
  · rcases htoken' with heq | ⟨hkind', value', heq⟩
    · rw [List.append_assoc, List.append_assoc] at heq
      have hprefix : a ++ ['='] <+: b :=
        ⟨value, by rw [← List.append_cancel_left heq, List.append_assoc]⟩
      exact h.forth ⟨hkind, a, b, ha, hb, hprefix⟩
    · simp only [List.append_assoc] at heq
      have heq := List.append_cancel_left heq
      rcases Nat.lt_trichotomy a.length b.length with hlt | hlen | hlt
      · have hprefix : a ++ ['='] <+: b :=
          prefix_of_append_eq ((List.append_assoc ..).trans heq)
            (by rw [List.length_append]; exact hlt)
        exact h.forth ⟨hkind, a, b, ha, hb, hprefix⟩
      · exact hne (List.append_inj_left heq hlen)
      · have hprefix : b ++ ['='] <+: a :=
          prefix_of_append_eq ((List.append_assoc ..).trans heq.symm)
            (by rw [List.length_append]; exact hlt)
        exact h.back ⟨hkind', b, a, hb, ha, hprefix⟩

theorem locateShort_last {short : Char} {body : Str} (h : c.locateShort short body = some []) :
    body.getLast? = some short := by
  induction body with
  | nil => cases h
  | cons ch body ih =>
    rw [ArgCursor.locateShort] at h
    split at h
    · rename_i hch
      rw [Option.some.inj h, hch]
      rfl
    split at h
    · cases h
    · have hlast := ih h
      cases body with
      | nil => cases hlast
      | cons d rest => rw [List.getLast?_cons_cons, hlast]

theorem Separate.detaches (h : f.Separate g) (hf : f.Detaches c token) : ¬ g.Detaches c token := by
  rintro ⟨-, hg⟩
  obtain ⟨-, hf⟩ := hf
  rcases hf with hlong | ⟨short, body, hlocated⟩
  · have hname : f.Names token := .inl hlong
    rcases hg with hlong' | ⟨short', body', hlocated'⟩
    · exact h.names hname (.inl hlong')
    · exact nomatch hname.not_cluster.1.symm.trans (located_iff.mp hlocated').2.1
  · obtain ⟨hshort, hbody, hafter⟩ := located_iff.mp hlocated
    rcases hg with hlong' | ⟨short', body', hlocated'⟩
    · have hname : g.Names token := .inl hlong'
      exact nomatch hname.not_cluster.1.symm.trans hbody
    · obtain ⟨hshort', hbody', hafter'⟩ := located_iff.mp hlocated'
      obtain rfl := Option.some.inj (hbody.symm.trans hbody')
      have hsame := Option.some.inj
        ((locateShort_last hafter).symm.trans (locateShort_last hafter'))
      exact h.distinct.2 short hshort (hsame ▸ hshort')

/-- A record that leaves what a field finds as it is. -/
def Foreign (f : Field) (c : ArgCursor) : Effect → Prop
  | .consume i => ∃ token, c.line.arg i = .ok token ∧ ¬ f.Names token ∧ f.located c token = none ∧
      (isOptionLike token = true ∨ ∀ j word, i = j + 1 → c.line.arg j = .ok word →
        ¬ f.Detaches c word)
  | .claim _ short => f.short ≠ some short
  | .takeValue _ => True

theorem Owns.foreign (h : f.Separate g) {e : Effect} (he : f.Owns c e) : g.Foreign c e := by
  cases e with
  | takeValue i => trivial
  | claim i short =>
    obtain ⟨token, body, after, -, hlocated⟩ := he
    exact h.distinct.2 short (located_iff.mp hlocated).1
  | consume i =>
    obtain ⟨token, harg, hname | ⟨hlike, j, word, rfl, hword, hdetaches⟩⟩ := he
    · refine ⟨token, harg, h.names hname, ?_, .inl hname.not_cluster.2⟩
      cases hlocated : g.located c token with
      | none => rfl
      | some found =>
        exact nomatch hname.not_cluster.1.symm.trans (located_iff.mp hlocated).2.1
    · refine ⟨token, harg, ?_, ?_, .inr ?_⟩
      · intro hname
        exact nomatch hlike.symm.trans hname.not_cluster.2
      · cases hlocated : g.located c token with
        | none => rfl
        | some found =>
          exact nomatch hlike.symm.trans (cluster_like (located_iff.mp hlocated).2.1)
      · intro j' word' hj hword'
        obtain rfl := Nat.succ.inj hj
        obtain rfl := Except.ok.inj (hword.symm.trans hword')
        exact h.detaches hdetaches

theorem hit_none (harg : c.line.arg i = .ok token) (hname : ¬ f.Names token)
    (hlocated : f.located c token = none) : f.hit c i = none := by
  have hlong : ¬ f.isLong token = true := fun h => hname (.inl h)
  have hattached : f.attached token = none := by
    cases hvalue : f.attached token with
    | none => rfl
    | some value => exact absurd (.inr (by rw [hvalue]; rfl)) hname
  unfold hit
  split
  · rfl
  · simp only [harg, if_neg hlong, hattached, hlocated]

/-- Foreign records leave what a field finds at a token as it is. -/
theorem hit_foreign (hc : c.Sound) {es : List Effect} (hlt : ∀ e ∈ es, e.index < c.line.len)
    (hes : ∀ e ∈ es, f.Foreign c e) (i : Nat) : f.hit (c.applyAll es) i = f.hit c i := by
  have hon : ArgCursor.On c c := ⟨rfl, rfl, rfl, hc⟩
  obtain ⟨hconsumed, hused, -⟩ := ArgCursor.applyAll_spec hon hlt
  have hafter := hon.applyAll hlt
  by_cases hmem : .consume i ∈ es
  · obtain ⟨token, harg, hname, hlocated, -⟩ := hes _ hmem
    rw [hit_none harg hname hlocated]
    have hnow : (c.applyAll es).isConsumed i = true := by simp [hconsumed, hmem]
    rw [hit, if_pos hnow]
  refine hit_local hafter ?_ ?_ ?_
  · simp [hconsumed, hmem]
  · intro short hshort
    have hclaim : ¬ .claim i short ∈ es := fun h => hes _ h hshort
    simp [hused, hclaim]
  · intro word hword hdetaches
    unfold detachedHit
    rw [hafter.line, hconsumed]
    by_cases hnext : .consume (i + 1) ∈ es
    · -- The next token is taken by another field, so it is no value.
      obtain ⟨token, harg, -, -, hlike | hother⟩ := hes _ hnext
      · simp [hnext, harg, hlike]
      · exact absurd hdetaches (hother i word rfl hword)
    · simp [hnext]

theorem scan_foreign (hc : c.Sound) {es : List Effect} (hlt : ∀ e ∈ es, e.index < c.line.len)
    (hes : ∀ e ∈ es, f.Foreign c e) : f.scan (c.applyAll es) = f.scan c := by
  have hon : ArgCursor.On c c := ⟨rfl, rfl, rfl, hc⟩
  have hhit : f.hit (c.applyAll es) = f.hit c := funext (hit_foreign hc hlt hes)
  unfold scan
  rw [hhit, (hon.applyAll hlt).optionsEnd]

end Field

end Microtun.Cli
