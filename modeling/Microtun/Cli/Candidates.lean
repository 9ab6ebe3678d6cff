import Microtun.Cli.Completion

/-! What the candidates of a completion are. -/

namespace Microtun.Cli.Completion

/-- The name of an option with a value attached to it: `--name=`, `-s=` or `-s`. -/
def IsHead (head : Str) : Prop :=
  (∃ name, head = '-' :: '-' :: (name ++ ['='])) ∨
    ∃ short, short ≠ '-' ∧ (head = ['-', short] ∨ head = ['-', short, '='])

/-- A candidate for the current word, or for the value that is attached to an option there. -/
inductive Offered (current : Word) : Candidate → Prop where
  | value (head rest value : Str) (hraw : current.raw = head ++ rest)
      (hhead : head = [] ∨ IsHead head ∧ isPlain current.raw = true) :
      Offered current ⟨[], value, .value, current.start + len head, needsQuoting value⟩
  | option (value : Str) : Offered current ⟨['-', '-'], value, .option, current.start, false⟩
  | command (value : Str) : Offered current ⟨[], value, .command, current.start, false⟩

variable {N : Nat} {out : List Candidate} {current : Word}

@[simp] theorem len_nil : len [] = 0 := rfl

theorem len_append (a b : Str) : len (a ++ b) = len a + len b := by
  rw [len, Utf8.encode_append, List.length_append, len, len]

theorem len_singleton (c : Char) : len [c] = c.utf8Size := by
  rw [len, Utf8.encode_cons, Utf8.encode_nil, List.append_nil, String.length_utf8EncodeChar]

theorem mem_pushUnique {candidate c : Candidate} (h : c ∈ pushUnique N out candidate) :
    c ∈ out ∨ c = candidate := by
  unfold pushUnique at h
  split at h
  · exact .inl h
  split at h
  · exact (List.mem_append.mp h).imp_right List.mem_singleton.mp
  · exact .inl h

theorem offered_foldl {p : Str → Bool} {candidate : Str → Candidate} (values : List Str)
    (hcandidate : ∀ value, Offered current (candidate value))
    (hout : ∀ c ∈ out, Offered current c) :
    ∀ c ∈ values.foldl (fun out value => if p value then pushUnique N out (candidate value)
      else out) out, Offered current c := by
  refine List.foldlRecOn (motive := fun out => ∀ c ∈ out, Offered current c) _ _ hout ?_
  intro out hout value _ c hc
  split at hc
  · rcases mem_pushUnique hc with hold | rfl
    · exact hout c hold
    · exact hcandidate value
  · exact hout c hc

theorem offered_addValueCandidates {head rest : Str} (arg : ArgSpec)
    (hraw : current.raw = head ++ rest) (hhead : head = [] ∨ IsHead head ∧ isPlain current.raw =
    true) (hout : ∀ c ∈ out, Offered current c) :
    ∀ c ∈ addValueCandidates N arg rest (current.start + len head) out, Offered current c :=
  offered_foldl (valueNames arg) (fun value => .value head rest value hraw hhead) hout

theorem offered_addOptions (args : List ArgSpec) (needle : Str)
    (hout : ∀ c ∈ out, Offered current c) :
    ∀ c ∈ addOptions N args needle current.start out, Offered current c :=
  offered_foldl _ .option hout

theorem offered_addCommands (commands : List CommandSpec) (hout : ∀ c ∈ out, Offered current c) :
    ∀ c ∈ addCommands N commands current.raw current.start out, Offered current c :=
  offered_foldl _ .command hout

theorem offered_whole (arg : ArgSpec) (hout : ∀ c ∈ out, Offered current c) :
    ∀ c ∈ addValueCandidates N arg current.raw current.start out, Offered current c :=
  offered_addValueCandidates arg rfl (.inl rfl) hout

theorem offered_optionValueCandidates (args : List ArgSpec) (previous : Str) (globalsOnly : Bool)
    (hout : ∀ c ∈ out, Offered current c) :
    ∀ c ∈ (optionValueCandidates N args previous current.raw current.start globalsOnly out).2,
      Offered current c := by
  refine List.foldlRecOn (motive := fun r : Bool × List Candidate => ∀ c ∈ r.2, Offered current c) _
    _ hout ?_
  rintro ⟨found, out⟩ hout arg -
  dsimp only
  split
  · exact hout
  split
  · exact hout
  split
  · exact hout
  · exact offered_whole arg hout

theorem splitOnce_eq {c : Char} {s before after : Str} (h : splitOnce c s = some (before, after)) :
    s = before ++ c :: after := by
  unfold splitOnce at h
  cases hdrop : s.dropWhile (· ≠ c) with
  | nil =>
    rw [hdrop] at h
    exact nomatch h
  | cons d rest =>
    have hd := List.head?_dropWhile_not (fun x => decide (x ≠ c)) s
    simp only [hdrop, List.head?_cons, decide_eq_false_iff_not, not_not] at hd h
    obtain ⟨rfl, rfl⟩ := Prod.mk.inj (Option.some.inj h)
    have hs := List.takeWhile_append_dropWhile (p := fun x => decide (x ≠ c)) (l := s)
    rw [hdrop, hd] at hs
    exact hs.symm

/-- The offset of an attached value is where the name before it ends. -/
theorem attachedValue_eq {arg : ArgSpec} {raw value : Str} {offset : Nat}
    (h : attachedValue arg raw = some (value, offset)) :
    ∃ head, raw = head ++ value ∧ IsHead head ∧ offset = len head := by
  unfold attachedValue at h
  rcases Option.or_eq_some_iff.mp h with hlong | ⟨-, hshort⟩
  · obtain ⟨rest, hrest, hlong⟩ := Option.bind_eq_some_iff.mp hlong
    obtain ⟨⟨name, after⟩, hsplit, hlong⟩ := Option.bind_eq_some_iff.mp hlong
    obtain rfl := (List.isPrefixOf?_eq_some_iff_append_eq.mp hrest).symm
    obtain rfl := splitOnce_eq hsplit
    dsimp only at hlong
    split at hlong
    · obtain ⟨rfl, rfl⟩ := Prod.mk.inj (Option.some.inj hlong)
      have hraw : ['-', '-'] ++ (name ++ '=' :: after) =
          '-' :: '-' :: (name ++ ['=']) ++ after := by simp
      refine ⟨_, hraw, .inl ⟨name, rfl⟩, ?_⟩
      rw [hraw, len_append, Nat.add_sub_cancel]
    · exact nomatch hlong
  · split at hshort
    · rename_i short value'
      split at hshort
      · exact nomatch hshort
      rename_i hdash
      split at hshort
      · exact nomatch hshort
      split at hshort
      · exact nomatch hshort
      have hlen : len ['-', short] = 1 + short.utf8Size := by
        rw [← List.singleton_append, len_append, len_singleton, len_singleton]
        rfl
      split at hshort
      · rename_i rest
        obtain ⟨rfl, rfl⟩ := Prod.mk.inj (Option.some.inj hshort)
        refine ⟨['-', short, '='], rfl, .inr ⟨short, hdash, .inr rfl⟩, ?_⟩
        rw [← hlen, show ['-', short, '='] = ['-', short] ++ ['='] from rfl, len_append,
          len_singleton '=']
        rfl
      · obtain ⟨rfl, rfl⟩ := Prod.mk.inj (Option.some.inj hshort)
        exact ⟨['-', short], rfl, .inr ⟨short, hdash, .inl rfl⟩, hlen.symm⟩
    · exact nomatch hshort

theorem offered_attached (args : List ArgSpec) (globalsOnly : Bool)
    (hout : ∀ c ∈ out, Offered current c) :
    ∀ c ∈ (attachedOptionValueCandidates N args current.raw current.start globalsOnly out).2,
      Offered current c := by
  unfold attachedOptionValueCandidates
  split
  · exact hout
  rename_i hplain
  refine List.foldlRecOn (motive := fun r : Bool × List Candidate => ∀ c ∈ r.2, Offered current c) _
    _ hout ?_
  rintro ⟨found, out⟩ hout arg -
  dsimp only
  split
  · exact hout
  split
  · rename_i value offset hvalue
    obtain ⟨head, hraw, hhead, rfl⟩ := attachedValue_eq hvalue
    exact offered_addValueCandidates arg hraw (.inr ⟨hhead, by simpa using hplain⟩) hout
  · exact hout

/-- A pass over the arguments of the root, unless they were looked at already. -/
theorem offered_unless {result : Bool × List Candidate} (isRoot : Bool)
    (hout : ∀ c ∈ out, Offered current c) (hresult : ∀ c ∈ result.2, Offered current c) :
    ∀ c ∈ (if isRoot then (false, out) else result).2, Offered current c := by
  cases isRoot with
  | true => exact hout
  | false => exact hresult

theorem offered_positional (w : Walk) {out : List Candidate} (hout : ∀ c ∈ out, Offered current c) :
    ∀ c ∈ (match positionalAt w.args.specs w.positionalSeen with
      | some arg => addValueCandidates N arg current.raw current.start out
      | none => out), Offered current c := by
  split
  · exact offered_whole _ hout
  · exact hout

theorem offered_candidates (root : RootSpec) (w : Walk) (previous : Str) :
    ∀ c ∈ candidates N root w previous current, Offered current c := by
  have hnil : ∀ c ∈ ([] : List Candidate), Offered current c := List.forall_mem_nil _
  unfold candidates
  dsimp only
  split
  · exact offered_positional w hnil
  have hlocal := offered_attached (N := N) w.args.specs false hnil
  generalize attachedOptionValueCandidates N w.args.specs current.raw current.start false [] =
    r at hlocal ⊢
  have hglobal := offered_unless (w.args.ptrEq root.args) hlocal
      (offered_attached (N := N) root.args.specs true hlocal)
  generalize (if w.args.ptrEq root.args = true then (false, r.2)
    else attachedOptionValueCandidates N root.args.specs current.raw current.start true r.2) =
      r' at hglobal ⊢
  split
  · exact hglobal
  have hlocal := offered_optionValueCandidates (N := N) w.args.specs previous false hglobal
  generalize optionValueCandidates N w.args.specs previous current.raw current.start false r'.2 =
    r at hlocal ⊢
  have hglobal := offered_unless (w.args.ptrEq root.args) hlocal
    (offered_optionValueCandidates (N := N) root.args.specs previous true hlocal)
  generalize (if w.args.ptrEq root.args = true then (false, r.2)
    else optionValueCandidates N root.args.specs previous current.raw current.start true r.2) =
      r' at hglobal ⊢
  split
  · exact hglobal
  split
  · have hoptions := offered_addOptions (N := N) (visitArgs w.args.specs)
      (current.raw.dropWhile (· = '-')) hglobal
    split
    · exact hoptions
    · exact offered_addOptions _ _ hoptions
  · exact offered_addCommands _ (offered_positional w hglobal)

end Microtun.Cli.Completion
