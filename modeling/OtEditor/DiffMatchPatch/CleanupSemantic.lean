import OtEditor.DiffMatchPatch.CleanupMerge

/-!
# Semantic cleanup

After a diff of whole lines the library clears away coincidences. `diffCleanupSemantic` turns
an equality that is no longer than the edits on both sides into a deletion and an insertion
(`eliminate`), shifts an edit between two equalities to a better place
(`diffCleanupSemanticLossless`), and makes what a deletion and the insertion after it have in
common an equality (`extractOverlaps`). The loops move a pointer back and forth. On a diff
without empty entries they end, and the diff spells the same two texts
(`diffCleanupSemantic_spec`).
-/

namespace OtEditor.DiffMatchPatch

/-- Why a call does not return a value : it throws a `TypeError`, or it runs forever. -/
inductive Stop where
  | typeError
  | diverges
  deriving DecidableEq

/-! ## Equalities that are not worth keeping -/

/-- The variables of the first loop of `diff_cleanupSemantic`. The array `equalities` is a stack
of indices, which the loop also uses below index 0. -/
structure Scan where
  diffs : List Diff
  equalities : ℤ → ℕ
  equalitiesLength : ℤ
  lastEquality : Option Text
  pointer : ℕ
  lengthInsertions1 : ℕ
  lengthDeletions1 : ℕ
  lengthInsertions2 : ℕ
  lengthDeletions2 : ℕ
  changes : Bool

/-- The equality is not empty, and no longer than the edits on both sides of it. -/
def Scan.Eliminates (scan : Scan) (equality : Text) : Prop :=
  equality ≠ [] ∧
    equality.length ≤ max scan.lengthInsertions1 scan.lengthDeletions1 ∧
    equality.length ≤ max scan.lengthInsertions2 scan.lengthDeletions2

instance (scan : Scan) : DecidablePred scan.Eliminates := fun _ =>
  inferInstanceAs (Decidable (_ ∧ _ ∧ _))

/-- Replace the last equality by a deletion and an insertion, and go back to reevaluate the
equality before it. -/
def Scan.eliminate (scan : Scan) (equality : Text) : Scan :=
  let last := scan.equalities (scan.equalitiesLength - 1)
  let equalitiesLength := scan.equalitiesLength - 2
  { scan with
    diffs := scan.diffs.take last ++ ⟨.deletion, equality⟩ ::
      (scan.diffs.drop last).modifyHead fun diff => { diff with diffType := .insertion }
    equalitiesLength
    lastEquality := none
    pointer := if equalitiesLength > 0 then scan.equalities (equalitiesLength - 1) + 1 else 0
    lengthInsertions1 := 0
    lengthDeletions1 := 0
    lengthInsertions2 := 0
    lengthDeletions2 := 0
    changes := true }

/-- An equality under the pointer is pushed on the stack. -/
def Scan.push (scan : Scan) (equality : Text) : Scan :=
  { scan with
    equalities := Function.update scan.equalities scan.equalitiesLength scan.pointer
    equalitiesLength := scan.equalitiesLength + 1
    lengthInsertions1 := scan.lengthInsertions2
    lengthDeletions1 := scan.lengthDeletions2
    lengthInsertions2 := 0
    lengthDeletions2 := 0
    lastEquality := some equality
    pointer := scan.pointer + 1 }

/-- An edit under the pointer is counted. -/
def Scan.count (scan : Scan) (diff : Diff) : Scan :=
  if diff.diffType = .insertion then
    { scan with lengthInsertions2 := scan.lengthInsertions2 + diff.content.length }
  else { scan with lengthDeletions2 := scan.lengthDeletions2 + diff.content.length }

/-- After an edit the last equality is eliminated, or the pointer moves on. -/
def Scan.afterEdit (scan : Scan) : Scan :=
  match scan.lastEquality with
  | some equality =>
    if scan.Eliminates equality then scan.eliminate equality
    else { scan with pointer := scan.pointer + 1 }
  | none => { scan with pointer := scan.pointer + 1 }

/-- One round of the first loop, at the entry under the pointer. -/
def Scan.step (scan : Scan) (diff : Diff) : Scan :=
  if diff.diffType = .equality then scan.push diff.content else (scan.count diff).afterEdit

/-- The first loop, for a number of rounds. -/
def Scan.run (scan : Scan) : (rounds : ℕ) → Except Stop Scan
  | 0 => if scan.diffs.length ≤ scan.pointer then .ok scan else .error .diverges
  | rounds + 1 =>
    match scan.diffs[scan.pointer]? with
    | none => .ok scan
    | some diff => (scan.step diff).run rounds

/-- The number of equalities. -/
def countEqualities (diffs : List Diff) : ℕ :=
  diffs.countP fun diff => diff.diffType = .equality

/-- The rounds that the first loop may still take. -/
def Scan.rounds (scan : Scan) : ℕ :=
  countEqualities scan.diffs * (scan.diffs.length + countEqualities scan.diffs + 1) +
    (scan.diffs.length - scan.pointer)

def Scan.start (diffs : List Diff) : Scan :=
  ⟨diffs, fun _ => 0, 0, none, 0, 0, 0, 0, 0, false⟩

/-! ## Shifting edits sideways -/

def nonAlphaNumeric (c : Symbol) : Bool :=
  !(97 ≤ c && c ≤ 122 || 65 ≤ c && c ≤ 90 || 48 ≤ c && c ≤ 57)

/-- `\s` of a regular expression. -/
def whitespace (c : Symbol) : Bool :=
  9 ≤ c && c ≤ 13 || c == 32 || c == 0xA0 || c == 0x1680 || 0x2000 ≤ c && c ≤ 0x200A ||
    c == 0x2028 || c == 0x2029 || c == 0x202F || c == 0x205F || c == 0x3000 || c == 0xFEFF

def linebreak (c : Symbol) : Bool :=
  c == 10 || c == 13

/-- `/\n\r?\n$/`. -/
def blanklineEnd (text : Text) : Bool :=
  [10, 10].isSuffixOf text || [10, 13, 10].isSuffixOf text

/-- `/^\r?\n\r?\n/`. -/
def blanklineStart (text : Text) : Bool :=
  [10, 10].isPrefixOf text || [10, 13, 10].isPrefixOf text || [13, 10, 10].isPrefixOf text ||
    [13, 10, 13, 10].isPrefixOf text

/-- `diff_cleanupSemanticScore_` : whether a boundary falls between words, sentences or lines. -/
def diffCleanupSemanticScore (one two : Text) : ℕ :=
  match one.getLast?, two.head? with
  | some char1, some char2 =>
    let nonAlphaNumeric1 := nonAlphaNumeric char1
    let nonAlphaNumeric2 := nonAlphaNumeric char2
    let whitespace1 := nonAlphaNumeric1 && whitespace char1
    let whitespace2 := nonAlphaNumeric2 && whitespace char2
    let lineBreak1 := whitespace1 && linebreak char1
    let lineBreak2 := whitespace2 && linebreak char2
    let blankLine1 := lineBreak1 && blanklineEnd one
    let blankLine2 := lineBreak2 && blanklineStart two
    if blankLine1 || blankLine2 then 5
    else if lineBreak1 || lineBreak2 then 4
    else if nonAlphaNumeric1 && !whitespace1 && whitespace2 then 3
    else if whitespace1 || whitespace2 then 2
    else if nonAlphaNumeric1 || nonAlphaNumeric2 then 1
    else 0
  | _, _ => 6

/-- An edit between two equalities. -/
structure Fit where
  equality1 : Text
  edit : Text
  equality2 : Text

def Fit.score (fit : Fit) : ℕ :=
  diffCleanupSemanticScore fit.equality1 fit.edit +
    diffCleanupSemanticScore fit.edit fit.equality2

/-- Shift the edit as far left as possible. -/
def Fit.shiftLeft (fit : Fit) : Fit :=
  let commonOffset := diffCommonSuffix fit.equality1 fit.edit
  if commonOffset ≠ 0 then
    let commonString := substringFrom fit.edit (fit.edit.length - commonOffset)
    { equality1 := substring fit.equality1 0 (fit.equality1.length - commonOffset)
      edit := commonString ++ substring fit.edit 0 (fit.edit.length - commonOffset)
      equality2 := commonString ++ fit.equality2 }
  else fit

/-- Step right character by character, looking for the best fit. Empty texts have the same
empty first character, and then the loop never ends. -/
def stepRight : (equality1 edit equality2 : Text) → (best : Fit) → Except Stop Fit
  | _, [], [], _ => .error .diverges
  | _, [], _ :: _, best => .ok best
  | _, _ :: _, [], best => .ok best
  | equality1, c :: edit, d :: equality2, best =>
    if c = d then
      let fit : Fit := ⟨equality1 ++ [c], edit ++ [d], equality2⟩
      stepRight (equality1 ++ [c]) (edit ++ [d]) equality2
        (if fit.score ≥ best.score then fit else best)
    else .ok best

/-- The best place for an edit between two equalities. -/
def Fit.best (fit : Fit) : Except Stop Fit :=
  let left := fit.shiftLeft
  stepRight left.equality1 left.edit left.equality2 left

/-- An equality behind the pointer, which is removed if it is empty. -/
def keepEquality (equality : Diff) (behind : List Diff) : List Diff :=
  if equality.content ≠ [] then equality :: behind else behind

/-- The loop of `diff_cleanupSemanticLossless`. Behind the pointer the last entry is first. An
equality that becomes empty is removed, and the pointer follows. -/
def losslessLoop (behind ahead : List Diff) : Except Stop (List Diff) :=
  match ahead, behind with
  | _ :: _ :: _, [] => .error .typeError
  | diff :: next :: rest, previous :: behind =>
    if previous.diffType = .equality ∧ next.diffType = .equality then
      match Fit.best ⟨previous.content, diff.content, next.content⟩ with
      | .error stop => .error stop
      | .ok best =>
        if previous.content ≠ best.equality1 then
          let behind := keepEquality { previous with content := best.equality1 } behind
          let diff := { diff with content := best.edit }
          if best.equality2 ≠ [] then
            losslessLoop (diff :: behind) ({ next with content := best.equality2 } :: rest)
          else losslessLoop behind (diff :: rest)
        else losslessLoop (diff :: previous :: behind) (next :: rest)
    else losslessLoop (diff :: previous :: behind) (next :: rest)
  | ahead, behind => .ok (behind.reverse ++ ahead)
termination_by ahead.length

/-- `diff_cleanupSemanticLossless`. The pointer starts at the second entry. -/
def diffCleanupSemanticLossless : List Diff → Except Stop (List Diff)
  | [] => .ok []
  | first :: rest => losslessLoop [first] rest

/-! ## Overlaps between deletions and insertions -/

/-- A deletion and the insertion after it, with what they have in common as an equality if it is
at least half of one of them. -/
def extractOverlap (deletion insertion : Text) : List Diff :=
  let overlapLength1 := diffCommonOverlap deletion insertion
  let overlapLength2 := diffCommonOverlap insertion deletion
  if overlapLength1 ≥ overlapLength2 then
    if deletion.length ≤ 2 * overlapLength1 ∨ insertion.length ≤ 2 * overlapLength1 then
      [⟨.deletion, substring deletion 0 (deletion.length - overlapLength1)⟩,
        ⟨.equality, substring insertion 0 overlapLength1⟩,
        ⟨.insertion, substringFrom insertion overlapLength1⟩]
    else [⟨.deletion, deletion⟩, ⟨.insertion, insertion⟩]
  else
    if deletion.length ≤ 2 * overlapLength2 ∨ insertion.length ≤ 2 * overlapLength2 then
      [⟨.insertion, substring insertion 0 (insertion.length - overlapLength2)⟩,
        ⟨.equality, substring deletion 0 overlapLength2⟩,
        ⟨.deletion, substringFrom deletion overlapLength2⟩]
    else [⟨.deletion, deletion⟩, ⟨.insertion, insertion⟩]

/-- The last loop of `diff_cleanupSemantic`. -/
def extractOverlaps : List Diff → List Diff
  | previous :: diff :: rest =>
    if previous.diffType = .deletion ∧ diff.diffType = .insertion then
      extractOverlap previous.content diff.content ++ extractOverlaps rest
    else previous :: extractOverlaps (diff :: rest)
  | diffs => diffs

/-- `diff_cleanupSemantic`. -/
def diffCleanupSemantic (diffs : List Diff) : Except Stop (List Diff) := do
  let scan ← (Scan.start diffs).run (Scan.start diffs).rounds
  let diffs := if scan.changes then diffCleanupMerge scan.diffs else scan.diffs
  let diffs ← diffCleanupSemanticLossless diffs
  return extractOverlaps diffs

/-! ## The first loop ends and keeps the texts -/

section Scan

variable {scan : Scan} {text1 text2 : Text}

/-- The first loop keeps the texts and makes no empty entry, and the top of the stack is the
index of the last equality. -/
structure Scan.Keeps (scan : Scan) (text1 text2 : Text) : Prop where
  spells : Spells scan.diffs text1 text2
  nonempty : Nonempty scan.diffs
  last : ∀ equality, scan.lastEquality = some equality → ∃ before after,
    scan.diffs = before ++ ⟨.equality, equality⟩ :: after ∧
      before.length = scan.equalities (scan.equalitiesLength - 1)

/-- An elimination costs an equality and adds an entry. -/
theorem Scan.Keeps.eliminate (h : scan.Keeps text1 text2) {equality : Text}
    (hlast : scan.lastEquality = some equality) (hne : equality ≠ [])
    (hpointer : scan.pointer < scan.diffs.length) :
    (scan.eliminate equality).Keeps text1 text2 ∧
      (scan.eliminate equality).rounds < scan.rounds := by
  obtain ⟨before, after, hdiffs, htop⟩ := h.last equality hlast
  have heliminated : (scan.eliminate equality).diffs =
      before ++ ⟨.deletion, equality⟩ :: ⟨.insertion, equality⟩ :: after := by
    simp [Scan.eliminate, ← htop, hdiffs]
  refine ⟨⟨?_, ?_, fun _ hnone => by cases hnone⟩, ?_⟩
  · have hspells := h.spells
    rw [hdiffs] at hspells
    rw [heliminated]
    simpa [Spells] using hspells
  · have hnonempty := h.nonempty
    rw [hdiffs, nonempty_append, nonempty_cons] at hnonempty
    rw [heliminated, nonempty_append, nonempty_cons, nonempty_cons]
    exact ⟨hnonempty.1, hne, hne, hnonempty.2.2⟩
  · have hcount : countEqualities scan.diffs =
        countEqualities (scan.eliminate equality).diffs + 1 := by
      rw [heliminated, hdiffs]
      simp [countEqualities]
      omega
    have hlength : (scan.eliminate equality).diffs.length = scan.diffs.length + 1 := by
      rw [heliminated, hdiffs]
      simp only [List.length_append, List.length_cons]
      omega
    obtain ⟨k, hk⟩ : ∃ k, k = countEqualities (scan.eliminate equality).diffs := ⟨_, rfl⟩
    simp only [Scan.rounds, hcount, hlength, ← hk, Nat.succ_mul]
    have hcost : k * (scan.diffs.length + 1 + k + 1) = k * (scan.diffs.length + (k + 1) + 1) := by
      congr 1
      omega
    omega

/-- Moving the pointer on takes a round. -/
theorem Scan.rounds_lt {scan' : Scan} (hdiffs : scan'.diffs = scan.diffs)
    (hnext : scan'.pointer = scan.pointer + 1) (hpointer : scan.pointer < scan.diffs.length) :
    scan'.rounds < scan.rounds := by
  simp only [Scan.rounds, hdiffs, hnext]
  omega

theorem Scan.Keeps.push (h : scan.Keeps text1 text2) {equality : Text}
    (hdiff : scan.diffs[scan.pointer]? = some ⟨.equality, equality⟩) :
    (scan.push equality).Keeps text1 text2 := by
  obtain ⟨hpointer, hget⟩ := List.getElem?_eq_some_iff.1 hdiff
  refine ⟨h.spells, h.nonempty, ?_⟩
  rintro _ ⟨⟩
  refine ⟨scan.diffs.take scan.pointer, scan.diffs.drop (scan.pointer + 1), ?_, ?_⟩
  · rw [← hget, List.getElem_cons_drop, List.take_append_drop]
    rfl
  · simp [Scan.push]
    omega

theorem Scan.Keeps.count (h : scan.Keeps text1 text2) (diff : Diff) :
    (scan.count diff).Keeps text1 text2 := by
  rw [Scan.count]
  split_ifs <;> exact ⟨h.spells, h.nonempty, h.last⟩

theorem Scan.Keeps.afterEdit (h : scan.Keeps text1 text2)
    (hpointer : scan.pointer < scan.diffs.length) :
    scan.afterEdit.Keeps text1 text2 ∧ scan.afterEdit.rounds < scan.rounds := by
  rw [Scan.afterEdit]
  split
  · next equality hlast =>
    split_ifs with heliminates
    · exact h.eliminate hlast heliminates.1 hpointer
    · exact ⟨⟨h.spells, h.nonempty, h.last⟩, Scan.rounds_lt rfl rfl hpointer⟩
  · exact ⟨⟨h.spells, h.nonempty, h.last⟩, Scan.rounds_lt rfl rfl hpointer⟩

/-- Every round keeps the texts, and leaves fewer rounds to take. -/
theorem Scan.Keeps.step (h : scan.Keeps text1 text2) {diff : Diff}
    (hdiff : scan.diffs[scan.pointer]? = some diff) :
    (scan.step diff).Keeps text1 text2 ∧ (scan.step diff).rounds < scan.rounds := by
  have hpointer : scan.pointer < scan.diffs.length := (List.getElem?_eq_some_iff.1 hdiff).1
  rw [Scan.step]
  split_ifs with hequality
  · obtain ⟨_, content⟩ := diff
    obtain rfl : _ = DiffType.equality := hequality
    exact ⟨h.push hdiff, Scan.rounds_lt rfl rfl hpointer⟩
  · have hcount : (scan.count diff).diffs = scan.diffs ∧ (scan.count diff).pointer = scan.pointer ∧
        (scan.count diff).rounds = scan.rounds := by
      rw [Scan.count]
      split_ifs <;> exact ⟨rfl, rfl, rfl⟩
    obtain ⟨hdiffs, hsame, hrounds⟩ := hcount
    rw [← hrounds]
    exact (h.count diff).afterEdit (by rwa [hdiffs, hsame])

/-- The first loop ends. -/
theorem Scan.Keeps.run : ∀ {rounds : ℕ} {scan : Scan}, scan.Keeps text1 text2 →
    scan.rounds ≤ rounds → ∃ scan', scan.run rounds = .ok scan' ∧ scan'.Keeps text1 text2
  | 0, scan, h, hrounds => by
    have hpointer : scan.diffs.length ≤ scan.pointer := by
      rw [Scan.rounds] at hrounds
      omega
    exact ⟨scan, if_pos hpointer, h⟩
  | rounds + 1, scan, h, hrounds => by
    rw [Scan.run]
    cases hdiff : scan.diffs[scan.pointer]? with
    | none => exact ⟨scan, rfl, h⟩
    | some diff =>
      obtain ⟨hkeeps, hless⟩ := h.step hdiff
      exact hkeeps.run (by omega)

theorem Scan.keeps_start {diffs : List Diff} (hspells : Spells diffs text1 text2)
    (hnonempty : Nonempty diffs) : (Scan.start diffs).Keeps text1 text2 :=
  ⟨hspells, hnonempty, fun _ h => by cases h⟩

end Scan

/-! ## Shifts keep the texts -/

/-- An edit moved between the same two texts : the texts with it and without it are the same. -/
structure Fit.Moves (fit fit' : Fit) : Prop where
  withEdit : fit'.equality1 ++ (fit'.edit ++ fit'.equality2) =
    fit.equality1 ++ (fit.edit ++ fit.equality2)
  without : fit'.equality1 ++ fit'.equality2 = fit.equality1 ++ fit.equality2
  length : fit'.edit.length = fit.edit.length

theorem Fit.Moves.trans {fit fit' fit'' : Fit} (h : fit.Moves fit') (h' : fit'.Moves fit'') :
    fit.Moves fit'' :=
  ⟨h'.withEdit.trans h.withEdit, h'.without.trans h.without, h'.length.trans h.length⟩

theorem Fit.moves_shiftLeft (fit : Fit) : fit.Moves fit.shiftLeft := by
  obtain ⟨n, hn⟩ : ∃ n, n = diffCommonSuffix fit.equality1 fit.edit := ⟨_, rfl⟩
  have hsame : fit.equality1.drop (fit.equality1.length - n) =
      fit.edit.drop (fit.edit.length - n) :=
    hn ▸ drop_eq_of_shares_reverse (shares_diffCommonSuffix fit.equality1 fit.edit)
  have hequality := List.take_append_drop (fit.equality1.length - n) fit.equality1
  have hedit := List.take_append_drop (fit.edit.length - n) fit.edit
  rw [hsame] at hequality
  simp only [Fit.shiftLeft, ← hn, substring_zero, substringFrom_eq]
  split_ifs with hzero
  · refine ⟨?_, ?_, ?_⟩
    · calc _ = (fit.equality1.take (fit.equality1.length - n) ++
              fit.edit.drop (fit.edit.length - n)) ++
            ((fit.edit.take (fit.edit.length - n) ++ fit.edit.drop (fit.edit.length - n)) ++
              fit.equality2) := by simp only [List.append_assoc]
        _ = _ := by rw [hequality, hedit]
    · rw [← List.append_assoc, hequality]
    · rw [List.length_append, Nat.add_comm, ← List.length_append, hedit]
  · exact ⟨rfl, rfl, rfl⟩

/-- Stepping right ends, at a place for the edit. -/
theorem stepRight_spec {fit : Fit} : ∀ (equality2 : Text) {equality1 edit : Text} {best : Fit},
    edit ≠ [] → fit.Moves ⟨equality1, edit, equality2⟩ → fit.Moves best →
    ∃ best', stepRight equality1 edit equality2 best = .ok best' ∧ fit.Moves best'
  | _, _, [], _, hedit, _, _ => absurd rfl hedit
  | [], _, _ :: _, best, _, _, hbest => ⟨best, rfl, hbest⟩
  | d :: equality2, equality1, c :: edit, best, _, hmoves, hbest => by
    rw [stepRight]
    split_ifs with hsame
    · subst hsame
      have hstep : fit.Moves ⟨equality1 ++ [c], edit ++ [c], equality2⟩ := by
        refine hmoves.trans ⟨?_, ?_, ?_⟩ <;> simp
      refine stepRight_spec equality2 (by simp) hstep ?_
      split_ifs
      · exact hstep
      · exact hbest
    · exact ⟨best, rfl, hbest⟩

/-- An edit that is not empty has a best place. -/
theorem Fit.best_spec (fit : Fit) (hedit : fit.edit ≠ []) :
    ∃ best, fit.best = .ok best ∧ fit.Moves best := by
  have hleft := fit.moves_shiftLeft
  refine stepRight_spec _ ?_ hleft hleft
  rw [← List.length_pos_iff, hleft.length]
  exact List.length_pos_iff.2 hedit

theorem Fit.moves_of_best {fit best : Fit} (hedit : fit.edit ≠ []) (h : fit.best = .ok best) :
    fit.Moves best ∧ best.edit ≠ [] := by
  obtain ⟨best', hbest', hmoves⟩ := fit.best_spec hedit
  obtain rfl : best = best' := Except.ok.inj (h.symm.trans hbest')
  refine ⟨hmoves, ?_⟩
  rw [← List.length_pos_iff, hmoves.length]
  exact List.length_pos_iff.2 hedit

/-- A move between two equalities spells the same texts. -/
theorem Fit.Moves.texts {previous diff next : Diff} {best : Fit}
    (hprevious : previous.diffType = .equality)
    (h : Fit.Moves ⟨previous.content, diff.content, next.content⟩ best) (behind : List Diff) :
    let behind' := keepEquality { previous with content := best.equality1 } behind
    let diff' : Diff := { diff with content := best.edit }
    diffText1 behind'.reverse ++ (diff'.before ++ best.equality2) =
        diffText1 behind.reverse ++ (previous.content ++ (diff.before ++ next.content)) ∧
      diffText2 behind'.reverse ++ (diff'.after ++ best.equality2) =
        diffText2 behind.reverse ++ (previous.content ++ (diff.after ++ next.content)) := by
  obtain ⟨kind, content⟩ := diff
  obtain ⟨hwith, hwithout, -⟩ := h
  have hkeep : diffText1 (keepEquality { previous with content := best.equality1 } behind).reverse =
        diffText1 behind.reverse ++ best.equality1 ∧
      diffText2 (keepEquality { previous with content := best.equality1 } behind).reverse =
        diffText2 behind.reverse ++ best.equality1 := by
    rw [keepEquality]
    split_ifs with hempty
    · simp [hprevious]
    · have hempty : best.equality1 = [] := not_not.1 hempty
      simp [hempty]
  simp only [hkeep.1, hkeep.2, List.append_assoc]
  cases kind <;> simp [hwith, hwithout]

theorem nonempty_keepEquality {equality : Diff} {behind : List Diff} (h : Nonempty behind) :
    Nonempty (keepEquality equality behind) := by
  rw [keepEquality]
  split_ifs with hempty
  · exact nonempty_cons.2 ⟨hempty, h⟩
  · exact h

/-- The loop ends and keeps the texts. -/
theorem losslessLoop_spec {behind ahead : List Diff} (hpointer : behind ≠ [])
    (hbehind : Nonempty behind) (hahead : Nonempty ahead) :
    ∃ cleaned, losslessLoop behind ahead = .ok cleaned ∧ Nonempty cleaned ∧
      Spells cleaned (diffText1 (behind.reverse ++ ahead))
        (diffText2 (behind.reverse ++ ahead)) := by
  fun_induction losslessLoop behind ahead with
  | case1 => exact absurd rfl hpointer
  | case2 diff next rest previous behind hborders stop hstop =>
    obtain ⟨best, hbest, -⟩ := Fit.best_spec ⟨previous.content, diff.content, next.content⟩
      (nonempty_cons.1 hahead).1
    rw [hstop] at hbest
    cases hbest
  | case3 diff next rest previous behind hborders best hbest hmoved behind' diff' hnext ih =>
    obtain ⟨hmoves, hedit⟩ := Fit.moves_of_best (nonempty_cons.1 hahead).1 hbest
    rw [nonempty_cons, nonempty_cons] at hahead
    obtain ⟨cleaned, hrun, hcleaned, h1, h2⟩ := ih (by simp)
      (nonempty_cons.2 ⟨hedit, nonempty_keepEquality (nonempty_cons.1 hbehind).2⟩)
      (nonempty_cons.2 ⟨hnext, hahead.2.2⟩)
    obtain ⟨g1, g2⟩ := hmoves.texts hborders.1 behind
    refine ⟨cleaned, hrun, hcleaned, h1.trans ?_, h2.trans ?_⟩
    · simpa [before_of_equality hborders.1, before_of_equality hborders.2, hborders.2, behind',
        diff'] using congrArg (· ++ diffText1 rest) g1
    · simpa [after_of_equality hborders.1, after_of_equality hborders.2, hborders.2, behind',
        diff'] using congrArg (· ++ diffText2 rest) g2
  | case4 diff next rest previous behind hborders best hbest hmoved behind' diff' hnext ih =>
    obtain ⟨hmoves, hedit⟩ := Fit.moves_of_best (nonempty_cons.1 hahead).1 hbest
    rw [nonempty_cons, nonempty_cons] at hahead
    have hnext : best.equality2 = [] := not_not.1 hnext
    -- the equalities are not both removed
    have hkept : best.equality1 ≠ [] := by
      have hwithout := hmoves.without
      rw [hnext, List.append_nil] at hwithout
      simp [hwithout, (nonempty_cons.1 hbehind).1]
    have hbehind' : behind' ≠ [] := by
      simp [behind', keepEquality, hkept]
    obtain ⟨cleaned, hrun, hcleaned, h1, h2⟩ := ih hbehind'
      (nonempty_keepEquality (nonempty_cons.1 hbehind).2)
      (nonempty_cons.2 ⟨hedit, hahead.2.2⟩)
    obtain ⟨g1, g2⟩ := hmoves.texts hborders.1 behind
    refine ⟨cleaned, hrun, hcleaned, h1.trans ?_, h2.trans ?_⟩
    · simpa [before_of_equality hborders.1, before_of_equality hborders.2, hnext] using
        congrArg (· ++ diffText1 rest) g1
    · simpa [after_of_equality hborders.1, after_of_equality hborders.2, hnext] using
        congrArg (· ++ diffText2 rest) g2
  | case5 diff next rest previous behind hborders best hbest hmoved ih =>
    simpa using ih (by simp) (nonempty_cons.2 ⟨(nonempty_cons.1 hahead).1, hbehind⟩)
      (nonempty_cons.1 hahead).2
  | case6 diff next rest previous behind hborders ih =>
    simpa using ih (by simp) (nonempty_cons.2 ⟨(nonempty_cons.1 hahead).1, hbehind⟩)
      (nonempty_cons.1 hahead).2
  | case7 behind ahead h1 h2 =>
    exact ⟨_, rfl, nonempty_append.2 ⟨nonempty_reverse.2 hbehind, hahead⟩, rfl, rfl⟩

theorem diffCleanupSemanticLossless_spec {diffs : List Diff} (h : Nonempty diffs) :
    ∃ cleaned, diffCleanupSemanticLossless diffs = .ok cleaned ∧ Nonempty cleaned ∧
      Spells cleaned (diffText1 diffs) (diffText2 diffs) := by
  rcases diffs with _ | ⟨first, rest⟩
  · exact ⟨[], rfl, h, rfl, rfl⟩
  · obtain ⟨hfirst, hrest⟩ := nonempty_cons.1 h
    exact losslessLoop_spec (by simp) (nonempty_cons.2 ⟨hfirst, fun _ he => by cases he⟩) hrest

/-! ## Overlaps keep the texts -/

/-- An overlap splits both texts. -/
theorem spells_extractOverlap (deletion insertion : Text) :
    Spells (extractOverlap deletion insertion) deletion insertion := by
  obtain ⟨-, -, hsame1⟩ := (overlaps_diffCommonOverlap deletion insertion).1
  obtain ⟨-, -, hsame2⟩ := (overlaps_diffCommonOverlap insertion deletion).1
  simp only [extractOverlap, substring_zero, substringFrom_eq]
  split_ifs
  · refine ⟨?_, ?_⟩
    · simp [← hsame1]
    · simp
  · simp [Spells]
  · refine ⟨?_, ?_⟩
    · simp
    · simp [← hsame2]
  · simp [Spells]

theorem spells_extractOverlaps (diffs : List Diff) :
    Spells (extractOverlaps diffs) (diffText1 diffs) (diffText2 diffs) := by
  fun_induction extractOverlaps diffs with
  | case1 previous diff rest hpair ih =>
    have hpairs := (spells_extractOverlap previous.content diff.content).append ih
    simpa [Diff.before, Diff.after, hpair.1, hpair.2] using hpairs
  | case2 previous diff rest hpair ih =>
    obtain ⟨h1, h2⟩ := ih
    simp [Spells, h1, h2]
  | case3 diffs hshort => exact ⟨rfl, rfl⟩

/-- On a diff without empty entries the semantic cleanup ends, and the diff spells the same
texts. -/
theorem diffCleanupSemantic_spec {diffs : List Diff} {text1 text2 : Text}
    (hspells : Spells diffs text1 text2) (hnonempty : Nonempty diffs) :
    ∃ cleaned, diffCleanupSemantic diffs = .ok cleaned ∧ Spells cleaned text1 text2 := by
  obtain ⟨scan, hrun, hkeeps⟩ :=
    (Scan.keeps_start hspells hnonempty).run (Nat.le_refl _)
  have hmerged : Spells (if scan.changes then diffCleanupMerge scan.diffs else scan.diffs)
        text1 text2 ∧
      Nonempty (if scan.changes then diffCleanupMerge scan.diffs else scan.diffs) := by
    split_ifs
    · have hmerge := spells_diffCleanupMerge scan.diffs
      rw [hkeeps.spells.1, hkeeps.spells.2] at hmerge
      exact ⟨hmerge, nonempty_diffCleanupMerge hkeeps.nonempty⟩
    · exact ⟨hkeeps.spells, hkeeps.nonempty⟩
  obtain ⟨⟨h1, h2⟩, hne⟩ := hmerged
  obtain ⟨cleaned, hlossless, -, hcleaned⟩ := diffCleanupSemanticLossless_spec hne
  rw [h1, h2] at hcleaned
  obtain ⟨g1, g2⟩ := hcleaned
  refine ⟨extractOverlaps cleaned, ?_, ?_⟩
  · rw [diffCleanupSemantic, hrun]
    simp only [bind, Except.bind, hlossless]
    rfl
  · have hoverlaps := spells_extractOverlaps cleaned
    rwa [g1, g2] at hoverlaps

end OtEditor.DiffMatchPatch
