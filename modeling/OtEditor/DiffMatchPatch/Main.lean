import OtEditor.DiffMatchPatch.Bisect
import OtEditor.DiffMatchPatch.HalfMatch
import OtEditor.DiffMatchPatch.Lines

/-!
# The diff of two texts

`diffMain` is `diff_main` with all that it calls. The calls are recursive : a half-match and the
middle snake split the texts, and a diff of whole lines is refined by diffs of the texts between
common lines. Every call has shorter texts than the one it comes from, or has used up a reading
of the clock, or goes from lines to symbols, so the recursion ends (`meets_diffMainWithin`).
`diffMain_spec` : whatever the clock, the entries spell both texts, unless both are long, a line
of the first begins with `hasOwnProperty` and the call throws.
-/

namespace OtEditor.DiffMatchPatch

open Triple

section Compute

/-! ## One call -/

variable (diffMain : (checklines : Bool) → (text1 text2 : Text) → Timed (List Diff))

/-- `diff_bisectSplit_`. A negative index is the start of the text. -/
def diffBisectSplit (text1 text2 : Text) (x y : ℤ) : Timed (List Diff) := do
  let diffs ← diffMain false (substring text1 0 x.toNat) (substring text2 0 y.toNat)
  let diffsb ← diffMain false (substringFrom text1 x.toNat) (substringFrom text2 y.toNat)
  return diffs ++ diffsb

/-- `diff_bisect_`. -/
def diffBisect (text1 text2 : Text) : Timed (List Diff) := do
  match ← middleSnake text1 text2 with
  | some (x, y) => diffBisectSplit diffMain text1 text2 x y
  | none => return [⟨.deletion, text1⟩, ⟨.insertion, text2⟩]

/-- One entry of the loop of `diff_lineMode_` : the edits since the last equality are diffed
again, if there are both deletions and insertions among them. -/
def rediffStep (m : Merging) (diff : Diff) : Timed Merging :=
  match diff.diffType with
  | .insertion => return { m with
      behind := diff :: m.behind
      countInsert := m.countInsert + 1
      textInsert := m.textInsert ++ diff.content }
  | .deletion => return { m with
      behind := diff :: m.behind
      countDelete := m.countDelete + 1
      textDelete := m.textDelete ++ diff.content }
  | .equality => do
    if m.countDelete ≥ 1 ∧ m.countInsert ≥ 1 then
      let subDiff ← diffMain false m.textDelete m.textInsert
      let behind := subDiff.reverse ++ m.behind.drop (m.countDelete + m.countInsert)
      return ⟨diff :: behind, 0, 0, [], []⟩
    else return ⟨diff :: m.behind, 0, 0, [], []⟩

/-- `diff_lineMode_`. The dummy entry at the end is removed again. -/
def diffLineMode (text1 text2 : Text) : Timed (List Diff) := do
  let a ← liftM (diffLinesToChars text1 text2)
  let diffs ← diffMain false a.chars1 a.chars2
  let diffs ← liftM (diffCleanupSemantic (diffCharsToLines diffs a.lineArray))
  let m ← List.foldlM (rediffStep diffMain) ⟨[], 0, 0, [], []⟩ (diffs ++ [⟨.equality, []⟩])
  return m.behind.tail.reverse

/-- `diff_compute_`. -/
def diffCompute (checklines : Bool) (text1 text2 : Text) : Timed (List Diff) :=
  if text1 = [] then return [⟨.insertion, text2⟩]
  else if text2 = [] then return [⟨.deletion, text1⟩]
  else
    let longtext := if text1.length > text2.length then text1 else text2
    let shorttext := if text1.length > text2.length then text2 else text1
    match indexOf longtext shorttext 0 with
    | some i =>
      let edit := if text1.length > text2.length then DiffType.deletion else .insertion
      return [⟨edit, substring longtext 0 i⟩, ⟨.equality, shorttext⟩,
        ⟨edit, substringFrom longtext (i + shorttext.length)⟩]
    | none =>
      if shorttext.length = 1 then return [⟨.deletion, text1⟩, ⟨.insertion, text2⟩]
      else
        match diffHalfMatch text1 text2 with
        | some hm => do
          let diffsA ← diffMain checklines hm.before1 hm.before2
          let diffsB ← diffMain checklines hm.after1 hm.after2
          return diffsA ++ [⟨.equality, hm.common⟩] ++ diffsB
        | none =>
          if checklines ∧ text1.length > 100 ∧ text2.length > 100 then
            diffLineMode diffMain text1 text2
          else diffBisect diffMain text1 text2

/-- The body of `diff_main`. -/
def diffMainBody (checklines : Bool) (text1 text2 : Text) : Timed (List Diff) :=
  if text1 = text2 then return if text1 = [] then [] else [⟨.equality, text1⟩]
  else do
    let prefixLength := diffCommonPrefix text1 text2
    let commonPrefix := substring text1 0 prefixLength
    let text1 := substringFrom text1 prefixLength
    let text2 := substringFrom text2 prefixLength
    let suffixLength := diffCommonSuffix text1 text2
    let commonSuffix := substringFrom text1 (text1.length - suffixLength)
    let text1 := substring text1 0 (text1.length - suffixLength)
    let text2 := substring text2 0 (text2.length - suffixLength)
    let diffs ← diffCompute diffMain checklines text1 text2
    let diffs := if commonPrefix = [] then diffs else ⟨.equality, commonPrefix⟩ :: diffs
    let diffs := if commonSuffix = [] then diffs else diffs ++ [⟨.equality, commonSuffix⟩]
    return diffCleanupMerge diffs

end Compute

/-- `diff_main`, with a bound on the depth of the recursion. -/
def diffMainWithin : (depth : ℕ) → (checklines : Bool) → (text1 text2 : Text) →
    Timed (List Diff)
  | 0, _, _, _ => throw .diverges
  | depth + 1, checklines, text1, text2 =>
    diffMainBody (diffMainWithin depth) checklines text1 text2

/-- A bound on the depth of the recursion. -/
def depthOf (checklines : Bool) (text1 text2 : Text) (left : ℕ) : ℕ :=
  text1.length + text2.length + left + if checklines then 1 else 0

/-- `diff_main` as the page calls it, with the number of readings of the clock before the
deadline. -/
def diffMain (left : ℕ) (text1 text2 : Text) : Except Stop (List Diff) :=
  (diffMainWithin (depthOf true text1 text2 left + 1) true text1 text2).run' left

/-! ## What a call does -/

/-- The lines of long texts are compared. -/
def ComparesLines (checklines : Bool) (text1 text2 : Text) : Prop :=
  checklines = true ∧ 100 < text1.length ∧ 100 < text2.length

/-- The only error : lines are compared, and one of the first text begins with
`hasOwnProperty`. -/
def Throws (checklines : Bool) (text1 text2 : Text) (stop : Stop) : Prop :=
  stop = .typeError ∧ ComparesLines checklines text1 text2 ∧ 10 :: hasOwnProperty <:+: text1

/-- A call returns entries that spell the texts. Only a diff of lines can leave an empty one. -/
structure Returns (checklines : Bool) (text1 text2 : Text) (left : ℕ) (diffs : List Diff)
    (left' : ℕ) : Prop where
  le : left' ≤ left
  spells : Spells diffs text1 text2
  nonempty : ¬ComparesLines checklines text1 text2 → Nonempty diffs

/-- The calls below a depth do what they should. -/
def MeetsWithin (diffMain : (checklines : Bool) → (text1 text2 : Text) → Timed (List Diff))
    (depth : ℕ) : Prop :=
  ∀ checklines text1 text2 left, depthOf checklines text1 text2 left < depth →
    Meets (diffMain checklines text1 text2) left (Throws checklines text1 text2)
      (Returns checklines text1 text2 left)

theorem not_comparesLines_false (text1 text2 : Text) : ¬ComparesLines false text1 text2 := by
  rintro ⟨⟨⟩, -⟩

/-- A call with longer texts compares lines, too. -/
theorem ComparesLines.mono {checklines : Bool} {text1 text2 text1' text2' : Text}
    (h : ComparesLines checklines text1 text2) (h1 : text1.length ≤ text1'.length)
    (h2 : text2.length ≤ text2'.length) : ComparesLines checklines text1' text2' :=
  ⟨h.1, h.2.1.trans_le h1, h.2.2.trans_le h2⟩

/-- What a part throws, the whole throws. -/
theorem Throws.mono {checklines : Bool} {text1 text2 text1' text2' : Text} {stop : Stop}
    (h : Throws checklines text1 text2 stop) (h1 : text1 <:+: text1')
    (h2 : text2.length ≤ text2'.length) : Throws checklines text1' text2' stop :=
  ⟨h.1, h.2.1.mono h1.length_le h2, h.2.2.trans h1⟩

/-- In a long text the last line is not the first. -/
theorem HidesMethod.begins_line {text : Text} (h : HidesMethod text) (hlong : 100 < text.length) :
    10 :: hasOwnProperty <:+: text := by
  obtain ⟨before, hbefore, rfl⟩ := h
  have hne : before ≠ [] := by
    rintro rfl
    exact absurd hlong (by decide)
  obtain ⟨lines, rfl⟩ := List.getLast?_eq_some_iff.1 (hbefore.resolve_left hne)
  exact ⟨lines, [], by simp⟩

section Calls

variable {diffMain : (checklines : Bool) → (text1 text2 : Text) → Timed (List Diff)} {depth : ℕ}
  {text1 text2 : Text} {left : ℕ}

/-- A call without lines throws nothing. -/
theorem MeetsWithin.symbols (h : MeetsWithin diffMain depth) (E : Stop → Prop)
    (hdepth : text1.length + text2.length + left < depth) :
    Meets (diffMain false text1 text2) left E (Returns false text1 text2 left) :=
  (h false text1 text2 left hdepth).mono
    (fun _ hthrows => absurd hthrows.2.1 (not_comparesLines_false text1 text2)) fun _ _ => id

/-- The entries of two parts, one after the other. -/
theorem meets_diffBisectSplit (h : MeetsWithin diffMain depth) (E : Stop → Prop)
    (hdepth : text1.length + text2.length + left < depth) (x y : ℤ) :
    Meets (diffBisectSplit diffMain text1 text2 x y) left E (Returns false text1 text2 left) := by
  have htake1 := List.take_append_drop x.toNat text1
  have htake2 := List.take_append_drop y.toNat text2
  have hlength1 := congrArg List.length htake1
  have hlength2 := congrArg List.length htake2
  rw [List.length_append] at hlength1 hlength2
  simp only [diffBisectSplit, substring_zero, substringFrom_eq]
  refine (h.symbols E (by omega)).bind fun diffs left₁ hdiffs => ?_
  have hle₁ := hdiffs.le
  refine (h.symbols E (by omega)).bind fun diffsb left₂ hdiffsb => meets_pure ⟨?_, ?_, ?_⟩
  · exact hdiffsb.le.trans hle₁
  · have hspells := hdiffs.spells.append hdiffsb.spells
    rwa [htake1, htake2] at hspells
  · intro _
    exact nonempty_append.2 ⟨hdiffs.nonempty (not_comparesLines_false _ _),
      hdiffsb.nonempty (not_comparesLines_false _ _)⟩

theorem spells_deletion_insertion (text1 text2 : Text) :
    Spells [⟨.deletion, text1⟩, ⟨.insertion, text2⟩] text1 text2 := by
  simp [Spells]

/-- A split has cost a reading of the clock, so it may go one call deeper. -/
theorem meets_diffBisect (h : MeetsWithin diffMain depth) (E : Stop → Prop)
    (hdepth : text1.length + text2.length + left ≤ depth) (hne1 : text1 ≠ []) (hne2 : text2 ≠ []) :
    Meets (diffBisect diffMain text1 text2) left E (Returns false text1 text2 left) := by
  refine (meets_middleSnake text1 text2 E left).bind ?_
  rintro (_ | ⟨x, y⟩) left' ⟨hle, hlt⟩
  · refine meets_pure ⟨hle, spells_deletion_insertion text1 text2, fun _ => ?_⟩
    rw [nonempty_cons, nonempty_cons]
    exact ⟨hne1, hne2, fun _ hnil => absurd hnil List.not_mem_nil⟩
  · have hlt := hlt rfl
    exact (meets_diffBisectSplit h E (by omega) x y).mono (fun _ => id) fun diffs left'' hreturns =>
      ⟨hreturns.le.trans hle, hreturns.spells, hreturns.nonempty⟩

/-- An edit is only collected. -/
theorem rediffStep_of_edit {m : Merging} {diff : Diff} (hdiff : diff.diffType ≠ .equality) :
    rediffStep diffMain m diff = pure (mergeStep m diff) := by
  rcases hkind : diff.diffType with _ | _ | _
  · simp only [rediffStep, mergeStep, hkind]
  · exact absurd hkind hdiff
  · simp only [rediffStep, mergeStep, hkind]

/-- At an equality the entries behind it spell what was read. -/
theorem meets_rediffStep_equality (h : MeetsWithin diffMain depth) (E : Stop → Prop)
    {m : Merging} {run earlier : List Diff} {e1 e2 : Text} (hreads : m.Reads run earlier e1 e2)
    {diff : Diff} (hdiff : diff.diffType = .equality)
    (hdepth : m.textDelete.length + m.textInsert.length + left < depth) :
    Meets (rediffStep diffMain m diff) left E fun m' left' => left' ≤ left ∧
      ∃ behind, m' = ⟨diff :: behind, 0, 0, [], []⟩ ∧
        Spells behind.reverse (e1 ++ m.textDelete) (e2 ++ m.textInsert) := by
  simp only [rediffStep, hdiff]
  split_ifs
  · refine (h.symbols E hdepth).bind fun subDiff left' hsub =>
      meets_pure ⟨hsub.le, _, rfl, ?_⟩
    rw [hreads.behind, ← hreads.length, List.drop_left, List.reverse_append, List.reverse_reverse]
    exact hreads.spells.append hsub.spells
  · refine meets_pure ⟨le_rfl, _, rfl, ?_⟩
    rw [hreads.behind, List.reverse_append]
    exact hreads.spells.append hreads.edits

/-- What the loop of `diff_lineMode_` has read, and what is still to come, are the two texts. -/
def Rediffing (text1 text2 : Text) (left : ℕ) (rest : List Diff) (m : Merging) (left' : ℕ) :
    Prop :=
  left' ≤ left ∧ ∃ run earlier e1 e2, m.Reads run earlier e1 e2 ∧
    e1 ++ m.textDelete ++ diffText1 rest = text1 ∧ e2 ++ m.textInsert ++ diffText2 rest = text2

/-- The edits collected are parts of the two texts. -/
theorem Rediffing.length_le {rest : List Diff} {m : Merging} {left' : ℕ}
    (h : Rediffing text1 text2 left rest m left') :
    m.textDelete.length + m.textInsert.length + left' ≤ text1.length + text2.length + left := by
  obtain ⟨hle, _, _, _, _, -, rfl, rfl⟩ := h
  simp only [List.length_append]
  omega

theorem meets_rediffStep (h : MeetsWithin diffMain depth) (E : Stop → Prop)
    (hdepth : text1.length + text2.length + left < depth) (diff : Diff) (rest : List Diff)
    (m : Merging) (left' : ℕ) (hrediffing : Rediffing text1 text2 left (diff :: rest) m left') :
    Meets (rediffStep diffMain m diff) left' E (Rediffing text1 text2 left rest) := by
  have hlength := hrediffing.length_le
  obtain ⟨hle, run, earlier, e1, e2, hreads, h1, h2⟩ := hrediffing
  rw [diffText1_cons, ← List.append_assoc] at h1
  rw [diffText2_cons, ← List.append_assoc] at h2
  by_cases hdiff : diff.diffType = .equality
  · refine (meets_rediffStep_equality h E hreads hdiff (by omega)).mono (fun _ => id) ?_
    rintro _ left'' ⟨hle', behind, rfl, hspells⟩
    have hspells' := hspells.snoc diff
    rw [← List.reverse_cons] at hspells'
    refine ⟨hle'.trans hle, [], diff :: behind, _, _, ⟨rfl, rfl, ⟨rfl, rfl⟩, rfl, hspells', ?_⟩,
      ?_, ?_⟩
    · rintro previous ⟨⟩
      exact hdiff
    · simpa using h1
    · simpa using h2
  · rw [rediffStep_of_edit hdiff]
    obtain ⟨run', earlier', e1', e2', hreads', h1', h2'⟩ := reads_mergeStep hreads diff
    exact meets_pure ⟨hle, run', earlier', e1', e2', hreads', by rw [h1', h1], by rw [h2', h2]⟩

/-- A diff of lines, refined. -/
theorem meets_diffLineMode (h : MeetsWithin diffMain depth)
    (hdepth : text1.length + text2.length + left < depth)
    (hlines : ComparesLines true text1 text2) :
    Meets (diffLineMode diffMain text1 text2) left (Throws true text1 text2)
      (Returns true text1 text2 left) := by
  unfold diffLineMode
  rcases diffLinesToChars_spec text1 text2 with ⟨herror, -, hhides⟩ | ⟨a, hok, h1, h2⟩
  · exact Meets.bind_error herror ⟨rfl, hlines, hhides.begins_line hlines.2.1⟩
  have hlength1 := h1.length_le
  have hlength2 := h2.length_le
  refine Meets.bind_ok hok ?_
  refine (h.symbols _ (by omega)).bind fun diffs left₁ hdiffs => ?_
  have hle₁ := hdiffs.le
  obtain ⟨cleaned, hcleaned, hspells⟩ :=
    diffCleanupSemantic_spec (spells_diffCharsToLines h1 h2 hdiffs.spells)
      (nonempty_diffCharsToLines h1 h2 hdiffs.spells
        (hdiffs.nonempty (not_comparesLines_false _ _)))
  refine Meets.bind_ok hcleaned ?_
  -- the loop without the dummy entry, and then the dummy entry
  rw [List.foldlM_append, bind_assoc]
  have hstart : Rediffing text1 text2 left cleaned ⟨[], 0, 0, [], []⟩ left₁ :=
    ⟨hle₁, [], [], [], [], reads_start, hspells.1, hspells.2⟩
  refine (meets_foldlM (meets_rediffStep h (Throws true text1 text2) hdepth) cleaned hstart).bind
    fun m left₂ hm => ?_
  have hlength := hm.length_le
  obtain ⟨hle₂, run, earlier, e1, e2, hreads, h1', h2'⟩ := hm
  have hlast : (⟨.equality, []⟩ : Diff).diffType = .equality := rfl
  simp only [List.foldlM_cons, List.foldlM_nil, bind_pure]
  refine (meets_rediffStep_equality h (Throws true text1 text2) hreads hlast (by omega)).bind ?_
  rintro _ left₃ ⟨hle₃, behind, rfl, hspells'⟩
  rw [diffText1_nil, List.append_nil] at h1'
  rw [diffText2_nil, List.append_nil] at h2'
  rw [h1', h2'] at hspells'
  exact meets_pure ⟨hle₃.trans hle₂, hspells', fun hsymbols => absurd hlines hsymbols⟩

/-- A text and a beginning of it are not apart. -/
theorem not_apart_append {shorttext : Text} (hne : shorttext ≠ []) (rest : Text) :
    ¬Apart (shorttext ++ rest) shorttext := by
  obtain ⟨c, shorttext, rfl⟩ := List.exists_cons_of_ne_nil hne
  exact fun h => h c rfl rfl

/-- A text inside one that it shares no prefix and no suffix with has something on both
sides. -/
theorem outside_ne_nil {longtext shorttext : Text} {i : ℕ} (hne : shorttext ≠ [])
    (hpre : Apart longtext shorttext) (hsuffix : Apart longtext.reverse shorttext.reverse)
    (h : indexOf longtext shorttext 0 = some i) :
    longtext.take i ≠ [] ∧ longtext.drop (i + shorttext.length) ≠ [] := by
  obtain ⟨-, -, hsplit⟩ := indexOf_eq_some h
  refine ⟨fun hnil => ?_, fun hnil => ?_⟩
  · rw [hnil, List.nil_append] at hsplit
    rw [hsplit] at hpre
    exact not_apart_append hne _ hpre
  · rw [hnil, List.append_nil] at hsplit
    rw [hsplit, List.reverse_append] at hsuffix
    exact not_apart_append (by simpa using hne) _ hsuffix

/-- One text is inside the other. -/
theorem spells_inside {longtext shorttext : Text} {i : ℕ}
    (h : indexOf longtext shorttext 0 = some i) :
    Spells [⟨.deletion, longtext.take i⟩, ⟨.equality, shorttext⟩,
        ⟨.deletion, longtext.drop (i + shorttext.length)⟩] longtext shorttext ∧
      Spells [⟨.insertion, longtext.take i⟩, ⟨.equality, shorttext⟩,
        ⟨.insertion, longtext.drop (i + shorttext.length)⟩] shorttext longtext := by
  obtain ⟨-, -, hsplit⟩ := indexOf_eq_some h
  rw [List.append_assoc] at hsplit
  refine ⟨⟨?_, ?_⟩, ?_, ?_⟩ <;> simp [← hsplit]

/-- The shorter text is found inside the longer one. -/
theorem returns_inside {checklines : Bool} {longtext shorttext : Text} {i : ℕ}
    (hne : shorttext ≠ []) (hpre : Apart longtext shorttext)
    (hsuffix : Apart longtext.reverse shorttext.reverse)
    (h : indexOf longtext shorttext 0 = some i) :
    Returns checklines longtext shorttext left [⟨.deletion, substring longtext 0 i⟩,
        ⟨.equality, shorttext⟩, ⟨.deletion, substringFrom longtext (i + shorttext.length)⟩] left ∧
      Returns checklines shorttext longtext left [⟨.insertion, substring longtext 0 i⟩,
        ⟨.equality, shorttext⟩, ⟨.insertion, substringFrom longtext (i + shorttext.length)⟩]
        left := by
  obtain ⟨hbefore, hafter⟩ := outside_ne_nil hne hpre hsuffix h
  rw [substring_zero, substringFrom_eq]
  refine ⟨⟨le_rfl, (spells_inside h).1, fun _ => ?_⟩, ⟨le_rfl, (spells_inside h).2, fun _ => ?_⟩⟩
  · simp [Nonempty, hne, hbefore, hafter]
  · simp [Nonempty, hne, hbefore, hafter]

/-- What is common lies between two diffs of shorter texts. -/
theorem meets_halves (h : MeetsWithin diffMain depth) {checklines : Bool}
    (hdepth : depthOf checklines text1 text2 left ≤ depth) {hm : HalfMatch}
    (hcommon : hm.common ≠ []) (hsplits : hm.Splits text1 text2) :
    Meets (do
        let diffsA ← diffMain checklines hm.before1 hm.before2
        let diffsB ← diffMain checklines hm.after1 hm.after2
        return diffsA ++ [⟨.equality, hm.common⟩] ++ diffsB) left (Throws checklines text1 text2)
      (Returns checklines text1 text2 left) := by
  have hpos := List.length_pos_iff.2 hcommon
  have hlength1 := congrArg List.length hsplits.text1
  have hlength2 := congrArg List.length hsplits.text2
  rw [List.length_append, List.length_append] at hlength1 hlength2
  unfold depthOf at hdepth
  refine ((h checklines hm.before1 hm.before2 left (by unfold depthOf; omega)).mono ?_
    fun _ _ => id).bind fun diffsA left₁ hA => ?_
  · refine fun stop hthrows => hthrows.mono ?_ (by omega)
    rw [hsplits.text1, List.append_assoc]
    exact (List.prefix_append _ _).isInfix
  have hle := hA.le
  refine ((h checklines hm.after1 hm.after2 left₁ (by unfold depthOf; omega)).mono ?_
    fun _ _ => id).bind fun diffsB left₂ hB => meets_pure ⟨hB.le.trans hle, ?_, fun hsymbols => ?_⟩
  · refine fun stop hthrows => hthrows.mono ?_ (by omega)
    rw [hsplits.text1]
    exact (List.suffix_append _ _).isInfix
  · rw [hsplits.text1, hsplits.text2]
    have hspells := (hA.spells.snoc ⟨.equality, hm.common⟩).append hB.spells
    rwa [before_equality, after_equality] at hspells
  · rw [nonempty_append, nonempty_append]
    refine ⟨⟨hA.nonempty fun hlines => hsymbols (hlines.mono (by omega) (by omega)), ?_⟩,
      hB.nonempty fun hlines => hsymbols (hlines.mono (by omega) (by omega))⟩
    simpa [Nonempty] using hcommon

/-- The diff of two texts that share no prefix and no suffix. -/
theorem meets_diffCompute (h : MeetsWithin diffMain depth) {checklines : Bool}
    (hdepth : depthOf checklines text1 text2 left ≤ depth) (hne : text1 ≠ text2)
    (hpre : Apart text1 text2) (hsuffix : Apart text1.reverse text2.reverse) :
    Meets (diffCompute diffMain checklines text1 text2) left (Throws checklines text1 text2)
      (Returns checklines text1 text2 left) := by
  have hsymbols : text1.length + text2.length + left ≤ depth :=
    (Nat.le_add_right _ _).trans hdepth
  unfold diffCompute
  by_cases hne1 : text1 = []
  · rw [if_pos hne1]
    subst hne1
    refine meets_pure ⟨le_rfl, by simp [Spells], fun _ => ?_⟩
    simpa [Nonempty] using hne.symm
  rw [if_neg hne1]
  by_cases hne2 : text2 = []
  · rw [if_pos hne2]
    subst hne2
    refine meets_pure ⟨le_rfl, by simp [Spells], fun _ => ?_⟩
    simpa [Nonempty] using hne
  rw [if_neg hne2]
  dsimp only
  split
  · rename_i i hindex
    refine meets_pure ?_
    by_cases hlonger : text1.length > text2.length
    · simp only [hlonger, if_true] at hindex ⊢
      exact (returns_inside hne2 hpre hsuffix hindex).1
    · simp only [hlonger, if_false] at hindex ⊢
      exact (returns_inside hne1 hpre.symm hsuffix.symm hindex).2
  by_cases hsingle : (if text1.length > text2.length then text2 else text1).length = 1
  · rw [if_pos hsingle]
    refine meets_pure ⟨le_rfl, spells_deletion_insertion text1 text2, fun _ => ?_⟩
    simp [Nonempty, hne1, hne2]
  rw [if_neg hsingle]
  rcases hhalf : diffHalfMatch text1 text2 with _ | hm
  · dsimp only
    split_ifs with hlines
    · obtain ⟨rfl, hlong1, hlong2⟩ := hlines
      exact meets_diffLineMode h hdepth ⟨rfl, hlong1, hlong2⟩
    · refine (meets_diffBisect h _ hsymbols hne1 hne2).mono (fun _ => id) fun _ _ hreturns =>
        ⟨hreturns.le, hreturns.spells, fun _ => hreturns.nonempty (not_comparesLines_false _ _)⟩
  · obtain ⟨hcommon, hsplits⟩ := splits_of_diffHalfMatch hhalf
    exact meets_halves h hdepth hcommon hsplits

/-- What is left after the common prefix and the common suffix. -/
structure Trimmed (text1 text2 commonPrefix commonSuffix middle1 middle2 : Text) : Prop where
  text1 : text1 = commonPrefix ++ middle1 ++ commonSuffix
  text2 : text2 = commonPrefix ++ middle2 ++ commonSuffix
  headsApart : Apart middle1 middle2
  lastsApart : Apart middle1.reverse middle2.reverse

/-- Trimming, as `diff_main` does it. -/
theorem trimmed {p s : ℕ} (hpre : Shares text1 text2 p)
    (hsuffix : Shares (text1.drop p).reverse (text2.drop p).reverse s) :
    Trimmed text1 text2 (text1.take p) ((text1.drop p).drop ((text1.drop p).length - s))
      ((text1.drop p).take ((text1.drop p).length - s))
      ((text2.drop p).take ((text2.drop p).length - s)) := by
  have hle1 := hsuffix.le1
  have hle2 := hsuffix.le2
  have hreverse {text : Text} (hle : s ≤ text.reverse.length) :
      (text.take (text.length - s)).reverse = text.reverse.drop s := by
    rw [List.length_reverse] at hle
    rw [List.reverse_take, Nat.sub_sub_self hle]
  refine ⟨?_, ?_, hpre.apart.take _ _, ?_⟩
  · rw [List.append_assoc, List.take_append_drop, List.take_append_drop]
  · rw [drop_eq_of_shares_reverse hsuffix, hpre.same, List.append_assoc,
      List.take_append_drop, List.take_append_drop]
  · rw [hreverse hle1, hreverse hle2]
    exact hsuffix.apart

/-- The prefix and the suffix, restored. -/
theorem restored {diffs : List Diff} {middle1 middle2 : Text} (commonPrefix commonSuffix : Text)
    (h : Spells diffs middle1 middle2) :
    let diffs' := if commonPrefix = [] then diffs else ⟨.equality, commonPrefix⟩ :: diffs
    let diffs'' := if commonSuffix = [] then diffs' else diffs' ++ [⟨.equality, commonSuffix⟩]
    Spells diffs'' (commonPrefix ++ middle1 ++ commonSuffix)
        (commonPrefix ++ middle2 ++ commonSuffix) ∧
      (Nonempty diffs → Nonempty diffs'') := by
  obtain ⟨rfl, rfl⟩ := h
  have hlast (hne : commonSuffix ≠ []) : Nonempty [⟨.equality, commonSuffix⟩] := by
    simpa [Nonempty] using hne
  refine ⟨?_, fun hnonempty => ?_⟩
  · split_ifs with hsuffix hpre hpre <;> simp_all [Spells]
  · split_ifs with hsuffix hpre hpre
    · exact hnonempty
    · exact nonempty_cons.2 ⟨hpre, hnonempty⟩
    · exact nonempty_append.2 ⟨hnonempty, hlast hsuffix⟩
    · exact nonempty_append.2 ⟨nonempty_cons.2 ⟨hpre, hnonempty⟩, hlast hsuffix⟩

/-- One call, if the calls below it do what they should. -/
theorem meets_diffMainBody (h : MeetsWithin diffMain depth) {checklines : Bool}
    (hdepth : depthOf checklines text1 text2 left ≤ depth) :
    Meets (diffMainBody diffMain checklines text1 text2) left (Throws checklines text1 text2)
      (Returns checklines text1 text2 left) := by
  unfold diffMainBody
  by_cases hsame : text1 = text2
  · rw [if_pos hsame]
    subst hsame
    refine meets_pure ⟨le_rfl, ?_, fun _ => ?_⟩ <;> split_ifs with hempty
    · simp [Spells, hempty]
    · simp [Spells]
    · simp [Nonempty]
    · simp [Nonempty, hempty]
  rw [if_neg hsame]
  obtain ⟨p, hp⟩ : ∃ p, p = diffCommonPrefix text1 text2 := ⟨_, rfl⟩
  obtain ⟨s, hs⟩ : ∃ s, s = diffCommonSuffix (text1.drop p) (text2.drop p) := ⟨_, rfl⟩
  have htrimmed := trimmed (hp ▸ shares_diffCommonPrefix text1 text2)
    (hs ▸ shares_diffCommonSuffix (text1.drop p) (text2.drop p))
  simp only [substringFrom_eq, substring_zero, ← hp, ← hs]
  generalize text1.take p = commonPrefix at *
  generalize (text1.drop p).drop ((text1.drop p).length - s) = commonSuffix at *
  generalize (text1.drop p).take ((text1.drop p).length - s) = middle1 at *
  generalize (text2.drop p).take ((text2.drop p).length - s) = middle2 at *
  obtain ⟨h1, h2, hheads, hlasts⟩ := htrimmed
  have hne : middle1 ≠ middle2 := by
    rintro rfl
    exact hsame (h1.trans h2.symm)
  have hlength1 := congrArg List.length h1
  have hlength2 := congrArg List.length h2
  simp only [List.length_append] at hlength1 hlength2
  have hmiddle : depthOf checklines middle1 middle2 left ≤ depthOf checklines text1 text2 left := by
    unfold depthOf
    omega
  refine ((meets_diffCompute h (hmiddle.trans hdepth) hne hheads hlasts).mono ?_
    fun _ _ => id).bind fun diffs left' hdiffs => meets_pure ⟨hdiffs.le, ?_, fun hsymbols => ?_⟩
  · exact fun stop hthrows => hthrows.mono ⟨commonPrefix, commonSuffix, h1.symm⟩ (by omega)
  · rw [h1, h2]
    have hspells := (restored commonPrefix commonSuffix hdiffs.spells).1
    have hmerged := spells_diffCleanupMerge (if commonSuffix = [] then
      if commonPrefix = [] then diffs else ⟨.equality, commonPrefix⟩ :: diffs else
      (if commonPrefix = [] then diffs else ⟨.equality, commonPrefix⟩ :: diffs) ++
        [⟨.equality, commonSuffix⟩])
    rwa [hspells.1, hspells.2] at hmerged
  · exact nonempty_diffCleanupMerge ((restored commonPrefix commonSuffix hdiffs.spells).2
      (hdiffs.nonempty fun hlines => hsymbols (hlines.mono (by omega) (by omega))))

end Calls

/-- Calls within a depth that is enough for them do what they should. -/
theorem meets_diffMainWithin : ∀ depth, MeetsWithin (diffMainWithin depth) depth
  | 0, _, _, _, _, hdepth => absurd hdepth (Nat.not_lt_zero _)
  | depth + 1, _, _, _, _, hdepth =>
    meets_diffMainBody (meets_diffMainWithin depth) (Nat.lt_succ_iff.1 hdepth)

/-- `diff_main` returns entries that spell the texts, none of them empty unless lines were
compared. If it does not, then lines were compared, and one of the first text begins with
`hasOwnProperty`. -/
theorem diffMain_spec (left : ℕ) (text1 text2 : Text) :
    (diffMain left text1 text2 = .error .typeError ∧ Throws true text1 text2 .typeError) ∨
      ∃ diffs, diffMain left text1 text2 = .ok diffs ∧ Spells diffs text1 text2 ∧
        (¬ComparesLines true text1 text2 → Nonempty diffs) := by
  rcases (meets_diffMainWithin _ true text1 text2 left (Nat.lt_succ_self _)).cases with
    ⟨stop, hrun, hthrows⟩ | ⟨diffs, left', hrun, hreturns⟩
  · obtain rfl : stop = .typeError := hthrows.1
    exact .inl ⟨congrArg (Except.map Prod.fst) hrun, hthrows⟩
  · exact .inr ⟨diffs, congrArg (Except.map Prod.fst) hrun, hreturns.spells, hreturns.nonempty⟩

/-- A call returns merged entries. -/
theorem meets_diffMainBody_settled
    (diffMain : (checklines : Bool) → (text1 text2 : Text) → Timed (List Diff))
    (checklines : Bool) (text1 text2 : Text) (left : ℕ) :
    Meets (diffMainBody diffMain checklines text1 text2) left (fun _ => True)
      fun diffs _ => InOrder diffs ∧ Still diffs := by
  unfold diffMainBody
  split_ifs
  · exact meets_pure ⟨List.isChain_nil, still_of_length_le (by simp)⟩
  · exact meets_pure ⟨List.isChain_singleton _, still_of_length_le (by simp)⟩
  · exact (meets_true _ _).bind fun _ _ _ => meets_pure (settled_diffCleanupMerge _)

/-- Whatever the clock, `diff_main` returns entries that spell the texts. Of two edits side by
side the first is a deletion and the second an insertion, no edit between two equalities can be
shifted, and no entry is empty unless both texts are long. It fails only if both are long and
a line of the first begins with `hasOwnProperty`. -/
theorem diffMain_settles (left : ℕ) (text1 text2 : Text) :
    (diffMain left text1 text2 = .error .typeError ∧ 100 < text1.length ∧ 100 < text2.length ∧
        10 :: hasOwnProperty <:+: text1) ∨
      ∃ diffs, diffMain left text1 text2 = .ok diffs ∧ Spells diffs text1 text2 ∧
        InOrder diffs ∧ Still diffs ∧
        (text1.length ≤ 100 ∨ text2.length ≤ 100 → Nonempty diffs) := by
  rcases diffMain_spec left text1 text2 with
    ⟨herror, -, ⟨-, hlong1, hlong2⟩, hline⟩ | ⟨diffs, hdiffs, hspells, hnonempty⟩
  · exact .inl ⟨herror, hlong1, hlong2, hline⟩
  · rcases (meets_diffMainBody_settled (diffMainWithin (depthOf true text1 text2 left)) true text1
      text2 left).cases with ⟨stop, hrun, -⟩ | ⟨diffs', left', hrun, hsettled⟩
    · cases (congrArg (Except.map Prod.fst) hrun).symm.trans hdiffs
    · obtain rfl : diffs' = diffs :=
        Except.ok.inj ((congrArg (Except.map Prod.fst) hrun).symm.trans hdiffs)
      refine .inr ⟨diffs', hdiffs, hspells, hsettled.1, hsettled.2, fun hshort => ?_⟩
      refine hnonempty fun hlines => ?_
      have hlong := hlines.2
      omega

end OtEditor.DiffMatchPatch
