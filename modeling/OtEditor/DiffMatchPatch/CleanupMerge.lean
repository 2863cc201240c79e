import OtEditor.Decomposer
import OtEditor.DiffMatchPatch.Common
import Mathlib.Data.List.Chain

/-!
# Merging the entries of a diff

`diffCleanupMerge` reorders and merges the entries of a diff : between two equalities it
leaves at most one deletion and one insertion, with what they have in common at either end
moved into the equalities, and then shifts edits sideways over equalities that they repeat,
until no shift is left (`settled_diffCleanupMerge`). It spells the same two texts as before
(`spells_diffCleanupMerge`) and makes no empty entry (`nonempty_diffCleanupMerge`). A round that
shifts an edit takes weight from the diff, so the rounds end.
-/

namespace OtEditor.DiffMatchPatch

/-! ## The texts of a diff -/

/-- `diff_text1`, the source text : all equalities and deletions. -/
def diffText1 (diffs : List Diff) : Text :=
  diffs.flatMap Diff.before

/-- `diff_text2`, the destination text : all equalities and insertions. -/
def diffText2 (diffs : List Diff) : Text :=
  diffs.flatMap Diff.after

/-- The entries describe how the first text becomes the second. -/
def Spells (diffs : List Diff) (text1 text2 : Text) : Prop :=
  diffText1 diffs = text1 ∧ diffText2 diffs = text2

/-- No entry is empty. -/
def Nonempty (diffs : List Diff) : Prop :=
  ∀ diff ∈ diffs, diff.content ≠ []

section Texts

variable (content : Text) (diff : Diff) (diffs diffs' : List Diff)

@[simp] theorem before_deletion : (⟨.deletion, content⟩ : Diff).before = content := rfl
@[simp] theorem before_equality : (⟨.equality, content⟩ : Diff).before = content := rfl
@[simp] theorem before_insertion : (⟨.insertion, content⟩ : Diff).before = [] := rfl
@[simp] theorem after_deletion : (⟨.deletion, content⟩ : Diff).after = [] := rfl
@[simp] theorem after_equality : (⟨.equality, content⟩ : Diff).after = content := rfl
@[simp] theorem after_insertion : (⟨.insertion, content⟩ : Diff).after = content := rfl

@[simp] theorem diffText1_nil : diffText1 [] = [] := rfl
@[simp] theorem diffText2_nil : diffText2 [] = [] := rfl

@[simp] theorem diffText1_cons : diffText1 (diff :: diffs) = diff.before ++ diffText1 diffs :=
  List.flatMap_cons

@[simp] theorem diffText2_cons : diffText2 (diff :: diffs) = diff.after ++ diffText2 diffs :=
  List.flatMap_cons

@[simp] theorem diffText1_append :
    diffText1 (diffs ++ diffs') = diffText1 diffs ++ diffText1 diffs' :=
  List.flatMap_append

@[simp] theorem diffText2_append :
    diffText2 (diffs ++ diffs') = diffText2 diffs ++ diffText2 diffs' :=
  List.flatMap_append

end Texts

theorem Spells.append {diffs diffs' : List Diff} {a a' b b' : Text} (h : Spells diffs a b)
    (h' : Spells diffs' a' b') : Spells (diffs ++ diffs') (a ++ a') (b ++ b') := by
  refine ⟨?_, ?_⟩
  · rw [diffText1_append, h.1, h'.1]
  · rw [diffText2_append, h.2, h'.2]

/-! ## The first pass -/

/-- The first pass before one entry : the entries behind the pointer, the last first, and the
edits among them since the last equality. -/
structure Merging where
  behind : List Diff
  countDelete : ℕ
  countInsert : ℕ
  textDelete : Text
  textInsert : Text

/-- Factor out a common prefix of the insertion and the deletion, into the equality before
them or a new first entry. -/
def factorPrefix (earlier : List Diff) (textDelete textInsert : Text) :
    List Diff × Text × Text :=
  let commonlength := diffCommonPrefix textInsert textDelete
  if commonlength ≠ 0 then
    let common := substring textInsert 0 commonlength
    (match earlier with
      | previous :: earlier' =>
        if previous.diffType = .equality then
          { previous with content := previous.content ++ common } :: earlier'
        else earlier ++ [⟨.equality, common⟩]
      | [] => [⟨.equality, common⟩],
      substringFrom textDelete commonlength, substringFrom textInsert commonlength)
  else (earlier, textDelete, textInsert)

/-- Factor out a common suffix of the insertion and the deletion, into the equality after
them. -/
def factorSuffix (diff : Diff) (textDelete textInsert : Text) : Diff × Text × Text :=
  let commonlength := diffCommonSuffix textInsert textDelete
  if commonlength ≠ 0 then
    let common := substringFrom textInsert (textInsert.length - commonlength)
    ({ diff with content := common ++ diff.content },
      substring textDelete 0 (textDelete.length - commonlength),
      substring textInsert 0 (textInsert.length - commonlength))
  else (diff, textDelete, textInsert)

/-- The merged edits, the insertion first as they are behind the pointer. -/
def mergedEdits (textDelete textInsert : Text) : List Diff :=
  (if textInsert.length ≠ 0 then [Diff.mk .insertion textInsert] else []) ++
    if textDelete.length ≠ 0 then [Diff.mk .deletion textDelete] else []

/-- What the first pass does at an equality : the last entry behind the pointer afterwards, and
those before it. -/
def mergeAtEquality (m : Merging) (diff : Diff) : Diff × List Diff :=
  if m.countDelete + m.countInsert > 1 then
    let earlier := m.behind.drop (m.countDelete + m.countInsert)
    if m.countDelete ≠ 0 ∧ m.countInsert ≠ 0 then
      let (earlier, textDelete, textInsert) := factorPrefix earlier m.textDelete m.textInsert
      let (diff, textDelete, textInsert) := factorSuffix diff textDelete textInsert
      (diff, mergedEdits textDelete textInsert ++ earlier)
    else (diff, mergedEdits m.textDelete m.textInsert ++ earlier)
  else
    match m.behind with
    | previous :: behind =>
      if previous.diffType = .equality then
        ({ previous with content := previous.content ++ diff.content }, behind)
      else (diff, m.behind)
    | [] => (diff, [])

/-- One entry of the first pass. -/
def mergeStep (m : Merging) (diff : Diff) : Merging :=
  match diff.diffType with
  | .insertion => { m with
      behind := diff :: m.behind
      countInsert := m.countInsert + 1
      textInsert := m.textInsert ++ diff.content }
  | .deletion => { m with
      behind := diff :: m.behind
      countDelete := m.countDelete + 1
      textDelete := m.textDelete ++ diff.content }
  | .equality =>
    let (last, behind) := mergeAtEquality m diff
    ⟨last :: behind, 0, 0, [], []⟩

/-- The first pass, with a dummy entry at the end that is removed if it is still empty. -/
def mergeEntries (diffs : List Diff) : List Diff :=
  match (List.foldl mergeStep ⟨[], 0, 0, [], []⟩ (diffs ++ [⟨.equality, []⟩])).behind with
  | last :: behind => if last.content = [] then behind.reverse else (last :: behind).reverse
  | [] => []

/-! ## The second pass -/

/-- The second pass, and whether it changed anything : shift edits sideways over an equality
that they end or begin with. The pointer is at the second entry. -/
def shiftEdits : List Diff → List Diff × Bool
  | previous :: diff :: next :: rest =>
    if previous.diffType = .equality ∧ next.diffType = .equality then
      if substringFrom diff.content (diff.content.length - previous.content.length) =
          previous.content then
        -- shift the edit over the previous equality
        let start := substring diff.content 0 (diff.content.length - previous.content.length)
        let shifted := shiftEdits
          ({ next with content := previous.content ++ next.content } :: rest)
        ({ diff with content := previous.content ++ start } :: shifted.1, true)
      else if substring diff.content 0 next.content.length = next.content then
        -- shift the edit over the next equality
        let stop := substringFrom diff.content next.content.length
        let shifted := shiftEdits ({ diff with content := stop ++ next.content } :: rest)
        ({ previous with content := previous.content ++ next.content } :: shifted.1, true)
      else
        let shifted := shiftEdits (diff :: next :: rest)
        (previous :: shifted.1, shifted.2)
    else
      let shifted := shiftEdits (diff :: next :: rest)
      (previous :: shifted.1, shifted.2)
  | diffs => (diffs, false)
termination_by diffs => diffs.length

/-! ## The weight of a diff -/

/-- Twice the symbols of the entries, and one for each entry. -/
def weight : List Diff → ℕ
  | [] => 0
  | diff :: diffs => 2 * diff.content.length + 1 + weight diffs

@[simp] theorem weight_nil : weight [] = 0 := rfl

@[simp] theorem weight_cons (diff : Diff) (diffs : List Diff) :
    weight (diff :: diffs) = 2 * diff.content.length + 1 + weight diffs := rfl

@[simp] theorem weight_append (diffs diffs' : List Diff) :
    weight (diffs ++ diffs') = weight diffs + weight diffs' := by
  induction diffs with
  | nil => simp
  | cons diff diffs ih =>
    rw [List.cons_append, weight_cons, ih, weight_cons]
    omega

@[simp] theorem weight_reverse (diffs : List Diff) : weight diffs.reverse = weight diffs := by
  induction diffs with
  | nil => rfl
  | cons diff diffs ih =>
    rw [List.reverse_cons, weight_append, ih, weight_cons, weight_cons, weight_nil]
    omega

/-! ## What the first pass keeps -/

section FirstPass

variable {earlier : List Diff} {diff : Diff} {e1 e2 : Text}

/-- Behind the edits there is nothing, or an equality. -/
def AtBorder (earlier : List Diff) : Prop :=
  ∀ previous ∈ earlier.head?, previous.diffType = .equality

theorem Spells.snoc {diffs : List Diff} {text1 text2 : Text} (h : Spells diffs text1 text2)
    (diff : Diff) : Spells (diffs ++ [diff]) (text1 ++ diff.before) (text2 ++ diff.after) :=
  h.append ⟨List.append_nil _, List.append_nil _⟩

theorem before_of_equality (h : diff.diffType = .equality) : diff.before = diff.content := by
  simp [Diff.before, h]

theorem after_of_equality (h : diff.diffType = .equality) : diff.after = diff.content := by
  simp [Diff.after, h]

/-- The common prefix goes behind what is left of the edits. -/
theorem spells_factorPrefix (hborder : AtBorder earlier) (h : Spells earlier.reverse e1 e2)
    (textDelete textInsert : Text) :
    let factored := factorPrefix earlier textDelete textInsert
    ∃ e1' e2', Spells factored.1.reverse e1' e2' ∧ e1' ++ factored.2.1 = e1 ++ textDelete ∧
      e2' ++ factored.2.2 = e2 ++ textInsert := by
  obtain ⟨n, hn⟩ : ∃ n, n = diffCommonPrefix textInsert textDelete := ⟨_, rfl⟩
  have hsame : textInsert.take n = textDelete.take n :=
    hn ▸ (shares_diffCommonPrefix textInsert textDelete).same
  simp only [factorPrefix, ← hn, substring_zero, substringFrom_eq]
  split_ifs with hzero
  · refine ⟨e1 ++ textInsert.take n, e2 ++ textInsert.take n, ?_, ?_, ?_⟩
    · rcases earlier with _ | ⟨previous, earlier⟩
      · obtain ⟨rfl, rfl⟩ := h
        simp [Spells]
      · have hprevious : previous.diffType = .equality := hborder previous rfl
        obtain ⟨rfl, rfl⟩ := h
        simp [Spells, hprevious, Diff.before, Diff.after]
    · rw [hsame, List.append_assoc, List.take_append_drop]
    · rw [List.append_assoc, List.take_append_drop]
  · exact ⟨e1, e2, h, rfl, rfl⟩

/-- The common suffix goes before the equality. -/
theorem factorSuffix_spec (hdiff : diff.diffType = .equality) (textDelete textInsert : Text) :
    let factored := factorSuffix diff textDelete textInsert
    factored.1.diffType = .equality ∧
      factored.2.1 ++ factored.1.content = textDelete ++ diff.content ∧
      factored.2.2 ++ factored.1.content = textInsert ++ diff.content := by
  obtain ⟨n, hn⟩ : ∃ n, n = diffCommonSuffix textInsert textDelete := ⟨_, rfl⟩
  have hsame : textInsert.drop (textInsert.length - n) = textDelete.drop (textDelete.length - n) :=
    hn ▸ drop_eq_of_shares_reverse (shares_diffCommonSuffix textInsert textDelete)
  simp only [factorSuffix, ← hn, substring_zero, substringFrom_eq]
  split_ifs with hzero
  · refine ⟨hdiff, ?_, ?_⟩
    · rw [hsame, ← List.append_assoc, List.take_append_drop]
    · rw [← List.append_assoc, List.take_append_drop]
  · exact ⟨hdiff, rfl, rfl⟩

theorem spells_mergedEdits (textDelete textInsert : Text) :
    Spells (mergedEdits textDelete textInsert).reverse textDelete textInsert := by
  rw [mergedEdits]
  split_ifs with h1 h2 h2 <;> simp_all [Spells]

/-- The first pass has read two texts : those behind the last run of edits, and the edits. -/
structure Merging.Reads (m : Merging) (run earlier : List Diff) (e1 e2 : Text) : Prop where
  behind : m.behind = run ++ earlier
  length : run.length = m.countDelete + m.countInsert
  edits : Spells run.reverse m.textDelete m.textInsert
  weight : weight run = 2 * (m.textDelete.length + m.textInsert.length) + run.length
  spells : Spells earlier.reverse e1 e2
  border : AtBorder earlier

/-- At an equality the merged entries still spell what was read. -/
theorem spells_mergeAtEquality {m : Merging} {run : List Diff} (h : m.Reads run earlier e1 e2)
    (hdiff : diff.diffType = .equality) :
    let merged := mergeAtEquality m diff
    merged.1.diffType = .equality ∧ Spells (merged.1 :: merged.2).reverse
      (e1 ++ m.textDelete ++ diff.content) (e2 ++ m.textInsert ++ diff.content) := by
  have hearlier : m.behind.drop (m.countDelete + m.countInsert) = earlier := by
    rw [h.behind, ← h.length, List.drop_left]
  have hbehind : Spells m.behind.reverse (e1 ++ m.textDelete) (e2 ++ m.textInsert) := by
    rw [h.behind, List.reverse_append]
    exact h.spells.append h.edits
  simp only [mergeAtEquality, hearlier]
  split_ifs with hmany hboth
  · have hpre := spells_factorPrefix h.border h.spells m.textDelete m.textInsert
    rcases hfactored : factorPrefix earlier m.textDelete m.textInsert with
      ⟨earlier', textDelete, textInsert⟩
    rw [hfactored] at hpre
    obtain ⟨e1', e2', hspells, h1, h2⟩ := hpre
    have hsuffix := factorSuffix_spec hdiff textDelete textInsert
    rcases hfactored' : factorSuffix diff textDelete textInsert with
      ⟨diff', textDelete', textInsert'⟩
    rw [hfactored'] at hsuffix
    obtain ⟨hdiff', h1', h2'⟩ := hsuffix
    simp only [hfactored'] at *
    refine ⟨hdiff', ?_⟩
    rw [← h1, ← h2, List.append_assoc, List.append_assoc, ← h1', ← h2', ← List.append_assoc,
      ← List.append_assoc, List.reverse_cons, List.reverse_append]
    have hmerged := (hspells.append (spells_mergedEdits textDelete' textInsert')).snoc diff'
    rwa [before_of_equality hdiff', after_of_equality hdiff'] at hmerged
  · refine ⟨hdiff, ?_⟩
    have hmerged := (h.spells.append (spells_mergedEdits m.textDelete m.textInsert)).snoc diff
    rwa [before_of_equality hdiff, after_of_equality hdiff, ← List.reverse_append,
      ← List.reverse_cons] at hmerged
  · have hnext := hbehind.snoc diff
    rw [before_of_equality hdiff, after_of_equality hdiff] at hnext
    rcases hm : m.behind with _ | ⟨previous, behind⟩ <;> rw [hm] at hnext
    · exact ⟨hdiff, hnext⟩
    · simp only
      split_ifs with hprevious
      · refine ⟨hprevious, ?_⟩
        obtain ⟨h1, h2⟩ := hnext
        rw [← h1, ← h2]
        simp [Spells, hprevious, Diff.before, Diff.after, hdiff]
      · exact ⟨hdiff, by simpa using hnext⟩

/-- Every entry is read. -/
theorem reads_mergeStep {m : Merging} {run : List Diff} (h : m.Reads run earlier e1 e2)
    (diff : Diff) : ∃ run' earlier' e1' e2', (mergeStep m diff).Reads run' earlier' e1' e2' ∧
      e1' ++ (mergeStep m diff).textDelete = e1 ++ m.textDelete ++ diff.before ∧
      e2' ++ (mergeStep m diff).textInsert = e2 ++ m.textInsert ++ diff.after := by
  rcases hdiff : diff.diffType with _ | _ | _
  · refine ⟨diff :: run, earlier, e1, e2, ⟨?_, ?_, ?_, ?_, h.spells, h.border⟩, ?_, ?_⟩
    · simp [mergeStep, hdiff, h.behind]
    · simp [mergeStep, hdiff, h.length]
      omega
    · have hedits := h.edits.snoc diff
      simpa [mergeStep, hdiff, Diff.before, Diff.after] using hedits
    · simp [mergeStep, hdiff, h.weight]
      omega
    · simp [mergeStep, hdiff, Diff.before]
    · simp [mergeStep, hdiff, Diff.after]
  · obtain ⟨hlast, hspells⟩ := spells_mergeAtEquality h hdiff
    refine ⟨[], _, _, _, ⟨?_, ?_, ⟨?_, ?_⟩, ?_, hspells, ?_⟩, ?_, ?_⟩
    · simp [mergeStep, hdiff]
    · simp [mergeStep, hdiff]
    · simp [mergeStep, hdiff]
    · simp [mergeStep, hdiff]
    · simp [mergeStep, hdiff]
    · rintro previous ⟨⟩
      exact hlast
    · simp [mergeStep, hdiff, Diff.before]
    · simp [mergeStep, hdiff, Diff.after]
  · refine ⟨diff :: run, earlier, e1, e2, ⟨?_, ?_, ?_, ?_, h.spells, h.border⟩, ?_, ?_⟩
    · simp [mergeStep, hdiff, h.behind]
    · simp [mergeStep, hdiff, h.length]
      omega
    · have hedits := h.edits.snoc diff
      simpa [mergeStep, hdiff, Diff.before, Diff.after] using hedits
    · simp [mergeStep, hdiff, h.weight]
      omega
    · simp [mergeStep, hdiff, Diff.before]
    · simp [mergeStep, hdiff, Diff.after]

theorem reads_foldl : ∀ (diffs : List Diff) {m : Merging} {run earlier : List Diff}
    {e1 e2 : Text}, m.Reads run earlier e1 e2 → ∃ run' earlier' e1' e2',
      (diffs.foldl mergeStep m).Reads run' earlier' e1' e2' ∧
      e1' ++ (diffs.foldl mergeStep m).textDelete = e1 ++ m.textDelete ++ diffText1 diffs ∧
      e2' ++ (diffs.foldl mergeStep m).textInsert = e2 ++ m.textInsert ++ diffText2 diffs
  | [], _, _, _, _, _, h => ⟨_, _, _, _, h, (List.append_nil _).symm, (List.append_nil _).symm⟩
  | diff :: diffs, m, _, _, _, _, h => by
    obtain ⟨_, _, _, _, hreads, h1, h2⟩ := reads_mergeStep h diff
    obtain ⟨_, _, _, _, hreads', h1', h2'⟩ := reads_foldl diffs hreads
    refine ⟨_, _, _, _, hreads', ?_, ?_⟩
    · rw [List.foldl_cons, h1', h1, diffText1_cons, List.append_assoc _ diff.before]
    · rw [List.foldl_cons, h2', h2, diffText2_cons, List.append_assoc _ diff.after]

theorem reads_start : Merging.Reads ⟨[], 0, 0, [], []⟩ [] [] [] [] :=
  ⟨rfl, rfl, ⟨rfl, rfl⟩, rfl, ⟨rfl, rfl⟩, fun _ h => by cases h⟩

/-- The last entry of the first pass, and those before it. -/
theorem mergeEntries_eq (diffs : List Diff) :
    let merged := mergeAtEquality (diffs.foldl mergeStep ⟨[], 0, 0, [], []⟩) ⟨.equality, []⟩
    mergeEntries diffs =
      if merged.1.content = [] then merged.2.reverse else (merged.1 :: merged.2).reverse := by
  rw [mergeEntries, List.foldl_append]
  rfl

/-- The first pass spells the same texts. -/
theorem spells_mergeEntries (diffs : List Diff) :
    Spells (mergeEntries diffs) (diffText1 diffs) (diffText2 diffs) := by
  obtain ⟨run, earlier, e1, e2, hreads, h1, h2⟩ := reads_foldl diffs reads_start
  obtain ⟨hlast, hspells⟩ :=
    spells_mergeAtEquality hreads (show (⟨.equality, []⟩ : Diff).diffType = .equality from rfl)
  rw [h1, h2] at hspells
  simp only [List.append_nil, List.nil_append] at hspells
  rw [mergeEntries_eq]
  split_ifs with hempty
  · rw [List.reverse_cons] at hspells
    obtain ⟨h1, h2⟩ := hspells
    rw [← h1, ← h2]
    simp [Spells, before_of_equality hlast, after_of_equality hlast, hempty]
  · exact hspells

/-! ## The first pass adds no weight and makes no empty entry -/

theorem weight_factorPrefix (earlier : List Diff) (textDelete textInsert : Text) :
    let factored := factorPrefix earlier textDelete textInsert
    weight factored.1 + 2 * (factored.2.1.length + factored.2.2.length) ≤
      weight earlier + 2 * (textDelete.length + textInsert.length) := by
  obtain ⟨n, hn⟩ : ∃ n, n = diffCommonPrefix textInsert textDelete := ⟨_, rfl⟩
  obtain ⟨hle2, hle1, -, -⟩ := hn ▸ shares_diffCommonPrefix textInsert textDelete
  simp only [factorPrefix, ← hn, substring_zero, substringFrom_eq]
  split_ifs with hzero
  · have htake : (textInsert.take n).length = n := by simp [hle2]
    rcases earlier with _ | ⟨previous, earlier⟩
    · simp only [weight_cons, weight_nil, htake, List.length_drop]
      omega
    · simp only
      split_ifs <;> simp only [weight_cons, weight_append, weight_nil, List.length_append, htake,
        List.length_drop] <;> omega
  · exact Nat.le_refl _

theorem weight_factorSuffix (diff : Diff) (textDelete textInsert : Text) :
    let factored := factorSuffix diff textDelete textInsert
    factored = (diff, textDelete, textInsert) ∨
      2 * factored.1.content.length + 2 * (factored.2.1.length + factored.2.2.length) + 2 ≤
        2 * diff.content.length + 2 * (textDelete.length + textInsert.length) := by
  obtain ⟨n, hn⟩ : ∃ n, n = diffCommonSuffix textInsert textDelete := ⟨_, rfl⟩
  have hshares := hn ▸ shares_diffCommonSuffix textInsert textDelete
  have hle2 := hshares.le1
  have hle1 := hshares.le2
  rw [List.length_reverse] at hle1 hle2
  simp only [factorSuffix, ← hn, substring_zero, substringFrom_eq]
  split_ifs with hzero
  · right
    simp only [List.length_append, List.length_drop, List.length_take]
    omega
  · exact .inl rfl

theorem weight_mergedEdits (textDelete textInsert : Text) :
    weight (mergedEdits textDelete textInsert) ≤
      2 * (textDelete.length + textInsert.length) + 2 := by
  rw [mergedEdits]
  split_ifs <;> simp <;> omega

/-- At an equality the weight stays, not counting that of the equality as an entry unless it
is left as it was. -/
theorem weight_mergeAtEquality {m : Merging} {run : List Diff} (h : m.Reads run earlier e1 e2)
    (diff : Diff) : let merged := mergeAtEquality m diff
    (merged.1.content = diff.content ∧ weight merged.2 ≤ weight m.behind) ∨
      weight (merged.1 :: merged.2) ≤ weight m.behind + 2 * diff.content.length := by
  have hearlier : m.behind.drop (m.countDelete + m.countInsert) = earlier := by
    rw [h.behind, ← h.length, List.drop_left]
  have hbehind : weight m.behind = 2 * (m.textDelete.length + m.textInsert.length) +
      (m.countDelete + m.countInsert) + weight earlier := by
    rw [h.behind, weight_append, h.weight, h.length]
  simp only [mergeAtEquality, hearlier]
  split_ifs with hmany hboth
  · have hpre := weight_factorPrefix earlier m.textDelete m.textInsert
    rcases hfactored : factorPrefix earlier m.textDelete m.textInsert with
      ⟨earlier', textDelete, textInsert⟩
    rw [hfactored] at hpre
    have hsuffix := weight_factorSuffix diff textDelete textInsert
    rcases hfactored' : factorSuffix diff textDelete textInsert with
      ⟨diff', textDelete', textInsert'⟩
    rw [hfactored'] at hsuffix
    have hmerged := weight_mergedEdits textDelete' textInsert'
    simp only [hfactored', weight_cons, weight_append] at *
    rcases hsuffix with hsame | hless
    · obtain ⟨rfl, rfl, rfl⟩ : diff' = diff ∧ textDelete' = textDelete ∧
        textInsert' = textInsert := by simpa using hsame
      exact .inl ⟨rfl, by omega⟩
    · exact .inr (by omega)
  · have hmerged := weight_mergedEdits m.textDelete m.textInsert
    refine .inl ⟨rfl, ?_⟩
    rw [weight_append]
    omega
  · rcases m.behind with _ | ⟨previous, behind⟩
    · exact .inl ⟨rfl, Nat.le_refl _⟩
    · simp only
      split_ifs with hprevious
      · right
        simp only [weight_cons, List.length_append]
        omega
      · exact .inl ⟨rfl, Nat.le_refl _⟩

theorem weight_mergeStep {m : Merging} {run : List Diff} (h : m.Reads run earlier e1 e2)
    (diff : Diff) :
    weight (mergeStep m diff).behind ≤ weight m.behind + 2 * diff.content.length + 1 := by
  rcases hdiff : diff.diffType with _ | _ | _
  · simp only [mergeStep, hdiff, weight_cons]
    omega
  · simp only [mergeStep, hdiff]
    rcases weight_mergeAtEquality h diff with ⟨hsame, hle⟩ | hle
    · rw [weight_cons, hsame]
      omega
    · omega
  · simp only [mergeStep, hdiff, weight_cons]
    omega

theorem weight_foldl : ∀ (diffs : List Diff) {m : Merging} {run earlier : List Diff}
    {e1 e2 : Text}, m.Reads run earlier e1 e2 →
      weight (diffs.foldl mergeStep m).behind ≤ weight m.behind + weight diffs
  | [], _, _, _, _, _, _ => Nat.le_refl _
  | diff :: diffs, m, _, _, _, _, h => by
    obtain ⟨_, _, _, _, hreads, -, -⟩ := reads_mergeStep h diff
    have hstep := weight_mergeStep h diff
    have hrest := weight_foldl diffs hreads
    rw [List.foldl_cons, weight_cons]
    omega

/-- The first pass adds no weight. -/
theorem weight_mergeEntries (diffs : List Diff) : weight (mergeEntries diffs) ≤ weight diffs := by
  obtain ⟨run, earlier, e1, e2, hreads, -, -⟩ := reads_foldl diffs reads_start
  have hfold := weight_foldl diffs reads_start
  have hmerged := weight_mergeAtEquality hreads ⟨.equality, []⟩
  simp only [weight_nil, List.length_nil, weight_cons] at hfold hmerged
  rw [mergeEntries_eq]
  split_ifs with hempty
  · rw [weight_reverse]
    omega
  · rw [weight_reverse, weight_cons]
    rcases hmerged with ⟨hsame, -⟩ | hle
    · exact absurd hsame hempty
    · omega

theorem nonempty_cons {diff : Diff} {diffs : List Diff} :
    Nonempty (diff :: diffs) ↔ diff.content ≠ [] ∧ Nonempty diffs :=
  List.forall_mem_cons

theorem nonempty_append {diffs diffs' : List Diff} :
    Nonempty (diffs ++ diffs') ↔ Nonempty diffs ∧ Nonempty diffs' :=
  List.forall_mem_append

theorem nonempty_reverse {diffs : List Diff} : Nonempty diffs.reverse ↔ Nonempty diffs := by
  simp [Nonempty]

theorem nonempty_factorPrefix (h : Nonempty earlier) (textDelete textInsert : Text) :
    Nonempty (factorPrefix earlier textDelete textInsert).1 := by
  obtain ⟨n, hn⟩ : ∃ n, n = diffCommonPrefix textInsert textDelete := ⟨_, rfl⟩
  have hle := hn ▸ (shares_diffCommonPrefix textInsert textDelete).le1
  simp only [factorPrefix, ← hn, substring_zero]
  split_ifs with hzero
  · have htake : textInsert.take n ≠ [] := by
      rw [Ne, ← List.length_eq_zero_iff, List.length_take]
      omega
    rcases earlier with _ | ⟨previous, earlier⟩
    · exact nonempty_cons.2 ⟨htake, h⟩
    · simp only
      split_ifs
      · exact nonempty_cons.2 ⟨by simp [htake], (nonempty_cons.1 h).2⟩
      · exact nonempty_append.2 ⟨h, nonempty_cons.2 ⟨htake, fun _ he => by cases he⟩⟩
  · exact h

theorem nonempty_mergedEdits (textDelete textInsert : Text) :
    Nonempty (mergedEdits textDelete textInsert) := by
  rw [mergedEdits]
  split_ifs with h1 h2 h2 <;> simp_all [Nonempty]

/-- At an equality no empty entry arises, unless the equality is empty itself. -/
theorem nonempty_mergeAtEquality {m : Merging} (h : Nonempty m.behind) (diff : Diff) :
    let merged := mergeAtEquality m diff
    Nonempty merged.2 ∧ (diff.content ≠ [] → merged.1.content ≠ []) := by
  have hearlier : Nonempty (m.behind.drop (m.countDelete + m.countInsert)) :=
    fun e he => h e (List.mem_of_mem_drop he)
  simp only [mergeAtEquality]
  split_ifs with hmany hboth
  · have hpre := nonempty_factorPrefix hearlier m.textDelete m.textInsert
    rcases hfactored : factorPrefix (m.behind.drop (m.countDelete + m.countInsert))
      m.textDelete m.textInsert with ⟨earlier', textDelete, textInsert⟩
    rw [hfactored] at hpre
    refine ⟨nonempty_append.2 ⟨nonempty_mergedEdits _ _, hpre⟩, fun hdiff => ?_⟩
    simp only [factorSuffix]
    split_ifs
    · simp [hdiff]
    · exact hdiff
  · exact ⟨nonempty_append.2 ⟨nonempty_mergedEdits _ _, hearlier⟩, id⟩
  · rcases hm : m.behind with _ | ⟨previous, behind⟩
    · exact ⟨fun _ he => (by cases he), id⟩
    · rw [hm] at h
      simp only
      split_ifs with hprevious
      · refine ⟨(nonempty_cons.1 h).2, fun _ => ?_⟩
        simp [(nonempty_cons.1 h).1]
      · exact ⟨h, id⟩

theorem nonempty_foldl : ∀ {diffs : List Diff} {m : Merging}, Nonempty m.behind →
    Nonempty diffs → Nonempty (diffs.foldl mergeStep m).behind
  | [], _, hm, _ => hm
  | diff :: diffs, m, hm, h => by
    obtain ⟨hdiff, hdiffs⟩ := nonempty_cons.1 h
    rw [List.foldl_cons]
    refine nonempty_foldl ?_ hdiffs
    rcases hkind : diff.diffType with _ | _ | _
    · simpa only [mergeStep, hkind] using nonempty_cons.2 ⟨hdiff, hm⟩
    · obtain ⟨hbehind, hlast⟩ := nonempty_mergeAtEquality hm diff
      simpa only [mergeStep, hkind] using nonempty_cons.2 ⟨hlast hdiff, hbehind⟩
    · simpa only [mergeStep, hkind] using nonempty_cons.2 ⟨hdiff, hm⟩

/-- The first pass makes no empty entry. -/
theorem nonempty_mergeEntries {diffs : List Diff} (h : Nonempty diffs) :
    Nonempty (mergeEntries diffs) := by
  have hfold := nonempty_foldl (m := ⟨[], 0, 0, [], []⟩) (fun _ he => by cases he) h
  obtain ⟨hbehind, -⟩ := nonempty_mergeAtEquality hfold ⟨.equality, []⟩
  rw [mergeEntries_eq]
  split_ifs with hempty
  · exact nonempty_reverse.2 hbehind
  · exact nonempty_reverse.2 (nonempty_cons.2 ⟨hempty, hbehind⟩)

end FirstPass

/-! ## The entries in order -/

/-- What may stand next to what : one of the two is an equality, or a deletion stands before an
insertion with which it begins and ends differently. -/
def MayPrecede (x y : Diff) : Prop :=
  x.diffType = .equality ∨ y.diffType = .equality ∨
    x.diffType = .deletion ∧ y.diffType = .insertion ∧ x.content ≠ [] ∧ y.content ≠ [] ∧
      Apart x.content y.content ∧ Apart x.content.reverse y.content.reverse

/-- The entries stand in order. -/
abbrev InOrder (diffs : List Diff) : Prop :=
  diffs.IsChain MayPrecede

section InOrder

variable {earlier : List Diff} {diff : Diff}

theorem inOrder_reverse_cons {behind : List Diff} (hdiff : diff.diffType = .equality) :
    InOrder (diff :: behind).reverse ↔ InOrder behind.reverse := by
  rw [InOrder, List.isChain_reverse, List.isChain_cons, InOrder, List.isChain_reverse]
  exact and_iff_right fun y _ => .inr (.inl hdiff)

/-- The entries behind the edits stay in order, and what is left of the edits begins
differently. -/
theorem inOrder_factorPrefix (hborder : AtBorder earlier) (h : InOrder earlier.reverse)
    (textDelete textInsert : Text) :
    let factored := factorPrefix earlier textDelete textInsert
    AtBorder factored.1 ∧ InOrder factored.1.reverse ∧ Apart factored.2.1 factored.2.2 := by
  obtain ⟨n, hn⟩ : ∃ n, n = diffCommonPrefix textInsert textDelete := ⟨_, rfl⟩
  have hapart := (hn ▸ shares_diffCommonPrefix textInsert textDelete).apart
  simp only [factorPrefix, ← hn, substring_zero, substringFrom_eq]
  split_ifs with hzero
  · rcases earlier with _ | ⟨previous, earlier⟩
    · exact ⟨fun _ he => (by cases he; rfl), List.isChain_singleton _, hapart.symm⟩
    · have hprevious : previous.diffType = .equality := hborder previous rfl
      simp only [hprevious, if_true]
      refine ⟨fun _ he => (by cases he; rfl), ?_, hapart.symm⟩
      rw [inOrder_reverse_cons hprevious] at h
      rwa [inOrder_reverse_cons rfl]
  · obtain rfl : n = 0 := not_not.1 hzero
    exact ⟨hborder, h, hapart.symm⟩

/-- What is left of the edits begins and ends differently. -/
theorem apart_factorSuffix {textDelete textInsert : Text} (h : Apart textDelete textInsert)
    (diff : Diff) : let factored := factorSuffix diff textDelete textInsert
    Apart factored.2.1 factored.2.2 ∧ Apart factored.2.1.reverse factored.2.2.reverse := by
  obtain ⟨n, hn⟩ : ∃ n, n = diffCommonSuffix textInsert textDelete := ⟨_, rfl⟩
  have hshares := hn ▸ shares_diffCommonSuffix textInsert textDelete
  have hreverse (text : Text) (hle : n ≤ text.reverse.length) :
      (text.take (text.length - n)).reverse = text.reverse.drop n := by
    rw [List.length_reverse] at hle
    rw [List.reverse_take, Nat.sub_sub_self hle]
  simp only [factorSuffix, ← hn, substring_zero]
  split_ifs with hzero
  · refine ⟨h.take _ _, ?_⟩
    rw [hreverse _ hshares.le2, hreverse _ hshares.le1]
    exact hshares.apart.symm
  · obtain rfl : n = 0 := not_not.1 hzero
    exact ⟨h, hshares.apart.symm⟩

/-- The merged edits stand in order behind an equality. -/
theorem inOrder_mergedEdits (hborder : AtBorder earlier) (h : InOrder earlier.reverse)
    {textDelete textInsert : Text} (hapart : textDelete ≠ [] → textInsert ≠ [] →
      Apart textDelete textInsert ∧ Apart textDelete.reverse textInsert.reverse) :
    InOrder (mergedEdits textDelete textInsert ++ earlier).reverse := by
  have hone (edit : Diff) : InOrder (edit :: earlier).reverse := by
    rw [InOrder, List.isChain_reverse, List.isChain_cons, ← List.isChain_reverse]
    exact ⟨fun previous hprevious => .inl (hborder previous hprevious), h⟩
  rw [mergedEdits]
  split_ifs with hinsert hdelete hdelete
  · rw [InOrder, List.isChain_reverse]
    refine List.isChain_cons_cons.2 ⟨?_, List.isChain_reverse.1 (hone _)⟩
    have hinsert' : textInsert ≠ [] := fun hnil => hinsert (by rw [hnil]; rfl)
    have hdelete' : textDelete ≠ [] := fun hnil => hdelete (by rw [hnil]; rfl)
    exact .inr (.inr ⟨rfl, rfl, hdelete', hinsert', hapart hdelete' hinsert'⟩)
  · exact hone _
  · exact hone _
  · exact h

/-- Behind the last run of edits the entries stand in order. -/
structure Merging.Orders (m : Merging) (run earlier : List Diff) : Prop where
  behind : m.behind = run ++ earlier
  length : run.length = m.countDelete + m.countInsert
  edits : ∀ edit ∈ run, edit.diffType ≠ .equality
  deletes : m.countDelete = 0 → m.textDelete = []
  inserts : m.countInsert = 0 → m.textInsert = []
  border : AtBorder earlier
  inOrder : InOrder earlier.reverse

/-- At an equality all entries are put in order. -/
theorem inOrder_mergeAtEquality {m : Merging} {run : List Diff} (h : m.Orders run earlier)
    (hdiff : diff.diffType = .equality) :
    let merged := mergeAtEquality m diff
    merged.1.diffType = .equality ∧ InOrder merged.2.reverse := by
  have hearlier : m.behind.drop (m.countDelete + m.countInsert) = earlier := by
    rw [h.behind, ← h.length, List.drop_left]
  simp only [mergeAtEquality, hearlier]
  split_ifs with hmany hboth
  · have hpre := inOrder_factorPrefix h.border h.inOrder m.textDelete m.textInsert
    rcases hfactored : factorPrefix earlier m.textDelete m.textInsert with
      ⟨earlier', textDelete, textInsert⟩
    rw [hfactored] at hpre
    obtain ⟨hborder, hinOrder, hapart⟩ := hpre
    obtain ⟨hdiff', -, -⟩ := factorSuffix_spec hdiff textDelete textInsert
    have hsuffix := apart_factorSuffix hapart diff
    exact ⟨hdiff', inOrder_mergedEdits hborder hinOrder fun _ _ => hsuffix⟩
  · refine ⟨hdiff, inOrder_mergedEdits h.border h.inOrder fun hdelete hinsert => ?_⟩
    exact absurd ⟨fun hzero => hdelete (h.deletes hzero), fun hzero => hinsert (h.inserts hzero)⟩
      hboth
  · rcases run with _ | ⟨edit, run⟩
    · rw [h.behind, List.nil_append]
      rcases earlier with _ | ⟨previous, earlier⟩
      · exact ⟨hdiff, List.isChain_nil⟩
      · have hprevious : previous.diffType = .equality := h.border previous rfl
        simp only [hprevious, if_true]
        exact ⟨trivial, (inOrder_reverse_cons hprevious).1 h.inOrder⟩
    · have hlength := h.length
      obtain rfl : run = [] := List.length_eq_zero_iff.1 (by
        rw [List.length_cons] at hlength
        omega)
      have hedit := h.edits edit (by simp)
      rw [h.behind]
      simp only [List.singleton_append, hedit, if_false]
      refine ⟨hdiff, ?_⟩
      rw [InOrder, List.isChain_reverse, List.isChain_cons, ← List.isChain_reverse]
      exact ⟨fun previous hprevious => .inl (h.border previous hprevious), h.inOrder⟩

theorem orders_mergeStep {m : Merging} {run : List Diff} (h : m.Orders run earlier)
    (diff : Diff) : ∃ run' earlier', (mergeStep m diff).Orders run' earlier' := by
  rcases hdiff : diff.diffType with _ | _ | _
  · refine ⟨diff :: run, earlier, ?_, ?_, ?_, ?_, ?_, h.border, h.inOrder⟩
    · simp [mergeStep, hdiff, h.behind]
    · simp [mergeStep, hdiff, h.length]
      omega
    · rintro edit (_ | ⟨_, hedit⟩)
      · simp [hdiff]
      · exact h.edits edit hedit
    · simp [mergeStep, hdiff]
    · simpa [mergeStep, hdiff] using h.inserts
  · obtain ⟨hlast, hinOrder⟩ := inOrder_mergeAtEquality h hdiff
    refine ⟨[], _, ?_, ?_, fun _ he => (by cases he), ?_, ?_, ?_,
      (inOrder_reverse_cons hlast).2 hinOrder⟩
    · simp [mergeStep, hdiff]
    · simp [mergeStep, hdiff]
    · simp [mergeStep, hdiff]
    · simp [mergeStep, hdiff]
    · rintro previous ⟨⟩
      exact hlast
  · refine ⟨diff :: run, earlier, ?_, ?_, ?_, ?_, ?_, h.border, h.inOrder⟩
    · simp [mergeStep, hdiff, h.behind]
    · simp [mergeStep, hdiff, h.length]
      omega
    · rintro edit (_ | ⟨_, hedit⟩)
      · simp [hdiff]
      · exact h.edits edit hedit
    · simpa [mergeStep, hdiff] using h.deletes
    · simp [mergeStep, hdiff]

theorem orders_foldl : ∀ (diffs : List Diff) {m : Merging} {run earlier : List Diff},
    m.Orders run earlier → ∃ run' earlier', (diffs.foldl mergeStep m).Orders run' earlier'
  | [], _, _, _, h => ⟨_, _, h⟩
  | diff :: diffs, _, _, _, h => by
    obtain ⟨_, _, horders⟩ := orders_mergeStep h diff
    exact orders_foldl diffs horders

theorem orders_start : Merging.Orders ⟨[], 0, 0, [], []⟩ [] [] :=
  ⟨rfl, rfl, fun _ he => (by cases he), fun _ => rfl, fun _ => rfl, fun _ he => (by cases he),
    List.isChain_nil⟩

/-- The first pass puts the entries in order. -/
theorem inOrder_mergeEntries (diffs : List Diff) : InOrder (mergeEntries diffs) := by
  obtain ⟨run, earlier, horders⟩ := orders_foldl diffs orders_start
  obtain ⟨hlast, hinOrder⟩ := inOrder_mergeAtEquality horders
    (show (⟨.equality, []⟩ : Diff).diffType = .equality from rfl)
  rw [mergeEntries_eq]
  split_ifs with hempty
  · exact hinOrder
  · exact (inOrder_reverse_cons hlast).2 hinOrder

end InOrder

/-! ## The second pass -/

section SecondPass

variable {previous diff next : Diff} {rest rest' : List Diff} {x : Text}
  (hprevious : previous.diffType = .equality) (hnext : next.diffType = .equality)
include hprevious hnext

/-- An edit that ends with the equality before it may be shifted over it. -/
theorem spells_shiftLeft (hdiff : diff.content = x ++ previous.content)
    (hrest : Spells rest'
      (diffText1 ({ next with content := previous.content ++ next.content } :: rest))
      (diffText2 ({ next with content := previous.content ++ next.content } :: rest))) :
    Spells ({ diff with content := previous.content ++ x } :: rest')
      (diffText1 (previous :: diff :: next :: rest))
      (diffText2 (previous :: diff :: next :: rest)) := by
  obtain ⟨_, p⟩ := previous
  obtain ⟨kind, content⟩ := diff
  obtain ⟨_, n⟩ := next
  obtain rfl : _ = DiffType.equality := hprevious
  obtain rfl : _ = DiffType.equality := hnext
  obtain rfl : content = x ++ p := hdiff
  obtain ⟨h1, h2⟩ := hrest
  cases kind <;> simp [Spells, h1, h2]

/-- An edit that begins with the equality after it may be shifted over it. -/
theorem spells_shiftRight (hdiff : diff.content = next.content ++ x)
    (hrest : Spells rest'
      (diffText1 ({ diff with content := x ++ next.content } :: rest))
      (diffText2 ({ diff with content := x ++ next.content } :: rest))) :
    Spells ({ previous with content := previous.content ++ next.content } :: rest')
      (diffText1 (previous :: diff :: next :: rest))
      (diffText2 (previous :: diff :: next :: rest)) := by
  obtain ⟨_, p⟩ := previous
  obtain ⟨kind, content⟩ := diff
  obtain ⟨_, n⟩ := next
  obtain rfl : _ = DiffType.equality := hprevious
  obtain rfl : _ = DiffType.equality := hnext
  obtain rfl : content = n ++ x := hdiff
  obtain ⟨h1, h2⟩ := hrest
  cases kind <;> simp [Spells, h1, h2]

end SecondPass

/-- A text whose end is another begins with the rest. -/
theorem eq_take_append_of_drop {text tail : Text}
    (h : substringFrom text (text.length - tail.length) = tail) :
    text = substring text 0 (text.length - tail.length) ++ tail := by
  have hsplit := List.take_append_drop (text.length - tail.length) text
  rwa [← substringFrom_eq, h, ← substring_zero, eq_comm] at hsplit

/-- A text whose start is another ends with the rest. -/
theorem eq_append_drop_of_take {text head : Text}
    (h : substring text 0 head.length = head) :
    text = head ++ substringFrom text head.length := by
  have hsplit := List.take_append_drop head.length text
  rwa [← substring_zero, h, eq_comm] at hsplit

/-- The second pass spells the same texts. -/
theorem spells_shiftEdits (diffs : List Diff) :
    Spells (shiftEdits diffs).1 (diffText1 diffs) (diffText2 diffs) := by
  fun_induction shiftEdits diffs with
  | case1 previous diff next rest hborders hends start shifted ih =>
    exact spells_shiftLeft hborders.1 hborders.2 (eq_take_append_of_drop hends) ih
  | case2 previous diff next rest hborders hends hbegins stop shifted ih =>
    exact spells_shiftRight hborders.1 hborders.2 (eq_append_drop_of_take hbegins) ih
  | case3 previous diff next rest hborders hends hbegins shifted ih =>
    obtain ⟨h1, h2⟩ := ih
    exact ⟨by simp [shifted, h1], by simp [shifted, h2]⟩
  | case4 previous diff next rest hborders shifted ih =>
    obtain ⟨h1, h2⟩ := ih
    exact ⟨by simp [shifted, h1], by simp [shifted, h2]⟩
  | case5 diffs hshort => exact ⟨rfl, rfl⟩

/-- A shift takes weight from the diff. -/
theorem weight_shiftEdits (diffs : List Diff) :
    weight (shiftEdits diffs).1 + (if (shiftEdits diffs).2 then 1 else 0) ≤ weight diffs := by
  fun_induction shiftEdits diffs with
  | case1 previous diff next rest hborders hends start shifted ih =>
    have hlength := congrArg List.length (eq_take_append_of_drop hends)
    simp only [start, shifted, weight_cons, List.length_append, if_true] at hlength ih ⊢
    split_ifs at ih <;> omega
  | case2 previous diff next rest hborders hends hbegins stop shifted ih =>
    have hlength := congrArg List.length (eq_append_drop_of_take hbegins)
    simp only [stop, shifted, weight_cons, List.length_append, if_true] at hlength ih ⊢
    split_ifs at ih <;> omega
  | case3 previous diff next rest hborders hends hbegins shifted ih =>
    simp only [shifted, weight_cons] at ih ⊢
    omega
  | case4 previous diff next rest hborders shifted ih =>
    simp only [shifted, weight_cons] at ih ⊢
    omega
  | case5 diffs hshort => simp

/-- The second pass makes no empty entry. -/
theorem nonempty_shiftEdits {diffs : List Diff} (h : Nonempty diffs) :
    Nonempty (shiftEdits diffs).1 := by
  fun_induction shiftEdits diffs with
  | case1 previous diff next rest hborders hends start shifted ih =>
    simp only [nonempty_cons] at h ih ⊢
    exact ⟨by simp [h.1], ih ⟨by simp [h.1], h.2.2.2⟩⟩
  | case2 previous diff next rest hborders hends hbegins stop shifted ih =>
    simp only [nonempty_cons] at h ih ⊢
    exact ⟨by simp [h.1], ih ⟨by simp [h.2.2.1], h.2.2.2⟩⟩
  | case3 previous diff next rest hborders hends hbegins shifted ih =>
    exact nonempty_cons.2 ⟨(nonempty_cons.1 h).1, ih (nonempty_cons.1 h).2⟩
  | case4 previous diff next rest hborders shifted ih =>
    exact nonempty_cons.2 ⟨(nonempty_cons.1 h).1, ih (nonempty_cons.1 h).2⟩
  | case5 diffs hshort => exact h

/-- An edit between two equalities can be shifted over one of them. -/
def Shiftable (previous diff next : Diff) : Prop :=
  previous.diffType = .equality ∧ next.diffType = .equality ∧
    (previous.content <:+ diff.content ∨ next.content <+: diff.content)

/-- No edit can be shifted. -/
def Still (diffs : List Diff) : Prop :=
  ∀ before previous diff next after,
    diffs = before ++ previous :: diff :: next :: after → ¬Shiftable previous diff next

theorem still_of_length_le {diffs : List Diff} (h : diffs.length ≤ 2) : Still diffs := by
  rintro before previous diff next after rfl
  simp only [List.length_append, List.length_cons] at h
  omega

theorem Still.cons {previous diff next : Diff} {rest : List Diff}
    (h : ¬Shiftable previous diff next) (hrest : Still (diff :: next :: rest)) :
    Still (previous :: diff :: next :: rest) := by
  rintro (_ | ⟨entry, before⟩) previous' diff' next' after heq
  · simp only [List.nil_append, List.cons.injEq] at heq
    obtain ⟨rfl, rfl, rfl, -⟩ := heq
    exact h
  · exact hrest before previous' diff' next' after (List.cons.inj heq).2

/-- The second pass that changes nothing has found no edit to shift. -/
theorem shiftEdits_eq_self {diffs : List Diff} (h : (shiftEdits diffs).2 = false) :
    (shiftEdits diffs).1 = diffs ∧ Still diffs := by
  fun_induction shiftEdits diffs with
  | case1 previous diff next rest hborders hends start shifted ih => cases h
  | case2 previous diff next rest hborders hends hbegins stop shifted ih => cases h
  | case3 previous diff next rest hborders hends hbegins shifted ih =>
    obtain ⟨hsame, hrest⟩ := ih h
    refine ⟨congrArg _ hsame, hrest.cons ?_⟩
    rintro ⟨-, -, hsuffix | hpre⟩
    · exact hends (List.suffix_iff_eq_drop.1 hsuffix).symm
    · rw [substring_zero] at hbegins
      exact hbegins (List.prefix_iff_eq_take.1 hpre).symm
  | case4 previous diff next rest hborders shifted ih =>
    obtain ⟨hsame, hrest⟩ := ih h
    exact ⟨congrArg _ hsame, hrest.cons fun hshift => hborders ⟨hshift.1, hshift.2.1⟩⟩
  | case5 diffs hshort =>
    refine ⟨rfl, still_of_length_le ?_⟩
    rcases diffs with _ | ⟨x, _ | ⟨y, _ | ⟨z, diffs⟩⟩⟩
    · simp
    · simp
    · simp
    · exact (hshort _ _ _ _ rfl).elim

/-! ## Both passes, until nothing shifts -/

/-- `diff_cleanupMerge`. -/
def diffCleanupMerge (diffs : List Diff) : List Diff :=
  let shifted := shiftEdits (mergeEntries diffs)
  if _hchanges : shifted.2 then diffCleanupMerge shifted.1 else shifted.1
termination_by weight diffs
decreasing_by
  have hfirst := weight_mergeEntries diffs
  have hsecond := weight_shiftEdits (mergeEntries diffs)
  rw [if_pos _hchanges] at hsecond
  omega

/-- The merged diff spells the same texts. -/
theorem spells_diffCleanupMerge (diffs : List Diff) :
    Spells (diffCleanupMerge diffs) (diffText1 diffs) (diffText2 diffs) := by
  have hround (diffs : List Diff) :
      Spells (shiftEdits (mergeEntries diffs)).1 (diffText1 diffs) (diffText2 diffs) := by
    obtain ⟨h1, h2⟩ := spells_mergeEntries diffs
    rw [← h1, ← h2]
    exact spells_shiftEdits (mergeEntries diffs)
  fun_induction diffCleanupMerge diffs with
  | case1 diffs shifted hchanged ih =>
    obtain ⟨h1, h2⟩ := hround diffs
    rwa [h1, h2] at ih
  | case2 diffs shifted hchanged => exact hround diffs

/-- The merged diff is in order, and no edit in it can be shifted. -/
theorem settled_diffCleanupMerge (diffs : List Diff) :
    InOrder (diffCleanupMerge diffs) ∧ Still (diffCleanupMerge diffs) := by
  fun_induction diffCleanupMerge diffs with
  | case1 diffs shifted hchanged ih => exact ih
  | case2 diffs shifted hchanged =>
    obtain ⟨hsame, hstill⟩ := shiftEdits_eq_self (Bool.not_eq_true _ ▸ hchanged)
    simp only [shifted]
    rw [hsame]
    exact ⟨inOrder_mergeEntries diffs, hstill⟩

theorem nonempty_diffCleanupMerge {diffs : List Diff} (h : Nonempty diffs) :
    Nonempty (diffCleanupMerge diffs) := by
  fun_induction diffCleanupMerge diffs with
  | case1 diffs shifted hchanged ih => exact ih (nonempty_shiftEdits (nonempty_mergeEntries h))
  | case2 diffs shifted hchanged => exact nonempty_shiftEdits (nonempty_mergeEntries h)

end OtEditor.DiffMatchPatch
