import OtEditor.DiffMatchPatch.Common

/-!
# Half-matches

If two texts share a part at least half as long as the longer one, the diff library splits
both around it. `diffHalfMatch` looks for the part with two seeds, a quarter of the longer text
each. What it returns splits both texts around a common part that is not empty
(`splits_of_diffHalfMatch`). A part of half the longer text covers one of the seeds, so if there
is one, the longest is found, and otherwise nothing (`diffHalfMatch_longest`).
-/

namespace OtEditor.DiffMatchPatch

/-- The parts of two texts before and after a common part. -/
structure HalfMatch where
  before1 : Text
  after1 : Text
  before2 : Text
  after2 : Text
  common : Text

/-- The two texts, split around what they have in common. -/
structure HalfMatch.Splits (hm : HalfMatch) (text1 text2 : Text) : Prop where
  text1 : text1 = hm.before1 ++ hm.common ++ hm.after1
  text2 : text2 = hm.before2 ++ hm.common ++ hm.after2

/-- The two texts exchanged. -/
def HalfMatch.swap (hm : HalfMatch) : HalfMatch :=
  ⟨hm.before2, hm.after2, hm.before1, hm.after1, hm.common⟩

/-- The best split for an occurrence of the seed at `i` in `longtext` and at `j` in
`shorttext`. -/
def matchAround (longtext shorttext : Text) (i j : ℕ) (best : HalfMatch) : HalfMatch :=
  let prefixLength := diffCommonPrefix (substringFrom longtext i) (substringFrom shorttext j)
  let suffixLength := diffCommonSuffix (substring longtext 0 i) (substring shorttext 0 j)
  if best.common.length < suffixLength + prefixLength then
    { before1 := substring longtext 0 (i - suffixLength)
      after1 := substringFrom longtext (i + prefixLength)
      before2 := substring shorttext 0 (j - suffixLength)
      after2 := substringFrom shorttext (j + prefixLength)
      common := substring shorttext (j - suffixLength) j ++
        substring shorttext j (j + prefixLength) }
  else best

/-- The loop of `diff_halfMatchI_` over the occurrences of the seed in `shorttext`. -/
def halfMatchLoop (longtext shorttext seed : Text) (i : ℕ) (best : HalfMatch) (start : ℕ) :
    HalfMatch :=
  match h : indexOf shorttext seed start with
  | none => best
  | some j =>
    halfMatchLoop longtext shorttext seed i (matchAround longtext shorttext i j best) (j + 1)
termination_by shorttext.length + 1 - start
decreasing_by
  obtain ⟨hstart, hfits, -⟩ := indexOf_eq_some h
  omega

/-- `diff_halfMatchI_`, with `longtext` as the first text. Before the first match the parts are
undefined, and then nothing is returned. -/
def diffHalfMatchI (longtext shorttext : Text) (i : ℕ) : Option HalfMatch :=
  let seed := substring longtext i (i + longtext.length / 4)
  let best := halfMatchLoop longtext shorttext seed i ⟨[], [], [], [], []⟩ 0
  if best.common.length * 2 ≥ longtext.length then some best else none

/-- The half-match found, or the longer of two. -/
def selectLongest : Option HalfMatch → Option HalfMatch → Option HalfMatch
  | none, none => none
  | some hm1, none => some hm1
  | none, some hm2 => some hm2
  | some hm1, some hm2 => some (if hm1.common.length > hm2.common.length then hm1 else hm2)

/-- `diff_halfMatch_`, for the time limit that the library sets. -/
def diffHalfMatch (text1 text2 : Text) : Option HalfMatch :=
  let longtext := if text1.length > text2.length then text1 else text2
  let shorttext := if text1.length > text2.length then text2 else text1
  if longtext.length < 4 ∨ shorttext.length * 2 < longtext.length then none
  else
    let hm1 := diffHalfMatchI longtext shorttext ((longtext.length + 3) / 4)
    let hm2 := diffHalfMatchI longtext shorttext ((longtext.length + 1) / 2)
    let hm := selectLongest hm1 hm2
    if text1.length > text2.length then hm else hm.map HalfMatch.swap

/-! ## What is returned splits the texts -/

variable {text1 text2 longtext shorttext : Text}

theorem HalfMatch.Splits.swap {hm : HalfMatch} (h : hm.Splits text1 text2) :
    hm.swap.Splits text2 text1 :=
  ⟨h.text2, h.text1⟩

/-- Around the seed the texts share what is before and after it. -/
theorem splits_matchAround {i j : ℕ} (hi : i ≤ longtext.length) (hj : j ≤ shorttext.length)
    {best : HalfMatch} (hbest : best.common = [] ∨ best.Splits longtext shorttext) :
    (matchAround longtext shorttext i j best).common = [] ∨
      (matchAround longtext shorttext i j best).Splits longtext shorttext := by
  obtain ⟨p, hp⟩ : ∃ p, p = diffCommonPrefix (longtext.drop i) (shorttext.drop j) := ⟨_, rfl⟩
  obtain ⟨s, hs⟩ : ∃ s, s = diffCommonSuffix (longtext.take i) (shorttext.take j) := ⟨_, rfl⟩
  have hpre := (hp ▸ shares_diffCommonPrefix (longtext.drop i) (shorttext.drop j)).same
  have hshares := hs ▸ shares_diffCommonSuffix (longtext.take i) (shorttext.take j)
  have hsuffix := drop_eq_of_shares_reverse hshares
  have hle := hshares.le2
  rw [List.length_reverse, List.length_take, min_eq_left hj] at hle
  rw [List.length_take, List.length_take, min_eq_left hi, min_eq_left hj] at hsuffix
  simp only [matchAround, substringFrom_eq, substring_zero, ← hp, ← hs]
  split_ifs
  · right
    have hcommon : substring shorttext (j - s) j ++ substring shorttext j (j + p) =
        (shorttext.take j).drop (j - s) ++ (shorttext.drop j).take p := by
      rw [substring_of_le _ (Nat.sub_le _ _), substring_of_le _ (Nat.le_add_right _ _),
        List.take_drop]
    have hparts (text : Text) (k : ℕ) : text = text.take (k - s) ++
        ((text.take k).drop (k - s) ++ (text.drop k).take p) ++ text.drop (k + p) := by
      have hbefore := List.take_append_drop (k - s) (text.take k)
      have hafter := List.take_append_drop p (text.drop k)
      rw [List.take_take, min_eq_left (Nat.sub_le _ _)] at hbefore
      rw [List.drop_drop] at hafter
      rw [← List.append_assoc, hbefore, List.append_assoc, hafter, List.take_append_drop]
    refine ⟨?_, ?_⟩
    · simp only [hcommon, ← hsuffix, ← hpre]
      exact hparts longtext i
    · simp only [hcommon]
      exact hparts shorttext j
  · exact hbest

theorem splits_halfMatchLoop {seed : Text} {i : ℕ} (hi : i ≤ longtext.length) {best : HalfMatch}
    (hbest : best.common = [] ∨ best.Splits longtext shorttext) (start : ℕ) :
    (halfMatchLoop longtext shorttext seed i best start).common = [] ∨
      (halfMatchLoop longtext shorttext seed i best start).Splits longtext shorttext := by
  fun_induction halfMatchLoop longtext shorttext seed i best start with
  | case1 best start h => exact hbest
  | case2 best start j h ih =>
    obtain ⟨-, hfits, -⟩ := indexOf_eq_some h
    exact ih (splits_matchAround hi (by omega) hbest)

/-- A half-match of a text that is not empty splits both texts. -/
theorem splits_of_diffHalfMatchI {i : ℕ} (hi : i ≤ longtext.length) (hlong : longtext ≠ [])
    {hm : HalfMatch} (h : diffHalfMatchI longtext shorttext i = some hm) :
    hm.common ≠ [] ∧ hm.Splits longtext shorttext := by
  simp only [diffHalfMatchI] at h
  split_ifs at h with hhalf
  obtain rfl := Option.some.inj h
  have hlength := List.length_pos_iff.2 hlong
  have hcommon : (halfMatchLoop longtext shorttext (substring longtext i
      (i + longtext.length / 4)) i ⟨[], [], [], [], []⟩ 0).common ≠ [] := by
    rw [← List.length_pos_iff]
    omega
  exact ⟨hcommon, (splits_halfMatchLoop hi (.inl rfl) 0).resolve_left hcommon⟩

theorem selectLongest_eq_some {hm1 hm2 : Option HalfMatch} {hm : HalfMatch}
    (h : selectLongest hm1 hm2 = some hm) : hm1 = some hm ∨ hm2 = some hm := by
  rcases hm1 with _ | hm1 <;> rcases hm2 with _ | hm2
  · cases h
  · exact .inr h
  · exact .inl h
  · simp only [selectLongest] at h
    split_ifs at h
    · exact .inl h
    · exact .inr h

/-- A seed in the second or in the third quarter of the longer text splits both texts. -/
theorem splits_of_seeds (hlong : 4 ≤ longtext.length) {hm : HalfMatch}
    (h : selectLongest (diffHalfMatchI longtext shorttext ((longtext.length + 3) / 4))
      (diffHalfMatchI longtext shorttext ((longtext.length + 1) / 2)) = some hm) :
    hm.common ≠ [] ∧ hm.Splits longtext shorttext := by
  have hne : longtext ≠ [] := by
    rintro rfl
    simp at hlong
  rcases selectLongest_eq_some h with h | h
  · exact splits_of_diffHalfMatchI (by omega) hne h
  · exact splits_of_diffHalfMatchI (by omega) hne h

/-- What `diffHalfMatch` returns splits both texts around a part that is not empty. -/
theorem splits_of_diffHalfMatch {hm : HalfMatch} (h : diffHalfMatch text1 text2 = some hm) :
    hm.common ≠ [] ∧ hm.Splits text1 text2 := by
  unfold diffHalfMatch at h
  by_cases hlonger : text1.length > text2.length
  · simp only [hlonger, if_true] at h
    split_ifs at h with hshort
    exact splits_of_seeds (by omega) h
  · simp only [hlonger, if_false] at h
    split_ifs at h with hshort
    obtain ⟨hm', h', rfl⟩ := Option.map_eq_some_iff.1 h
    obtain ⟨hcommon, hsplits⟩ := splits_of_seeds (by omega) h'
    exact ⟨hcommon, hsplits.swap⟩

/-! ## What is returned is the longest common part -/

/-- The split around an occurrence of the seed has no less in common than the best before, and
all that the texts share there. -/
theorem le_length_matchAround (longtext : Text) (i : ℕ) {j : ℕ} (hj : j ≤ shorttext.length)
    (best : HalfMatch) :
    best.common.length ≤ (matchAround longtext shorttext i j best).common.length ∧
      diffCommonSuffix (longtext.take i) (shorttext.take j) +
        diffCommonPrefix (longtext.drop i) (shorttext.drop j) ≤
          (matchAround longtext shorttext i j best).common.length := by
  obtain ⟨p, hp⟩ : ∃ p, p = diffCommonPrefix (longtext.drop i) (shorttext.drop j) := ⟨_, rfl⟩
  obtain ⟨s, hs⟩ : ∃ s, s = diffCommonSuffix (longtext.take i) (shorttext.take j) := ⟨_, rfl⟩
  have hple := (hp ▸ shares_diffCommonPrefix (longtext.drop i) (shorttext.drop j)).le2
  have hsle := (hs ▸ shares_diffCommonSuffix (longtext.take i) (shorttext.take j)).le2
  rw [List.length_drop] at hple
  rw [List.length_reverse, List.length_take] at hsle
  simp only [matchAround, substringFrom_eq, substring_zero, ← hp, ← hs]
  split_ifs with hlonger
  · simp only [List.length_append, substring_of_le _ (Nat.sub_le j s),
      substring_of_le _ (Nat.le_add_right j p), List.length_drop, List.length_take]
    omega
  · omega

/-- The loop has no less in common than the best before, and all that the texts share around
any occurrence of the seed. -/
theorem le_length_halfMatchLoop (longtext seed : Text) (i : ℕ) (best : HalfMatch) (start : ℕ) :
    best.common.length ≤ (halfMatchLoop longtext shorttext seed i best start).common.length ∧
      ∀ j, start ≤ j → j ≤ shorttext.length → seed <+: shorttext.drop j →
        diffCommonSuffix (longtext.take i) (shorttext.take j) +
          diffCommonPrefix (longtext.drop i) (shorttext.drop j) ≤
            (halfMatchLoop longtext shorttext seed i best start).common.length := by
  fun_induction halfMatchLoop longtext shorttext seed i best start with
  | case1 best start hnone =>
    exact ⟨Nat.le_refl _, fun j hstart hj hseed =>
      absurd hseed (indexOf_eq_none hnone hstart hj)⟩
  | case2 best start found hfound ih =>
    obtain ⟨-, hfits, -⟩ := indexOf_eq_some hfound
    obtain ⟨hbest, hshares⟩ := le_length_matchAround longtext i
      (show found ≤ shorttext.length by omega) best
    refine ⟨hbest.trans ih.1, fun j hstart hj hseed => ?_⟩
    obtain ⟨j', hle, hfirst⟩ := indexOf_le hstart hj hseed
    obtain rfl : j' = found := Option.some.inj (hfirst.symm.trans hfound)
    rcases Nat.eq_or_lt_of_le hle with rfl | hlt
    · exact hshares.trans ih.1
    · exact ih.2 j hlt hj hseed

/-- A common part that covers the seed is no longer than what the loop finds. -/
theorem length_le_of_covers {before1 after1 before2 after2 common : Text}
    (hlong : longtext = before1 ++ common ++ after1)
    (hshort : shorttext = before2 ++ common ++ after2) {d n : ℕ} (hd : d + n ≤ common.length) :
    common.length ≤ (halfMatchLoop longtext shorttext
      (substring longtext (before1.length + d) (before1.length + d + n))
      (before1.length + d) ⟨[], [], [], [], []⟩ 0).common.length := by
  subst hlong hshort
  have htake (before after : Text) : (before ++ common ++ after).take (before.length + d) =
      before ++ common.take d := by
    rw [List.append_assoc, List.take_length_add_append, List.take_append_of_le_length (by omega)]
  have hdrop (before after : Text) : (before ++ common ++ after).drop (before.length + d) =
      common.drop d ++ after := by
    rw [List.append_assoc, List.drop_length_add_append, List.drop_append_of_le_length (by omega)]
  have hseed : substring (before1 ++ common ++ after1) (before1.length + d)
      (before1.length + d + n) = (common.drop d).take n := by
    rw [substring_of_le _ (Nat.le_add_right _ _), ← List.take_drop, hdrop,
      List.take_append_of_le_length]
    rw [List.length_drop]
    omega
  have hoccurs : (common.drop d).take n <+:
      (before2 ++ common ++ after2).drop (before2.length + d) := by
    rw [hdrop]
    exact (List.take_prefix _ _).trans (List.prefix_append _ _)
  have hfits : before2.length + d ≤ (before2 ++ common ++ after2).length := by
    simp only [List.length_append]
    omega
  have hloop := (le_length_halfMatchLoop (before1 ++ common ++ after1) ((common.drop d).take n)
    (before1.length + d) ⟨[], [], [], [], []⟩ 0).2 _ (Nat.zero_le _) hfits hoccurs
  rw [hseed]
  refine Nat.le_trans ?_ hloop
  rw [htake, htake, hdrop, hdrop]
  have hpre := (shares_diffCommonPrefix (common.drop d ++ after1)
    (common.drop d ++ after2)).length_le
  have hsuffix := shares_diffCommonSuffix (before1 ++ common.take d) (before2 ++ common.take d)
  rw [List.reverse_append, List.reverse_append] at hsuffix
  have hsuffix' := hsuffix.length_le
  rw [List.length_reverse, List.length_take] at hsuffix'
  rw [List.length_drop] at hpre
  omega

/-- A seed inside a common part of half the longer text leads to a split that is no shorter. -/
theorem length_le_diffHalfMatchI {common before1 after1 before2 after2 : Text}
    (hlong : longtext = before1 ++ common ++ after1)
    (hshort : shorttext = before2 ++ common ++ after2)
    (hhalf : longtext.length ≤ 2 * common.length) {i : ℕ} (hstart : before1.length ≤ i)
    (hcovers : i + longtext.length / 4 ≤ before1.length + common.length) :
    ∃ hm, diffHalfMatchI longtext shorttext i = some hm ∧ common.length ≤ hm.common.length := by
  obtain ⟨d, rfl⟩ := Nat.exists_eq_add_of_le hstart
  have hle := length_le_of_covers hlong hshort
    (show d + longtext.length / 4 ≤ common.length by omega)
  refine ⟨_, ?_, hle⟩
  rw [diffHalfMatchI]
  exact if_pos (by omega)

theorem length_le_selectLongest (hm1 hm2 : Option HalfMatch) {hm : HalfMatch}
    (h : hm1 = some hm ∨ hm2 = some hm) :
    ∃ hm', selectLongest hm1 hm2 = some hm' ∧ hm.common.length ≤ hm'.common.length := by
  rcases hm1 with _ | hm1 <;> rcases hm2 with _ | hm2 <;>
    simp only [selectLongest, reduceCtorEq, false_or, or_false, Option.some.injEq] at h ⊢
  · exact ⟨hm2, rfl, by rw [h]⟩
  · exact ⟨hm1, rfl, by rw [h]⟩
  · refine ⟨_, rfl, ?_⟩
    split_ifs <;> rcases h with rfl | rfl <;> omega

/-- A split around a longest common part, if there is one of half the longer text, and nothing
otherwise. -/
def Longest (text1 text2 : Text) : Option HalfMatch → Prop
  | some hm => hm.Splits text1 text2 ∧ max text1.length text2.length ≤ 2 * hm.common.length ∧
      ∀ common, common <:+: text1 → common <:+: text2 → common.length ≤ hm.common.length
  | none => ∀ common, common <:+: text1 → common <:+: text2 →
      2 * common.length < max text1.length text2.length

theorem Longest.swap {hm : Option HalfMatch} (h : Longest text1 text2 hm) :
    Longest text2 text1 (hm.map HalfMatch.swap) := by
  cases hm with
  | none =>
    intro common h2 h1
    rw [max_comm]
    exact h common h1 h2
  | some hm =>
    obtain ⟨hsplits, hhalf, hlongest⟩ := h
    rw [max_comm] at hhalf
    exact ⟨hsplits.swap, hhalf, fun common h2 h1 => hlongest common h1 h2⟩

/-- A common part of half the longer text covers the seed in the second quarter or the one in
the third. -/
theorem seeds_longest (hlong : 4 ≤ longtext.length) (hle : shorttext.length ≤ longtext.length) :
    Longest longtext shorttext (selectLongest
      (diffHalfMatchI longtext shorttext ((longtext.length + 3) / 4))
      (diffHalfMatchI longtext shorttext ((longtext.length + 1) / 2))) := by
  have hfind : ∀ common, common <:+: longtext → common <:+: shorttext →
      longtext.length ≤ 2 * common.length → ∃ hm, selectLongest
        (diffHalfMatchI longtext shorttext ((longtext.length + 3) / 4))
        (diffHalfMatchI longtext shorttext ((longtext.length + 1) / 2)) = some hm ∧
          common.length ≤ hm.common.length := by
    rintro common ⟨before1, after1, h1⟩ ⟨before2, after2, h2⟩ hhalf
    have hlength := congrArg List.length h1
    simp only [List.length_append] at hlength
    by_cases hsecond : before1.length ≤ (longtext.length + 3) / 4
    · obtain ⟨hm, hfound, hhm⟩ := length_le_diffHalfMatchI h1.symm h2.symm hhalf hsecond (by omega)
      obtain ⟨hm', hselect, hhm'⟩ := length_le_selectLongest _
        (diffHalfMatchI longtext shorttext ((longtext.length + 1) / 2)) (.inl hfound)
      exact ⟨hm', hselect, hhm.trans hhm'⟩
    · obtain ⟨hm, hfound, hhm⟩ := length_le_diffHalfMatchI (i := (longtext.length + 1) / 2)
        h1.symm h2.symm hhalf (by omega) (by omega)
      obtain ⟨hm', hselect, hhm'⟩ := length_le_selectLongest
        (diffHalfMatchI longtext shorttext ((longtext.length + 3) / 4)) _ (.inr hfound)
      exact ⟨hm', hselect, hhm.trans hhm'⟩
  rcases hselect : selectLongest (diffHalfMatchI longtext shorttext ((longtext.length + 3) / 4))
    (diffHalfMatchI longtext shorttext ((longtext.length + 1) / 2)) with _ | hm
  · intro common h1 h2
    rw [max_eq_left hle]
    by_contra hhalf
    obtain ⟨hm, hfound, -⟩ := hfind common h1 h2 (by omega)
    rw [hselect] at hfound
    cases hfound
  · have hhalf : longtext.length ≤ 2 * hm.common.length := by
      rcases selectLongest_eq_some hselect with h | h <;>
      · simp only [diffHalfMatchI] at h
        split_ifs at h with hhalf
        obtain rfl := Option.some.inj h
        omega
    refine ⟨(splits_of_seeds hlong hselect).2, by rwa [max_eq_left hle], fun common h1 h2 => ?_⟩
    by_contra hlt
    obtain ⟨hm', hfound, hhm'⟩ := hfind common h1 h2 (by omega)
    obtain rfl := Option.some.inj (hselect.symm.trans hfound)
    omega

/-- If the longer text has four symbols at least, `diffHalfMatch` finds a longest common part
if one has half its length, and otherwise nothing. For shorter texts it does not look. -/
theorem diffHalfMatch_longest (text1 text2 : Text) :
    if max text1.length text2.length < 4 then diffHalfMatch text1 text2 = none
    else Longest text1 text2 (diffHalfMatch text1 text2) := by
  -- a text too short to be half the other shares no half of it
  have hpointless : ∀ longtext shorttext : Text, shorttext.length * 2 < longtext.length →
      Longest longtext shorttext none := fun longtext shorttext hshort common _ h2 => by
    have hcommon := h2.length_le
    omega
  unfold diffHalfMatch
  by_cases hlonger : text1.length > text2.length
  · simp only [hlonger, if_true]
    split_ifs with hsmall hnone hnone
    · rfl
    · omega
    · exact hpointless _ _ (by omega)
    · exact seeds_longest (by omega) (Nat.le_of_lt hlonger)
  · simp only [hlonger, if_false]
    split_ifs with hsmall hnone hnone
    · rfl
    · omega
    · exact (hpointless text2 text1 (by omega)).swap
    · exact (seeds_longest (by omega) (by omega)).swap

example : (diffHalfMatch (utf16 "qHilloHelloHew") (utf16 "xHelloHeHulloy")).map
    HalfMatch.common = some (utf16 "HelloHe") := by
  decide +kernel

end OtEditor.DiffMatchPatch
