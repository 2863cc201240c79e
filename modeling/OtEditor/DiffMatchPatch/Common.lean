import OtEditor.Kotlin
import OtEditor.Lib.Bisection
import Mathlib.Data.List.Infix
import Mathlib.Order.Bounds.Basic

/-!
# What two texts have in common

The functions of the diff library that compare texts : `diffCommonPrefix` and
`diffCommonSuffix` search for the end of the common part by bisection
(`shares_diffCommonPrefix`, `shares_diffCommonSuffix`), `diffCommonOverlap` looks for the end
of one text at the start of the other (`overlaps_diffCommonOverlap`), and `indexOf` for a text
inside another (`indexOf_eq_some`). What the first three find is the longest
(`longest_common_parts`).
-/

namespace OtEditor.DiffMatchPatch

/-! ## JavaScript strings -/

/-- `text.substring(start, stop)`. Bounds past the end are cut, and swapped ones exchanged. -/
def substring (text : Text) (start stop : ℕ) : Text :=
  (text.take (max start stop)).drop (min start stop)

/-- `text.substring(start)`. -/
def substringFrom (text : Text) (start : ℕ) : Text :=
  text.drop start

/-- `text.charAt(position)`, which is empty outside the text. -/
def charAt (text : Text) (position : ℤ) : Option Symbol :=
  if position < 0 then none else text[position.toNat]?

/-- `text.indexOf(pattern, start)`, for a pattern that is not empty or a start in the text. -/
def indexOf (text pattern : Text) (start : ℕ) : Option ℕ :=
  (List.range' start (text.length + 1 - start)).find? fun i => pattern.isPrefixOf (text.drop i)

@[simp] theorem substring_zero (text : Text) (stop : ℕ) :
    substring text 0 stop = text.take stop := by
  simp [substring]

@[simp] theorem substringFrom_eq (text : Text) (start : ℕ) :
    substringFrom text start = text.drop start :=
  rfl

theorem substring_of_le (text : Text) {start stop : ℕ} (h : start ≤ stop) :
    substring text start stop = (text.take stop).drop start := by
  rw [substring, max_eq_right h, min_eq_left h]

theorem take_append_substring (text : Text) {start stop : ℕ} (h : start ≤ stop) :
    text.take start ++ substring text start stop = text.take stop := by
  have htake : text.take start = (text.take stop).take start := by
    rw [List.take_take, min_eq_left h]
  rw [substring_of_le text h, htake, List.take_append_drop]

theorem charAt_length_sub_one (text : Text) : charAt text (text.length - 1) = text.getLast? := by
  rw [charAt, List.getLast?_eq_getElem?]
  split_ifs with h
  · have : text = [] := List.length_eq_zero_iff.1 (by omega)
    simp [this]
  · congr 1
    omega

/-- What `indexOf` finds is the pattern, inside the text and not before the start. -/
theorem indexOf_eq_some {text pattern : Text} {start i : ℕ}
    (h : indexOf text pattern start = some i) :
    start ≤ i ∧ i + pattern.length ≤ text.length ∧
      text = text.take i ++ pattern ++ text.drop (i + pattern.length) := by
  have hmem := List.mem_of_find?_eq_some h
  have hfound : pattern.isPrefixOf (text.drop i) = true :=
    List.find?_some (p := fun i => pattern.isPrefixOf (text.drop i)) h
  obtain ⟨rest, hrest⟩ := List.isPrefixOf_iff_prefix.1 hfound
  have hlength := congrArg List.length hrest
  rw [List.mem_range'_1] at hmem
  rw [List.length_append, List.length_drop] at hlength
  refine ⟨hmem.1, by omega, ?_⟩
  have hdrop : text.drop (i + pattern.length) = rest := by
    rw [← List.drop_drop, ← hrest, List.drop_left]
  rw [hdrop, List.append_assoc, hrest, List.take_append_drop]

/-- A pattern that `indexOf` does not find is not there. -/
theorem indexOf_eq_none {text pattern : Text} {start : ℕ} (h : indexOf text pattern start = none)
    {i : ℕ} (hstart : start ≤ i) (hi : i ≤ text.length) : ¬pattern <+: text.drop i := by
  have hall := List.find?_eq_none.1 h i (by rw [List.mem_range'_1]; omega)
  rwa [List.isPrefixOf_iff_prefix] at hall

/-- A pattern that is there is found, not after its place. -/
theorem indexOf_le {text pattern : Text} {start i : ℕ} (hstart : start ≤ i)
    (hi : i ≤ text.length) (h : pattern <+: text.drop i) :
    ∃ j ≤ i, indexOf text pattern start = some j := by
  rcases hfound : indexOf text pattern start with _ | j
  · exact absurd h (indexOf_eq_none hfound hstart hi)
  · refine ⟨j, ?_, rfl⟩
    rw [indexOf, List.find?_range'_eq_some] at hfound
    by_contra hlt
    have hnot := hfound.2.2 i hstart (by omega)
    rw [Bool.not_eq_true', ← Bool.not_eq_true, List.isPrefixOf_iff_prefix] at hnot
    exact hnot h

/-! ## Common prefix and suffix -/

/-- The texts do not begin with the same symbol. -/
def Apart (text1 text2 : Text) : Prop :=
  ∀ c, text1.head? = some c → text2.head? ≠ some c

/-- The first `n` symbols of the texts are the same, and the next are not. -/
structure Shares (text1 text2 : Text) (n : ℕ) : Prop where
  le1 : n ≤ text1.length
  le2 : n ≤ text2.length
  same : text1.take n = text2.take n
  apart : Apart (text1.drop n) (text2.drop n)

/-- `diff_commonPrefix`. -/
def diffCommonPrefix (text1 text2 : Text) : ℕ :=
  if text1 = [] ∨ text2 = [] ∨ charAt text1 0 ≠ charAt text2 0 then 0
  else
    let pointermax := min text1.length text2.length
    Bisection.search (fun pointerstart pointermid =>
      substring text1 pointerstart pointermid = substring text2 pointerstart pointermid)
      0 pointermax pointermax

/-- `diff_commonSuffix`. -/
def diffCommonSuffix (text1 text2 : Text) : ℕ :=
  if text1 = [] ∨ text2 = [] ∨
      charAt text1 (text1.length - 1) ≠ charAt text2 (text2.length - 1) then 0
  else
    let pointermax := min text1.length text2.length
    Bisection.search (fun pointerend pointermid =>
      substring text1 (text1.length - pointermid) (text1.length - pointerend) =
        substring text2 (text2.length - pointermid) (text2.length - pointerend))
      0 pointermax pointermax

variable {text1 text2 : Text}

theorem Apart.symm (h : Apart text1 text2) : Apart text2 text1 :=
  fun c h2 h1 => h c h1 h2

theorem apart_of_ne (h : text1.head? ≠ text2.head?) : Apart text1 text2 :=
  fun _ h1 h2 => h (h1.trans h2.symm)

/-- What texts begin with is left when they are cut. -/
theorem Apart.take (h : Apart text1 text2) (n1 n2 : ℕ) :
    Apart (text1.take n1) (text2.take n2) := by
  have hhead {text : Text} {n : ℕ} {c : Symbol} (hc : (text.take n).head? = some c) :
      text.head? = some c := by
    rw [List.head?_take] at hc
    split_ifs at hc
    exact hc
  exact fun c h1 h2 => h c (hhead h1) (hhead h2)

/-- A common first part is within what the texts share. -/
theorem Shares.length_le {common rest1 rest2 : Text} {n : ℕ}
    (h : Shares (common ++ rest1) (common ++ rest2) n) : common.length ≤ n := by
  by_contra hlt
  have hdrop (rest : Text) : ((common ++ rest).drop n).head? = common[n]? := by
    rw [List.head?_drop, List.getElem?_append_left (by omega)]
  have hnext : common[n]? = some common[n] := List.getElem?_eq_getElem (by omega)
  exact h.apart _ ((hdrop rest1).trans hnext) ((hdrop rest2).trans hnext)

/-- Texts that agree on a greatest first part share it. -/
theorem shares_of_greatest {n : ℕ} (hn : n ≤ min text1.length text2.length)
    (hsame : text1.take n = text2.take n) (hgreatest : ∀ k, k ≤ min text1.length text2.length →
      text1.take k = text2.take k → k ≤ n) : Shares text1 text2 n := by
  refine ⟨by omega, by omega, hsame, fun c h1 h2 => ?_⟩
  rw [List.head?_drop] at h1 h2
  have hlt1 : n < text1.length := (List.getElem?_eq_some_iff.1 h1).1
  have hlt2 : n < text2.length := (List.getElem?_eq_some_iff.1 h2).1
  have hnext : text1.take (n + 1) = text2.take (n + 1) := by
    rw [List.take_add_one, List.take_add_one, hsame, h1, h2]
  have := hgreatest (n + 1) (by omega) hnext
  omega

/-- A bisection that compares parts of the texts finds what they share. -/
theorem shares_search {agree : ℕ → ℕ → Bool}
    (hagree : ∀ a b, a ≤ b → b ≤ min text1.length text2.length →
      (agree a b = true ↔ substring text1 a b = substring text2 a b)) :
    Shares text1 text2 (Bisection.search agree 0 (min text1.length text2.length)
      (min text1.length text2.length)) := by
  have hdown : ∀ a b, a ≤ b → text1.take b = text2.take b → text1.take a = text2.take a := by
    intro a b hab h
    have htake := congrArg (List.take a) h
    rwa [List.take_take, List.take_take, min_eq_left hab] at htake
  have hnext : ∀ a b, a ≤ b → b ≤ min text1.length text2.length → text1.take a = text2.take a →
      (agree a b = true ↔ text1.take b = text2.take b) := by
    intro a b hab hb h
    rw [hagree a b hab hb, ← take_append_substring text1 hab, ← take_append_substring text2 hab,
      h, List.append_cancel_left_eq]
  obtain ⟨hle, hsame, hgreatest⟩ := Bisection.search_top hdown hnext rfl
  exact shares_of_greatest hle hsame hgreatest

/-- `diffCommonPrefix` finds what the texts share. -/
theorem shares_diffCommonPrefix (text1 text2 : Text) :
    Shares text1 text2 (diffCommonPrefix text1 text2) := by
  rw [diffCommonPrefix]
  split_ifs with h
  · refine ⟨Nat.zero_le _, Nat.zero_le _, rfl, ?_⟩
    rcases h with rfl | rfl | h
    · exact fun c h1 => by cases h1
    · exact fun c _ h2 => by cases h2
    · rw [charAt, charAt] at h
      refine apart_of_ne ?_
      simpa [List.head?_eq_getElem?] using h
  · exact shares_search fun a b _ _ => decide_eq_true_iff

theorem reverse_substring (text : Text) {a b : ℕ} (hab : a ≤ b) (hb : b ≤ text.length) :
    substring text.reverse a b = (substring text (text.length - b) (text.length - a)).reverse := by
  have hlength : text.length - b + (text.length - (text.length - b) - a) = text.length - a := by
    omega
  rw [substring_of_le _ hab, substring_of_le _ (by omega), List.take_reverse, List.drop_reverse,
    List.length_drop, List.take_drop, hlength]

/-- `diffCommonSuffix` finds what the texts share, read backwards. -/
theorem shares_diffCommonSuffix (text1 text2 : Text) :
    Shares text1.reverse text2.reverse (diffCommonSuffix text1 text2) := by
  rw [diffCommonSuffix]
  split_ifs with h
  · refine ⟨Nat.zero_le _, Nat.zero_le _, rfl, ?_⟩
    rcases h with rfl | rfl | h
    · exact fun c h1 => by cases h1
    · exact fun c _ h2 => by cases h2
    · refine apart_of_ne ?_
      rw [charAt_length_sub_one, charAt_length_sub_one] at h
      rwa [List.drop_zero, List.drop_zero, List.head?_reverse, List.head?_reverse]
  · have hsearch := @shares_search text1.reverse text2.reverse
      (fun pointerend pointermid =>
        substring text1 (text1.length - pointermid) (text1.length - pointerend) =
          substring text2 (text2.length - pointermid) (text2.length - pointerend))
      (fun a b hab hb => by
        rw [List.length_reverse, List.length_reverse] at hb
        rw [reverse_substring text1 hab (by omega), reverse_substring text2 hab (by omega),
          List.reverse_inj]
        exact decide_eq_true_iff)
    rwa [List.length_reverse, List.length_reverse] at hsearch

/-- Read forwards, what two texts share backwards is a common end. -/
theorem drop_eq_of_shares_reverse {n : ℕ} (h : Shares text1.reverse text2.reverse n) :
    text1.drop (text1.length - n) = text2.drop (text2.length - n) := by
  have hsame := h.same
  rwa [List.take_reverse, List.take_reverse, List.reverse_inj] at hsame

/-! ## Overlap -/

/-- The loop of `diff_commonOverlap_`. A pattern longer than `text1` would be all of `text1`,
which is not in `text2`. -/
def overlapLoop (text1 text2 : Text) (best length : ℕ) : ℕ :=
  if length ≤ text1.length then
    match indexOf text2 (substringFrom text1 (text1.length - length)) 0 with
    | none => best
    | some found =>
      let length' := length + found
      if found = 0 ∨ substringFrom text1 (text1.length - length') = substring text2 0 length' then
        overlapLoop text1 text2 length' (length' + 1)
      else overlapLoop text1 text2 best length'
  else best
termination_by text1.length + 1 - length
decreasing_by all_goals omega

/-- `diff_commonOverlap_`. -/
def diffCommonOverlap (text1 text2 : Text) : ℕ :=
  if text1.length = 0 ∨ text2.length = 0 then 0
  else
    let text_length := min text1.length text2.length
    let end1 := substringFrom text1 (text1.length - text_length)
    let start2 := substring text2 0 text_length
    if end1 = start2 then text_length else overlapLoop end1 start2 0 1

/-- The last `n` symbols of the first text are the first of the second. -/
structure Overlaps (text1 text2 : Text) (n : ℕ) : Prop where
  le1 : n ≤ text1.length
  le2 : n ≤ text2.length
  same : text1.drop (text1.length - n) = text2.take n

theorem overlaps_zero (text1 text2 : Text) : Overlaps text1 text2 0 :=
  ⟨Nat.zero_le _, Nat.zero_le _, by simp⟩

/-- In an overlap, every shorter end of the first text stands in the second. -/
theorem Overlaps.prefix_drop {n length : ℕ} (h : Overlaps text1 text2 n) (hlength : length ≤ n) :
    text1.drop (text1.length - length) <+: text2.drop (n - length) := by
  have hle := h.le1
  have hsame := congrArg (List.drop (n - length)) h.same
  rw [List.drop_drop, List.drop_take, Nat.sub_sub_self hlength] at hsame
  rw [show text1.length - length = text1.length - n + (n - length) by omega, hsame]
  exact List.take_prefix _ _

/-- The loop returns an overlap, and the longest one if the overlaps it has passed over are no
longer than the best. -/
theorem overlapLoop_spec (hlength : text1.length = text2.length) {best : ℕ}
    (hbest : Overlaps text1 text2 best) (length : ℕ)
    (hpassed : ∀ n, Overlaps text1 text2 n → n ≤ best ∨ length ≤ n) :
    Overlaps text1 text2 (overlapLoop text1 text2 best length) ∧
      ∀ n, Overlaps text1 text2 n → n ≤ overlapLoop text1 text2 best length := by
  rw [overlapLoop]
  split_ifs with hle
  · cases hindex : indexOf text2 (substringFrom text1 (text1.length - length)) 0 with
    | none =>
      refine ⟨hbest, fun n hn => (hpassed n hn).resolve_right fun hlong => ?_⟩
      have hle2 := hn.le2
      exact indexOf_eq_none hindex (Nat.zero_le _) (by omega) (hn.prefix_drop hlong)
    | some found =>
      obtain ⟨-, hfits, hsplit⟩ := indexOf_eq_some hindex
      rw [substringFrom_eq, List.length_drop] at hfits
      have hfound : ∀ n, Overlaps text1 text2 n → n ≤ best ∨ length + found ≤ n := by
        intro n hn
        refine (hpassed n hn).imp_right fun hlong => ?_
        have hle2 := hn.le2
        obtain ⟨j, hj, hindex'⟩ := indexOf_le (Nat.zero_le _)
          (show n - length ≤ text2.length by omega) (hn.prefix_drop hlong)
        obtain rfl : j = found := Option.some.inj (hindex'.symm.trans hindex)
        omega
      simp only
      split_ifs with hsame
      · refine overlapLoop_spec hlength ⟨by omega, by omega, ?_⟩ _ fun n _ =>
          (Nat.lt_or_ge (length + found) n).symm
        rcases hsame with rfl | hsame
        · -- found at the start
          have hpattern : (text1.drop (text1.length - length)).length = length := by
            rw [List.length_drop]
            omega
          rw [substringFrom_eq, List.take_zero, List.nil_append] at hsplit
          rw [hsplit, Nat.add_zero, List.take_append_of_le_length (by omega),
            List.take_of_length_le (by omega)]
        · rwa [substringFrom_eq, substring_zero] at hsame
      · exact overlapLoop_spec hlength hbest _ hfound
  · refine ⟨hbest, fun n hn => (hpassed n hn).resolve_right fun hlong => ?_⟩
    have hle1 := hn.le1
    omega
termination_by text1.length + 1 - length
decreasing_by all_goals omega

/-- An overlap is one of the end and the start of the length of the shorter text. -/
theorem overlaps_trimmed {n m : ℕ} (hn : n = min text1.length text2.length) (hm : m ≤ n) :
    Overlaps (text1.drop (text1.length - n)) (text2.take n) m ↔ Overlaps text1 text2 m := by
  have hdrop : (text1.drop (text1.length - n)).length = n := by
    rw [List.length_drop]
    omega
  have htake : (text2.take n).length = n := by
    rw [List.length_take]
    omega
  have hend : (text1.drop (text1.length - n)).drop (n - m) = text1.drop (text1.length - m) := by
    rw [List.drop_drop]
    congr 1
    omega
  have hstart : (text2.take n).take m = text2.take m := by rw [List.take_take, min_eq_left hm]
  constructor
  · rintro ⟨-, -, hsame⟩
    rw [hdrop, hend, hstart] at hsame
    exact ⟨by omega, by omega, hsame⟩
  · rintro ⟨-, -, hsame⟩
    refine ⟨by omega, by omega, ?_⟩
    rw [hdrop, hend, hstart, hsame]

/-- `diffCommonOverlap` returns the longest overlap. -/
theorem overlaps_diffCommonOverlap (text1 text2 : Text) :
    Overlaps text1 text2 (diffCommonOverlap text1 text2) ∧
      ∀ n, Overlaps text1 text2 n → n ≤ diffCommonOverlap text1 text2 := by
  rw [diffCommonOverlap]
  split_ifs with hempty
  · refine ⟨overlaps_zero text1 text2, fun n hn => ?_⟩
    have hle1 := hn.le1
    have hle2 := hn.le2
    omega
  obtain ⟨n, hn⟩ : ∃ n, n = min text1.length text2.length := ⟨_, rfl⟩
  have hshort (m : ℕ) (hm : Overlaps text1 text2 m) : m ≤ n := by
    rw [hn]
    exact le_min hm.le1 hm.le2
  simp only [substringFrom_eq, substring_zero, ← hn]
  split_ifs with hsame
  · exact ⟨⟨by omega, by omega, hsame⟩, hshort⟩
  · obtain ⟨hoverlap, hlongest⟩ := overlapLoop_spec
      (show (text1.drop (text1.length - n)).length = (text2.take n).length by
        rw [List.length_drop, List.length_take]
        omega) (overlaps_zero (text1.drop (text1.length - n)) (text2.take n)) 1
      fun m _ => (Nat.eq_zero_or_pos m).imp_left le_of_eq
    have hle := hoverlap.le2
    rw [List.length_take] at hle
    exact ⟨(overlaps_trimmed hn (by omega)).1 hoverlap, fun m hm =>
      hlongest m ((overlaps_trimmed hn (hshort m hm)).2 hm)⟩

/-! ## The longest common parts -/

/-- What texts share is their longest common first part. -/
theorem Shares.isGreatest {n : ℕ} (h : Shares text1 text2 n) :
    IsGreatest {n | ∃ common, common.length = n ∧ common <+: text1 ∧ common <+: text2} n := by
  refine ⟨⟨text1.take n, ?_, List.take_prefix _ _, h.same ▸ List.take_prefix _ _⟩, ?_⟩
  · rw [List.length_take, min_eq_left h.le1]
  · rintro _ ⟨common, rfl, ⟨rest1, rfl⟩, ⟨rest2, rfl⟩⟩
    exact h.length_le

theorem overlaps_iff {n : ℕ} : Overlaps text1 text2 n ↔
    ∃ common, common.length = n ∧ common <:+ text1 ∧ common <+: text2 := by
  constructor
  · rintro ⟨hle1, hle2, hsame⟩
    refine ⟨text2.take n, ?_, hsame ▸ List.drop_suffix _ _, List.take_prefix _ _⟩
    rw [List.length_take, min_eq_left hle2]
  · rintro ⟨common, rfl, hsuffix, hpre⟩
    refine ⟨hsuffix.length_le, hpre.length_le, ?_⟩
    rw [← List.suffix_iff_eq_drop.1 hsuffix]
    exact List.prefix_iff_eq_take.1 hpre

/-- The functions find the longest text with which both texts begin, with which both end, and
with which the first ends and the second begins. -/
theorem longest_common_parts (text1 text2 : Text) :
    IsGreatest {n | ∃ common, common.length = n ∧ common <+: text1 ∧ common <+: text2}
        (diffCommonPrefix text1 text2) ∧
      IsGreatest {n | ∃ common, common.length = n ∧ common <:+ text1 ∧ common <:+ text2}
        (diffCommonSuffix text1 text2) ∧
      IsGreatest {n | ∃ common, common.length = n ∧ common <:+ text1 ∧ common <+: text2}
        (diffCommonOverlap text1 text2) := by
  refine ⟨(shares_diffCommonPrefix text1 text2).isGreatest, ?_, ?_⟩
  · obtain ⟨⟨common, hlength, h1, h2⟩, hlongest⟩ :=
      (shares_diffCommonSuffix text1 text2).isGreatest
    refine ⟨⟨common.reverse, ?_, ?_, ?_⟩, ?_⟩
    · rwa [List.length_reverse]
    · rwa [← List.reverse_prefix, List.reverse_reverse]
    · rwa [← List.reverse_prefix, List.reverse_reverse]
    · rintro _ ⟨common, rfl, h1, h2⟩
      exact hlongest ⟨common.reverse, List.length_reverse, List.reverse_prefix.2 h1,
        List.reverse_prefix.2 h2⟩
  · obtain ⟨hoverlap, hlongest⟩ := overlaps_diffCommonOverlap text1 text2
    exact ⟨overlaps_iff.1 hoverlap, fun n hn => hlongest n (overlaps_iff.2 hn)⟩

end OtEditor.DiffMatchPatch
