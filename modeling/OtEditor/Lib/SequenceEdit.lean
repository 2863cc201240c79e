import Mathlib.Data.List.Basic
import Mathlib.Data.List.InsertIdx
import OtEditor.Lib.Transformation

/-!
# Single-element edits of a sequence

An edit inserts an element at an index, deletes the element at an index, or does nothing.
`Edit.act` performs it where it is in range : an insertion up to the end, a deletion of
the element it names. `Edit.against` transforms an edit against a concurrent one. Both of
two insertions at one index are moved to the right, so the diamond of two different
insertions at one index does not close (`Edit.Clash`, `Edit.not_closes_of_clash`); every
other diamond does (`Edit.closes`).
-/

set_option linter.unusedSectionVars false

/-- An edit of a sequence. A deletion names the element it deletes. -/
inductive Edit (α : Type*) where
  | insert (i : ℕ) (a : α)
  | delete (i : ℕ) (a : α)
  | skip
  deriving DecidableEq

namespace Edit

variable {α : Type*} [DecidableEq α]

/-- Perform an edit that is in range. -/
def act : Edit α → List α → Option (List α)
  | insert i a, l => if i ≤ l.length then some (l.insertIdx i a) else none
  | delete i a, l => if l[i]? = some a then some (l.eraseIdx i) else none
  | skip, l => some l

/-- An edit transformed against a concurrent edit. -/
def against : Edit α → Edit α → Edit α
  | insert i a, insert j _ => if i < j then insert i a else insert (i + 1) a
  | insert i a, delete j _ => if i ≤ j then insert i a else insert (i - 1) a
  | delete i a, insert j _ => if i < j then delete i a else delete (i + 1) a
  | delete i a, delete j _ =>
    if i < j then delete i a else if j < i then delete (i - 1) a else skip
  | e, _ => e

/-- Two insertions of different elements at one index. -/
def Clash : Edit α → Edit α → Prop
  | insert i a, insert j b => i = j ∧ a ≠ b
  | _, _ => False

theorem act_insert {i : ℕ} (a : α) {l : List α} (hi : i ≤ l.length) :
    act (insert i a) l = some (l.insertIdx i a) :=
  if_pos hi

theorem act_delete {i : ℕ} {a : α} {l : List α} (hi : l[i]? = some a) :
    act (delete i a) l = some (l.eraseIdx i) :=
  if_pos hi

@[simp] theorem act_skip (l : List α) : act skip l = some l :=
  rfl

theorem act_insert_eq_some {i : ℕ} {a : α} {l l' : List α} :
    act (insert i a) l = some l' ↔ i ≤ l.length ∧ l.insertIdx i a = l' := by
  simp [act]

theorem act_delete_eq_some {i : ℕ} {a : α} {l l' : List α} :
    act (delete i a) l = some l' ↔ l[i]? = some a ∧ l.eraseIdx i = l' := by
  simp [act]

theorem length_act {e : Edit α} {l l' : List α} (h : act e l = some l') :
    l'.length ≤ l.length + 1 := by
  cases e with
  | insert i a =>
    obtain ⟨hi, rfl⟩ := act_insert_eq_some.1 h
    exact Nat.le_of_eq (List.length_insertIdx_of_le_length hi a)
  | delete i a =>
    obtain ⟨-, rfl⟩ := act_delete_eq_some.1 h
    have := List.length_eraseIdx_le l i
    omega
  | skip =>
    obtain rfl := Option.some.inj h
    exact Nat.le_succ _

theorem insertIdx_eq_take_append_cons_drop (a : α) : ∀ {i : ℕ} {l : List α}, i ≤ l.length →
    l.insertIdx i a = l.take i ++ a :: l.drop i
  | 0, l, _ => by simp
  | i + 1, [], h => by simp at h
  | i + 1, b :: l, h => by
    simp [insertIdx_eq_take_append_cons_drop a (Nat.le_of_succ_le_succ h)]

/-- An insertion at the end of the first part. -/
theorem act_insert_append (a : α) (l m : List α) :
    act (insert l.length a) (l ++ m) = some (l ++ a :: m) := by
  have hle : l.length ≤ (l ++ m).length := by simp
  rw [act_insert a hle, insertIdx_eq_take_append_cons_drop a hle, List.take_left, List.drop_left]

/-- A deletion at the start of the second part. -/
theorem act_delete_append (a : α) (l m : List α) :
    act (delete l.length a) (l ++ a :: m) = some (l ++ m) := by
  rw [act_delete_eq_some, List.eraseIdx_append_of_length_le (Nat.le_refl _)]
  simp

/-! ## A transformed edit is in range -/

theorem act_insert_against {i : ℕ} {a : α} {b : Edit α} {l l' : List α}
    (hi : i ≤ l.length) (hb : act b l = some l') :
    ∃ j, (insert i a).against b = insert j a ∧ j ≤ l'.length := by
  cases b with
  | insert j b =>
    obtain ⟨hj, rfl⟩ := act_insert_eq_some.1 hb
    rw [List.length_insertIdx_of_le_length hj]
    simp only [against]
    split_ifs <;> exact ⟨_, rfl, by omega⟩
  | delete j b =>
    obtain ⟨hj, rfl⟩ := act_delete_eq_some.1 hb
    obtain ⟨hj, -⟩ := List.getElem?_eq_some_iff.1 hj
    rw [List.length_eraseIdx_of_lt hj]
    simp only [against]
    split_ifs <;> exact ⟨_, rfl, by omega⟩
  | skip =>
    obtain rfl := Option.some.inj hb
    exact ⟨i, rfl, hi⟩

theorem getElem?_delete_against {i : ℕ} {a : α} {b : Edit α} {l l' : List α}
    (hi : l[i]? = some a) (hb : act b l = some l') :
    (∃ j, (delete i a).against b = delete j a ∧ l'[j]? = some a) ∨
      (b = delete i a ∧ (delete i a).against b = skip) := by
  cases b with
  | insert j b =>
    obtain ⟨hj, rfl⟩ := act_insert_eq_some.1 hb
    refine Or.inl ?_
    simp only [against]
    split_ifs with hij
    · exact ⟨_, rfl, by rw [List.getElem?_insertIdx_of_lt hij, hi]⟩
    · exact ⟨_, rfl, by rw [List.getElem?_insertIdx_of_gt (by omega), Nat.add_sub_cancel, hi]⟩
  | delete j b =>
    obtain ⟨hj, rfl⟩ := act_delete_eq_some.1 hb
    simp only [against]
    split_ifs with hij hji
    · exact Or.inl ⟨_, rfl, by rw [List.getElem?_eraseIdx_of_lt hij, hi]⟩
    · refine Or.inl ⟨_, rfl, ?_⟩
      rw [List.getElem?_eraseIdx_of_ge (by omega), Nat.sub_add_cancel (by omega), hi]
    · obtain rfl : i = j := by omega
      obtain rfl : a = b := Option.some.inj (hi.symm.trans hj)
      exact Or.inr ⟨rfl, rfl⟩
  | skip =>
    obtain rfl := Option.some.inj hb
    exact Or.inl ⟨i, rfl, hi⟩

/-- An edit in range is, transformed against a performed edit, in range after it. -/
theorem act_against {a b : Edit α} {l l' : List α} (ha : (act a l).isSome)
    (hb : act b l = some l') : (act (a.against b) l').isSome := by
  obtain ⟨la, ha⟩ := Option.isSome_iff_exists.1 ha
  cases a with
  | insert i a =>
    obtain ⟨j, hj, hle⟩ := act_insert_against (a := a) (act_insert_eq_some.1 ha).1 hb
    simp [hj, act, hle]
  | delete i a =>
    obtain ⟨j, hj, hget⟩ | ⟨-, hskip⟩ :=
      getElem?_delete_against (act_delete_eq_some.1 ha).1 hb
    · simp [hj, act, hget]
    · simp [hskip, act]
  | skip => simp [against, act]

/-! ## Diamonds -/

open Transformation

theorem closes_insert_insert {i j : ℕ} (a b : α) {l : List α} (hij : i < j)
    (hj : j ≤ l.length) : Closes act against (insert i a) (insert j b) l := by
  have hi : i ≤ l.length := by omega
  have hb : (insert j b).against (insert i a) = insert (j + 1) b := if_neg (by omega)
  have ha : (insert i a).against (insert j b) = insert i a := if_pos hij
  rw [Closes, act_insert a hi, act_insert b hj, Option.bind_some, Option.bind_some, hb, ha,
    act_insert, act_insert, List.insertIdx_comm a b (by omega) hj]
  · rw [List.length_insertIdx_of_le_length hj]
    omega
  · rw [List.length_insertIdx_of_le_length hi]
    omega

theorem closes_insert_delete {i j : ℕ} (a : α) {b : α} {l : List α} (hi : i ≤ l.length)
    (hj : l[j]? = some b) : Closes act against (insert i a) (delete j b) l := by
  obtain ⟨hlt, -⟩ := List.getElem?_eq_some_iff.1 hj
  have hlen := List.length_eraseIdx_of_lt hlt
  rw [Closes, act_insert a hi, act_delete hj, Option.bind_some, Option.bind_some]
  by_cases hij : i ≤ j
  · have hb : (delete j b).against (insert i a) = delete (j + 1) b := if_neg (by omega)
    have ha : (insert i a).against (delete j b) = insert i a := if_pos hij
    rw [hb, ha, act_insert a (by omega), List.insertIdx_eraseIdx_of_le hlt hij, act_delete]
    rw [List.getElem?_insertIdx_of_gt (by omega), Nat.add_sub_cancel, hj]
  · have hb : (delete j b).against (insert i a) = delete j b := if_pos (by omega)
    have ha : (insert i a).against (delete j b) = insert (i - 1) a := if_neg hij
    rw [hb, ha, act_insert a (by omega), List.insertIdx_eraseIdx_of_ge hlt (by omega),
      Nat.sub_add_cancel (by omega), act_delete]
    rw [List.getElem?_insertIdx_of_lt (by omega), hj]

theorem eraseIdx_eraseIdx (l : List α) {i j : ℕ} (hij : i < j) :
    (l.eraseIdx i).eraseIdx (j - 1) = (l.eraseIdx j).eraseIdx i := by
  refine List.ext_getElem? fun k => ?_
  simp only [List.getElem?_eraseIdx]
  split_ifs <;> first | rfl | omega

theorem closes_delete_delete {i j : ℕ} {a b : α} {l : List α} (hij : i < j)
    (hi : l[i]? = some a) (hj : l[j]? = some b) :
    Closes act against (delete i a) (delete j b) l := by
  have hb : (delete j b).against (delete i a) = delete (j - 1) b := by
    simp [against, hij, Nat.lt_asymm hij]
  have ha : (delete i a).against (delete j b) = delete i a := if_pos hij
  rw [Closes, act_delete hi, act_delete hj, Option.bind_some, Option.bind_some, hb, ha,
    act_delete, act_delete, eraseIdx_eraseIdx l hij]
  · rw [List.getElem?_eraseIdx_of_lt hij, hi]
  · rw [List.getElem?_eraseIdx_of_ge (by omega), Nat.sub_add_cancel (by omega), hj]

/-- Two edits in range close their diamond, unless they insert different elements at one
index. -/
theorem closes {a b : Edit α} {l : List α} (hclash : ¬Clash a b) (ha : (act a l).isSome)
    (hb : (act b l).isSome) : Closes act against a b l := by
  obtain ⟨la, ha⟩ := Option.isSome_iff_exists.1 ha
  obtain ⟨lb, hb⟩ := Option.isSome_iff_exists.1 hb
  cases a with
  | insert i a =>
    obtain ⟨hi, -⟩ := act_insert_eq_some.1 ha
    cases b with
    | insert j b =>
      obtain ⟨hj, -⟩ := act_insert_eq_some.1 hb
      rcases Nat.lt_trichotomy i j with hij | rfl | hij
      · exact closes_insert_insert a b hij hj
      · obtain rfl : a = b := by simpa [Clash] using hclash
        rfl
      · exact (closes_insert_insert b a hij hi).symm
    | delete j b => exact closes_insert_delete a hi (act_delete_eq_some.1 hb).1
    | skip => simp [Closes, ha, against]
  | delete i a =>
    obtain ⟨hi, -⟩ := act_delete_eq_some.1 ha
    cases b with
    | insert j b => exact (closes_insert_delete b (act_insert_eq_some.1 hb).1 hi).symm
    | delete j b =>
      obtain ⟨hj, -⟩ := act_delete_eq_some.1 hb
      rcases Nat.lt_trichotomy i j with hij | rfl | hij
      · exact closes_delete_delete hij hi hj
      · obtain rfl : a = b := Option.some.inj (hi.symm.trans hj)
        rfl
      · exact (closes_delete_delete hij hj hi).symm
    | skip => simp [Closes, ha, against]
  | skip => simp [Closes, hb, against]

/-- Insertions of different elements at one index end in different orders. -/
theorem not_closes_of_clash {a b : Edit α} {l : List α} (hclash : Clash a b)
    (ha : (act a l).isSome) : ¬Closes act against a b l := by
  cases a <;> cases b <;> simp only [Clash] at hclash
  rename_i i a j b
  obtain ⟨rfl, hne⟩ := hclash
  have hi : i ≤ l.length := by simpa [act] using ha
  have hagainst : ∀ c d : α, (insert i c).against (insert i d) = insert (i + 1) c :=
    fun c d => if_neg (Nat.lt_irrefl i)
  have hlen : ∀ c, i + 1 ≤ (l.insertIdx i c).length := fun c => by
    rw [List.length_insertIdx_of_le_length hi]
    omega
  intro h
  rw [Closes, act_insert a hi, act_insert b hi, Option.bind_some, Option.bind_some,
    hagainst, hagainst, act_insert _ (hlen a), act_insert _ (hlen b)] at h
  have hget := congrArg (fun m => m[i]?) (Option.some.inj h)
  simp [List.getElem?_insertIdx, hi] at hget
  exact hne hget

/-! ## Inverse edits -/

/-- The edit that takes an edit back. -/
def inverse : Edit α → Edit α
  | insert i a => delete i a
  | delete i a => insert i a
  | skip => skip

/-- After an edit its inverse leads back. -/
theorem act_inverse {e : Edit α} {l l' : List α} (h : act e l = some l') :
    act e.inverse l' = some l := by
  cases e with
  | insert i a =>
    obtain ⟨hi, rfl⟩ := act_insert_eq_some.1 h
    have hget : (l.insertIdx i a)[i]? = some a := by simp [List.getElem?_insertIdx, hi]
    rw [inverse, act_delete hget, List.eraseIdx_insertIdx_self]
  | delete i a =>
    obtain ⟨hget, rfl⟩ := act_delete_eq_some.1 h
    obtain ⟨hi, rfl⟩ := List.getElem?_eq_some_iff.1 hget
    have hle : i ≤ (l.eraseIdx i).length := by
      rw [List.length_eraseIdx_of_lt hi]
      omega
    rw [inverse, act_insert _ hle, List.insertIdx_eraseIdx_getElem hi]
  | skip =>
    obtain rfl := Option.some.inj h
    rfl

/-! ## Edits at neighbouring indices -/

omit [DecidableEq α] in
theorem insertIdx_succ_eq_iff (a : α) : ∀ {i : ℕ} {l : List α}, i < l.length →
    (l.insertIdx (i + 1) a = l.insertIdx i a ↔ l[i]? = some a)
  | 0, b :: l, _ => by simp [eq_comm]
  | i + 1, b :: l, h => by
    simp [insertIdx_succ_eq_iff a (Nat.lt_of_succ_lt_succ h)]

omit [DecidableEq α] in
theorem eraseIdx_succ_eq_iff : ∀ {i : ℕ} {l : List α}, i + 1 < l.length →
    (l.eraseIdx (i + 1) = l.eraseIdx i ↔ l[i]? = l[i + 1]?)
  | 0, b :: c :: l, _ => by simp
  | i + 1, b :: l, h => by
    simp [eraseIdx_succ_eq_iff (Nat.lt_of_succ_lt_succ h)]

/-- An insertion one to the right has the same result only beside its own element. -/
theorem act_insert_succ_iff {i : ℕ} {a : α} {l : List α} :
    act (insert (i + 1) a) l = some (l.insertIdx i a) ↔ l[i]? = some a := by
  rw [act_insert_eq_some]
  constructor
  · rintro ⟨hi, heq⟩
    exact (insertIdx_succ_eq_iff a hi).1 heq
  · intro hget
    obtain ⟨hi, -⟩ := List.getElem?_eq_some_iff.1 hget
    exact ⟨hi, (insertIdx_succ_eq_iff a hi).2 hget⟩

/-- An insertion one to the left has the same result only beside its own element. -/
theorem act_insert_pred_iff {i : ℕ} {a : α} {l : List α} (hi : i < l.length) :
    act (insert i a) l = some (l.insertIdx (i + 1) a) ↔ l[i]? = some a := by
  rw [act_insert_eq_some, ← insertIdx_succ_eq_iff a hi, eq_comm (a := l.insertIdx i a)]
  exact and_iff_right (Nat.le_of_lt hi)

/-- A deletion one to the right has the same result exactly if it finds its element. -/
theorem act_delete_succ_iff {i : ℕ} {a : α} {l : List α} (hi : l[i]? = some a) :
    act (delete (i + 1) a) l = some (l.eraseIdx i) ↔ l[i + 1]? = some a := by
  rw [act_delete_eq_some]
  refine and_iff_left_of_imp fun hget => ?_
  exact (eraseIdx_succ_eq_iff (List.getElem?_eq_some_iff.1 hget).1).2 (hi.trans hget.symm)

/-- A deletion one to the left has the same result exactly if it finds its element. -/
theorem act_delete_pred_iff {i : ℕ} {a : α} {l : List α} (hi : l[i + 1]? = some a) :
    act (delete i a) l = some (l.eraseIdx (i + 1)) ↔ l[i]? = some a := by
  rw [act_delete_eq_some]
  refine and_iff_left_of_imp fun hget => ?_
  exact ((eraseIdx_succ_eq_iff (List.getElem?_eq_some_iff.1 hi).1).2 (hget.trans hi.symm)).symm

end Edit
