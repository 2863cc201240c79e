import OtEditor.Lib.SequenceEdit

/-!
# Where the elements of an edited sequence come from

`track l` numbers the elements of a sequence, and `Edit.trackAct` edits the numbered
sequence : an inserted element has no number, every other element keeps its own. Dropping
the numbers gives the edited sequence back (`map_snd_trackAll`).

An edit carried past a history acts on the occurrence it was made for. A deletion carried
past a history deletes the element with the same number, and is `skip` if the history
deleted that element (`delete_carry`). An insertion carried past a history splits the
surviving numbers where it split them before (`insert_carry`).
-/

set_option linter.unusedSectionVars false

open Transformation

/-- A sequence whose elements remember their index in an earlier sequence. -/
abbrev Tracked (α : Type*) := List (Option ℕ × α)

/-- Every element numbered with its own index. -/
def track {α : Type*} (l : List α) : Tracked α :=
  l.mapIdx fun k a => (some k, a)

namespace Edit

variable {α : Type*} [DecidableEq α]

/-- Edit a tracked sequence. An inserted element is new. -/
def trackAct : Edit α → Tracked α → Tracked α
  | insert i a, t => t.insertIdx i (none, a)
  | delete i _, t => t.eraseIdx i
  | skip, t => t

/-- Edit a tracked sequence with the edits of a history in order. -/
def trackAll (h : List (Edit α)) (t : Tracked α) : Tracked α :=
  h.foldl (fun t e => e.trackAct t) t

theorem map_snd_trackAct {e : Edit α} {t : Tracked α} {l : List α}
    (h : act e (t.map Prod.snd) = some l) : (e.trackAct t).map Prod.snd = l := by
  cases e with
  | insert i a =>
    obtain ⟨-, rfl⟩ := act_insert_eq_some.1 h
    exact List.map_insertIdx Prod.snd t i (none, a)
  | delete i a =>
    obtain ⟨-, rfl⟩ := act_delete_eq_some.1 h
    exact (List.eraseIdx_map Prod.snd t i).symm
  | skip => exact Option.some.inj h

/-- The tracked sequence is the edited sequence with numbers. -/
theorem map_snd_trackAll {l : List α} : ∀ (h : List (Edit α)) (t : Tracked α),
    actAll act h (t.map Prod.snd) = some l → (trackAll h t).map Prod.snd = l
  | [], _, hrun => Option.some.inj hrun
  | e :: h, t, hrun => by
    obtain ⟨l₁, he, hrest⟩ := Option.bind_eq_some_iff.1 hrun
    exact map_snd_trackAll h (e.trackAct t) (by rwa [map_snd_trackAct he])

/-! ## One edit -/

/-- The element at `i` is the one that was at `k`. -/
def Origin (t : Tracked α) (i k : ℕ) : Prop :=
  ∃ a, t[i]? = some (some k, a)

/-- No earlier element occurs twice. -/
def Unique (t : Tracked α) : Prop :=
  ∀ i j k, Origin t i k → Origin t j k → i = j

/-- The elements before `i` are those that were before `k`. -/
def Splits (t : Tracked α) (i k : ℕ) : Prop :=
  ∀ j m, Origin t j m → (j < i ↔ m < k)

theorem origin_insert {t : Tracked α} {i j k : ℕ} {a : α} :
    Origin (trackAct (insert i a) t) j k ↔
      (j < i ∧ Origin t j k) ∨ (i < j ∧ Origin t (j - 1) k) := by
  simp only [Origin, trackAct, List.getElem?_insertIdx]
  rcases Nat.lt_trichotomy j i with hji | rfl | hij
  · simp [hji, Nat.lt_asymm hji]
  · simp
  · simp [hij, Nat.lt_asymm hij, Nat.ne_of_gt hij]

theorem origin_delete {t : Tracked α} {i j k : ℕ} {a : α} :
    Origin (trackAct (delete i a) t) j k ↔
      (j < i ∧ Origin t j k) ∨ (i ≤ j ∧ Origin t (j + 1) k) := by
  simp only [Origin, trackAct, List.getElem?_eraseIdx]
  by_cases hji : j < i
  · simp [hji]
  · simp [hji, Nat.le_of_not_lt hji]

theorem unique_trackAct {t : Tracked α} (hu : Unique t) (e : Edit α) :
    Unique (e.trackAct t) := by
  intro i j k hi hj
  cases e with
  | insert p a =>
    rcases origin_insert.1 hi with ⟨_, h₁⟩ | ⟨_, h₁⟩ <;>
      rcases origin_insert.1 hj with ⟨_, h₂⟩ | ⟨_, h₂⟩ <;>
      have := hu _ _ _ h₁ h₂ <;> omega
  | delete p a =>
    rcases origin_delete.1 hi with ⟨_, h₁⟩ | ⟨_, h₁⟩ <;>
      rcases origin_delete.1 hj with ⟨_, h₂⟩ | ⟨_, h₂⟩ <;>
      have := hu _ _ _ h₁ h₂ <;> omega
  | skip => exact hu i j k hi hj

/-- A deleted or missing element does not come back. -/
theorem not_origin_trackAct {t : Tracked α} {k : ℕ} (h : ∀ i, ¬Origin t i k) (e : Edit α)
    (i : ℕ) : ¬Origin (e.trackAct t) i k := by
  cases e with
  | insert p a => rw [origin_insert]; simp [h]
  | delete p a => rw [origin_delete]; simp [h]
  | skip => exact h i

/-- Transformed against `e`, an insertion splits the numbers where it did before `e`. -/
theorem splits_against {t : Tracked α} {i j k : ℕ} {a : α} {e : Edit α} (hs : Splits t i k)
    (hj : (insert i a).against e = insert j a) : Splits (e.trackAct t) j k := by
  intro p m hp
  cases e with
  | insert q b =>
    simp only [against] at hj
    split_ifs at hj <;> obtain ⟨rfl, -⟩ := insert.inj hj <;>
      rcases origin_insert.1 hp with ⟨_, h⟩ | ⟨_, h⟩ <;>
      rw [← hs _ _ h] <;> omega
  | delete q b =>
    simp only [against] at hj
    split_ifs at hj <;> obtain ⟨rfl, -⟩ := insert.inj hj <;>
      rcases origin_delete.1 hp with ⟨_, h⟩ | ⟨_, h⟩ <;>
      rw [← hs _ _ h] <;> omega
  | skip =>
    obtain ⟨rfl, -⟩ := insert.inj hj
    exact hs p m hp

/-- Transformed against `e`, a deletion deletes the element it deleted before `e`. -/
theorem origin_against {t : Tracked α} {i j k : ℕ} {a : α} {e : Edit α} (ho : Origin t i k)
    (hj : (delete i a).against e = delete j a) : Origin (e.trackAct t) j k := by
  cases e with
  | insert q b =>
    simp only [against] at hj
    split_ifs at hj <;> obtain ⟨rfl, -⟩ := delete.inj hj <;> rw [origin_insert]
    · exact Or.inl ⟨‹_›, ho⟩
    · exact Or.inr ⟨by omega, by simpa using ho⟩
  | delete q b =>
    simp only [against] at hj
    split_ifs at hj <;> obtain ⟨rfl, -⟩ := delete.inj hj <;> rw [origin_delete]
    · exact Or.inl ⟨‹_›, ho⟩
    · exact Or.inr ⟨by omega, by rwa [Nat.sub_add_cancel (by omega)]⟩
  | skip =>
    obtain ⟨rfl, -⟩ := delete.inj hj
    exact ho

/-- A deletion removes the element it deletes. -/
theorem not_origin_delete {t : Tracked α} {i k : ℕ} {a : α} (hu : Unique t)
    (ho : Origin t i k) (j : ℕ) : ¬Origin (trackAct (delete i a) t) j k := by
  intro h
  rcases origin_delete.1 h with ⟨_, h⟩ | ⟨_, h⟩ <;> have := hu _ _ _ ho h <;> omega

/-! ## A history -/

theorem not_origin_trackAll {k : ℕ} : ∀ (h : List (Edit α)) (t : Tracked α),
    (∀ i, ¬Origin t i k) → ∀ i, ¬Origin (trackAll h t) i k
  | [], _, ht => ht
  | e :: h, t, ht => not_origin_trackAll h (e.trackAct t) (not_origin_trackAct ht e)

@[simp] theorem carry_skip (h : List (Edit α)) : carry against skip h = skip := by
  induction h with
  | nil => rfl
  | cons e h ih => exact ih

/-- An insertion carried past a history splits the surviving elements where it did before. -/
theorem insert_carry {k : ℕ} {a : α} {l : List α} : ∀ (h : List (Edit α)) (t : Tracked α)
    (i : ℕ), actAll act h (t.map Prod.snd) = some l → i ≤ t.length → Splits t i k →
    ∃ j, carry against (insert i a) h = insert j a ∧ j ≤ l.length ∧ Splits (trackAll h t) j k
  | [], t, i, hrun, hi, hs => by
    obtain rfl := Option.some.inj hrun
    exact ⟨i, rfl, by simpa using hi, hs⟩
  | e :: h, t, i, hrun, hi, hs => by
    obtain ⟨l₁, he, hrest⟩ := Option.bind_eq_some_iff.1 hrun
    have hl₁ := map_snd_trackAct he
    obtain ⟨j, hj, hle⟩ := act_insert_against (a := a) (by simpa using hi) he
    rw [carry_cons, hj]
    refine insert_carry h (e.trackAct t) j (by rwa [hl₁]) ?_ (splits_against hs hj)
    rwa [← hl₁, List.length_map] at hle

/-- A deletion carried past a history deletes the same element, if it is still there. -/
theorem delete_carry {k : ℕ} {a : α} {l : List α} : ∀ (h : List (Edit α)) (t : Tracked α)
    (i : ℕ), actAll act h (t.map Prod.snd) = some l → Unique t →
    t[i]? = some (some k, a) →
    (∃ j, carry against (delete i a) h = delete j a ∧
      (trackAll h t)[j]? = some (some k, a)) ∨
    (carry against (delete i a) h = skip ∧ ∀ j, ¬Origin (trackAll h t) j k)
  | [], t, i, _, _, hi => Or.inl ⟨i, rfl, hi⟩
  | e :: h, t, i, hrun, hu, hi => by
    obtain ⟨l₁, he, hrest⟩ := Option.bind_eq_some_iff.1 hrun
    have hl₁ := map_snd_trackAct he
    have hsnd : (t.map Prod.snd)[i]? = some a := by simp [hi]
    rw [carry_cons]
    obtain ⟨j, hj, hget⟩ | ⟨rfl, hskip⟩ := getElem?_delete_against hsnd he
    · obtain ⟨b, hb⟩ := origin_against ⟨a, hi⟩ hj
      obtain rfl : b = a := by simpa [← hl₁, hb] using hget
      rw [hj]
      exact delete_carry h (e.trackAct t) j (by rwa [hl₁]) (unique_trackAct hu e) hb
    · rw [hskip, carry_skip]
      exact Or.inr ⟨rfl, not_origin_trackAll h _ (not_origin_delete hu ⟨a, hi⟩)⟩

/-! ## From the start -/

theorem getElem?_track (l : List α) (k : ℕ) :
    (track l)[k]? = l[k]?.map fun a => (some k, a) := by
  simp [track]

@[simp] theorem map_snd_track (l : List α) : (track l).map Prod.snd = l := by
  refine List.ext_getElem? fun k => ?_
  simp [getElem?_track, Function.comp_def]

theorem origin_track {l : List α} {j k : ℕ} : Origin (track l) j k ↔ j = k ∧ k < l.length := by
  simp only [Origin, getElem?_track]
  constructor
  · rintro ⟨a, h⟩
    obtain ⟨b, hb, heq⟩ := Option.map_eq_some_iff.1 h
    obtain rfl : j = k := by simpa using congrArg Prod.fst heq
    exact ⟨rfl, (List.getElem?_eq_some_iff.1 hb).1⟩
  · rintro ⟨rfl, hlt⟩
    exact ⟨l[j], by simp [hlt]⟩

theorem unique_track (l : List α) : Unique (track l) := by
  intro i j k hi hj
  exact (origin_track.1 hi).1.trans (origin_track.1 hj).1.symm

theorem splits_track (l : List α) (i : ℕ) : Splits (track l) i i := by
  intro j m h
  rw [(origin_track.1 h).1]

end Edit
