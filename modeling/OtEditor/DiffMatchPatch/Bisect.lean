import OtEditor.DiffMatchPatch.CleanupSemantic
import OtEditor.Lib.Triple

/-!
# The middle snake

`middleSnake` is the search of `diff_bisect_` : paths from both ends of the two texts go on by
one edit a round, each as far as possible on its diagonal, until they meet. Before every round
the clock is read, and after the deadline the search gives up. A search that finds where to
split the texts has read the clock (`meets_middleSnake`).
-/

namespace OtEditor.DiffMatchPatch

open Triple

/-! ## The clock -/

/-- A computation that may read the clock. The state is the number of readings before the
deadline. -/
abbrev Timed (α : Type) := StateT ℕ (Except Stop) α

/-- `(new Date()).getTime() > deadline`. -/
def late : Timed Bool := do
  match ← get with
  | 0 => return true
  | left + 1 =>
    set left
    return false

/-- A reading before the deadline is used up. -/
theorem meets_late {E : Stop → Prop} {Q : Bool → ℕ → Prop} {left : ℕ} (hlate : Q true 0)
    (hearly : ∀ left', left' < left → Q false left') : Meets late left E Q := by
  rcases left with _ | left
  · exact hlate
  · exact hearly left (Nat.lt_succ_self left)

/-! ## The paths -/

/-- The furthest points of the two paths by diagonal, and the diagonals that have left the
grid. -/
structure Paths where
  v1 : ℤ → ℤ
  v2 : ℤ → ℤ
  k1start : ℤ
  k1end : ℤ
  k2start : ℤ
  k2end : ℤ

/-- Where a path comes to diagonal `k` in round `d` : from the diagonal above or below. -/
def enter (v : ℤ → ℤ) (d k k_offset : ℤ) : ℤ :=
  if k = -d ∨ k ≠ d ∧ v (k_offset - 1) < v (k_offset + 1) then v (k_offset + 1)
  else v (k_offset - 1) + 1

/-- Go on along a diagonal as long as the texts are the same. -/
def slide (length1 length2 : ℕ) (same : ℤ → ℤ → Bool) (x y : ℤ) : ℤ × ℤ :=
  if x < length1 ∧ y < length2 ∧ same x y then slide length1 length2 same (x + 1) (y + 1)
  else (x, y)
termination_by (length1 - x).toNat

section Walk

variable (text1 text2 : Text)

/-- `max_d`, which is also `v_offset` and half of `v_length`. -/
def maxD : ℕ :=
  (text1.length + text2.length + 1) / 2

/-- `delta`. If it is odd, the front path collides with the reverse path. -/
def delta : ℤ :=
  text1.length - text2.length

/-- The front path on one diagonal. Where it overlaps the reverse path it is the point to split
the texts at. -/
def frontStep (d k1 : ℤ) (paths : Paths) : Except (ℤ × ℤ) Paths :=
  let k1_offset := maxD text1 text2 + k1
  let start := enter paths.v1 d k1 k1_offset
  let (x1, y1) := slide text1.length text2.length
    (fun x y => charAt text1 x = charAt text2 y) start (start - k1)
  let paths := { paths with v1 := Function.update paths.v1 k1_offset x1 }
  if x1 > text1.length then
    -- ran off the right of the graph
    .ok { paths with k1end := paths.k1end + 2 }
  else if y1 > text2.length then
    -- ran off the bottom of the graph
    .ok { paths with k1start := paths.k1start + 2 }
  else
    let k2_offset := maxD text1 text2 + delta text1 text2 - k1
    if delta text1 text2 % 2 ≠ 0 ∧ k2_offset ≥ 0 ∧ k2_offset < 2 * maxD text1 text2 ∧
        paths.v2 k2_offset ≠ -1 ∧ x1 ≥ text1.length - paths.v2 k2_offset then .error (x1, y1)
    else .ok paths

/-- The reverse path on one diagonal. The point to split the texts at is on the front path. -/
def reverseStep (d k2 : ℤ) (paths : Paths) : Except (ℤ × ℤ) Paths :=
  let k2_offset := maxD text1 text2 + k2
  let start := enter paths.v2 d k2 k2_offset
  let (x2, y2) := slide text1.length text2.length
    (fun x y => charAt text1 (text1.length - x - 1) = charAt text2 (text2.length - y - 1))
    start (start - k2)
  let paths := { paths with v2 := Function.update paths.v2 k2_offset x2 }
  if x2 > text1.length then
    -- ran off the left of the graph
    .ok { paths with k2end := paths.k2end + 2 }
  else if y2 > text2.length then
    -- ran off the top of the graph
    .ok { paths with k2start := paths.k2start + 2 }
  else
    let k1_offset := maxD text1 text2 + delta text1 text2 - k2
    let x1 := paths.v1 k1_offset
    if delta text1 text2 % 2 = 0 ∧ k1_offset ≥ 0 ∧ k1_offset < 2 * maxD text1 text2 ∧
        x1 ≠ -1 ∧ x1 ≥ text1.length - x2 then .error (x1, maxD text1 text2 + x1 - k1_offset)
    else .ok paths

/-- Diagonals leave the grid, and do not come back. -/
theorem le_of_frontStep {d k1 : ℤ} {paths paths' : Paths}
    (h : frontStep text1 text2 d k1 paths = .ok paths') : paths.k1end ≤ paths'.k1end := by
  simp only [frontStep] at h
  split_ifs at h <;> obtain rfl := Except.ok.inj h
  · exact Int.le_add_of_nonneg_right (by decide)
  · exact le_rfl
  · exact le_rfl

theorem le_of_reverseStep {d k2 : ℤ} {paths paths' : Paths}
    (h : reverseStep text1 text2 d k2 paths = .ok paths') : paths.k2end ≤ paths'.k2end := by
  simp only [reverseStep] at h
  split_ifs at h <;> obtain rfl := Except.ok.inj h
  · exact Int.le_add_of_nonneg_right (by decide)
  · exact le_rfl
  · exact le_rfl

/-- Walk the front path one step. -/
def walkFront (d k1 : ℤ) (paths : Paths) : Except (ℤ × ℤ) Paths :=
  if k1 ≤ d - paths.k1end then
    match h : frontStep text1 text2 d k1 paths with
    | .error split => .error split
    | .ok paths' =>
      have := le_of_frontStep text1 text2 h
      walkFront d (k1 + 2) paths'
  else .ok paths
termination_by (d + 1 - paths.k1end - k1).toNat

/-- Walk the reverse path one step. -/
def walkReverse (d k2 : ℤ) (paths : Paths) : Except (ℤ × ℤ) Paths :=
  if k2 ≤ d - paths.k2end then
    match h : reverseStep text1 text2 d k2 paths with
    | .error split => .error split
    | .ok paths' =>
      have := le_of_reverseStep text1 text2 h
      walkReverse d (k2 + 2) paths'
  else .ok paths
termination_by (d + 1 - paths.k2end - k2).toNat

/-- The rounds of `diff_bisect_`, from round `d`. -/
def bisectRounds : (rounds : ℕ) → (d : ℤ) → Paths → Timed (Option (ℤ × ℤ))
  | 0, _, _ => return none
  | rounds + 1, d, paths => do
    -- bail out if the deadline is reached
    if ← late then
      return none
    match walkFront text1 text2 d (-d + paths.k1start) paths with
    | .error split => return some split
    | .ok paths =>
      match walkReverse text1 text2 d (-d + paths.k2start) paths with
      | .error split => return some split
      | .ok paths => bisectRounds rounds (d + 1) paths

/-- The point at which `diff_bisect_` splits the texts, if it does. -/
def middleSnake : Timed (Option (ℤ × ℤ)) :=
  let v := Function.update (fun _ => -1) (maxD text1 text2 + 1 : ℤ) 0
  bisectRounds text1 text2 (maxD text1 text2) 0 ⟨v, v, 0, 0, 0, 0⟩

theorem meets_bisectRounds {E : Stop → Prop} : ∀ (rounds : ℕ) {d : ℤ} {paths : Paths} {left : ℕ},
    Meets (bisectRounds text1 text2 rounds d paths) left E
      fun split left' => left' ≤ left ∧ (split.isSome → left' < left)
  | 0, _, _, left => meets_pure ⟨le_rfl, fun h => by cases h⟩
  | rounds + 1, d, paths, left => by
    unfold bisectRounds
    refine (meets_late (Q := fun isLate left' => left' ≤ left ∧ (isLate = false → left' < left))
      ⟨Nat.zero_le _, fun h => by cases h⟩ fun left' hlt => ⟨hlt.le, fun _ => hlt⟩).bind ?_
    rintro (_ | _) left' ⟨hle, hlt⟩
    · have hlt := hlt rfl
      simp only [Bool.false_eq_true, if_false]
      split
      · exact meets_pure ⟨hle, fun _ => hlt⟩
      · split
        · exact meets_pure ⟨hle, fun _ => hlt⟩
        · exact (meets_bisectRounds rounds).mono (fun _ => id) fun split left'' h =>
            ⟨h.1.trans hle, fun hsome => (h.2 hsome).trans hlt⟩
    · exact meets_pure ⟨hle, fun h => by cases h⟩

/-- The search ends, and has used up a reading of the clock if it finds a point. -/
theorem meets_middleSnake (E : Stop → Prop) (left : ℕ) :
    Meets (middleSnake text1 text2) left E
      fun split left' => left' ≤ left ∧ (split.isSome → left' < left) :=
  meets_bisectRounds text1 text2 (maxD text1 text2)

end Walk

end OtEditor.DiffMatchPatch
