import Mathlib.Data.Nat.Notation
import Mathlib.Tactic.SplitIfs

/-!
# The end of an agreement, by bisection

Two sequences agree up to some length and no further. `search` finds the length by testing
parts : a part that agrees is kept, and one that does not is halved. It asks `agree a b` only
where everything before `a` agrees, so it may compare no more than the part from `a` to `b`.
-/

namespace Bisection

/-- What is left to search, as one number : the width counts before the length of the part
tested. -/
def range (lo hi mid : ℕ) : ℕ :=
  (max hi mid - lo) * (max hi mid - lo + 1) + (mid - lo)

theorem range_lt_of_agree {lo hi mid : ℕ} (hlt : lo < mid) :
    range mid hi ((hi - mid) / 2 + mid) < range lo hi mid := by
  have hless : max hi ((hi - mid) / 2 + mid) - mid + 1 ≤ max hi mid - lo := by omega
  have hmul := Nat.mul_le_mul hless (Nat.le_add_right_of_le (k := 1) hless)
  rw [Nat.add_mul, Nat.one_mul] at hmul
  simp only [range]
  omega

theorem range_lt_of_not_agree {lo hi mid : ℕ} (hlt : lo < mid) :
    range lo mid ((mid - lo) / 2 + lo) < range lo hi mid := by
  have hless : max mid ((mid - lo) / 2 + lo) - lo ≤ max hi mid - lo := by omega
  have hmul := Nat.mul_le_mul hless (Nat.add_le_add_right hless 1)
  simp only [range]
  omega

/-- Look for the end between `lo`, up to which there is agreement, and `hi`. The next part
tested ends at `mid`. -/
def search (agree : ℕ → ℕ → Bool) (lo hi mid : ℕ) : ℕ :=
  if lo < mid then
    if agree lo mid then search agree mid hi ((hi - mid) / 2 + mid)
    else search agree lo mid ((mid - lo) / 2 + lo)
  else mid
termination_by range lo hi mid
decreasing_by
  · exact range_lt_of_agree ‹_›
  · exact range_lt_of_not_agree ‹_›

variable {agree : ℕ → ℕ → Bool} {holds : ℕ → Prop} {top : ℕ}
  (hdown : ∀ a b, a ≤ b → holds b → holds a)
  (hagree : ∀ a b, a ≤ b → b ≤ top → holds a → (agree a b = true ↔ holds b))
include hdown hagree

/-- The search keeps agreement up to `lo` and none beyond `hi`, and halves the range unless it
has yet to test the whole. -/
theorem search_spec {lo hi mid : ℕ} (hlo : holds lo) (hle : lo ≤ mid) (hmid : mid ≤ hi)
    (htop : hi ≤ top) (hborder : ∀ n, n ≤ top → holds n → n ≤ hi)
    (hhalf : mid = hi ∨ ¬holds hi ∧ mid = (hi - lo) / 2 + lo) :
    search agree lo hi mid ≤ top ∧ holds (search agree lo hi mid) ∧
      ∀ n, n ≤ top → holds n → n ≤ search agree lo hi mid := by
  rw [search]
  split_ifs with hlt hsame
  · have hholds := (hagree lo mid hle (Nat.le_trans hmid htop) hlo).1 hsame
    refine search_spec hholds (by omega) (by omega) htop hborder ?_
    rcases hhalf with rfl | ⟨hhi, -⟩
    · exact .inl (by omega)
    · exact .inr ⟨hhi, rfl⟩
  · have hholds : ¬holds mid := fun h =>
      hsame ((hagree lo mid hle (Nat.le_trans hmid htop) hlo).2 h)
    refine search_spec hlo (by omega) (by omega) (Nat.le_trans hmid htop) (fun n _ hn => ?_)
      (.inr ⟨hholds, rfl⟩)
    exact Nat.le_of_not_lt fun hlarge => hholds (hdown mid n (Nat.le_of_lt hlarge) hn)
  · obtain rfl : lo = mid := by omega
    refine ⟨Nat.le_trans hmid htop, hlo, fun n hn hholds => ?_⟩
    have hborder := hborder n hn hholds
    rcases hhalf with rfl | ⟨hhi, hhalf⟩
    · exact hborder
    · have : n ≠ hi := fun h => hhi (h ▸ hholds)
      omega
termination_by range lo hi mid
decreasing_by
  · exact range_lt_of_agree ‹_›
  · exact range_lt_of_not_agree ‹_›

/-- From the whole, the search finds the greatest length up to which there is agreement. -/
theorem search_top (hzero : holds 0) : search agree 0 top top ≤ top ∧
    holds (search agree 0 top top) ∧
      ∀ n, n ≤ top → holds n → n ≤ search agree 0 top top :=
  search_spec hdown hagree hzero (Nat.zero_le _) (Nat.le_refl _) (Nat.le_refl _)
    (fun _ hn _ => hn) (.inl rfl)

end Bisection
