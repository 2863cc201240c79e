import Mathlib.Init

/-!
# Computations with a state and errors

`Meets m s E Q` : started in the state `s`, the computation `m` either stops with an error of
`E`, or returns a value and a state of `Q`. The rules follow the ways to build a computation :
`meets_pure`, `Meets.bind`, and `meets_foldlM` for a loop over a list, whose invariant also speaks
of the elements that are still to come.
-/

namespace Triple

variable {σ ε α β : Type} {m : StateT σ (Except ε) α} {s : σ} {E E' : ε → Prop}
  {Q R : α → σ → Prop}

/-- The computation stops with an error of `E`, or returns with `Q`. -/
def Meets (m : StateT σ (Except ε) α) (s : σ) (E : ε → Prop) (Q : α → σ → Prop) : Prop :=
  match m.run s with
  | .ok (a, s') => Q a s'
  | .error e => E e

theorem meets_pure {a : α} (h : Q a s) : Meets (pure a) s E Q :=
  h

theorem meets_true (m : StateT σ (Except ε) α) (s : σ) :
    Meets m s (fun _ => True) fun _ _ => True := by
  unfold Meets
  split <;> trivial

theorem Meets.mono (h : Meets m s E R) (hE : ∀ e, E e → E' e) (hQ : ∀ a s', R a s' → Q a s') :
    Meets m s E' Q := by
  unfold Meets at *
  split at h
  · exact hQ _ _ h
  · exact hE _ h

/-- A sequence : what the first part leaves is what the second starts from. -/
theorem Meets.bind {f : α → StateT σ (Except ε) β} {Q : β → σ → Prop} (h : Meets m s E R)
    (hf : ∀ a s', R a s' → Meets (f a) s' E Q) : Meets (m >>= f) s E Q := by
  unfold Meets at *
  rw [StateT.run_bind]
  split at h
  · rename_i a s' hrun
    rw [hrun]
    exact hf a s' h
  · rename_i e hrun
    rw [hrun]
    exact h

/-- A computation without state is replaced by its result. -/
theorem Meets.bind_ok {r : Except ε α} {a : α} (hr : r = .ok a)
    {f : α → StateT σ (Except ε) β} {Q : β → σ → Prop} (h : Meets (f a) s E Q) :
    Meets (liftM r >>= f) s E Q := by
  subst hr
  exact h

theorem Meets.bind_error {r : Except ε α} {e : ε} (hr : r = .error e)
    {f : α → StateT σ (Except ε) β} {Q : β → σ → Prop} (h : E e) :
    Meets (liftM r >>= f) s E Q := by
  subst hr
  exact h

/-- A loop over a list, with an invariant of the elements to come, the result so far and the
state. -/
theorem meets_foldlM {f : β → α → StateT σ (Except ε) β} {inv : List α → β → σ → Prop}
    (hstep : ∀ a rest b s, inv (a :: rest) b s → Meets (f b a) s E (inv rest)) :
    ∀ (l : List α) {b : β} {s : σ}, inv l b s → Meets (l.foldlM f b) s E (inv [])
  | [], _, _, h => meets_pure h
  | a :: rest, b, s, h => by
    rw [List.foldlM_cons]
    exact (hstep a rest b s h).bind fun _ _ h' => meets_foldlM hstep rest h'

/-- The two ways to end. -/
theorem Meets.cases (h : Meets m s E Q) :
    (∃ e, m.run s = .error e ∧ E e) ∨ ∃ a s', m.run s = .ok (a, s') ∧ Q a s' := by
  unfold Meets at h
  split at h
  · exact .inr ⟨_, _, ‹_›, h⟩
  · exact .inl ⟨_, ‹_›, h⟩

end Triple
