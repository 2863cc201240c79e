import Mathlib.Data.Nat.Notation
import Mathlib.Logic.Relation
import Mathlib.Tactic.SplitIfs

/-!
# Machines with guarded steps

A machine moves by actions, each of which may be impossible in a state. `Reaches` are the
states of the runs whose every action is allowed where it is taken. An invariant of the
allowed steps holds in every state reached (`Reaches.invariant`), and a machine that can
follow every step of another can follow every run (`Reaches.simulation`). A list of actions that
can be followed leads to a state reached (`reaches_after`), a count in an invariant tells
whether its actions were all allowed (`follow_counts`), and a simulation can keep account of what
its steps emit (`follow_simulation`). If every allowed step lowers a
measure, then runs are no longer than it (`length_le_of_follow`) and can be gone on with until no
step is allowed (`exists_final`).
-/

namespace Machine

variable {σ α : Type*} (step : σ → α → Option σ) (allowed : σ → α → Prop)

/-- An allowed step. -/
def Moves (s t : σ) : Prop :=
  ∃ a, allowed s a ∧ step s a = some t

/-- `t` is reached from `s` by allowed steps. -/
abbrev Reaches : σ → σ → Prop :=
  Relation.ReflTransGen (Moves step allowed)

/-- Take the actions of a list in order, as far as each is allowed and possible. -/
def follow [∀ s a, Decidable (allowed s a)] : List α → σ → Option σ
  | [], s => some s
  | a :: as, s => if allowed s a then (step s a).bind (follow as) else none

/-- What the steps of a run emit, in order. -/
def emitted {E : Type*} (emits : σ → α → σ → List E) : List α → σ → List E
  | [], _ => []
  | a :: as, s =>
    match step s a with
    | none => []
    | some t => emits s a t ++ emitted emits as t

/-- The state after the actions of a list, if they can be followed. -/
def after [∀ s a, Decidable (allowed s a)] (as : List α) (s : σ) : σ :=
  (follow step allowed as s).getD s

variable {step allowed}

/-- What every allowed step preserves holds in every state reached. -/
theorem Reaches.invariant {I : σ → Prop}
    (hI : ∀ s a t, I s → allowed s a → step s a = some t → I t) {s t : σ} (hs : I s)
    (h : Reaches step allowed s t) : I t := by
  induction h with
  | refl => exact hs
  | tail _ hmove ih =>
    obtain ⟨a, ha, hstep⟩ := hmove
    exact hI _ a _ ih ha hstep

theorem Reaches.mono {allowed' : σ → α → Prop} (hallowed : ∀ s a, allowed s a → allowed' s a)
    {s t : σ} (h : Reaches step allowed s t) : Reaches step allowed' s t := by
  induction h with
  | refl => exact .refl
  | tail _ hmove ih =>
    obtain ⟨a, ha, hstep⟩ := hmove
    exact ih.tail ⟨a, hallowed _ a ha, hstep⟩

/-- A run whose steps are allowed in another way, as long as an invariant holds. -/
theorem Reaches.mono_of {I : σ → Prop} {allowed' : σ → α → Prop}
    (hI : ∀ s a t, I s → allowed s a → step s a = some t → allowed' s a ∧ I t) {s t : σ} (hs : I s)
    (h : Reaches step allowed s t) : Reaches step allowed' s t ∧ I t := by
  induction h with
  | refl => exact ⟨.refl, hs⟩
  | tail _ hmove ih =>
    obtain ⟨a, ha, hstep⟩ := hmove
    obtain ⟨ha', ht⟩ := hI _ a _ ih.2 ha hstep
    exact ⟨ih.1.tail ⟨a, ha', hstep⟩, ht⟩

/-- If another machine can follow every allowed step, by steps of its own, then it can follow
every run. -/
theorem Reaches.simulation {τ β : Type*} {step' : τ → β → Option τ} {allowed' : τ → β → Prop}
    {R : σ → τ → Prop} (hR : ∀ s a s' t, R s t → allowed s a → step s a = some s' →
      ∃ t', Reaches step' allowed' t t' ∧ R s' t') {s s' : σ} {t : τ} (hs : R s t)
    (h : Reaches step allowed s s') : ∃ t', Reaches step' allowed' t t' ∧ R s' t' := by
  induction h with
  | refl => exact ⟨t, .refl, hs⟩
  | tail _ hmove ih =>
    obtain ⟨t₁, ht₁, hs₁⟩ := ih
    obtain ⟨a, ha, hstep⟩ := hmove
    obtain ⟨t₂, ht₂, hs₂⟩ := hR _ a _ t₁ hs₁ ha hstep
    exact ⟨t₂, ht₁.trans ht₂, hs₂⟩

/-- If an invariant holds with a count that grows at the steps not allowed, and only there,
then a run leaves the count alone exactly if its every step is allowed. -/
theorem follow_counts [∀ s a, Decidable (allowed s a)] {I : ℕ → σ → Prop}
    (hI : ∀ n s a t, I n s → step s a = some t →
      ∃ n', I n' t ∧ n ≤ n' ∧ (n' = n ↔ allowed s a)) {t : σ} :
    ∀ (as : List α) {n : ℕ} {s : σ}, I n s → follow step (fun _ _ => True) as s = some t →
      ∃ n', I n' t ∧ n ≤ n' ∧ (n' = n ↔ follow step allowed as s = some t)
  | [], n, s, hs, h => by
    obtain rfl := Option.some.inj h
    exact ⟨n, hs, Nat.le_refl n, iff_of_true rfl rfl⟩
  | a :: as, n, s, hs, h => by
    rw [follow, if_pos trivial] at h
    obtain ⟨s', hstep, hrest⟩ := Option.bind_eq_some_iff.1 h
    obtain ⟨n', hs', hle, hallowed⟩ := hI n s a s' hs hstep
    obtain ⟨n'', ht, hle', hfollow⟩ := follow_counts hI as hs' hrest
    refine ⟨n'', ht, Nat.le_trans hle hle', ?_⟩
    rw [follow]
    split_ifs with ha
    · rw [hstep, Option.bind_some, ← hfollow, hallowed.2 ha]
    · have : n' ≠ n := fun heq => ha (hallowed.1 heq)
      refine iff_of_false ?_ (fun h => by cases h)
      omega

/-- If another machine can follow every step, by steps of its own, and a relation to it keeps
account of what the steps emit, then it can follow every run with an account of what the run
emits. -/
theorem follow_simulation {τ β E : Type*} {step' : τ → β → Option τ} {allowed' : τ → β → Prop}
    {emits : σ → α → σ → List E} {R : List E → σ → τ → Prop}
    (hR : ∀ es s a s' t, R es s t → step s a = some s' →
      ∃ t', Reaches step' allowed' t t' ∧ R (es ++ emits s a s') s' t') {s' : σ} :
    ∀ (as : List α) {es : List E} {s : σ} {t : τ}, R es s t →
      follow step (fun _ _ => True) as s = some s' →
      ∃ t', Reaches step' allowed' t t' ∧ R (es ++ emitted step emits as s) s' t'
  | [], es, s, t, hs, h => by
    obtain rfl := Option.some.inj h
    exact ⟨t, .refl, by rwa [emitted, List.append_nil]⟩
  | a :: as, es, s, t, hs, h => by
    rw [follow, if_pos trivial] at h
    obtain ⟨s₁, hstep, hrest⟩ := Option.bind_eq_some_iff.1 h
    obtain ⟨t₁, ht₁, hs₁⟩ := hR es s a s₁ t hs hstep
    obtain ⟨t₂, ht₂, hs₂⟩ := follow_simulation hR as hs₁ hrest
    refine ⟨t₂, ht₁.trans ht₂, ?_⟩
    rw [List.append_assoc] at hs₂
    simpa only [emitted, hstep] using hs₂

theorem reaches_of_follow [∀ s a, Decidable (allowed s a)] {t : σ} :
    ∀ {as : List α} {s : σ}, follow step allowed as s = some t → Reaches step allowed s t
  | [], s, h => by
    obtain rfl := Option.some.inj h
    exact .refl
  | a :: as, s, h => by
    rw [follow] at h
    split_ifs at h with ha
    obtain ⟨s', hstep, hrest⟩ := Option.bind_eq_some_iff.1 h
    exact .head ⟨a, ha, hstep⟩ (reaches_of_follow hrest)

theorem reaches_after [∀ s a, Decidable (allowed s a)] (as : List α) (s : σ) :
    Reaches step allowed s (after step allowed as s) := by
  rw [after]
  cases h : follow step allowed as s with
  | none => exact .refl
  | some t => exact reaches_of_follow h

theorem follow_eq_after [∀ s a, Decidable (allowed s a)] {as : List α} {s : σ}
    (h : (follow step allowed as s).isSome) :
    follow step allowed as s = some (after step allowed as s) := by
  rw [after, Option.getD_of_ne_none (Option.isSome_iff_ne_none.1 h)]

theorem step_eq_after {s : σ} {a : α} (h : (step s a).isSome) :
    step s a = some (after step (fun _ _ => True) [a] s) := by
  obtain ⟨t, ht⟩ := Option.isSome_iff_exists.1 h
  simp [after, follow, ht]

/-! ## Runs that end -/

section Measure

variable {I : σ → Prop} {μ : σ → ℕ}
  (hμ : ∀ s a t, I s → allowed s a → step s a = some t → I t ∧ μ t < μ s)
include hμ

/-- A run has at most as many steps as the measure has at its start. -/
theorem length_le_of_follow [∀ s a, Decidable (allowed s a)] {t : σ} :
    ∀ (as : List α) {s : σ}, I s → follow step allowed as s = some t → as.length + μ t ≤ μ s
  | [], s, _, h => by
    obtain rfl := Option.some.inj h
    simp
  | a :: as, s, hs, h => by
    rw [follow] at h
    split_ifs at h with ha
    obtain ⟨s', hstep, hrest⟩ := Option.bind_eq_some_iff.1 h
    obtain ⟨hs', hlt⟩ := hμ s a s' hs ha hstep
    have hle := length_le_of_follow as hs' hrest
    rw [List.length_cons]
    omega

/-- Every state can go on to one that allows no step. -/
theorem exists_final (s : σ) (hs : I s) :
    ∃ t, Reaches step allowed s t ∧ I t ∧ ∀ a, allowed t a → step t a = none := by
  by_cases hfinal : ∀ a, allowed s a → step s a = none
  · exact ⟨s, .refl, hs, hfinal⟩
  · obtain ⟨a, ha⟩ := Classical.not_forall.1 hfinal
    obtain ⟨ha, hstep⟩ := Classical.not_imp.1 ha
    obtain ⟨s', hstep⟩ := Option.ne_none_iff_exists'.1 hstep
    obtain ⟨hs', hlt⟩ := hμ s a s' hs ha hstep
    obtain ⟨t, hreaches, ht⟩ := exists_final s' hs'
    exact ⟨t, .head ⟨a, ha, hstep⟩ hreaches, ht⟩
termination_by μ s

end Measure

end Machine
