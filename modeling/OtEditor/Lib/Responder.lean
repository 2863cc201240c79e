import Mathlib.Data.List.Induction

/-!
# Machines that answer requests

A responder answers a request and moves to a new state. `run` answers a list of requests
in order and keeps each request with its answer.

What every answer preserves holds after every run (`invariant_run`), and what the answers of
one run preserve holds after each prefix of it (`invariant_run_prefix`). `run_unwinding` is
noninterference : if invisible requests leave the view
alone, and visible ones are answered and change the view as a function of the view, two
runs with the same visible requests give the same visible answers and end in the same view.
-/

namespace Responder

variable {σ α β ν : Type*} (respond : α → σ → β × σ)

/-- Answer the requests of a list in order. -/
def run : List α → σ → List (α × β) × σ
  | [], s => ([], s)
  | a :: as, s => ((a, (respond a s).1) :: (run as (respond a s).2).1, (run as (respond a s).2).2)

@[simp] theorem run_nil (s : σ) : run respond [] s = ([], s) :=
  rfl

theorem run_cons_fst (a : α) (as : List α) (s : σ) : (run respond (a :: as) s).1 =
    (a, (respond a s).1) :: (run respond as (respond a s).2).1 :=
  rfl

@[simp] theorem run_cons_snd (a : α) (as : List α) (s : σ) :
    (run respond (a :: as) s).2 = (run respond as (respond a s).2).2 :=
  rfl

theorem run_append_snd : ∀ (as bs : List α) (s : σ),
    (run respond (as ++ bs) s).2 = (run respond bs (run respond as s).2).2
  | [], _, _ => rfl
  | a :: as, bs, s => run_append_snd as bs (respond a s).2

variable {respond}

/-- An invariant of every answer is an invariant of every run. -/
theorem invariant_run {I : σ → Prop} (hI : ∀ a s, I s → I (respond a s).2) :
    ∀ (as : List α) {s : σ}, I s → I (run respond as s).2
  | [], _, hs => hs
  | a :: as, s, hs => invariant_run hI as (hI a s hs)

/-- What every answer of one run preserves holds after each prefix of it. -/
theorem invariant_run_prefix {I : σ → Prop} {as : List α} {s : σ}
    (hI : ∀ before a after, as = before ++ a :: after → I (run respond before s).2 →
      I (respond a (run respond before s).2).2) (hs : I s) :
    ∀ before, before <+: as → I (run respond before s).2 := by
  intro before
  induction before using List.reverseRecOn with
  | nil => exact fun _ => hs
  | append_singleton before a ih =>
    rintro ⟨after, rfl⟩
    rw [run_append_snd]
    exact hI before a after (by simp) (ih ⟨a :: after, by simp⟩)

section Unwinding

variable {I : σ → Prop} {visible : α → Prop} [DecidablePred visible] {view : σ → ν}

/-- The visible requests of a run with their answers. -/
def visibleAnswers (visible : α → Prop) [DecidablePred visible] (answers : List (α × β)) :
    List (α × β) :=
  answers.filter fun answer => visible answer.1

/-- A run looks like the run of its visible requests alone. -/
theorem run_purge (hI : ∀ a s, I s → I (respond a s).2)
    (hinvisible : ∀ a s, I s → ¬visible a → view (respond a s).2 = view s)
    (hvisible : ∀ a s t, I s → I t → visible a → view s = view t →
      (respond a s).1 = (respond a t).1 ∧ view (respond a s).2 = view (respond a t).2) :
    ∀ (as : List α) (s t : σ), I s → I t → view s = view t →
      visibleAnswers visible (run respond as s).1 =
          (run respond (as.filter fun a => visible a) t).1 ∧
        view (run respond as s).2 = view (run respond (as.filter fun a => visible a) t).2
  | [], _, _, _, _, hst => ⟨rfl, hst⟩
  | a :: as, s, t, hs, ht, hst => by
    by_cases ha : visible a
    · obtain ⟨hanswer, hview⟩ := hvisible a s t hs ht ha hst
      obtain ⟨hrest, hend⟩ := run_purge hI hinvisible hvisible as _ _ (hI a s hs) (hI a t ht) hview
      simp only [visibleAnswers] at hrest
      simp [visibleAnswers, run_cons_fst, ha, hanswer, hrest, hend]
    · have hview := (hinvisible a s hs ha).trans hst
      obtain ⟨hrest, hend⟩ := run_purge hI hinvisible hvisible as _ _ (hI a s hs) ht hview
      simp only [visibleAnswers] at hrest
      simp [visibleAnswers, run_cons_fst, ha, hrest, hend]

/-- Two runs with the same visible requests give the same visible answers and end in the
same view. -/
theorem run_unwinding (hI : ∀ a s, I s → I (respond a s).2)
    (hinvisible : ∀ a s, I s → ¬visible a → view (respond a s).2 = view s)
    (hvisible : ∀ a s t, I s → I t → visible a → view s = view t →
      (respond a s).1 = (respond a t).1 ∧ view (respond a s).2 = view (respond a t).2)
    {as bs : List α} {s t : σ} (hs : I s) (ht : I t) (hst : view s = view t)
    (hrequests : (as.filter fun a => visible a) = bs.filter fun a => visible a) :
    visibleAnswers visible (run respond as s).1 =
        visibleAnswers visible (run respond bs t).1 ∧
      view (run respond as s).2 = view (run respond bs t).2 := by
  obtain ⟨has, hends⟩ := run_purge hI hinvisible hvisible as s t hs ht hst
  obtain ⟨hbs, hendt⟩ := run_purge hI hinvisible hvisible bs t t ht ht rfl
  rw [has, hbs, hends, hendt, hrequests]
  exact ⟨rfl, rfl⟩

end Unwinding

end Responder
