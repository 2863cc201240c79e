import OtEditor.Lib.Link

/-!
# Replicas of a content

Whoever keeps the log performs its entries on a content `doc`. An author performs its own
operations and the entries it takes on a replica `text`. The two meet at the content the
author has seen (`Replicates`) : from there the unseen entries lead to `doc`, and the queue
leads to `text`.

With a guarded transformation the replicas stay together through every step of the link,
and no operation fails : what arrives is valid where it is performed (`valid_flight`,
`valid_next`). Only when an entry is taken past the queue is there a condition : the entry
does not clash with the queue on its way, and the queue is adjusted as `rebase` does
(`Replicates.take`). Once everything is seen and confirmed the replicas are equal
(`Replicates.eq_of_quiet`).
-/

set_option linter.unusedSectionVars false

open Transformation

namespace Link

variable {T O ν : Type*} [DecidableEq ν] (act : O → T → Option T)

/-- From the content the author has seen, the unseen entries lead to `doc` and the queue to
`text`. -/
def Replicates (start doc text : T) (l : Link O ν) : Prop :=
  ∃ base, actAll act (l.log.take l.seen) start = some base ∧
    actAll act l.unseen base = some doc ∧ actAll act l.queue base = some text

variable {act} {tr : O → O → O} {name : O → ν} {valid : T → O → Prop} {clash : O → O → Prop}
  {size : T → ℕ} {limit : ℕ} {l : Link O ν} {start doc text : T}

theorem actAll_concat {ps : List O} {p : O} {c c₁ c₂ : T} (hps : actAll act ps c = some c₁)
    (hp : act p c₁ = some c₂) : actAll act (ps ++ [p]) c = some c₂ := by
  rw [actAll_append, hps, Option.bind_some, actAll_cons, hp]
  rfl

namespace Replicates

variable (h : l.Replicates act start doc text)
include h

/-- When everything is seen and confirmed the replicas are equal. -/
theorem eq_of_quiet (hunseen : l.unseen = []) (hqueue : l.queue = []) : text = doc := by
  obtain ⟨base, -, hdoc, htext⟩ := h
  rw [hunseen] at hdoc
  rw [hqueue] at htext
  exact Option.some.inj (htext.symm.trans hdoc)

/-- The author performs an operation it makes. -/
theorem make {o : O} {text' : T} (ho : act o text = some text') {l' : Link O ν}
    (hlog : l'.log = l.log) (hseen : l'.seen = l.seen) (hqueue : l'.queue = l.queue ++ [o]) :
    l'.Replicates act start doc text' := by
  obtain ⟨base, hbase, hdoc, htext⟩ := h
  refine ⟨base, ?_, ?_, ?_⟩
  · rwa [hlog, hseen]
  · rwa [unseen, hlog, hseen]
  · rw [hqueue]
    exact actAll_concat htext ho

/-- An entry is performed when it is recorded. -/
theorem append {x : O} {doc' : T} (hx : act x doc = some doc') (hle : l.seen ≤ l.log.length)
    {l' : Link O ν} (hlog : l'.log = l.log ++ [x]) (hseen : l'.seen = l.seen)
    (hqueue : l'.queue = l.queue) : l'.Replicates act start doc' text := by
  obtain ⟨base, hbase, hdoc, htext⟩ := h
  refine ⟨base, ?_, ?_, ?_⟩
  · rwa [hlog, hseen, List.take_append_of_le_length hle]
  · rw [unseen, hlog, hseen, List.drop_append_of_le_length hle]
    exact actAll_concat hdoc hx
  · rwa [hqueue]

/-- A confirmed operation moves from the queue to what is seen. -/
theorem confirm {p : O} {ps : List O} (next : l.log[l.seen]? = some p) (queue : l.queue = p :: ps)
    {l' : Link O ν} (hlog : l'.log = l.log) (hseen : l'.seen = l.seen + 1)
    (hqueue : l'.queue = ps) :
    l'.Replicates act start doc text := by
  obtain ⟨base, hbase, hdoc, htext⟩ := h
  rw [unseen_of_next next] at hdoc
  rw [queue] at htext
  obtain ⟨base', hp, hps⟩ := Option.bind_eq_some_iff.1 htext
  rw [actAll_cons, hp, Option.bind_some] at hdoc
  refine ⟨base', ?_, ?_, ?_⟩
  · rw [hlog, hseen, take_succ next]
    exact actAll_concat hbase hp
  · rwa [unseen, hlog, hseen]
  · rwa [hqueue]

section Guarded

variable (G : Guarded act tr valid clash size limit)
include G

/-- What is on its way is valid where it will be recorded. -/
theorem valid_flight (hinv : l.Inv name tr) {o : O} {k : ℕ} {rest : List (O × ℕ)}
    (sent : l.flight = (o, k) :: rest) : valid doc (carry tr o (l.log.drop k)) := by
  obtain ⟨base, -, hdoc, htext⟩ := h
  obtain ⟨-, hk, -, p, ps, queue, head⟩ := hinv.of_flight sent
  rw [queue] at htext
  obtain ⟨_, hp, -⟩ := Option.bind_eq_some_iff.1 htext
  rw [← drop_take_append_unseen hk hinv.seen_le, carry_append, ← head]
  exact G.valid_carry _ p base (G.valid_of_act hp) hdoc

/-- The next entry, carried past the queue, is valid on the author's replica. -/
theorem valid_next {x : O} (next : l.log[l.seen]? = some x) : valid text (carry tr x l.queue) := by
  obtain ⟨base, -, hdoc, htext⟩ := h
  rw [unseen_of_next next] at hdoc
  obtain ⟨_, hx, -⟩ := Option.bind_eq_some_iff.1 hdoc
  exact G.valid_carry _ x base (G.valid_of_act hx) htext

theorem size_doc (hle : l.seen ≤ l.log.length) : size doc ≤ size start + l.log.length := by
  obtain ⟨base, hbase, hdoc, -⟩ := h
  have h₁ := G.size_actAll _ _ hbase
  have h₂ := G.size_actAll _ _ hdoc
  simp only [unseen, List.length_take, List.length_drop] at h₁ h₂
  omega

theorem size_text (hle : l.seen ≤ l.log.length) :
    size text ≤ size start + l.log.length + l.queue.length := by
  obtain ⟨base, hbase, -, htext⟩ := h
  have h₁ := G.size_actAll _ _ hbase
  have h₂ := G.size_actAll _ _ htext
  simp only [List.length_take] at h₁
  omega

/-- An entry taken past the queue, which it does not clash with and which is rebased against
it, keeps the replicas together. -/
theorem take {x : O} (next : l.log[l.seen]? = some x) (hle : l.seen ≤ l.log.length)
    (hclash : NoClashAlong tr clash x l.queue)
    (hroom : size start + l.log.length + l.queue.length < limit) {text' : T}
    (hx : act (carry tr x l.queue) text = some text') {l' : Link O ν} (hlog : l'.log = l.log)
    (hseen : l'.seen = l.seen + 1) (hqueue : l'.queue = rebase tr x l.queue) :
    l'.Replicates act start doc text' := by
  obtain ⟨base, hbase, hdoc, htext⟩ := h
  rw [unseen_of_next next] at hdoc
  obtain ⟨base', hbase', hdoc'⟩ := Option.bind_eq_some_iff.1 hdoc
  have hsize := G.size_actAll _ _ hbase
  simp only [List.length_take] at hsize
  have hcloses := G.closesAlong l.queue x base (G.valid_of_act hbase') htext hclash (by omega)
  have hmeet := actAll_carry act tr l.queue x base hcloses
  rw [htext, Option.bind_some, hx, hbase', Option.bind_some] at hmeet
  refine ⟨base', ?_, ?_, ?_⟩
  · rw [hlog, hseen, take_succ next]
    exact actAll_concat hbase hbase'
  · rwa [unseen, hlog, hseen]
  · rw [hqueue]
    exact hmeet.symm

end Guarded

end Replicates

end Link
