import OtEditor.Lib.Transformation

/-!
# A stop-and-wait link to a shared log

One author of a shared log, as seen from its end of the link. The author makes operations
and queues them. Only the head of the queue is on its way, sent with the number of log
entries the author had seen (`flight`). Whoever keeps the log records a message by carrying
it past the entries its sender had not seen, or refuses it. The author takes the entries of
the log in order : an entry with the name of the queue's head confirms the head, and any
other entry adjusts the queue.

`Inv` is what all this keeps. The ledger says that the operations made are those confirmed
and then those queued. The phase says where the head of the queue is, and ties it to what
was sent and to what is recorded : transformed one entry at a time, the head is always what
was sent carried past the entries seen since, so that it equals its own log entry when that
comes back (`Inv.head_eq`).
-/

set_option linter.unusedSectionVars false

open Transformation

/-- The shared log and one author of it. -/
@[ext]
structure Link (O ν : Type*) where
  log : List O
  /-- How many entries of the log the author has taken. -/
  seen : ℕ
  /-- The operations made and not yet confirmed. -/
  queue : List O
  /-- The operations on their way, each with the number of entries seen when it was sent. -/
  flight : List (O × ℕ)
  /-- The names of all operations made. -/
  made : List ν

namespace Link

variable {O ν : Type*} [DecidableEq ν] (name : O → ν) (tr : O → O → O)
  (adjust : O → List O → List O)

/-- The entries of the log the author has not taken. -/
def unseen (l : Link O ν) : List O :=
  l.log.drop l.seen

/-- The author's own entries among some. -/
def own (l : Link O ν) (xs : List O) : List O :=
  xs.filter fun x => name x ∈ l.made

/-- The head of a queue goes on its way. -/
def send (seen : ℕ) : List O → List (O × ℕ)
  | [] => []
  | p :: _ => [(p, seen)]

/-- What can happen to a link. -/
inductive Step (l : Link O ν) : Link O ν → Prop where
  | make (o : O) (unrecorded : ∀ x ∈ l.log, name x ≠ name o) :
      Step l { l with
        queue := l.queue ++ [o]
        flight := if l.queue = [] then l.flight ++ [(o, l.seen)] else l.flight
        made := l.made ++ [name o] }
  | record (o : O) (k : ℕ) (rest : List (O × ℕ)) (sent : l.flight = (o, k) :: rest) :
      Step l { l with log := l.log ++ [carry tr o (l.log.drop k)], flight := rest }
  | refuse (o : O) (k : ℕ) (rest : List (O × ℕ)) (sent : l.flight = (o, k) :: rest) :
      Step l { l with flight := rest }
  | foreign (x : O) (other : name x ∉ l.made) : Step l { l with log := l.log ++ [x] }
  | confirm (x p : O) (ps : List O) (next : l.log[l.seen]? = some x) (head : l.queue = p :: ps)
      (same : name x = name p) :
      Step l { l with
        seen := l.seen + 1
        queue := ps
        flight := l.flight ++ send (l.seen + 1) ps }
  | take (x : O) (next : l.log[l.seen]? = some x)
      (differs : ∀ p ps, l.queue = p :: ps → name x ≠ name p) :
      Step l { l with seen := l.seen + 1, queue := adjust x l.queue }

/-- Where the head of the queue is. -/
inductive Phase (l : Link O ν) : Prop where
  | idle (queue : l.queue = []) (flight : l.flight = []) (foreign : ∀ x ∈ l.unseen, name x ∉ l.made)
  /-- On its way : the head is what was sent, carried past the entries taken since. -/
  | underway (p : O) (ps : List O) (o : O) (k : ℕ) (queue : l.queue = p :: ps)
      (flight : l.flight = [(o, k)]) (sent : k ≤ l.seen)
      (head : p = carry tr o ((l.log.take l.seen).drop k))
      (foreign : ∀ x ∈ l.log.drop k, name x ∉ l.made)
  /-- Recorded : its entry is the head carried past the entries still before it. -/
  | recorded (p : O) (ps before after : List O) (queue : l.queue = p :: ps)
      (flight : l.flight = []) (unseen : l.unseen = before ++ carry tr p before :: after)
      (foreign_before : ∀ x ∈ before, name x ∉ l.made)
      (foreign_after : ∀ x ∈ after, name x ∉ l.made)
  | refused (p : O) (ps : List O) (queue : l.queue = p :: ps) (flight : l.flight = [])
      (foreign : ∀ x ∈ l.unseen, name x ∉ l.made)

/-- What every step keeps. -/
structure Inv (l : Link O ν) : Prop where
  seen_le : l.seen ≤ l.log.length
  ledger : l.made = (l.own name (l.log.take l.seen)).map name ++ l.queue.map name
  phase : l.Phase name tr

/-! ## The log seen and unseen -/

section Lists

variable {l : Link O ν} {x : O}

theorem lt_of_next (next : l.log[l.seen]? = some x) : l.seen < l.log.length :=
  (List.getElem?_eq_some_iff.1 next).1

theorem take_succ (next : l.log[l.seen]? = some x) :
    l.log.take (l.seen + 1) = l.log.take l.seen ++ [x] := by
  rw [List.take_add_one, next]
  rfl

theorem unseen_of_next (next : l.log[l.seen]? = some x) :
    l.unseen = x :: l.log.drop (l.seen + 1) := by
  obtain ⟨hlt, hx⟩ := List.getElem?_eq_some_iff.1 next
  rw [unseen, List.drop_eq_getElem_cons hlt, hx]

theorem drop_take_append_unseen {k : ℕ} (hk : k ≤ l.seen) (hseen : l.seen ≤ l.log.length) :
    (l.log.take l.seen).drop k ++ l.unseen = l.log.drop k := by
  rw [unseen, ← List.drop_append_of_le_length (by rw [List.length_take]; omega),
    List.take_append_drop]

theorem mem_drop_of_mem_unseen {k : ℕ} (hk : k ≤ l.seen) (h : x ∈ l.unseen) :
    x ∈ l.log.drop k := by
  rw [unseen, ← Nat.add_sub_cancel' hk, ← List.drop_drop] at h
  exact List.mem_of_mem_drop h

end Lists

/-! ## The rules -/

namespace Inv

variable {name tr adjust} {l l' : Link O ν} (h : l.Inv name tr)
include h

theorem name_mem_made_of_mem_queue {p : O} (hp : p ∈ l.queue) : name p ∈ l.made := by
  rw [h.ledger]
  exact List.mem_append_right _ (List.mem_map_of_mem hp)

/-- What is on its way is the head of the queue under its own name, and none of the entries
its sender had not seen is the author's. -/
theorem of_flight {o : O} {k : ℕ} {rest : List (O × ℕ)} (hflight : l.flight = (o, k) :: rest) :
    rest = [] ∧ k ≤ l.seen ∧ (∀ x ∈ l.log.drop k, name x ∉ l.made) ∧
      ∃ p ps, l.queue = p :: ps ∧ p = carry tr o ((l.log.take l.seen).drop k) := by
  cases h.phase with
  | idle _ flight _ => cases flight.symm.trans hflight
  | underway p ps o' k' queue flight sent head foreign =>
    cases flight.symm.trans hflight
    exact ⟨rfl, sent, foreign, p, ps, queue, head⟩
  | recorded _ _ _ _ _ flight _ _ _ => cases flight.symm.trans hflight
  | refused _ _ _ flight _ => cases flight.symm.trans hflight

/-- The author's own entry comes back equal to the head of the queue. -/
theorem head_eq {x p : O} {ps : List O} (next : l.log[l.seen]? = some x)
    (queue : l.queue = p :: ps) (same : name x = name p) :
    x = p ∧ l.flight = [] ∧ ∀ y ∈ l.log.drop (l.seen + 1), name y ∉ l.made := by
  have hown : name x ∈ l.made := by
    rw [same]
    exact h.name_mem_made_of_mem_queue (by simp [queue])
  have hunseen := unseen_of_next next
  have hx : x ∈ l.unseen := by simp [hunseen]
  cases h.phase with
  | idle queue' _ _ => cases queue'.symm.trans queue
  | underway _ _ _ k _ _ sent _ foreign =>
    exact absurd hown (foreign x (mem_drop_of_mem_unseen sent hx))
  | recorded p' _ before after queue' flight unseen foreign_before foreign_after =>
    cases queue'.symm.trans queue
    cases before with
    | nil =>
      obtain ⟨hxp, hafter⟩ := List.cons.inj (hunseen.symm.trans unseen)
      exact ⟨hxp, flight, hafter ▸ foreign_after⟩
    | cons b before =>
      obtain ⟨rfl, -⟩ := List.cons.inj (hunseen.symm.trans unseen)
      exact absurd hown (foreign_before x (by simp))
  | refused _ _ _ _ foreign => exact absurd hown (foreign x hx)

/-- An entry of the author's own comes when it is the head of the queue. -/
theorem queue_of_own {x : O} (next : l.log[l.seen]? = some x) (own : name x ∈ l.made) :
    ∃ ps, l.queue = x :: ps := by
  have hunseen := unseen_of_next next
  have hx : x ∈ l.unseen := by simp [hunseen]
  cases h.phase with
  | idle _ _ foreign => exact absurd own (foreign x hx)
  | underway _ _ _ _ _ _ sent _ foreign =>
    exact absurd own (foreign x (mem_drop_of_mem_unseen sent hx))
  | recorded p ps before after queue _ unseen foreign_before _ =>
    cases before with
    | nil =>
      obtain ⟨rfl, -⟩ := List.cons.inj (hunseen.symm.trans unseen)
      exact ⟨ps, queue⟩
    | cons b before =>
      obtain ⟨rfl, -⟩ := List.cons.inj (hunseen.symm.trans unseen)
      exact absurd own (foreign_before x (by simp))
  | refused _ _ _ _ foreign => exact absurd own (foreign x hx)

theorem make (o : O) (unrecorded : ∀ x ∈ l.log, name x ≠ name o) :
    Inv name tr { l with
      queue := l.queue ++ [o]
      flight := if l.queue = [] then l.flight ++ [(o, l.seen)] else l.flight
      made := l.made ++ [name o] } := by
  -- the new name is no entry's, so no entry changes sides
  have hforeign : ∀ x ∈ l.log, name x ∉ l.made → name x ∉ l.made ++ [name o] := by
    intro x hx hmade
    simp [hmade, unrecorded x hx]
  have hown : (l.log.take l.seen).filter (fun x => name x ∈ l.made ++ [name o]) =
      (l.log.take l.seen).filter fun x => name x ∈ l.made :=
    List.filter_congr fun x hx => by simp [unrecorded x (List.mem_of_mem_take hx)]
  have hunseen : ∀ x ∈ l.unseen, x ∈ l.log := fun x hx => List.mem_of_mem_drop hx
  refine ⟨h.seen_le, ?_, ?_⟩
  · simp only [own, hown, List.map_append, ← List.append_assoc]
    rw [← own, ← h.ledger]
    rfl
  · cases h.phase with
    | idle queue flight foreign =>
      refine .underway o [] o l.seen (by simp [queue]) (by simp [queue, flight])
        (Nat.le_refl _) ?_ ?_
      · rw [List.drop_take_self, carry_nil]
      · exact fun x hx => hforeign x (hunseen x hx) (foreign x hx)
    | underway p ps o' k queue flight sent head foreign =>
      exact .underway p (ps ++ [o]) o' k (by simp [queue]) (by simp [queue, flight]) sent head
        fun x hx => hforeign x (List.mem_of_mem_drop hx) (foreign x hx)
    | recorded p ps before after queue flight unseen foreign_before foreign_after =>
      refine .recorded p (ps ++ [o]) before after (by simp [queue]) (by simp [queue, flight])
        unseen (fun x hx => hforeign x (hunseen x ?_) (foreign_before x hx))
        fun x hx => hforeign x (hunseen x ?_) (foreign_after x hx)
      · rw [unseen]
        exact List.mem_append_left _ hx
      · rw [unseen]
        exact List.mem_append_right _ (List.mem_cons_of_mem _ hx)
    | refused p ps queue flight foreign =>
      exact .refused p (ps ++ [o]) (by simp [queue]) (by simp [queue, flight])
        fun x hx => hforeign x (hunseen x hx) (foreign x hx)

/-- A new entry of the log does not touch what was seen of it. -/
theorem append_ledger (x : O) : l.made =
    (l.own name ((l.log ++ [x]).take l.seen)).map name ++ l.queue.map name := by
  rw [List.take_append_of_le_length h.seen_le]
  exact h.ledger

theorem append_unseen (x : O) : (l.log ++ [x]).drop l.seen = l.unseen ++ [x] :=
  List.drop_append_of_le_length h.seen_le

theorem record {o : O} {k : ℕ} {rest : List (O × ℕ)} (sent : l.flight = (o, k) :: rest) :
    Inv name tr { l with log := l.log ++ [carry tr o (l.log.drop k)], flight := rest } := by
  obtain ⟨hrest, hk, foreign, p, ps, queue, head⟩ := h.of_flight sent
  have hentry : carry tr o (l.log.drop k) = carry tr p l.unseen := by
    rw [← drop_take_append_unseen hk h.seen_le, carry_append, ← head]
  refine ⟨by simpa using Nat.le_succ_of_le h.seen_le, h.append_ledger _,
    .recorded p ps l.unseen [] queue hrest ?_ ?_ (by simp)⟩
  · rw [← hentry]
    exact h.append_unseen _
  · exact fun x hx => foreign x (mem_drop_of_mem_unseen hk hx)

theorem refuse {o : O} {k : ℕ} {rest : List (O × ℕ)} (sent : l.flight = (o, k) :: rest) :
    Inv name tr { l with flight := rest } := by
  obtain ⟨hrest, hk, foreign, p, ps, queue, -⟩ := h.of_flight sent
  exact ⟨h.seen_le, h.ledger, .refused p ps queue hrest fun x hx =>
    foreign x (mem_drop_of_mem_unseen hk hx)⟩

theorem foreign {x : O} (other : name x ∉ l.made) :
    Inv name tr { l with log := l.log ++ [x] } := by
  have hforeign : ∀ xs : List O, (∀ y ∈ xs, name y ∉ l.made) →
      ∀ y ∈ xs ++ [x], name y ∉ l.made := by
    intro xs hxs y hy
    rcases List.mem_append.1 hy with hy | hy
    · exact hxs y hy
    · rw [List.mem_singleton.1 hy]
      exact other
  refine ⟨by simpa using Nat.le_succ_of_le h.seen_le, h.append_ledger x, ?_⟩
  cases h.phase with
  | idle queue flight foreign =>
    refine .idle queue flight ?_
    rw [unseen, h.append_unseen]
    exact hforeign _ foreign
  | underway p ps o k queue flight sent head foreign =>
    refine .underway p ps o k queue flight sent ?_ ?_
    · rw [List.take_append_of_le_length h.seen_le]
      exact head
    · rw [List.drop_append_of_le_length (Nat.le_trans sent h.seen_le)]
      exact hforeign _ foreign
  | recorded p ps before after queue flight unseen foreign_before foreign_after =>
    refine .recorded p ps before (after ++ [x]) queue flight ?_ foreign_before
      (hforeign _ foreign_after)
    rw [Link.unseen, h.append_unseen, unseen, List.append_assoc]
    rfl
  | refused p ps queue flight foreign =>
    refine .refused p ps queue flight ?_
    rw [unseen, h.append_unseen]
    exact hforeign _ foreign

theorem confirm {x p : O} {ps : List O} (next : l.log[l.seen]? = some x)
    (queue : l.queue = p :: ps) (same : name x = name p) :
    Inv name tr { l with
      seen := l.seen + 1, queue := ps, flight := l.flight ++ send (l.seen + 1) ps } := by
  obtain ⟨-, flight, foreign⟩ := h.head_eq next queue same
  have hown : name x ∈ l.made := by
    rw [same]
    exact h.name_mem_made_of_mem_queue (by simp [queue])
  refine ⟨lt_of_next next, ?_, ?_⟩
  · have hledger := h.ledger
    rw [queue, List.map_cons, ← same] at hledger
    simp only [own, take_succ next, List.filter_append, List.map_append] at hledger ⊢
    simp [hown, ← hledger]
  · cases ps with
    | nil => exact .idle rfl (by simp [flight, send]) foreign
    | cons q qs =>
      refine .underway q qs q (l.seen + 1) rfl (by simp [flight, send]) (Nat.le_refl _) ?_ foreign
      rw [List.drop_take_self, carry_nil]

/-- An entry that does not confirm the head is another author's. -/
theorem name_notMem_made {x : O} (next : l.log[l.seen]? = some x)
    (differs : ∀ p ps, l.queue = p :: ps → name x ≠ name p) : name x ∉ l.made := by
  have hunseen := unseen_of_next next
  have hx : x ∈ l.unseen := by simp [hunseen]
  cases h.phase with
  | idle _ _ foreign => exact foreign x hx
  | underway _ _ _ _ _ _ sent _ foreign => exact foreign x (mem_drop_of_mem_unseen sent hx)
  | recorded p ps before after queue _ unseen foreign_before _ =>
    cases before with
    | nil =>
      obtain ⟨hxp, -⟩ := List.cons.inj (hunseen.symm.trans unseen)
      exact absurd (congrArg name hxp) (differs p ps queue)
    | cons b before =>
      obtain ⟨rfl, -⟩ := List.cons.inj (hunseen.symm.trans unseen)
      exact foreign_before x (by simp)
  | refused _ _ _ _ foreign => exact foreign x hx

/-- The queue is adjusted to another author's entry. All that is asked of the adjustment is
that it keeps the names and transforms the head. -/
theorem take {x : O} (next : l.log[l.seen]? = some x)
    (differs : ∀ p ps, l.queue = p :: ps → name x ≠ name p)
    (hnames : ∀ x ps, (adjust x ps).map name = ps.map name)
    (hhead : ∀ x p ps, ∃ ps', adjust x (p :: ps) = tr p x :: ps') :
    Inv name tr { l with seen := l.seen + 1, queue := adjust x l.queue } := by
  have hother := h.name_notMem_made next differs
  have hunseen := unseen_of_next next
  have htail : ∀ y ∈ l.log.drop (l.seen + 1), y ∈ l.unseen := by
    rw [hunseen]
    exact fun y hy => List.mem_cons_of_mem _ hy
  refine ⟨lt_of_next next, ?_, ?_⟩
  · rw [hnames]
    refine h.ledger.trans ?_
    simp [own, take_succ next, hother]
  · cases h.phase with
    | idle queue flight foreign =>
      have hempty : adjust x l.queue = [] := by
        rw [← List.map_eq_nil_iff (f := name), hnames, queue, List.map_nil]
      exact .idle hempty flight fun y hy => foreign y (htail y hy)
    | underway p ps o k queue flight sent head foreign =>
      obtain ⟨ps', hadjust⟩ := hhead x p ps
      refine .underway (tr p x) ps' o k (queue ▸ hadjust) flight (Nat.le_succ_of_le sent) ?_
        foreign
      have hlen : k ≤ (l.log.take l.seen).length := by
        rw [List.length_take]
        exact Nat.le_min.2 ⟨sent, Nat.le_trans sent h.seen_le⟩
      simp only [take_succ next, List.drop_append_of_le_length hlen, carry_append, ← head]
      rfl
    | recorded p ps before after queue flight unseen foreign_before foreign_after =>
      obtain ⟨ps', hadjust⟩ := hhead x p ps
      cases before with
      | nil =>
        obtain ⟨hxp, -⟩ := List.cons.inj (hunseen.symm.trans unseen)
        exact absurd (congrArg name hxp) (differs p ps queue)
      | cons b before =>
        obtain ⟨rfl, hrest⟩ := List.cons.inj (hunseen.symm.trans unseen)
        exact .recorded (tr p x) ps' before after (queue ▸ hadjust) flight hrest
          (fun y hy => foreign_before y (List.mem_cons_of_mem _ hy)) foreign_after
    | refused p ps queue flight foreign =>
      obtain ⟨ps', hadjust⟩ := hhead x p ps
      exact .refused (tr p x) ps' (queue ▸ hadjust) flight fun y hy => foreign y (htail y hy)

/-- Every step keeps the invariant. -/
theorem step (hnames : ∀ x ps, (adjust x ps).map name = ps.map name)
    (hhead : ∀ x p ps, ∃ ps', adjust x (p :: ps) = tr p x :: ps')
    (hstep : Step name tr adjust l l') : Inv name tr l' := by
  cases hstep with
  | make o unrecorded => exact h.make o unrecorded
  | record o k rest sent => exact h.record sent
  | refuse o k rest sent => exact h.refuse sent
  | foreign x other => exact h.foreign other
  | confirm x p ps next head same => exact h.confirm next head same
  | take x next differs => exact h.take next differs hnames hhead

/-! ## What the invariant says about the author's operations -/

/-- At most one operation is outstanding : none of the entries not taken is the author's, or
one is, of the head's name, and nothing is on its way. -/
theorem outstanding (hkeep : ∀ a b, name (tr a b) = name a) :
    (l.own name l.unseen = [] ∧ l.flight.length ≤ 1) ∨
    ∃ p ps x, l.queue = p :: ps ∧ l.own name l.unseen = [x] ∧ name x = name p ∧
      l.flight = [] := by
  have hforeign : ∀ xs : List O, (∀ x ∈ xs, name x ∉ l.made) → l.own name xs = [] :=
    fun xs hxs => List.filter_eq_nil_iff.2 fun x hx => by simp [hxs x hx]
  cases h.phase with
  | idle _ flight foreign => exact Or.inl ⟨hforeign _ foreign, by simp [flight]⟩
  | underway _ _ _ _ _ flight sent _ foreign =>
    exact Or.inl ⟨hforeign _ fun x hx => foreign x (mem_drop_of_mem_unseen sent hx),
      by simp [flight]⟩
  | recorded p ps before after queue flight unseen foreign_before foreign_after =>
    have hname : name (carry tr p before) = name p := carry_keeps tr hkeep before p
    have hmade : name (carry tr p before) ∈ l.made := by
      rw [hname]
      exact h.name_mem_made_of_mem_queue (by simp [queue])
    refine Or.inr ⟨p, ps, carry tr p before, queue, ?_, hname, flight⟩
    rw [unseen, own, List.filter_append, ← own, hforeign _ foreign_before,
      List.filter_cons_of_pos (by simpa using hmade), ← own, hforeign _ foreign_after]
    rfl
  | refused _ _ _ flight foreign => exact Or.inl ⟨hforeign _ foreign, by simp [flight]⟩

/-- The author's entries of the log are those confirmed, and perhaps the head's. -/
theorem own_log (hkeep : ∀ a b, name (tr a b) = name a) :
    (l.own name l.log).map name = (l.own name (l.log.take l.seen)).map name ∨
    ∃ p ps, l.queue = p :: ps ∧
      (l.own name l.log).map name = (l.own name (l.log.take l.seen)).map name ++ [name p] := by
  have hsplit : l.own name l.log = l.own name (l.log.take l.seen) ++ l.own name l.unseen := by
    rw [own, own, own, ← List.filter_append, unseen, List.take_append_drop]
  rcases h.outstanding hkeep with ⟨hnone, -⟩ | ⟨p, ps, x, queue, hx, hname, -⟩
  · exact Or.inl (by rw [hsplit, hnone, List.append_nil])
  · refine Or.inr ⟨p, ps, queue, ?_⟩
    rw [hsplit, hx, List.map_append, List.map_singleton, hname]

end Inv

/-! ## Authors that are stuck -/

/-- The head of the queue is neither on its way nor among the entries still to be taken. -/
structure Stuck (l : Link O ν) : Prop where
  queue : l.queue ≠ []
  flight : l.flight = []
  foreign : ∀ x ∈ l.unseen, name x ∉ l.made

/-- An author that was stuck at `l₀` still waits for the same operation, and nothing of it was
recorded since. -/
structure StuckSince (l₀ l : Link O ν) : Prop where
  stuck : l.Stuck name
  queue : l₀.queue.map name <+: l.queue.map name
  log : l₀.log <+: l.log
  foreign : ∀ x ∈ l.log.drop l₀.log.length, name x ∉ l.made

section Stuck

variable {name tr adjust} {l₀ l l' : Link O ν}

theorem Stuck.since (h : l.Stuck name) : StuckSince name l l :=
  ⟨h, List.prefix_refl _, List.prefix_refl _, by simp⟩

/-- A message that is refused leaves its author stuck. -/
theorem Inv.stuck_of_refuse (h : l.Inv name tr) {o : O} {k : ℕ} {rest : List (O × ℕ)}
    (sent : l.flight = (o, k) :: rest) : Stuck name { l with flight := rest } := by
  obtain ⟨rfl, hk, hforeign, p, ps, hqueue, -⟩ := h.of_flight sent
  refine ⟨?_, rfl, fun x hx => hforeign x (mem_drop_of_mem_unseen hk hx)⟩
  rw [hqueue]
  exact List.cons_ne_nil p ps

/-- Without anything on its way or to take, an author that is not stuck has nothing queued. -/
theorem queue_eq_nil (h : ¬l.Stuck name) (hflight : l.flight = [])
    (hunseen : l.unseen = []) : l.queue = [] := by
  by_contra hqueue
  exact h ⟨hqueue, hflight, by simp [hunseen]⟩

/-- Every step leaves an author stuck that was, and records nothing of it. -/
theorem StuckSince.step (h : StuckSince name l₀ l) (hinv : l.Inv name tr)
    (hnames : ∀ x ps, (adjust x ps).map name = ps.map name)
    (hstep : Step name tr adjust l l') : StuckSince name l₀ l' := by
  obtain ⟨⟨hqueue, hflight, hforeign⟩, hhead, hlog, hsince⟩ := h
  have hlength := hlog.length_le
  cases hstep with
  | make o unrecorded =>
    have hnew : ∀ x ∈ l.log, name x ∉ l.made → name x ∉ l.made ++ [name o] := by
      intro x hx hmade
      simp [hmade, unrecorded x hx]
    refine ⟨⟨by simp, by simp [hqueue, hflight], fun x hx => ?_⟩, ?_, hlog, fun x hx => ?_⟩
    · exact hnew x (List.mem_of_mem_drop hx) (hforeign x hx)
    · rw [List.map_append]
      exact hhead.trans (List.prefix_append _ _)
    · exact hnew x (List.mem_of_mem_drop hx) (hsince x hx)
  | record o k rest sent => cases hflight.symm.trans sent
  | refuse o k rest sent => cases hflight.symm.trans sent
  | foreign x other =>
    refine ⟨⟨hqueue, hflight, fun y hy => ?_⟩, hhead, hlog.trans (List.prefix_append _ _),
      fun y hy => ?_⟩
    · rw [unseen, hinv.append_unseen, List.mem_append, List.mem_singleton] at hy
      rcases hy with hy | rfl
      · exact hforeign y hy
      · exact other
    · rw [List.drop_append_of_le_length hlength, List.mem_append, List.mem_singleton] at hy
      rcases hy with hy | rfl
      · exact hsince y hy
      · exact other
  | confirm x p ps next head same =>
    refine absurd ?_ (hforeign x (by simp [unseen_of_next next]))
    rw [same]
    exact hinv.name_mem_made_of_mem_queue (by simp [head])
  | take x next differs =>
    refine ⟨⟨fun hempty => hqueue ?_, hflight, fun y hy => hforeign y ?_⟩, ?_, hlog, hsince⟩
    · rw [← List.map_eq_nil_iff (f := name), ← hnames x]
      exact List.map_eq_nil_iff.2 hempty
    · rw [unseen_of_next next]
      exact List.mem_cons_of_mem _ hy
    · rw [hnames]
      exact hhead

/-- Only a refusal makes an author stuck. -/
theorem Inv.stuck_of_step (hinv : l.Inv name tr)
    (hkeep : ∀ a b, name (tr a b) = name a)
    (hnames : ∀ x ps, (adjust x ps).map name = ps.map name)
    (hstep : Step name tr adjust l l') (hstuck : l'.Stuck name) :
    l.Stuck name ∨ ∃ o k rest, l.flight = (o, k) :: rest ∧ l' = { l with flight := rest } := by
  obtain ⟨hqueue, hflight, hforeign⟩ := hstuck
  cases hstep with
  | make o unrecorded =>
    by_cases hempty : l.queue = []
    · simp [hempty] at hflight
    · refine .inl ⟨hempty, by simpa [hempty] using hflight, fun x hx hmade => ?_⟩
      exact hforeign x hx (List.mem_append_left _ hmade)
  | record o k rest sent =>
    obtain ⟨-, hk, -, p, ps, hq, hp⟩ := hinv.of_flight sent
    refine absurd ?_ (hforeign (carry tr o (l.log.drop k)) ?_)
    · have hname : name (carry tr o (l.log.drop k)) = name p := by
        rw [hp, carry_keeps tr hkeep, carry_keeps tr hkeep]
      rw [hname]
      exact hinv.name_mem_made_of_mem_queue (by simp [hq])
    · rw [unseen, hinv.append_unseen]
      exact List.mem_append_right _ (List.mem_singleton_self _)
  | refuse o k rest sent => exact .inr ⟨o, k, rest, sent, rfl⟩
  | foreign x other =>
    refine .inl ⟨hqueue, hflight, fun y hy => hforeign y ?_⟩
    rw [unseen, hinv.append_unseen]
    exact List.mem_append_left _ hy
  | confirm x p ps next head same =>
    cases ps with
    | nil => exact absurd rfl hqueue
    | cons q qs => simp [send] at hflight
  | take x next differs =>
    refine .inl ⟨fun hempty => hqueue ?_, hflight, fun y hy => ?_⟩
    · rw [← List.map_eq_nil_iff (f := name), hnames, hempty, List.map_nil]
    · rw [unseen_of_next next, List.mem_cons] at hy
      rcases hy with rfl | hy
      · exact hinv.name_notMem_made next differs
      · exact hforeign y hy

end Stuck

end Link
