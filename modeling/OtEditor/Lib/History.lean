import Mathlib.Logic.Relation

/-!
# Histories whose answers come sooner

A history is a list of events, some of which are answers. `Sooner` are the histories in which
answers may have moved before events that are no answers. The answers stay in their order, and
so do the other events. What came after an answer still comes after it.
-/

namespace History

variable {E : Type*} (answer : E → Prop)

/-- An answer moves before the event it came after. -/
inductive Swap : List E → List E → Prop
  | swap (before after : List E) {event reply : E} (hevent : ¬answer event)
      (hreply : answer reply) :
      Swap (before ++ event :: reply :: after) (before ++ reply :: event :: after)

/-- Any number of such moves. -/
abbrev Sooner : List E → List E → Prop :=
  Relation.ReflTransGen (Swap answer)

variable {answer} {h h' : List E}

theorem Swap.append (hswap : Swap answer h h') (rest : List E) :
    Swap answer (h ++ rest) (h' ++ rest) := by
  obtain ⟨before, after, hevent, hreply⟩ := hswap
  rw [List.append_assoc, List.append_assoc]
  exact .swap before (after ++ rest) hevent hreply

theorem Sooner.append (hsooner : Sooner answer h h') (rest : List E) :
    Sooner answer (h ++ rest) (h' ++ rest) :=
  Relation.ReflTransGen.lift (· ++ rest) (fun _ _ hswap => Swap.append hswap rest) _ _ hsooner

/-- An event that comes before replies which have been given already. -/
theorem Sooner.arrive {event : E} (hevent : ¬answer event) :
    ∀ {replies : List E} {h h' : List E}, (∀ reply ∈ replies, answer reply) →
      Sooner answer (h ++ replies) h' → Sooner answer (h ++ [event] ++ replies) (h' ++ [event])
  | [], h, h', _, hsooner => by
    rw [List.append_nil] at hsooner ⊢
    exact hsooner.append [event]
  | reply :: replies, h, h', hreplies, hsooner => by
    rw [List.forall_mem_cons] at hreplies
    have hswap : Swap answer (h ++ [event] ++ reply :: replies)
        (h ++ [reply] ++ [event] ++ replies) := by
      simpa using Swap.swap h replies hevent hreplies.1
    exact .head hswap (Sooner.arrive hevent hreplies.2 (by simpa using hsooner))

end History
