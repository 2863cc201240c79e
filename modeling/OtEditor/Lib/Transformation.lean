import Mathlib.Data.List.Basic
import Mathlib.Data.Option.Basic

/-!
# Carrying an operation past a list of operations

`act o c` performs an operation on a content and may fail. `tr a b` is `a` transformed
against a concurrent `b`. Two operations close their diamond on a content (`Closes`) if
performing either one and then the other, transformed, gives the same result.

An operation `r` concurrent to a whole list is carried past it one operation at a time
(`carry`). The list is rebased against `r` by transforming each operation against `r`
carried past the ones before it (`rebase`). If the diamond closes at every operation on
the way (`ClosesAlong`), the list followed by the carried `r` is `r` followed by the
rebased list (`actAll_carry`).

A lawful transformation closes every diamond (`closesAlong_of_lawful`). Where some pairs
clash and a content can be full, `Guarded` collects what a transformation has to
guarantee : a valid operation stays valid past any list (`Guarded.valid_carry`), and the
diamond closes along a list with no clash and enough room (`Guarded.closesAlong`).
-/

namespace Transformation

variable {T O : Type*} (act : O → T → Option T) (tr : O → O → O)

/-- Perform the operations of a list in order. -/
def actAll : List O → T → Option T
  | [], c => some c
  | p :: ps, c => (act p c).bind (actAll ps)

/-- `r` transformed against the operations of a list, one after another. -/
def carry (r : O) (ps : List O) : O :=
  ps.foldl tr r

/-- Each operation of a list transformed against `r` carried past the ones before it. -/
def rebase (r : O) : List O → List O
  | [] => []
  | p :: ps => tr p r :: rebase (tr r p) ps

/-- Either order of `a` and `b`, the second one transformed, gives the same result on `c`. -/
def Closes (a b : O) (c : T) : Prop :=
  (act a c).bind (act (tr b a)) = (act b c).bind (act (tr a b))

/-- The diamond of `r` closes at every operation of the list it is carried past. -/
def ClosesAlong (r : O) : List O → T → Prop
  | [], _ => True
  | p :: ps, c => Closes act tr p r c ∧ ∀ c', act p c = some c' → ClosesAlong (tr r p) ps c'

@[simp] theorem actAll_nil (c : T) : actAll act [] c = some c :=
  rfl

@[simp] theorem actAll_cons (p : O) (ps : List O) (c : T) :
    actAll act (p :: ps) c = (act p c).bind (actAll act ps) :=
  rfl

@[simp] theorem carry_nil (r : O) : carry tr r [] = r :=
  rfl

@[simp] theorem carry_cons (r p : O) (ps : List O) :
    carry tr r (p :: ps) = carry tr (tr r p) ps :=
  rfl

@[simp] theorem rebase_nil (r : O) : rebase tr r [] = [] :=
  rfl

@[simp] theorem rebase_cons (r p : O) (ps : List O) :
    rebase tr r (p :: ps) = tr p r :: rebase tr (tr r p) ps :=
  rfl

theorem carry_append (r : O) (ps qs : List O) :
    carry tr r (ps ++ qs) = carry tr (carry tr r ps) qs :=
  List.foldl_append

/-- What a transformation keeps of an operation, carrying it past a list keeps. -/
theorem carry_keeps {ν : Type*} {f : O → ν} (hf : ∀ a b, f (tr a b) = f a) :
    ∀ (ps : List O) (r : O), f (carry tr r ps) = f r
  | [], _ => rfl
  | p :: ps, r => (carry_keeps hf ps (tr r p)).trans (hf r p)

theorem actAll_append (c : T) :
    ∀ (ps qs : List O) , actAll act (ps ++ qs) c = (actAll act ps c).bind (actAll act qs)
  | [], _ => rfl
  | p :: ps, qs => by
    cases h : act p c with
    | none => simp [h]
    | some c' => simpa [h] using actAll_append c' ps qs

/-- If each inverse takes its operation back, the inverses of a list, newest first, take the
list back. -/
theorem actAll_reverse_of_inverses {inverts : O → O → Prop}
    (hinverts : ∀ {o o' c c'}, inverts o o' → act o c = some c' → act o' c' = some c)
    {c' : T} : ∀ {os os' : List O} {c : T}, List.Forall₂ inverts os os' →
      actAll act os c = some c' → actAll act os'.reverse c' = some c
  | [], _, c, .nil, hrun => hrun.symm
  | o :: os, _, c, .cons hhead htail, hrun => by
    obtain ⟨c₁, ho, hos⟩ := Option.bind_eq_some_iff.1 hrun
    have hback := actAll_reverse_of_inverses hinverts htail hos
    rw [List.reverse_cons, actAll_append, hback, Option.bind_some, actAll_cons,
      hinverts hhead ho]
    rfl

/-- The list and then `r` carried past it is `r` and then the rebased list. -/
theorem actAll_carry : ∀ (ps : List O) (r : O) (c : T), ClosesAlong act tr r ps c →
    (actAll act ps c).bind (act (carry tr r ps)) = (act r c).bind (actAll act (rebase tr r ps))
  | [], r, c, _ => by cases h : act r c <;> simp [h]
  | p :: ps, r, c, ⟨hclose, hrest⟩ => by
    have hpast : ((act p c).bind (actAll act ps)).bind (act (carry tr (tr r p) ps)) =
        ((act p c).bind (act (tr r p))).bind (actAll act (rebase tr (tr r p) ps)) := by
      cases hp : act p c with
      | none => rfl
      | some c' => exact actAll_carry ps (tr r p) c' (hrest c' hp)
    rw [actAll_cons, carry_cons, hpast, hclose, Option.bind_assoc]
    rfl

/-- Every diamond closes on every content. -/
def Lawful : Prop :=
  ∀ a b c, Closes act tr a b c

theorem closesAlong_of_lawful (hlaw : Lawful act tr) :
    ∀ (ps : List O) (r : O) (c : T), ClosesAlong act tr r ps c
  | [], _, _ => trivial
  | p :: ps, r, c => ⟨hlaw p r c, fun c' _ => closesAlong_of_lawful hlaw ps (tr r p) c'⟩

/-! ## Transformations with clashes and full contents -/

/-- No operation of the list clashes with `r` as `r` reaches it. -/
def NoClashAlong (clash : O → O → Prop) (r : O) : List O → Prop
  | [] => True
  | p :: ps => ¬clash p r ∧ NoClashAlong clash (tr r p) ps

instance decidableNoClashAlong (clash : O → O → Prop) [DecidableRel clash] :
    ∀ r ps, Decidable (NoClashAlong tr clash r ps)
  | _, [] => inferInstanceAs (Decidable True)
  | r, p :: ps =>
    have : Decidable (NoClashAlong tr clash (tr r p) ps) :=
      decidableNoClashAlong clash (tr r p) ps
    inferInstanceAs (Decidable (_ ∧ _))

/-- Each operation of the list is transformed against `received` as against `r` carried past
the ones before it. -/
def AlikeAlong (received r : O) : List O → Prop
  | [] => True
  | p :: ps => tr p received = tr p r ∧ AlikeAlong received (tr r p) ps

instance decidableAlikeAlong [DecidableEq O] (received : O) :
    ∀ r ps, Decidable (AlikeAlong tr received r ps)
  | _, [] => inferInstanceAs (Decidable True)
  | r, p :: ps =>
    have : Decidable (AlikeAlong tr received (tr r p) ps) :=
      decidableAlikeAlong received (tr r p) ps
    inferInstanceAs (Decidable (_ ∧ _))

/-- Then transforming each operation against `received` rebases the list. -/
theorem map_eq_rebase (received : O) : ∀ (ps : List O) (r : O), AlikeAlong tr received r ps →
    (ps.map fun p => tr p received) = rebase tr r ps
  | [], _, _ => rfl
  | p :: ps, r, ⟨hp, hps⟩ => by
    rw [List.map_cons, rebase_cons, hp, map_eq_rebase received ps (tr r p) hps]

/-- What a transformation guarantees on valid operations, where a content has a size, an
operation adds at most one to it, and nothing fits above `limit`. -/
structure Guarded (valid : T → O → Prop) (clash : O → O → Prop) (size : T → ℕ)
    (limit : ℕ) : Prop where
  size_act : ∀ {o c c'}, act o c = some c' → size c' ≤ size c + 1
  valid_of_act : ∀ {o c c'}, act o c = some c' → valid c o
  act_of_valid : ∀ {o c}, valid c o → size c < limit → ∃ c', act o c = some c'
  valid_tr : ∀ {a b c c'}, valid c a → act b c = some c' → valid c' (tr a b)
  closes : ∀ {a b c ca cb}, ¬clash a b → act a c = some ca → act b c = some cb →
    act (tr b a) ca = act (tr a b) cb

namespace Guarded

variable {act tr} {valid : T → O → Prop} {clash : O → O → Prop} {size : T → ℕ} {limit : ℕ}
  (G : Guarded act tr valid clash size limit)
include G

/-- A valid operation is valid after any list it is carried past. -/
theorem valid_carry {c' : T} : ∀ (ps : List O) (o : O) (c : T), valid c o →
    actAll act ps c = some c' → valid c' (carry tr o ps)
  | [], o, c, ho, hrun => by
    obtain rfl : c = c' := by simpa using hrun
    exact ho
  | p :: ps, o, c, ho, hrun => by
    obtain ⟨c₁, hp, hps⟩ := Option.bind_eq_some_iff.1 hrun
    exact valid_carry ps (tr o p) c₁ (G.valid_tr ho hp) hps

theorem size_actAll {c' : T} : ∀ (ps : List O) (c : T), actAll act ps c = some c' →
    size c' ≤ size c + ps.length
  | [], c, hrun => by
    obtain rfl : c = c' := by simpa using hrun
    exact Nat.le_add_right _ _
  | p :: ps, c, hrun => by
    obtain ⟨c₁, hp, hps⟩ := Option.bind_eq_some_iff.1 hrun
    have h₁ := G.size_act hp
    have h₂ := size_actAll ps c₁ hps
    simp only [List.length_cons]
    omega

/-- With no clash on the way and room for the whole list, every diamond closes. -/
theorem closesAlong {c' : T} : ∀ (ps : List O) (r : O) (c : T), valid c r →
    actAll act ps c = some c' → NoClashAlong tr clash r ps → size c + ps.length < limit →
    ClosesAlong act tr r ps c
  | [], _, _, _, _, _, _ => trivial
  | p :: ps, r, c, hr, hrun, ⟨hclash, hrest⟩, hroom => by
    obtain ⟨c₁, hp, hps⟩ := Option.bind_eq_some_iff.1 hrun
    simp only [List.length_cons] at hroom
    obtain ⟨d, hd⟩ := G.act_of_valid hr (by omega)
    have hsize := G.size_act hp
    refine ⟨?_, fun c₂ hc₂ => ?_⟩
    · rw [Closes, hp, hd, Option.bind_some, Option.bind_some]
      exact G.closes hclash hp hd
    · obtain rfl : c₁ = c₂ := Option.some.inj (hp.symm.trans hc₂)
      exact closesAlong ps (tr r p) c₁ (G.valid_tr hr hp) hps hrest (by omega)

end Guarded

end Transformation
