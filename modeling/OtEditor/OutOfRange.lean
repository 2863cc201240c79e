import OtEditor.InRange

/-!
# Operations out of range

An insertion or deletion out of range does nothing (`OutOfRange.applyTo`), and every
operation that does not throw is in range or out of range (`inRange_or_outOfRange`). Past an
operation in range an operation out of range stays out of range, also where its position
wraps (`OutOfRange.transformAgainst`). The other way round only a negative position does
harm : `transformAgainst` compares it as any other, so a negative insertion moves every
operation in range to the right and a negative deletion to the left
(`transformAgainst_outOfRange`), while a position past the end moves nothing.

So received operations out of range leave an operation alone exactly as far as the drift
of their negative positions stays among symbols equal to its own
(`undisturbed_iff_sameSymbols`).
-/

namespace OtEditor

open PlainTextOperationsManager

/-- The guard of `applyTo` turns the operation into a no-op. -/
def OutOfRange (content : Text) : PlainTextSingleCharacterOperation → Prop
  | .insert operation =>
    operation.position.toInt < 0 ∨ operation.position.toInt > content.length
  | .delete operation =>
    operation.position.toInt < 0 ∨ operation.position.toInt ≥ content.length
  | .identity _ => False

instance (content : Text) : DecidablePred (OutOfRange content)
  | .insert _ => inferInstanceAs (Decidable (_ ∨ _))
  | .delete _ => inferInstanceAs (Decidable (_ ∨ _))
  | .identity _ => inferInstanceAs (Decidable False)

variable {content content' : Text} {operation h : PlainTextSingleCharacterOperation}

/-- Out of range, `applyTo` leaves the content alone and does not throw. -/
theorem OutOfRange.applyTo (hout : OutOfRange content operation) :
    operation.applyTo content = .ok content := by
  rcases operation with operation | operation | operation
  · exact if_pos hout
  · exact if_pos hout
  · exact hout.elim

theorem index_lt_length {deletion : DeleteOperation}
    (hin : InRange content (.delete deletion)) : deletion.position.toInt < content.length := by
  have hlt := (List.getElem?_eq_some_iff.1 hin.2).1
  simp only [index] at hlt
  omega

theorem OutOfRange.not_inRange (hout : OutOfRange content operation) :
    ¬InRange content operation := by
  intro hin
  rcases operation with operation | operation | operation
  · simp only [OutOfRange, InRange] at *
    omega
  · have := index_lt_length hin
    simp only [OutOfRange, InRange] at *
    omega
  · exact hout

/-- What does not throw is carried out or does nothing. -/
theorem inRange_or_outOfRange (happly : operation.applyTo content = .ok content') :
    InRange content operation ∨ OutOfRange content operation := by
  by_cases hout : OutOfRange content operation
  · exact .inr hout
  refine .inl ?_
  rcases operation with operation | operation | operation
  · simp only [OutOfRange] at hout
    exact ⟨by omega, by omega⟩
  · have hmatch : ¬operation.SymbolMismatch content := fun hmismatch => by
      obtain ⟨e, he⟩ := DeleteOperation.applyTo_eq_error.2 hmismatch
      cases he.symm.trans happly
    simp only [OutOfRange] at hout
    have hlt : index operation.position < content.length := by
      simp only [index]
      omega
    refine ⟨by omega, ?_⟩
    by_contra hne
    refine hmatch ⟨by omega, _, List.getElem?_eq_getElem hlt, fun hfound => hne ?_⟩
    rw [List.getElem?_eq_getElem hlt, hfound]
  · trivial

/-! ## The positions of received operations -/

/-- How far a received operation out of range moves an operation in range. -/
def shift : PlainTextSingleCharacterOperation → ℤ
  | .insert operation => if operation.position.toInt < 0 then 1 else 0
  | .delete operation => if operation.position.toInt < 0 then -1 else 0
  | .identity _ => 0

/-- How far received operations out of range move an operation in range. -/
def drift : List PlainTextSingleCharacterOperation → ℤ
  | [] => 0
  | h :: received => shift h + drift received

/-- The operation with its position moved. -/
def moveBy (d : ℤ) : PlainTextSingleCharacterOperation → PlainTextSingleCharacterOperation
  | .insert operation => .insert { operation with position := operation.position + .ofInt d }
  | .delete operation => .delete { operation with position := operation.position + .ofInt d }
  | .identity operation => .identity operation

theorem moveBy_zero (operation : PlainTextSingleCharacterOperation) :
    moveBy 0 operation = operation := by
  rcases operation with operation | operation | operation <;> simp [moveBy]

/-- An operation out of range moves one in range by its shift. -/
theorem transformAgainst_outOfRange (hin : InRange content operation)
    (hout : OutOfRange content h) :
    transformAgainst operation h = moveBy (shift h) operation := by
  rcases operation with a | a | a <;> rcases h with b | b | b
  · unfold transformAgainst transformInsertAgainstInsert shift
    simp only [InRange, OutOfRange, Int32.lt_iff_toInt_lt] at *
    split_ifs with h1 h2 h2
    · omega
    · exact (moveBy_zero _).symm
    · rfl
    · omega
  · unfold transformAgainst transformInsertAgainstDelete shift
    simp only [InRange, OutOfRange, Int32.le_iff_toInt_le] at *
    split_ifs with h1 h2 h2
    · omega
    · exact (moveBy_zero _).symm
    · simp [moveBy, Int32.sub_eq_add_neg]
    · omega
  · exact hout.elim
  · unfold transformAgainst transformDeleteAgainstInsert shift
    have ha := index_lt_length hin
    simp only [InRange, OutOfRange, Int32.lt_iff_toInt_lt] at *
    split_ifs with h1 h2 h2
    · omega
    · exact (moveBy_zero _).symm
    · rfl
    · omega
  · unfold transformAgainst transformDeleteAgainstDelete shift
    have ha := index_lt_length hin
    simp only [InRange, OutOfRange, Int32.lt_iff_toInt_lt, gt_iff_lt] at *
    split_ifs with h1 h2 h2 h3 h3
    · omega
    · exact (moveBy_zero _).symm
    · simp [moveBy, Int32.sub_eq_add_neg]
    · omega
    · omega
    · omega
  · exact hout.elim
  · rfl
  · rfl
  · rfl

/-- Past an operation in range an operation out of range stays out of range. -/
theorem OutOfRange.transformAgainst (hout : OutOfRange content h)
    (hin : InRange content operation) (happly : operation.applyTo content = .ok content') :
    OutOfRange content' (transformAgainst h operation) := by
  have hact := hin.applyTo_iff.1 happly
  rcases operation with a | a | a
  · obtain ⟨hi, rfl⟩ := Edit.act_insert_eq_some.1 hact
    have hlen := List.length_insertIdx_of_le_length hi a.symbol
    rcases h with b | b | b
    · unfold PlainTextOperationsManager.transformAgainst transformInsertAgainstInsert
      have hnext := toInt_add_one_or_neg b.position
      simp only [InRange, OutOfRange, Int32.lt_iff_toInt_lt] at *
      split_ifs with hlt
      · omega
      · show (b.position + 1).toInt < 0 ∨ (b.position + 1).toInt > _
        omega
    · unfold PlainTextOperationsManager.transformAgainst transformDeleteAgainstInsert
      have hnext := toInt_add_one_or_neg b.position
      simp only [InRange, OutOfRange, Int32.lt_iff_toInt_lt] at *
      split_ifs with hlt
      · omega
      · show (b.position + 1).toInt < 0 ∨ (b.position + 1).toInt ≥ _
        omega
    · exact hout.elim
  · obtain ⟨hget, rfl⟩ := Edit.act_delete_eq_some.1 hact
    have ha := index_lt_length hin
    have hlen := List.length_eraseIdx_of_lt (List.getElem?_eq_some_iff.1 hget).1
    rcases h with b | b | b
    · unfold PlainTextOperationsManager.transformAgainst transformInsertAgainstDelete
      simp only [InRange, OutOfRange, Int32.le_iff_toInt_le] at *
      split_ifs with hle
      · omega
      · have hprevious := toInt_sub_one (show 0 < b.position.toInt by omega)
        show (b.position - 1).toInt < 0 ∨ (b.position - 1).toInt > _
        omega
    · unfold PlainTextOperationsManager.transformAgainst transformDeleteAgainstDelete
      simp only [InRange, OutOfRange, Int32.lt_iff_toInt_lt, gt_iff_lt] at *
      split_ifs with hlt hgt
      · omega
      · have hprevious := toInt_sub_one (show 0 < b.position.toInt by omega)
        show (b.position - 1).toInt < 0 ∨ (b.position - 1).toInt ≥ _
        omega
      · omega
    · exact hout.elim
  · obtain rfl : content = content' := Option.some.inj hact
    rcases h with b | b | b
    · exact hout
    · exact hout
    · exact hout.elim

/-! ## Undisturbed operations -/

/-- The symbol stands at the index. -/
def HasSymbol (content : Text) (symbol : Symbol) (k : ℤ) : Prop :=
  0 ≤ k ∧ content[k.toNat]? = some symbol

/-- The symbol stands wherever something `width` symbols wide at `p` passes on its way to
`p + d`. -/
def SameAlong (content : Text) (symbol : Symbol) (p d width : ℤ) : Prop :=
  ∀ k, p ≤ k ∧ k < p + d + width ∨ p + d ≤ k ∧ k < p + width → HasSymbol content symbol k

/-- Moved by `d`, an insertion passes only symbols equal to its own, and a deletion stands
only on such symbols. -/
def SameSymbols (content : Text) (d : ℤ) : PlainTextSingleCharacterOperation → Prop
  | .insert operation => SameAlong content operation.symbol operation.position.toInt d 0
  | .delete operation => SameAlong content operation.symbol operation.position.toInt d 1
  | .identity _ => True

/-- An operation that changes the content performs its edit. -/
theorem applyTo_eq_ok_iff (hne : content' ≠ content) :
    operation.applyTo content = .ok content' ↔
      NonNegative operation ∧ (toEdit operation).act content = some content' := by
  constructor
  · intro happly
    have hin : InRange content operation := by
      refine (inRange_or_outOfRange happly).resolve_right fun hout => hne ?_
      exact Except.ok.inj (happly.symm.trans hout.applyTo)
    exact ⟨(inRange_iff.1 hin).1, hin.applyTo_iff.1 happly⟩
  · rintro ⟨h0, hact⟩
    exact (inRange_of_act h0 hact).applyTo_iff.2 hact

theorem shift_le (h : PlainTextSingleCharacterOperation) : -1 ≤ shift h ∧ shift h ≤ 1 := by
  rcases h with b | b | b <;> simp only [shift]
  · split_ifs <;> omega
  · split_ifs <;> omega
  · omega

theorem applyTo_ne (hin : InRange content operation)
    (happly : operation.applyTo content = .ok content') :
    (∃ identity, operation = .identity identity) ∨ content' ≠ content := by
  have hact := hin.applyTo_iff.1 happly
  rcases operation with a | a | a
  · obtain ⟨hi, rfl⟩ := Edit.act_insert_eq_some.1 hact
    have hlen := List.length_insertIdx_of_le_length hi a.symbol
    exact .inr fun heq => by rw [heq] at hlen; omega
  · obtain ⟨hget, rfl⟩ := Edit.act_delete_eq_some.1 hact
    obtain ⟨hi, -⟩ := List.getElem?_eq_some_iff.1 hget
    have hlen := List.length_eraseIdx_of_lt hi
    exact .inr fun heq => by rw [heq] at hlen; omega
  · exact .inl ⟨a, rfl⟩

theorem HasSymbol.range {symbol : Symbol} {k : ℤ} (hk : HasSymbol content symbol k) :
    0 ≤ k ∧ k < content.length := by
  obtain ⟨h0, hget⟩ := hk
  have := (List.getElem?_eq_some_iff.1 hget).1
  omega

theorem hasSymbol_natCast {symbol : Symbol} {i : ℕ} :
    HasSymbol content symbol i ↔ content[i]? = some symbol :=
  and_iff_right (Int.natCast_nonneg i)

section Moved

variable {d : ℤ} (hfits : content.length ≤ intMaxValue) (hd : -1 ≤ d ∧ d ≤ 1)
include hfits hd

/-- Moved by at most one, an insertion makes the same text only beside its own symbol. -/
theorem applyTo_moveBy_insert {insertion : InsertOperation}
    (hin : InRange content (.insert insertion))
    (happly : (PlainTextSingleCharacterOperation.insert insertion).applyTo content =
      .ok content') :
    (moveBy d (.insert insertion)).applyTo content = .ok content' ↔
      SameSymbols content d (.insert insertion) := by
  have hne : content' ≠ content := (applyTo_ne hin happly).resolve_left (by simp)
  obtain ⟨hi, rfl⟩ := Edit.act_insert_eq_some.1 ((applyTo_eq_ok_iff hne).1 happly).2
  obtain ⟨i, hpos⟩ := Int.eq_ofNat_of_zero_le hin.1
  have hindex : index insertion.position = i := by rw [index, hpos]; rfl
  have hmove := toInt_add_ofInt (p := insertion.position) (d := d) (by omega) hd
  rw [applyTo_eq_ok_iff hne]
  simp only [NonNegative, moveBy, toEdit, SameSymbols, SameAlong, hpos, hindex] at *
  by_cases hneg : (insertion.position + .ofInt d).toInt < 0
  · -- below zero the insertion does nothing, and there is no symbol to move past
    refine iff_of_false (fun hmoved => absurd hmoved.1 (by omega)) fun hsame => ?_
    have := (hsame (min i (i + d)) (by omega)).range
    omega
  obtain ⟨j, hj⟩ := Int.eq_ofNat_of_zero_le (by omega : 0 ≤ (i : ℤ) + d)
  have hindex' : index (insertion.position + .ofInt d) = j := by
    simp only [index]
    omega
  rw [hindex', and_iff_right (by omega)]
  obtain rfl | rfl | rfl : j + 1 = i ∨ j = i ∨ j = i + 1 := by omega
  · rw [Edit.act_insert_pred_iff hi, ← hasSymbol_natCast]
    refine ⟨fun hsym k hk => ?_, fun hsame => hsame j (by omega)⟩
    obtain rfl : k = j := by omega
    exact hsym
  · refine iff_of_true (Edit.act_insert_eq_some.2 ⟨hi, rfl⟩) fun k hk => ?_
    omega
  · rw [Edit.act_insert_succ_iff, ← hasSymbol_natCast]
    refine ⟨fun hsym k hk => ?_, fun hsame => hsame i (by omega)⟩
    obtain rfl : k = i := by omega
    exact hsym

/-- Moved by at most one, a deletion makes the same text exactly if it finds its symbol. -/
theorem applyTo_moveBy_delete {deletion : DeleteOperation}
    (hin : InRange content (.delete deletion))
    (happly : (PlainTextSingleCharacterOperation.delete deletion).applyTo content =
      .ok content') :
    (moveBy d (.delete deletion)).applyTo content = .ok content' ↔
      SameSymbols content d (.delete deletion) := by
  have hne : content' ≠ content := (applyTo_ne hin happly).resolve_left (by simp)
  obtain ⟨hi, rfl⟩ := Edit.act_delete_eq_some.1 ((applyTo_eq_ok_iff hne).1 happly).2
  obtain ⟨i, hpos⟩ := Int.eq_ofNat_of_zero_le hin.1
  have hindex : index deletion.position = i := by rw [index, hpos]; rfl
  have hmove := toInt_add_ofInt (p := deletion.position) (d := d) (by omega) hd
  rw [applyTo_eq_ok_iff hne]
  simp only [NonNegative, moveBy, toEdit, SameSymbols, SameAlong, hpos, hindex] at *
  by_cases hneg : (deletion.position + .ofInt d).toInt < 0
  · refine iff_of_false (fun hmoved => absurd hmoved.1 (by omega)) fun hsame => ?_
    have := (hsame (i + d) (by omega)).range
    omega
  obtain ⟨j, hj⟩ := Int.eq_ofNat_of_zero_le (by omega : 0 ≤ (i : ℤ) + d)
  have hindex' : index (deletion.position + .ofInt d) = j := by
    simp only [index]
    omega
  rw [hindex', and_iff_right (by omega)]
  have hboth : (∀ k : ℤ, i ≤ k ∧ k < i + d + 1 ∨ i + d ≤ k ∧ k < i + 1 →
      HasSymbol content deletion.symbol k) ↔ content[j]? = some deletion.symbol := by
    rw [← hasSymbol_natCast]
    refine ⟨fun hsame => hsame j (by omega), fun hsym k hk => ?_⟩
    obtain rfl | rfl : k = i ∨ k = j := by omega
    · exact hasSymbol_natCast.2 hi
    · exact hsym
  rw [hboth]
  obtain rfl | rfl | rfl : j + 1 = i ∨ j = i ∨ j = i + 1 := by omega
  · exact Edit.act_delete_pred_iff hi
  · exact iff_of_true (Edit.act_delete_eq_some.2 ⟨hi, rfl⟩) hi
  · exact Edit.act_delete_succ_iff hi

/-- Moved by at most one, an operation in range makes the same text exactly if it passes only
symbols equal to its own. -/
theorem applyTo_moveBy_iff (hin : InRange content operation)
    (happly : operation.applyTo content = .ok content') :
    (moveBy d operation).applyTo content = .ok content' ↔ SameSymbols content d operation := by
  rcases operation with insertion | deletion | identity
  · exact applyTo_moveBy_insert hfits hd hin happly
  · exact applyTo_moveBy_delete hfits hd hin happly
  · exact iff_of_true happly trivial

omit hd hfits in
theorem SameAlong.chain {symbol : Symbol} {p e width : ℤ} (hwidth : 0 ≤ width)
    (hfirst : SameAlong content symbol p d width) :
    SameAlong content symbol (p + d) e width ↔ SameAlong content symbol p (d + e) width := by
  constructor
  · intro hrest k hk
    by_cases hpassed : p ≤ k ∧ k < p + d + width ∨ p + d ≤ k ∧ k < p + width
    · exact hfirst k hpassed
    · exact hrest k (by omega)
  · intro hall k hk
    by_cases hpassed : p ≤ k ∧ k < p + d + width ∨ p + d ≤ k ∧ k < p + width
    · exact hfirst k hpassed
    · exact hall k (by omega)

theorem SameAlong.toInt_eq {symbol : Symbol} {p : Int32} {width : ℤ} (hwidth : 0 ≤ width)
    (h0 : 0 ≤ p.toInt) (hsame : SameAlong content symbol p.toInt d width) :
    (p + .ofInt d).toInt = p.toInt + d := by
  refine (toInt_add_ofInt (by omega) hd).resolve_right fun hwrap => ?_
  have hlt := p.toInt_lt
  simp only [intMaxValue] at hwrap hfits
  have := (hsame p.toInt (by omega)).range
  omega

/-- Moved past symbols equal to its own, an operation can move on as from its old place. -/
theorem sameSymbols_moveBy (hin : InRange content operation)
    (hsame : SameSymbols content d operation) (e : ℤ) :
    SameSymbols content e (moveBy d operation) ↔ SameSymbols content (d + e) operation := by
  rcases operation with insertion | deletion | identity
  · have hto := SameAlong.toInt_eq hfits hd le_rfl hin.1 hsame
    simp only [SameSymbols, moveBy, hto] at *
    exact hsame.chain le_rfl
  · have hto := SameAlong.toInt_eq hfits hd Int.one_nonneg hin.1 hsame
    simp only [SameSymbols, moveBy, hto] at *
    exact hsame.chain Int.one_nonneg
  · rfl

end Moved

/-- An operation with the same result as one in range is in range. -/
theorem inRange_moveBy {d : ℤ} (hin : InRange content operation)
    (happly : operation.applyTo content = .ok content')
    (hmoved : (moveBy d operation).applyTo content = .ok content') :
    InRange content (moveBy d operation) := by
  obtain ⟨identity, rfl⟩ | hne := applyTo_ne hin happly
  · trivial
  · exact (inRange_or_outOfRange hmoved).resolve_right fun hout =>
      hne (Except.ok.inj (hmoved.symm.trans hout.applyTo))

theorem sameSymbols_zero (hin : InRange content operation) : SameSymbols content 0 operation := by
  rcases operation with insertion | deletion | identity
  · intro k hk
    omega
  · intro k hk
    obtain rfl : k = deletion.position.toInt := by omega
    exact hin
  · trivial

theorem forall_prefix_cons {α : Type} {a : α} {l : List α} {P : List α → Prop} :
    (∀ before, before <+: a :: l → P before) ↔ P [] ∧ ∀ before, before <+: l → P (a :: before) := by
  constructor
  · intro h
    exact ⟨h [] (List.nil_prefix), fun before hbefore =>
      h _ ((List.prefix_cons_inj a).2 hbefore)⟩
  · rintro ⟨hnil, hcons⟩ before hbefore
    obtain rfl | ⟨rest, rfl, hrest⟩ := List.prefix_cons_iff.1 hbefore
    · exact hnil
    · exact hcons rest hrest

/-- Received operations out of range leave the result of an operation in range alone, however
many of them have come, exactly if it drifts only among symbols equal to its own. -/
theorem applyTo_transformAgainstEach_iff (hfits : content.length ≤ intMaxValue) :
    ∀ {received : List PlainTextSingleCharacterOperation}
      {operation : PlainTextSingleCharacterOperation},
      (∀ h ∈ received, OutOfRange content h) → InRange content operation →
      operation.applyTo content = .ok content' →
      ((∀ before, before <+: received → (transformAgainstEach before operation
          plainTextOperationsManager).applyTo content = .ok content') ↔
        ∀ before, before <+: received → SameSymbols content (drift before) operation)
  | [], operation, _, hin, happly => by
    simp only [List.prefix_nil, forall_eq]
    exact iff_of_true happly (sameSymbols_zero hin)
  | h :: received, operation, hout, hin, happly => by
    have hh := hout h List.mem_cons_self
    have hstep := applyTo_moveBy_iff hfits (shift_le h) hin happly
    have hcons : ∀ before, transformAgainstEach (h :: before) operation
        plainTextOperationsManager = transformAgainstEach before (moveBy (shift h) operation)
          plainTextOperationsManager := fun before => by
      rw [← transformAgainst_outOfRange hin hh]
      rfl
    rw [forall_prefix_cons, forall_prefix_cons,
      and_iff_right (show (transformAgainstEach [] operation _).applyTo content = _ from happly),
      and_iff_right (show SameSymbols content (drift []) operation from sameSymbols_zero hin)]
    simp only [hcons, drift]
    by_cases hsame : SameSymbols content (shift h) operation
    · have hmoved := hstep.2 hsame
      rw [applyTo_transformAgainstEach_iff hfits
        (fun g hg => hout g (List.mem_cons_of_mem h hg)) (inRange_moveBy hin happly hmoved) hmoved]
      simp only [sameSymbols_moveBy hfits (shift_le h) hin hsame]
    · refine iff_of_false (fun hall => hsame (hstep.1 (hall [] (List.nil_prefix)))) fun hall => ?_
      exact hsame (by simpa [drift] using hall [] (List.nil_prefix))

/-- However many received operations out of range have come, an operation in range makes
the same text, and they stay no-ops after it, exactly if it drifts only among symbols equal to
its own. -/
theorem undisturbed_iff_sameSymbols {received : List PlainTextSingleCharacterOperation}
    (hfits : content.length ≤ intMaxValue) (hreceived : ∀ h ∈ received, OutOfRange content h)
    (hin : InRange content operation) (happly : operation.applyTo content = .ok content') :
    (∀ before, before <+: received →
      (transformAgainstEach before operation plainTextOperationsManager).applyTo content =
          .ok content' ∧
        ∀ h ∈ before, (transformAgainst h operation).applyTo content' = .ok content') ↔
      ∀ before, before <+: received → SameSymbols content (drift before) operation := by
  rw [← applyTo_transformAgainstEach_iff hfits hreceived hin happly]
  refine ⟨fun hall before hbefore => (hall before hbefore).1, fun hall before hbefore =>
    ⟨hall before hbefore, fun h hh => ?_⟩⟩
  exact ((hreceived h (hbefore.subset hh)).transformAgainst hin happly).applyTo

/-- An insertion between two equal letters drifts before them, past one of them. -/
theorem undisturbed_iff_sameSymbols_twins :
    (transformAgainstEach [.delete ⟨"h1", -3, 120⟩, .insert ⟨"h2", 5, 98⟩]
      (.insert ⟨"o", 1, 97⟩) plainTextOperationsManager).applyTo [97, 97] =
        .ok [97, 97, 97] := by
  have hdrift : ∀ before, before <+: [.delete ⟨"h1", -3, 120⟩, .insert ⟨"h2", 5, 98⟩] →
      SameSymbols [97, 97] (drift before) (.insert ⟨"o", 1, 97⟩) := by
    intro before hbefore k hk
    have hone : (1 : Int32).toInt = 1 := rfl
    have hzero : k = 0 := by
      simp only [List.prefix_cons_iff, List.prefix_nil] at hbefore
      obtain rfl | ⟨_, rfl, rfl | ⟨_, rfl, rfl⟩⟩ := hbefore <;> simp [drift, shift] at hk <;> omega
    subst hzero
    exact ⟨le_rfl, rfl⟩
  exact (((undisturbed_iff_sameSymbols (by decide) (by decide) (by decide) rfl).2 hdrift) _
    (List.prefix_refl _)).1

/-- An insertion at −1 does nothing to the text, and the insertion transformed against it goes
between the letters instead of before them. -/
theorem insertion_disturbed :
    OutOfRange [97, 98] (.insert ⟨"h", -1, 120⟩) ∧ InRange [97, 98] (.insert ⟨"o", 0, 121⟩) ∧
      (PlainTextSingleCharacterOperation.insert ⟨"o", 0, 121⟩).applyTo [97, 98] =
        .ok [121, 97, 98] ∧
      (transformAgainstEach [.insert ⟨"h", -1, 120⟩] (.insert ⟨"o", 0, 121⟩)
        plainTextOperationsManager).applyTo [97, 98] = .ok [97, 121, 98] := by
  decide

end OtEditor
