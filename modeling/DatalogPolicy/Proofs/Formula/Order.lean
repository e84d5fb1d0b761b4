import DatalogPolicy.Proofs.Formula.Equality
import DatalogPolicy.Proofs.Number.Monotone

/-!
# Orders that agree with equality

Constants, terms and tables that compare as equal are the same, and so are the contents
of literals and of rules; rules that compare as equal are therefore equal rules. All of
these orders are transitive. For constants that needs rounding to keep the order, as an
integer and another number are compared by their nearest numbers.
-/

namespace DatalogPolicy

theorem Binary64.rank_injective : Function.Injective Binary64.rank := by
  rintro ⟨negative, magnitude, _⟩ ⟨negative', magnitude', _⟩ h
  simp only [rank] at h
  rw [mk.injEq]
  cases negative <;> cases negative' <;> simp at h ⊢ <;> omega

instance : Std.LawfulEqOrd Binary64 where
  compare_self := Std.ReflOrd.compare_self (α := Int)
  eq_of_compare h := Binary64.rank_injective (Std.LawfulEqOrd.eq_of_compare (α := Int) h)

instance : Std.LawfulEqOrd Value where
  compare_self {a} := by
    show Value.order a a = .eq
    cases a <;> simp [Value.order, Value.number?]
  eq_of_compare {a b} h := by
    change Value.order a b = .eq at h
    cases a <;> cases b <;> simp [Value.order, Value.number?, Value.kindRank] at h ⊢
    case int.int => exact Int64.toInt_inj.1 h
    all_goals exact h

section Constants

/-- The place of the nearest number of a constant, the same one for all texts. -/
def Value.nearestRank (v : Value) : Int := v.number?.elim 0 Binary64.rank

/-- The number of an integer, the same one for all other constants. -/
def Value.exactNumber : Value → Int
  | .int i => i.toInt
  | _ => 0

/-- The characters of a text, none for a number. -/
def Value.plainText : Value → String
  | .str s => s
  | _ => ""

/-- Integers stand as their nearest numbers do, apart from those with the same one. -/
theorem Value.compare_then_compare (i j : Int) :
    (compare (Binary64.ofInt i).rank (Binary64.ofInt j).rank).then (compare i j) = compare i j := by
  rcases Int.lt_trichotomy i j with hlt | rfl | hgt
  · rw [Int.compare_eq_lt.2 hlt]
    rcases (Binary64.rank_ofInt_mono hlt.le).lt_or_eq with hrank | hrank
    · rw [Int.compare_eq_lt.2 hrank, Ordering.lt_then]
    · rw [hrank, Std.ReflOrd.compare_self, Ordering.eq_then]
  · rw [Std.ReflOrd.compare_self, Std.ReflOrd.compare_self, Ordering.eq_then]
  · rw [Int.compare_eq_gt.2 hgt]
    rcases (Binary64.rank_ofInt_mono hgt.le).lt_or_eq with hrank | hrank
    · rw [Int.compare_eq_gt.2 hrank, Ordering.gt_then]
    · rw [hrank, Std.ReflOrd.compare_self, Ordering.eq_then]

/-- Constants are compared by one part after the other. -/
theorem Value.order_eq : Value.order =
    compareLex (compareOn fun v => v.number?.isNone) (compareLex (compareOn Value.nearestRank)
      (compareLex (compareOn Value.kindRank) (compareLex (compareOn Value.exactNumber)
        (compareOn Value.plainText)))) := by
  funext a b
  cases a <;> cases b <;>
    simp [Value.order, compareLex, compareOn, number?, nearestRank, kindRank, exactNumber, plainText]
  case int.int => exact (Value.compare_then_compare _ _).symm
  all_goals rfl

end Constants

instance : Std.TransOrd Value := by
  show Std.TransCmp Value.order
  rw [Value.order_eq]
  infer_instance

instance : Std.LawfulEqOrd Term where
  compare_self {a} := by
    show Term.order a a = .eq
    cases a <;> simp [Term.order]
  eq_of_compare {a b} h := by
    change Term.order a b = .eq at h
    cases a <;> cases b <;> simp [Term.order] at h ⊢
    all_goals exact h

/-- The constant that a term is. -/
def Term.value? : Term → Option Value
  | .var _ => none
  | .const v => some v

/-- Terms are compared by their constants, variables having none, and then by their names. -/
theorem Term.order_eq : Term.order =
    compareLex (compareOn Term.value?) (compareOn Term.varName?) := by
  funext s t
  cases s with
  | var x =>
      cases t with
      | var y => rfl
      | const w => rfl
  | const v =>
      cases t with
      | var y => rfl
      | const w => exact Ordering.then_eq.symm

instance : Std.TransOrd Term := by
  show Std.TransCmp Term.order
  rw [Term.order_eq]
  infer_instance

instance : Std.TransOrd TableName :=
  inferInstanceAs (Std.TransCmp (compareLex (compareOn TableName.modal)
    (compareLex (compareOn TableName.service) (compareOn TableName.table))))

instance : Std.LawfulEqOrd TableName where
  eq_of_compare {a b} h := by
    change compareLex (compareOn TableName.modal)
      (compareLex (compareOn TableName.service) (compareOn TableName.table)) a b = .eq at h
    simp only [compareLex_eq_eq, compareOn, Std.LawfulEqOrd.compare_eq_iff_eq] at h
    obtain ⟨modal, service, table⟩ := a
    rw [TableName.mk.injEq]
    exact h

instance : Std.TransOrd Literal.Content :=
  inferInstanceAs (Std.TransCmp (compareLex (compareOn Literal.Content.table)
    (compareLex (compareOn Literal.Content.negated)
      (compareLex (compareOn (·.arguments.length)) (compareOn Literal.Content.arguments)))))

instance : Std.LawfulEqOrd Literal.Content where
  eq_of_compare {a b} h := by
    change compareLex (compareOn Literal.Content.table)
      (compareLex (compareOn Literal.Content.negated)
        (compareLex (compareOn (·.arguments.length)) (compareOn Literal.Content.arguments))) a b =
          .eq at h
    simp only [compareLex_eq_eq, compareOn, Std.LawfulEqOrd.compare_eq_iff_eq] at h
    obtain ⟨table, negated, arguments⟩ := a
    rw [Literal.Content.mk.injEq]
    exact ⟨h.1, h.2.1, h.2.2.2⟩

instance : Std.TransOrd Rule.Content :=
  inferInstanceAs (Std.TransCmp (compareLex (compareOn (·.heads.length))
    (compareLex (compareOn (·.body.length))
      (compareLex (compareOn Rule.Content.heads) (compareOn Rule.Content.body)))))

instance : Std.LawfulEqOrd Rule.Content where
  eq_of_compare {a b} h := by
    change compareLex (compareOn (·.heads.length)) (compareLex (compareOn (·.body.length))
      (compareLex (compareOn Rule.Content.heads) (compareOn Rule.Content.body))) a b = .eq at h
    simp only [compareLex_eq_eq, compareOn, Std.LawfulEqOrd.compare_eq_iff_eq] at h
    obtain ⟨heads, body⟩ := a
    rw [Rule.Content.mk.injEq]
    exact h.2.2

namespace Rule

instance : Std.TransOrd Rule := inferInstanceAs (Std.TransCmp (compareOn Rule.content))

/-- Rules are equal when they compare as equal. -/
theorem beq_iff_compare {a b : Rule} : (a == b) = true ↔ compare a b = .eq := by
  rw [beq_iff]
  exact (Std.LawfulEqOrd.compare_eq_iff_eq (α := Content)).symm

/-- Rules that compare as equal are equal. -/
theorem beq_of_compare {a b : Rule} (h : compare a b = .eq) : (a == b) = true :=
  beq_iff_compare.2 h

end Rule

end DatalogPolicy
