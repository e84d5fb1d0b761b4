import DatalogPolicy.Proofs.Formula.LawfulOrder
import DatalogPolicy.Proofs.Safety.Acceptance

/-!
# Classes of equal formulas

Nearly every class of formulas looks at the number of heads and at all of them, so equal formulas
are in the same classes. Results are the exception: only the first head tells them, and equal
rules may begin with different heads. Some order of the heads makes a rule a result exactly if
one of its heads is over the table of results.
-/

namespace DatalogPolicy

/-- Whether the table of a literal is the table of results. -/
def Literal.isOverResults (l : Literal) : Bool := TableName.isResultText l.table.table

theorem Literal.OfContent.isAtom : OfContent Literal.isAtom := fun a b h =>
  congrArg not (negated a b h)

theorem Literal.OfContent.isOverResults : OfContent Literal.isOverResults := fun a b h =>
  congrArg (fun t : TableName => TableName.isResultText t.table) (table a b h)

namespace Rule

variable {r s : Rule}

/-- Rules with one head are updates alike. -/
theorem isUpdate_congr (h : (r == s) = true) (hone : r.heads.length = 1) :
    r.isUpdate = s.isUpdate := by
  obtain ⟨l, hl⟩ := List.length_eq_one_iff.1 hone
  obtain ⟨m, hm⟩ := List.length_eq_one_iff.1 ((heads_sayAlike h).length_eq ▸ hone)
  have hr : r.head = l := List.mem_singleton.1 (hl ▸ List.head_mem r.heads_ne)
  have hs : s.head = m := List.mem_singleton.1 (hm ▸ List.head_mem s.heads_ne)
  have hsame : Literal.SayAlike [l] [m] := hl ▸ hm ▸ heads_sayAlike h
  have hcontent : l.content = m.content := List.singleton_perm_singleton.1 hsame
  rw [isUpdate, isUpdate, hr, hs]
  exact congrArg TableName.isUpdate (Literal.OfContent.table l m hcontent)

/-- The heads of a rule can be written in an order that begins with any of them. -/
theorem exists_head_eq {l : Literal} (hl : l ∈ r.heads) :
    ∃ s : Rule, (r == s) = true ∧ s.head = l := by
  obtain ⟨before, after, hsplit⟩ := List.append_of_mem hl
  refine ⟨{ r with heads := l :: (before ++ after), heads_ne := List.cons_ne_nil _ _ }, ?_, rfl⟩
  refine beq_iff_sayAlike.2 ⟨?_, List.Perm.refl _⟩
  rw [hsplit]
  exact List.perm_middle.map _

end Rule

namespace Formula

variable {f g : Formula}

/-- Two formulas are in the same classes, results apart. -/
structure ClassifiedAlike (f g : Formula) : Prop where
  isAtom_eq : f.isAtom = g.isAtom
  isLiteral_eq : f.isLiteral = g.isLiteral
  isRule_eq : f.isRule = g.isRule
  isRegularRule_eq : f.isRegularRule = g.isRegularRule
  isMultiRule_eq : f.isMultiRule = g.isMultiRule
  isDatalog_eq : f.isDatalog = g.isDatalog
  isExtendedDatalog_eq : f.isExtendedDatalog = g.isExtendedDatalog
  isUpdate_eq : f.isUpdate = g.isUpdate

theorem classifiedAlike_literal {a b : Literal} (h : (a == b) = true) :
    ClassifiedAlike (.literal a) (.literal b) := by
  have hcontent := Literal.beq_iff.1 h
  have hatom : a.isAtom = b.isAtom := Literal.OfContent.isAtom a b hcontent
  have hupdate : a.isUpdate = b.isUpdate :=
    congrArg TableName.isUpdate (Literal.OfContent.table a b hcontent)
  constructor <;>
    simp only [isAtom, isLiteral, isRule, isRegularRule, isMultiRule, isDatalog, isExtendedDatalog,
      isUpdate, hatom, hupdate]

theorem classifiedAlike_rule {r s : Rule} (h : (r == s) = true) :
    ClassifiedAlike (.rule r) (.rule s) := by
  have hwidth := (Rule.heads_sayAlike h).length_eq
  have hatoms := (Rule.heads_sayAlike h).all_eq Literal.OfContent.isAtom
  have hregular : (Formula.rule r).isRegularRule = (Formula.rule s).isRegularRule := by
    simp only [isRegularRule, hwidth, hatoms]
  refine ⟨rfl, rfl, hatoms, hregular, ?_, hregular, hatoms, ?_⟩
  · simp only [isMultiRule, hwidth, hatoms]
  · -- only rules with one head are updates
    rw [isUpdate, isUpdate, ← hregular]
    by_cases hone : r.heads.length = 1
    · rw [Rule.isUpdate_congr h hone]
    · simp only [isRegularRule, hone, false_and, decide_false, Bool.false_and]

theorem ClassifiedAlike.of_beq (h : (f == g) = true) : f.ClassifiedAlike g := by
  cases f with
  | literal a =>
      cases g with
      | literal b => exact classifiedAlike_literal h
      | rule s => exact absurd h Bool.false_ne_true
  | rule r =>
      cases g with
      | literal b => exact absurd h Bool.false_ne_true
      | rule s => exact classifiedAlike_rule h

/-- A result is extended Datalog whose head is over the table of results. -/
theorem isResult_eq : f.isResult = (f.isExtendedDatalog && f.head.isOverResults) := by
  cases f with
  | literal l => simp only [isResult, isExtendedDatalog, isAtom, isRule, Bool.or_false]; rfl
  | rule r => simp only [isResult, isExtendedDatalog, isAtom, isRule, Bool.false_or]; rfl

theorem head_mem_stated : f.head ∈ f.stated := by
  cases f with
  | literal l => exact List.mem_singleton_self l
  | rule r => exact List.head_mem r.heads_ne

/-- The head of an equal formula says the same as something that is stated. -/
theorem exists_stated_of_beq (h : (f == g) = true) : ∃ l ∈ f.stated, l.content = g.head.content := by
  cases f with
  | literal a =>
      cases g with
      | literal b => exact ⟨a, List.mem_singleton_self a, Literal.beq_iff.1 h⟩
      | rule s => exact absurd h Bool.false_ne_true
  | rule r =>
      cases g with
      | literal b => exact absurd h Bool.false_ne_true
      | rule s => exact (Rule.heads_sayAlike h).symm.exists_mem (List.head_mem s.heads_ne)

/-- Whatever is stated is the head of some equal formula. -/
theorem exists_beq_head_eq {l : Literal} (hl : l ∈ f.stated) :
    ∃ g : Formula, (f == g) = true ∧ g.head = l := by
  cases f with
  | literal a => exact ⟨.literal a, BEq.rfl, (List.mem_singleton.1 hl).symm⟩
  | rule r =>
      obtain ⟨s, hs, hhead⟩ := Rule.exists_head_eq hl
      exact ⟨.rule s, hs, hhead⟩

/-- Whether an equal formula is a result is told by its head. -/
theorem isResult_of_beq (h : (f == g) = true) :
    g.isResult = (f.isExtendedDatalog && g.head.isOverResults) := by
  rw [isResult_eq, (ClassifiedAlike.of_beq h).isExtendedDatalog_eq]

/-- Some equal formula is a result exactly if something that is stated is over the table of
results. -/
theorem exists_isResult_iff : (∃ g, (f == g) = true ∧ g.isResult = true) ↔
    f.isExtendedDatalog = true ∧ ∃ l ∈ f.stated, l.isOverResults = true := by
  constructor
  · rintro ⟨g, h, hg⟩
    rw [isResult_of_beq h, Bool.and_eq_true] at hg
    obtain ⟨l, hl, hsame⟩ := exists_stated_of_beq h
    exact ⟨hg.1, l, hl, (Literal.OfContent.isOverResults l g.head hsame).trans hg.2⟩
  · rintro ⟨hextended, l, hl, hover⟩
    obtain ⟨g, h, rfl⟩ := exists_beq_head_eq hl
    refine ⟨g, h, ?_⟩
    rw [isResult_of_beq h, hextended, hover]
    rfl

/-- All equal formulas are results alike exactly if all that is stated agrees in being over the
table of results. -/
theorem isResult_congr_iff : (∀ g, (f == g) = true → f.isResult = g.isResult) ↔
    (f.isExtendedDatalog = true →
      ∀ a ∈ f.stated, ∀ b ∈ f.stated, a.isOverResults = b.isOverResults) := by
  constructor
  · intro hagree hextended a ha b hb
    obtain ⟨g, hg, rfl⟩ := exists_beq_head_eq ha
    obtain ⟨g', hg', rfl⟩ := exists_beq_head_eq hb
    have heq : g.isResult = g'.isResult := (hagree g hg).symm.trans (hagree g' hg')
    rwa [isResult_of_beq hg, isResult_of_beq hg', hextended, Bool.true_and, Bool.true_and] at heq
  · intro hstated g h
    rw [isResult_of_beq h, isResult_eq]
    cases hextended : f.isExtendedDatalog with
    | false => rfl
    | true =>
        obtain ⟨l, hl, hsame⟩ := exists_stated_of_beq h
        rw [hstated hextended f.head head_mem_stated l hl,
          Literal.OfContent.isOverResults l g.head hsame]

/-- Equal formulas are in the same classes, except that they need not be results alike. They are
so exactly if the formula is not extended Datalog or all that it states agrees in being over the
table of results; and some equal formula is a result exactly if the formula is extended Datalog
and states something over that table. -/
theorem classification_congr (f : Formula) :
    (∀ g, (f == g) = true → f.ClassifiedAlike g) ∧
    ((∀ g, (f == g) = true → f.isResult = g.isResult) ↔ (f.isExtendedDatalog = true →
      ∀ a ∈ f.stated, ∀ b ∈ f.stated, a.isOverResults = b.isOverResults)) ∧
    ((∃ g, (f == g) = true ∧ g.isResult = true) ↔
      f.isExtendedDatalog = true ∧ ∃ l ∈ f.stated, l.isOverResults = true) :=
  ⟨fun _ h => .of_beq h, isResult_congr_iff, exists_isResult_iff⟩

/-- The rule `p(x), result(x) :- q(x)`. -/
def resultBehind : Formula :=
  .rule {
    heads := [
      { table := { table := "p" }, arguments := [⟨.var "x", none⟩] },
      { table := { table := "result" }, arguments := [⟨.var "x", none⟩] }]
    body := [{ table := { table := "q" }, arguments := [⟨.var "x", none⟩] }]
    heads_ne := List.cons_ne_nil _ _ }

/-- The rule `result(x), p(x) :- q(x)`. -/
def resultInFront : Formula :=
  .rule {
    heads := [
      { table := { table := "result" }, arguments := [⟨.var "x", none⟩] },
      { table := { table := "p" }, arguments := [⟨.var "x", none⟩] }]
    body := [{ table := { table := "q" }, arguments := [⟨.var "x", none⟩] }]
    heads_ne := List.cons_ne_nil _ _ }

/-- Of two equal rules that define the table of results only one is a result. -/
theorem isResult_resultBehind : (resultBehind == resultInFront) = true ∧
    resultBehind.isResult = false ∧ resultInFront.isResult = true :=
  ⟨Rule.beq_iff_sayAlike.2 ⟨List.Perm.swap _ _ [], List.Perm.refl _⟩, rfl, rfl⟩

end Formula

end DatalogPolicy
