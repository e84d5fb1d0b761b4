import DatalogPolicy.Dependency.Graph
import DatalogPolicy.Proofs.Formula.Equality
import DatalogPolicy.Proofs.Graph.Counts
import DatalogPolicy.Proofs.OrderedList

/-!
# Contributions of formulas

What a formula contributes to a dependency graph depends on what it says only:
equal formulas have the same contribution, for every selection that does not tell
equal literals apart.
-/

namespace DatalogPolicy

/-- The tests of a selection answer alike on equal literals. -/
def Selection.Respects (s : Selection) : Prop :=
  (∀ test ∈ s.heads, ∀ a b : Literal, (a == b) = true → test a = test b) ∧
  (∀ test ∈ s.body, ∀ a b : Literal, (a == b) = true → test a = test b)

theorem Selection.selects_ofContent {test : Option (Literal → Bool)}
    (h : ∀ t ∈ test, ∀ a b : Literal, (a == b) = true → t a = t b) :
    Literal.OfContent (Selection.selects test) := by
  intro a b hab
  cases test with
  | none => rfl
  | some t => exact h t rfl a b (Literal.beq_iff.2 hab)

/-- Selections without tests do not tell literals apart. -/
theorem Selection.respects_default (atoms : Bool) : Selection.Respects { atoms } :=
  ⟨fun _ h => absurd h (Option.not_mem_none _), fun _ h => absurd h (Option.not_mem_none _)⟩

namespace DependencyGraph

open OrderedList

variable {selection : Selection} {theory : Option String}

/-- The pair of a modal and a table for which a head counts. -/
def modalPair? (p : Literal × String) : Option ModalTable :=
  p.1.table.modal.map (⟨·, p.2⟩)

private theorem foldl_modals_holds (tables : List (Literal × String)) {index : ModalIndex}
    {s : Multiset ModalTable} (h : index.counts.Holds s) :
    (tables.foldl
      (fun index (l, table) =>
        match l.table.modal with
        | some modal => index.add ⟨modal, table⟩
        | none => index)
      index).counts.Holds (s + ↑(tables.filterMap modalPair?)) := by
  induction tables generalizing index s with
  | nil => simpa using h
  | cons p rest ih =>
      obtain ⟨l, table⟩ := p
      simp only [List.foldl_cons, List.filterMap_cons, modalPair?]
      cases l.table.modal with
      | none => exact ih h
      | some modal =>
          have hadd : (index.add ⟨modal, table⟩).counts.Holds (⟨modal, table⟩ ::ₘ s) :=
            h.add_one _
          have hrest := ih hadd
          rwa [Multiset.cons_add, ← Multiset.add_cons, Multiset.cons_coe] at hrest

/-- The modal index of some tables holds their pairs of a modal and a table. -/
theorem modalsOf_holds (tables : List (Literal × String)) :
    (modalsOf tables).counts.Holds ↑(tables.filterMap modalPair?) := by
  have hempty : (ModalIndex.counts {}).Holds 0 := Counts.Holds.empty
  have h := foldl_modals_holds tables hempty
  rwa [zero_add] at h

theorem modalsOf_congr {xs ys : List (Literal × String)}
    (h : (xs.filterMap modalPair?).Perm (ys.filterMap modalPair?)) :
    modalsOf xs = modalsOf ys := by
  have hx := modalsOf_holds xs
  rw [Multiset.coe_eq_coe.2 h] at hx
  exact congrArg ModalIndex.mk (hx.unique (modalsOf_holds ys))

theorem mem_ruleNodes {headToBody : Bool} {r : Rule} {n : String} :
    n ∈ (contribution headToBody selection theory (.rule r)).nodes ↔
      ∃ t ∈ (headTables selection theory r).map Prod.snd,
        n = t ∨ n ∈ (bodyLiterals selection r).map (·.tableName theory) := by
  simp only [contribution, mem_ofTexts, List.mem_flatMap, List.mem_cons,
    List.mem_map (f := Prod.snd), exists_exists_and_eq_and]

theorem mem_ruleEdges {headToBody : Bool} {r : Rule} {e : Edge} :
    e ∈ (contribution headToBody selection theory (.rule r)).edges ↔
      ∃ t ∈ (headTables selection theory r).map Prod.snd,
        e ∈ (bodyLiterals selection r).map (edge headToBody theory t) := by
  simp only [contribution, mem_ofList, List.mem_flatMap, List.mem_map (f := Prod.snd),
    exists_exists_and_eq_and]

theorem tableName_ofContent (theory : Option String) :
    Literal.OfContent (Literal.tableName theory) :=
  fun a b h => congrArg (TableName.name theory) (Literal.OfContent.table a b h)

theorem edge_ofContent (headToBody : Bool) (theory : Option String) (t : String) :
    Literal.OfContent (edge headToBody theory t) := by
  intro a b h
  simp only [edge, tableName_ofContent theory a b h, Literal.OfContent.negated a b h]

section Congr

variable {a b : Rule} (theory : Option String) (hs : selection.Respects) (hab : (a == b) = true)

include hs hab

theorem headTables_perm :
    ((headTables selection theory a).map Prod.snd).Perm
      ((headTables selection theory b).map Prod.snd) := by
  simp only [headTables, List.map_map]
  exact (Rule.heads_sayAlike hab).map_filter_perm (Selection.selects_ofContent hs.1)
    fun x y hxy => congrArg (TableName.globalName theory) (Literal.OfContent.table x y hxy)

omit theory in
theorem bodyLiterals_perm {β : Type} {f : Literal → β} (hf : Literal.OfContent f) :
    ((bodyLiterals selection a).map f).Perm ((bodyLiterals selection b).map f) :=
  (Rule.body_sayAlike hab).map_filter_perm (Selection.selects_ofContent hs.2) hf

theorem headModals_perm :
    ((headTables selection theory a).filterMap modalPair?).Perm
      ((headTables selection theory b).filterMap modalPair?) := by
  have hentry (r : Rule) : (headTables selection theory r).filterMap modalPair? =
      ((r.heads.filter (Selection.selects selection.heads)).map fun l =>
        modalPair? (l, l.table.globalName theory)).filterMap id := by
    simp only [headTables, List.filterMap_map]
    rfl
  rw [hentry, hentry]
  apply List.Perm.filterMap
  apply (Rule.heads_sayAlike hab).map_filter_perm (Selection.selects_ofContent hs.1)
  intro x y hxy
  simp only [modalPair?, Literal.OfContent.table x y hxy]

end Congr

/-- Equal formulas contribute the same. -/
theorem contribution_congr (headToBody : Bool) (hs : selection.Respects) {f g : Formula}
    (h : (f == g) = true) :
    contribution headToBody selection theory f = contribution headToBody selection theory g := by
  cases f with
  | literal a =>
      cases g with
      | rule b => exact absurd h Bool.false_ne_true
      | literal b =>
          have hab : a.content = b.content := Literal.beq_iff.1 h
          have ht := Literal.OfContent.table a b hab
          have hn := Literal.OfContent.negated a b hab
          have hm : modalsOf [(a, b.table.globalName theory)] =
              modalsOf [(b, b.table.globalName theory)] := by
            apply modalsOf_congr
            simp only [List.filterMap_cons, modalPair?, ht, List.Perm.refl]
          have hatom : a.isAtom = b.isAtom := congrArg not hn
          simp only [contribution]
          rw [hatom, ht, hm]
  | rule a =>
      cases g with
      | literal b => exact absurd h Bool.false_ne_true
      | rule b =>
          have hheads := headTables_perm theory hs h
          have hnames := bodyLiterals_perm hs h (tableName_ofContent theory)
          have htables (t : String) := bodyLiterals_perm hs h
            (edge_ofContent headToBody theory t)
          have hmodals : modalsOf (headTables selection theory a) =
              modalsOf (headTables selection theory b) :=
            modalsOf_congr (headModals_perm theory hs h)
          simp only [contribution, Contribution.mk.injEq]
          refine ⟨?_, ?_, hmodals⟩
          · apply ofTexts_congr
            intro n
            have hn : n ∈ (contribution headToBody selection theory (.rule a)).nodes ↔
                n ∈ (contribution headToBody selection theory (.rule b)).nodes := by
              simp only [mem_ruleNodes, hheads.mem_iff, hnames.mem_iff]
            simpa only [contribution, mem_ofTexts] using hn
          · apply ofList_congr
            intro e
            have he : e ∈ (contribution headToBody selection theory (.rule a)).edges ↔
                e ∈ (contribution headToBody selection theory (.rule b)).edges := by
              simp only [mem_ruleEdges, hheads.mem_iff, (htables _).mem_iff]
            simpa only [contribution, mem_ofList] using he

theorem modals_positive (selection : Selection) (theory : Option String) (headToBody : Bool)
    (f : Formula) :
    (contribution headToBody selection theory f).modals.counts.Positive := by
  cases f with
  | literal l =>
      rw [contribution]
      split
      · exact (modalsOf_holds _).positive
      · exact Counts.positive_empty
  | rule r => exact (modalsOf_holds _).positive

theorem nodup_nodes (headToBody : Bool) (f : Formula) :
    (contribution headToBody selection theory f).nodes.Nodup := by
  cases f with
  | literal l =>
      rw [contribution]
      split
      · exact List.nodup_singleton _
      · exact List.nodup_nil
  | rule r => exact nodup_ofList _

theorem nodup_edges (headToBody : Bool) (f : Formula) :
    (contribution headToBody selection theory f).edges.Nodup := by
  cases f with
  | literal l =>
      rw [contribution]
      split <;> exact List.nodup_nil
  | rule r => exact nodup_ofList _

end DependencyGraph

end DatalogPolicy
